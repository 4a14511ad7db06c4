import Ledge.Git.Fetch

/-!
# Ledge.Git.FetchFaults

**Reads that fail** while `handle_upload_pack` goes on. The walks pass over what they cannot read,
so a pack or a closure may come out short; it is answered as if it were whole, and kept in a cache,
where it outlives the failures (`short_answers_are_kept`).

`clone_sound_iff` says which failures a clone survives: everything that the wants lead to has to be
found and packed in spite of them, and everything that the tips lead to has to be found if the
closure is kept.
-/

namespace Ledge.Git

open Ledge.Core Ledge.RefStore Ledge.Objects Ledge.Lib List

/-- The pack has all that the wants lead to. -/
def WholePack (full : StoreView) (wants : Multiset Sha1) (objects : List TypedWrite) : Prop :=
  ∀ x, Stored full x → (∃ w ∈ wants, LeadsTo full w x) → ∃ o ∈ objects, Holds full x o

/-- The names include all that the tips lead to. -/
def WholeClosure (full : StoreView) (tips : Multiset Sha1) (names : List Sha1) : Prop :=
  ∀ x, (∃ tip ∈ tips, LeadsTo full tip x) → x ∈ names

/-- **Nothing in the caches is short.** -/
structure CachesWhole (cfg : FetchConfig) (full : StoreView) (caches : FetchCaches) : Prop where
  packsWF : ∀ packs ∈ caches.packs, Lru.WF cfg.packs packs
  packs : ∀ packs ∈ caches.packs, packs.All (fun key objects => WholePack full key.2 objects)
  closuresWF : Lru.WF cfg.closures caches.closures
  closures : caches.closures.All (fun key names => WholeClosure full key.2 names)

/-- One request of a segment. -/
structure FetchCall where
  env : FetchEnv
  segment : String
  request : UploadRequest

def FetchCall.run (cfg : FetchConfig) (c : FetchCall) (caches : FetchCaches) :
    UploadReply × FetchCaches :=
  handleUploadPack cfg c.env c.segment c.request caches

/-- An answer as it should be: what is reachable from the tips is not refused, and a clone is
whole. -/
structure Answered (full : StoreView) (c : FetchCall) (reply : UploadReply) : Prop where
  served : (∀ w ∈ c.request.wants, ∃ tip ∈ c.env.tips, LeadsTo full tip w) → ∀ bad,
    reply ≠ .notOurRef bad
  whole : c.request.IsClone → ∀ ack objects, reply = .pack ack objects →
    WholePack full c.request.wants objects

/-- All of these requests, one after the other, are answered as they should be. -/
def AllAnswered (cfg : FetchConfig) (full : StoreView) (caches : FetchCaches) : List FetchCall →
    Prop
  | [] => True
  | c :: calls =>
    Answered full c (c.run cfg caches).1 ∧ AllAnswered cfg full (c.run cfg caches).2 calls

section

variable {P : Primitives} {full seen : StoreView} {cfg : FetchConfig} {env : FetchEnv}
  {segment : String}
  {caches : FetchCaches} {x y : Sha1} {o : TypedWrite} {wants : List Sha1} {c : FetchCall}

/-! ### What is read in spite of failures -/

/-- A name that is looked up and read has its own content; a type that cannot be read is that of a
blob. -/
theorem content_of_objectAt (hhealthy : Healthy P full) (h : seen.FaultyOf full)
    (ho : objectAt seen x = some o) : ∃ o', Holds full x o' ∧ o'.content = o.content := by
  obtain ⟨id, hlookup, -⟩ := mem_sha1Map_of_objectAt ho
  have hindex : sha1Map seen = sha1Map full := by
    unfold sha1Map
    rcases h.sha1Index with hsame | ⟨e, herr⟩
    · rw [hsame]
    · rw [sha1Map, herr] at hlookup
      cases hlookup
  have hstored : Stored full x := by
    rw [Stored, ← hindex, hlookup]
    rfl
  obtain ⟨o', hholds, -⟩ := hhealthy.holds x hstored
  refine ⟨o', hholds, ?_⟩
  obtain ⟨id', hlookup', hread', -⟩ := hholds.named
  rw [hindex] at hlookup
  cases hlookup.symm.trans hlookup'
  unfold objectAt at ho
  rw [hindex, hlookup] at ho
  dsimp only at ho
  rcases h.read id with hsame | ⟨e, herr⟩
  · rw [hsame, hread'] at ho
    cases ho
    rfl
  · rw [herr] at ho
    cases ho

theorem Healthy.name_eq (h : Healthy P full) {o' : TypedWrite} (hx : Holds full x o)
    (hy : Holds full y o') (hcontent : o'.content = o.content) : y = x := by
  obtain ⟨id, -, hread, htype⟩ := hx.named
  obtain ⟨id', -, hread', htype'⟩ := hy.named
  have hid : id' = id := by
    rw [← h.addressed id _ hread, ← h.addressed id' _ hread', hcontent]
  rw [hid, htype] at htype'
  have heq : o' = o := TypedWrite.ext (Except.ok.inj htype').symm hcontent
  have hname := (h.holds_of_objectAt hx.objectAt).2
  have hname' := (h.holds_of_objectAt hy.objectAt).2
  rw [heq, hname] at hname'
  exact (Option.some.inj hname').symm

/-- The walk finds all that the tips lead to. -/
def FindsAll (seen full : StoreView) (tips : List Sha1) : Prop :=
  ∀ x, (∃ tip ∈ tips, LeadsTo full tip x) → ∃ tip ∈ tips, LeadsTo seen tip x

/-- The walk finds all that the wants lead to, and gets each object as it is. -/
def PacksAll (seen full : StoreView) (wants : List Sha1) : Prop :=
  ∀ x o, Holds full x o → (∃ w ∈ wants, LeadsTo full w x) →
    (∃ w ∈ wants, LeadsTo seen w x) ∧ objectAt seen x = some o

theorem findsAll_iff {tips : List Sha1} :
    FindsAll seen full tips ↔ WholeClosure full tips (reachableClosure seen tips) := by
  refine forall₂_congr fun x _ => ?_
  exact mem_reachableClosure.symm

/-- **Which failures leave a pack whole.** -/
theorem packsAll_iff (hhealthy : Healthy P full) (h : seen.FaultyOf full) :
    PacksAll seen full wants ↔ WholePack full wants (collectPackObjects seen wants [] .all) := by
  have hmem : ∀ o, o ∈ collectPackObjects seen wants [] .all ↔
      ∃ y, (∃ w ∈ wants, LeadsTo seen w y) ∧ objectAt seen y = some o := by
    intro o
    unfold collectPackObjects
    rw [mem_filterMap]
    refine exists_congr fun y => and_congr Graph.mem_sweep_nil ?_
    rw [packEntry_eq_some_iff]
    refine and_iff_left ?_
    rintro ⟨o', -, -, -, hadmits⟩
    cases hadmits
  constructor
  · intro hall x hstored hreach
    obtain ⟨o, hholds, -⟩ := hhealthy.holds x hstored
    exact ⟨o, (hmem o).mpr ⟨x, hall x o hholds hreach⟩, hholds⟩
  · intro hwhole x o hholds hreach
    obtain ⟨o', ho', hholds'⟩ := hwhole x (stored_of_objectAt hholds.objectAt) hreach
    cases hholds.objectAt.symm.trans hholds'.objectAt
    obtain ⟨y, hpath, hobject⟩ := (hmem o).mp ho'
    obtain ⟨o'', hy, hcontent⟩ := content_of_objectAt hhealthy h hobject
    obtain rfl := hhealthy.name_eq hholds hy hcontent
    exact ⟨hpath, hobject⟩

/-! ### Authorization -/

/-- The closure that the authorization walks over is whole, if it is kept. -/
def KeepsClosure (cfg : FetchConfig) (full : StoreView) (env : FetchEnv) (segment : String)
    (wants : List Sha1) (caches : FetchCaches) : Prop :=
  (∃ w ∈ wants, w ∉ env.tips) → caches.closures.map (uploadPackCacheKey segment env.tips) = none →
    Lru.Fits cfg.closures (reachableClosure env.authorize env.tips) →
      FindsAll env.authorize full env.tips

theorem CachesWhole.authorize (h : CachesWhole cfg full caches)
    (hkeeps : KeepsClosure cfg full env segment wants caches) :
    CachesWhole cfg full (authorizeWants cfg env segment wants caches).2 := by
  rcases authorizeWants_cases cfg env segment wants caches with
    ⟨-, heq⟩ | ⟨hmade, closure, closures, -, heq, ⟨hfound, rfl⟩ | ⟨hnone, rfl, rfl⟩⟩
  · rw [heq]
    exact h
  · rw [heq]
    exact ⟨h.packsWF, h.packs, h.closuresWF.get _, h.closures.get _⟩
  · rw [heq]
    refine ⟨h.packsWF, h.packs, (h.closuresWF.get _).put, ?_⟩
    refine (h.closures.get _).put (h.closuresWF.get _) fun hfits => ?_
    exact findsAll_iff.mp (hkeeps hmade hnone hfits)

theorem CachesWhole.authorized (h : CachesWhole cfg full caches)
    (hfinds : FindsAll env.authorize full env.tips)
    (hwants : ∀ w ∈ wants, ∃ tip ∈ env.tips, LeadsTo full tip w) :
    (authorizeWants cfg env segment wants caches).1 = none := by
  rcases authorizeWants_cases cfg env segment wants caches with
    ⟨-, heq⟩ | ⟨-, closure, closures, heq, -, hcase⟩
  · rw [heq]
  · have hwhole : WholeClosure full env.tips closure := by
      rcases hcase with ⟨hfound, -⟩ | ⟨-, rfl, -⟩
      · exact h.closures _ _ hfound
      · exact findsAll_iff.mp hfinds
    rw [heq, find?_eq_none]
    intro w hw
    have hin := hwhole w (hwants w (mem_of_mem_filter hw))
    simpa using hin

/-! ### Clones -/

theorem CachesWhole.clone (h : CachesWhole cfg full caches) (segment : String)
    (hhealthy : Healthy P full) (hfaulty : env.collect.FaultyOf full)
    (hpacks : (∀ packs ∈ caches.packs, packs.map (uploadPackCacheKey segment wants) = none) →
      PacksAll env.collect full wants) :
    CachesWhole cfg full (cloneReply cfg env segment wants caches).2 ∧
      ∃ objects, (cloneReply cfg env segment wants caches).1 = .pack none objects ∧
        WholePack full wants objects := by
  unfold cloneReply
  cases hcase : caches.packs with
  | none =>
    refine ⟨h, _, rfl, (packsAll_iff hhealthy hfaulty).mp (hpacks fun packs hmem => ?_)⟩
    rw [hcase] at hmem
    cases hmem
  | some packs =>
    have hfirst := packs.get_fst (uploadPackCacheKey segment wants)
    have hwf := h.packsWF packs hcase
    have hall := h.packs packs hcase
    have hwf' := hwf.get (uploadPackCacheKey segment wants)
    have hall' := hall.get (uploadPackCacheKey segment wants)
    dsimp only
    cases hget : packs.get (uploadPackCacheKey segment wants) with
    | mk found packs' =>
      rw [hget] at hfirst hwf' hall'
      cases found with
      | some objects =>
        refine ⟨⟨fun c hc => ?_, fun c hc => ?_, h.closuresWF, h.closures⟩, objects, rfl, ?_⟩
        · cases hc
          exact hwf'
        · cases hc
          exact hall'
        · exact hall _ _ hfirst.symm
      | none =>
        have hwhole : WholePack full wants (collectPackObjects env.collect wants [] .all) := by
          refine (packsAll_iff hhealthy hfaulty).mp (hpacks fun c hc => ?_)
          cases hcase.symm.trans hc
          exact hfirst.symm
        refine ⟨⟨fun c hc => ?_, fun c hc => ?_, h.closuresWF, h.closures⟩, _, rfl, hwhole⟩
        · cases hc
          exact hwf'.put
        · cases hc
          exact hall'.put hwf' fun _ => hwhole

/-- The pack is at hand, or all of it is found. -/
def KeepsPack (full : StoreView) (env : FetchEnv) (segment : String) (wants : List Sha1)
    (caches : FetchCaches) : Prop :=
  (∀ packs ∈ caches.packs, packs.map (uploadPackCacheKey segment wants) = none) →
    PacksAll env.collect full wants

theorem faultyOf_refl (full : StoreView) : full.FaultyOf full :=
  ⟨Or.inl rfl, fun _ => Or.inl rfl, fun _ => Or.inl rfl, fun _ => Or.inl rfl⟩

theorem packsAll_self (full : StoreView) (wants : List Sha1) : PacksAll full full wants :=
  fun _ _ hholds hreach => ⟨hreach, hholds.objectAt⟩

theorem findsAll_self (full : StoreView) (tips : List Sha1) : FindsAll full full tips :=
  fun _ hreach => hreach

/-- **Requests after the failures** are answered as they should be, if nothing in the caches is
short. -/
theorem CachesWhole.run (h : CachesWhole cfg full caches) (hhealthy : Healthy P full)
    (hsees : c.env.Sees full) :
    CachesWhole cfg full (c.run cfg caches).2 ∧ Answered full c (c.run cfg caches).1 := by
  have hfinds : FindsAll c.env.authorize full c.env.tips := by
    rw [hsees.authorize]
    exact findsAll_self full _
  have hkept : CachesWhole cfg full (authorizeWants cfg c.env c.segment c.request.wants caches).2 :=
    h.authorize fun _ _ _ => hfinds
  have hfaulty : c.env.collect.FaultyOf full := by
    rw [hsees.collect]
    exact faultyOf_refl full
  have hpacks : PacksAll c.env.collect full c.request.wants := by
    rw [hsees.collect]
    exact packsAll_self full _
  unfold FetchCall.run
  rcases handleUploadPack_cases cfg c.env c.segment caches c.request with
    ⟨bad, hrefused, hreply, hcaches⟩ | ⟨hnone, ⟨hclone, heq⟩ | ⟨hnot, hreply, hcaches⟩⟩
  · rw [hcaches]
    refine ⟨hkept, fun hwants => ?_, fun _ ack objects heq => ?_⟩
    · rw [h.authorized hfinds hwants] at hrefused
      cases hrefused
    · rw [hreply] at heq
      cases heq
  · obtain ⟨hwhole, objects, hpack, hobjects⟩ :=
      hkept.clone c.segment hhealthy hfaulty fun _ => hpacks
    rw [heq]
    refine ⟨hwhole, fun _ bad hbad => ?_, fun _ ack objects' heq' => ?_⟩
    · rw [hpack] at hbad
      cases hbad
    · rw [hpack] at heq'
      cases heq'
      exact hobjects
  · rw [hcaches]
    exact ⟨hkept, fun _ => hreply, fun hclone => absurd hclone hnot⟩

theorem CachesWhole.allAnswered (h : CachesWhole cfg full caches) (hhealthy : Healthy P full)
    {calls : List FetchCall} (hsees : ∀ c ∈ calls, c.env.Sees full) :
      AllAnswered cfg full caches calls := by
  induction calls generalizing caches with
  | nil => trivial
  | cons c calls ih =>
    obtain ⟨hkept, hanswer⟩ := h.run hhealthy (hsees c mem_cons_self)
    exact ⟨hanswer, ih hkept fun c hc => hsees c (mem_cons_of_mem _ hc)⟩

/-! ### Which failures a clone survives -/

/-- A request for one more object. -/
def wantOne (x : Sha1) : UploadRequest := ⟨[x], [], [], true, none, .all⟩

/-- If a closure that is short is kept, a later request with the same tips is refused. -/
theorem keepsClosure_of_answered (h : CachesWhole cfg full caches) {later : FetchCaches}
    (hclosures : later.closures = (authorizeWants cfg env segment wants caches).2.closures)
    (hlater : ∀ x, Answered full ⟨.on full env.tips, segment, wantOne x⟩
      (handleUploadPack cfg (.on full env.tips) segment (wantOne x) later).1) :
    KeepsClosure cfg full env segment wants caches := by
  intro hmade hnone hfits x hx
  by_cases htip : x ∈ env.tips
  · exact ⟨x, htip, .refl⟩
  rcases authorizeWants_cases cfg env segment wants caches with
    ⟨hall, -⟩ | ⟨-, closure, closures, -, hcaches, ⟨hfound, -⟩ | ⟨-, rfl, rfl⟩⟩
  · obtain ⟨w, hw, hnot⟩ := hmade
    exact absurd (hall w hw) hnot
  · rw [hnone] at hfound
    cases hfound
  -- the closure is found again
  have hmap : (caches.closures.get (uploadPackCacheKey segment env.tips)).2.map
      (uploadPackCacheKey segment env.tips) = none := by
    rw [Lru.map_get]
    exact hnone
  have hkept := Lru.get_put (h.closuresWF.get (uploadPackCacheKey segment env.tips)) hmap hfits
  rw [Lru.get_fst] at hkept
  have hserved := (hlater x).served fun w hw => by
    rw [mem_singleton.mp hw]
    exact hx
  rw [← mem_reachableClosure]
  by_contra hshort
  rcases authorizeWants_cases cfg (.on full env.tips) segment [x] later with
    ⟨hall, -⟩ | ⟨-, closure, closures, hrefused, -, hcase⟩
  · exact htip (hall x mem_cons_self)
  · have hclosure : closure = reachableClosure env.authorize env.tips := by
      rw [hclosures, hcaches] at hcase
      rcases hcase with ⟨hfound, -⟩ | ⟨hmissing, -⟩
      · exact Option.some.inj (hfound.symm.trans hkept)
      · exact absurd (hkept.symm.trans hmissing) (by simp)
    have hbad : (authorizeWants cfg (.on full env.tips) segment [x] later).1 = some x := by
      rw [hrefused, hclosure]
      simp [FetchEnv.on, htip, hshort]
    rcases handleUploadPack_cases cfg (.on full env.tips) segment later (wantOne x) with
      ⟨bad, -, hreply, -⟩ | ⟨hok, -⟩
    · exact hserved bad hreply
    · exact absurd (hbad.symm.trans hok) (by simp)

theorem cloneReply_fst (hmissing : ∀ packs ∈ caches.packs, packs.map
    (uploadPackCacheKey segment wants) = none) : (cloneReply cfg env segment wants caches).1 =
      .pack none (collectPackObjects env.collect wants [] .all) := by
  unfold cloneReply
  cases hcase : caches.packs with
  | none => rfl
  | some packs =>
    have hfirst := packs.get_fst (uploadPackCacheKey segment wants)
    rw [hmissing packs hcase] at hfirst
    dsimp only
    cases hget : packs.get (uploadPackCacheKey segment wants) with
    | mk found packs' =>
      rw [hget] at hfirst
      obtain rfl : found = none := hfirst
      rfl

/-- **Which failures a clone survives**: the call refuses or sends a whole pack, and all later
requests without failures are answered as they should be, if and only if the closure that it keeps
is whole, and so is the pack that it makes. -/
theorem clone_sound_iff {r : UploadRequest} (hhealthy : Healthy P full)
    (h : CachesWhole cfg full caches) (hclone : r.IsClone) (hfaulty : env.collect.FaultyOf full) :
    ((∃ bad, (handleUploadPack cfg env segment r caches).1 = .notOurRef bad) ∨
        ∃ ack objects, (handleUploadPack cfg env segment r caches).1 = .pack ack objects ∧
          WholePack full r.wants objects) ∧
      (∀ calls : List FetchCall, (∀ c ∈ calls, c.env.Sees full) →
        AllAnswered cfg full (handleUploadPack cfg env segment r caches).2 calls) ↔
    KeepsClosure cfg full env segment r.wants caches ∧
      ((authorizeWants cfg env segment r.wants caches).1 = none →
        KeepsPack full env segment r.wants caches) := by
  have hpacks : (authorizeWants cfg env segment r.wants caches).2.packs = caches.packs :=
    packs_authorizeWants
  constructor
  · rintro ⟨hreply, hlater⟩
    refine ⟨?_, fun hnone => ?_⟩
    · have hclosures : (handleUploadPack cfg env segment r caches).2.closures =
          (authorizeWants cfg env segment r.wants caches).2.closures := by
        rcases handleUploadPack_cases cfg env segment caches r with
          ⟨-, -, -, heq⟩ | ⟨-, ⟨-, heq⟩ | ⟨-, -, heq⟩⟩
        · rw [heq]
        · rw [heq, closures_cloneReply]
        · rw [heq]
      refine keepsClosure_of_answered h hclosures fun x => ?_
      exact (hlater [⟨.on full env.tips, segment, wantOne x⟩] fun c hc => by
        rw [mem_singleton.mp hc]
        exact FetchEnv.sees_on full _).1
    · intro hmissing
      rcases handleUploadPack_cases cfg env segment caches r with
        ⟨bad, hbad, -⟩ | ⟨-, ⟨-, heq⟩ | ⟨hnot, -⟩⟩
      · rw [hnone] at hbad
        cases hbad
      · have hmade : (handleUploadPack cfg env segment r caches).1 =
            .pack none (collectPackObjects env.collect r.wants [] .all) := by
          rw [heq]
          exact cloneReply_fst (hpacks ▸ hmissing)
        rw [hmade] at hreply
        rcases hreply with ⟨bad, hbad⟩ | ⟨ack, objects, hpack, hwhole⟩
        · cases hbad
        · cases hpack
          exact (packsAll_iff hhealthy hfaulty).mpr hwhole
      · exact absurd hclone hnot
  · rintro ⟨hclosure, hpack⟩
    have hkept := h.authorize hclosure
    rcases handleUploadPack_cases cfg env segment caches r with
      ⟨bad, -, hreply, hcaches⟩ | ⟨hnone, ⟨-, heq⟩ | ⟨hnot, -⟩⟩
    · rw [hcaches]
      exact ⟨Or.inl ⟨bad, hreply⟩, fun calls hsees => hkept.allAnswered hhealthy hsees⟩
    · obtain ⟨hwhole, objects, hmade, hobjects⟩ := hkept.clone segment hhealthy hfaulty
        (fun hmissing => hpack hnone (hpacks ▸ hmissing))
      rw [heq]
      exact ⟨Or.inr ⟨none, objects, hmade, hobjects⟩, fun calls hsees =>
        hwhole.allAnswered hhealthy hsees⟩
    · exact absurd hclone hnot

end

/-! ### A read that fails once -/

/-- The store of the tag, with one object that cannot be read. -/
def blindTo (id : ObjectId) : StoreView :=
  { tagView with read := fun id' => if id' = id then .error .io else tagView.read id' }

theorem leadsTo_blob : LeadsTo tagView (.fill 184) (.fill 246) := by
  have hmem : Sha1.fill 246 ∈ reachableClosure tagView [.fill 184] := by decide +kernel
  obtain ⟨tip, htip, hpath⟩ := mem_reachableClosure.mp hmem
  rw [mem_singleton.mp htip] at hpath
  exact hpath

theorem not_wholePack_tag : ¬ WholePack tagView ↑[Sha1.fill 184] [sampleTag] := by
  intro hwhole
  have hstored : Stored tagView (.fill 246) := by
    unfold Stored
    decide +kernel
  have hblob : objectAt tagView (.fill 246) = some sampleBlob := by decide +kernel
  obtain ⟨o, ho, hholds⟩ := hwhole (.fill 246) hstored ⟨.fill 184, mem_cons_self, leadsTo_blob⟩
  have heq := Option.some.inj (hholds.objectAt.symm.trans hblob)
  rw [mem_singleton.mp ho] at heq
  exact absurd heq (by decide +kernel)

/-- **What came out short is kept.** A blob cannot be read while the tag is cloned: the pack lacks
it, and so does the next clone. A tag cannot be read while the blob is asked for: the blob is
refused, and it still is when nothing fails. -/
theorem short_answers_are_kept :
    let cfg := globalCaches List.length
    let clone : UploadRequest := ⟨[.fill 184], [], [], true, none, .all⟩
    let first := handleUploadPack cfg ⟨[.fill 184], tagView, tagView, tagView, blindTo (.fill 218)⟩
      "" clone ⟨some .empty, .empty⟩
    let lazy := handleUploadPack cfg ⟨[.fill 184], blindTo (.fill 48), tagView, tagView, tagView⟩ ""
      (wantOne (.fill 246)) ⟨some .empty, .empty⟩
    first.1 = .pack none [sampleTag] ∧
    (handleUploadPack cfg (.on tagView [.fill 184]) "" clone first.2).1 = .pack none [sampleTag] ∧
    ¬ WholePack tagView ↑[Sha1.fill 184] [sampleTag] ∧
    lazy.1 = .notOurRef (.fill 246) ∧
    (handleUploadPack cfg (.on tagView [.fill 184]) "" (wantOne (.fill 246)) lazy.2).1 =
      .notOurRef (.fill 246) ∧
    LeadsTo tagView (.fill 184) (.fill 246) := by
  intro cfg clone first lazy
  refine ⟨?_, ?_, not_wholePack_tag, ?_, ?_, leadsTo_blob⟩
  · decide +kernel
  · decide +kernel
  · decide +kernel
  · decide +kernel

/-- A clone of a tip walks over no closure, so that a failure there does not matter. -/
theorem healthy_clone_whole :
    let env : FetchEnv := ⟨[.fill 184], blindTo (.fill 48), tagView, tagView, tagView⟩
    let reply := (handleUploadPack (globalCaches List.length) env ""
      ⟨[.fill 184], [], [], true, none, .all⟩ ⟨some .empty, .empty⟩).1
    (∃ bad, reply = .notOurRef bad) ∨
      ∃ ack objects, reply = .pack ack objects ∧ WholePack tagView ↑[Sha1.fill 184] objects := by
  intro env reply
  have hwhole : CachesWhole (globalCaches List.length) tagView ⟨some .empty, .empty⟩ := by
    refine ⟨fun packs hpacks => ?_, fun packs hpacks => ?_, Lru.wf_empty, nofun⟩
    · cases hpacks
      exact Lru.wf_empty
    · cases hpacks
      intro key objects hkey
      cases hkey
  refine ((clone_sound_iff healthy_tagView hwhole ⟨rfl, rfl, rfl⟩ (faultyOf_refl tagView)).mpr
    ⟨?_, fun _ _ => packsAll_self tagView _⟩).1
  rintro ⟨w, hw, hnot⟩
  exact absurd hw hnot

end Ledge.Git
