import Ledge.Git.Agreement
import Ledge.Server.Tenants

/-!
# Ledge.Server.Confidential

**Two servers that a tenant should not be able to tell apart**: they agree on the refs of the tenant
and on all objects that these lead to (`Alike`), and may differ in everything else.

The wants of a fetch are authorized. All other names of a request are looked up in the one index of
all tenants: the haves and shallow lines of a fetch, the targets of commands, the names in pushed
objects and the bases of a thin pack. By such a name a tenant gets hold of what is not its own
(`foreign_tag_obtained`). As long as its requests name nothing foreign, it gets the same answers
from both (`foreign_objects_hidden`).
-/

namespace Ledge.Server

open Ledge.Core Ledge.RefStore Ledge.Objects Ledge.Lib Ledge.Git List Option

/-! ### Fetches -/

/-- The names that a fetch looks up without an authorization: its haves, or its shallow lines. -/
def lookups (view : StoreView) (r : UploadRequest) : List Sha1 :=
  match r.depth with
  | some _ => r.shallow.flatMap (boundaryNames view)
  | none => if r.done then r.haves else []

/-- The closure that a cache has, or what the walk finds. -/
def closureOf (env : FetchEnv) (segment : String) (caches : FetchCaches) : List Sha1 :=
  (caches.closures.map (uploadPackCacheKey segment env.tips)).getD
    (reachableClosure env.authorize env.tips)

/-- The pack of a clone that a cache has. -/
def cachedPack (segment : String) (wants : List Sha1) (caches : FetchCaches) :
    Option (List TypedWrite) :=
  caches.packs.bind (fun packs => packs.map (uploadPackCacheKey segment wants))

section

variable {cfg : FetchConfig} {env : FetchEnv} {segment : String} {wants : List Sha1}
  {caches : FetchCaches}

theorem authorizeWants_fst :
    (authorizeWants cfg env segment wants caches).1 =
      (wants.filter (· ∉ env.tips)).find? (· ∉ closureOf env segment caches) := by
  rcases authorizeWants_cases cfg env segment wants caches with
    ⟨htips, heq⟩ | ⟨-, closure, closures, heq, -, ⟨hfound, -⟩ | ⟨hnone, rfl, -⟩⟩
  · have hnil : wants.filter (· ∉ env.tips) = [] :=
      filter_eq_nil_iff.mpr fun w hw => by simpa using htips w hw
    rw [heq, hnil]
    rfl
  · rw [heq, closureOf, hfound]
    rfl
  · rw [heq, closureOf, hnone]
    rfl

theorem cloneReply_fst_eq :
    (cloneReply cfg env segment wants caches).1 =
      .pack none ((cachedPack segment wants caches).getD
        (collectPackObjects env.collect wants [] .all)) := by
  unfold cloneReply cachedPack
  cases hcase : caches.packs with
  | none => rfl
  | some packs =>
    have hfirst := packs.get_fst (uploadPackCacheKey segment wants)
    rw [bind_some, ← hfirst]
    dsimp only
    cases hget : packs.get (uploadPackCacheKey segment wants) with
    | mk found packs' => cases found <;> rfl

end

/-! ### Two servers -/

/-- The ref belongs to the segment. -/
def Under (segment : String) (n : RefName) : Prop := strBytes ("refs/" ++ segment) <+: n.bytes

/-- **The servers agree on the segment**: on its refs, and on every object that they lead to. -/
structure Alike {P : Primitives} (segment : String) (s₁ s₂ : GitState P) : Prop where
  refs : ∀ n, Under segment n → s₁.refs.tree.slot n = s₂.refs.tree.slot n
  targets : ∀ n e, Under segment n → s₁.refs.tree.get n = some e →
    s₁.shelf.sha1Of e.target = s₂.shelf.sha1Of e.target
  objects : ∀ tip ∈ s₁.tips segment, Agrees s₁.shelf.view s₂.shelf.view tip

/-- The closures that are kept for the segment are not too large. -/
structure Kept {P : Primitives} (cfg : FetchConfig) (segment : String) (s : GitState P) : Prop where
  wf : Lru.WF cfg.closures s.caches.closures
  reached : s.caches.closures.All (fun key names => key.1 = segment →
    ∀ x ∈ names, ∃ tip ∈ key.2, LeadsTo s.shelf.view tip x)

/-- Entries of the two caches that answer alike: they are the same, or each is what the walk
finds. -/
def AnswerAlike {ν : Type} (found₁ found₂ : ν → Prop) (entry₁ entry₂ : Option ν) : Prop :=
  entry₁ = entry₂ ∨ (∀ v ∈ entry₁, found₁ v) ∧ ∀ v ∈ entry₂, found₂ v

/-- The names are those that the walk over the tips of the segment finds. -/
def IsClosure {P : Primitives} (segment : String) (s : GitState P) (names : List Sha1) : Prop :=
  ∀ x, x ∈ names ↔ x ∈ reachableClosure s.shelf.view (s.tips segment)

/-- **A fetch that asks for nothing foreign**: what it looks up without an authorization agrees, and
the caches answer alike. -/
structure FetchDiscreet {P : Primitives} (segment : String) (s₁ s₂ : GitState P)
    (r : UploadRequest) : Prop where
  lookups : ∀ x ∈ lookups s₁.shelf.view r, Agrees s₁.shelf.view s₂.shelf.view x
  closures : AnswerAlike (IsClosure segment s₁) (IsClosure segment s₂)
    (s₁.caches.closures.map (uploadPackCacheKey segment (s₁.tips segment)))
    (s₂.caches.closures.map (uploadPackCacheKey segment (s₂.tips segment)))
  packs : AnswerAlike (· = collectPackObjects s₁.shelf.view r.wants [] .all)
    (· = collectPackObjects s₂.shelf.view r.wants [] .all)
    (cachedPack segment r.wants s₁.caches) (cachedPack segment r.wants s₂.caches)

/-- What the caches answer, or else the walks, is the same as far as the walks are. -/
theorem AnswerAlike.getD {ν : Type} {R : ν → ν → Prop} (hR : Equivalence R) {walk₁ walk₂ : ν}
    {entry₁ entry₂ : Option ν} (h : AnswerAlike (R · walk₁) (R · walk₂) entry₁ entry₂)
    (hwalk : R walk₁ walk₂) :
    R (entry₁.getD walk₁) (entry₂.getD walk₂) := by
  have hfound : ∀ {entry : Option ν} {walk : ν}, (∀ v ∈ entry, R v walk) →
      R (entry.getD walk) walk := by
    intro entry walk hentry
    cases entry with
    | none => exact hR.refl walk
    | some v => exact hentry v rfl
  rcases h with rfl | ⟨h₁, h₂⟩
  · cases entry₁ with
    | none => exact hwalk
    | some v => exact hR.refl v
  · exact hR.trans (hfound h₁) (hR.trans hwalk (hR.symm (hfound h₂)))

section

variable {P : Primitives} {cfg : FetchConfig} {segment : String} {s₁ s₂ : GitState P}
  {r : UploadRequest}

theorem tips_eq (h : Alike segment s₁ s₂) : s₁.tips segment = s₂.tips segment := by
  have hget : ∀ n, Under segment n → s₁.refs.tree.get n = s₂.refs.tree.get n := by
    intro n hn
    unfold RefTree.get
    rw [h.refs n hn]
  have hlist : s₁.refs.tree.list ("refs/" ++ segment) = s₂.refs.tree.list ("refs/" ++ segment) := by
    refine RefTree.eq_of_list_sorted (RefTree.list_sorted _ _) (RefTree.list_sorted _ _) ?_
    rintro ⟨n, e⟩
    rw [RefTree.mem_list, RefTree.mem_list]
    exact and_congr_right fun hn => by rw [hget n hn]
  unfold GitState.tips segmentTipSha1s
  rw [← hlist]
  refine congrArg dedup (filterMap_congr fun x hx => ?_)
  obtain ⟨hunder, hentry⟩ := RefTree.mem_list.mp hx
  exact h.targets x.1 x.2 hunder hentry

theorem mem_closureOf_iff (h : Alike segment s₁ s₂) (hr : FetchDiscreet segment s₁ s₂ r)
    (x : Sha1) : x ∈ closureOf (s₁.fetchEnv segment) segment s₁.caches ↔
      x ∈ closureOf (s₂.fetchEnv segment) segment s₂.caches := by
  have hwalk : reachableClosure s₁.shelf.view (s₁.tips segment) =
      reachableClosure s₂.shelf.view (s₂.tips segment) := by
    rw [← tips_eq h]
    exact reachableClosure_eq h.objects
  have hequiv : Equivalence fun names names' : List Sha1 => ∀ x, x ∈ names ↔ x ∈ names' :=
    ⟨fun _ _ => Iff.rfl, fun h x => (h x).symm, fun h h' x => (h x).trans (h' x)⟩
  exact hr.closures.getD hequiv (fun x => by rw [hwalk]) x

theorem agrees_of_authorized (h : Alike segment s₁ s₂) (hkept : Kept cfg segment s₁)
    (hauth : (authorizeWants cfg (s₁.fetchEnv segment) segment r.wants s₁.caches).1 = none)
    {w : Sha1} (hw : w ∈ r.wants) : Agrees s₁.shelf.view s₂.shelf.view w := by
  by_cases htip : w ∈ s₁.tips segment
  · exact h.objects w htip
  · have hreached : ∃ tip ∈ s₁.tips segment, LeadsTo s₁.shelf.view tip w := by
      rw [authorizeWants_fst, find?_eq_none] at hauth
      have hmem : w ∈ closureOf (s₁.fetchEnv segment) segment s₁.caches := by
        have hin := hauth w (mem_filter.mpr ⟨hw, decide_eq_true htip⟩)
        simpa using hin
      unfold closureOf at hmem
      cases hentry : s₁.caches.closures.map (uploadPackCacheKey segment (s₁.tips segment)) with
      | none =>
        have hwalk : w ∈ reachableClosure s₁.shelf.view (s₁.tips segment) := by
          simpa [GitState.fetchEnv, FetchEnv.on, hentry] using hmem
        exact mem_reachableClosure.mp hwalk
      | some names =>
        have hnames : w ∈ names := by simpa [GitState.fetchEnv, FetchEnv.on, hentry] using hmem
        obtain ⟨tip, htip, hpath⟩ := hkept.reached _ names hentry rfl w hnames
        exact ⟨tip, by simpa [uploadPackCacheKey] using htip, hpath⟩
    obtain ⟨tip, htip, hpath⟩ := hreached
    exact (h.objects tip htip).leads hpath

theorem cachedPack_authorizeWants {env : FetchEnv} {caches : FetchCaches} (wants : List Sha1) :
    cachedPack segment wants (authorizeWants cfg env segment r.wants caches).2 =
      cachedPack segment wants caches := by
  unfold cachedPack
  rw [packs_authorizeWants]

theorem commons_eq (segment : String) {haves : List Sha1}
    (h : ∀ x ∈ haves, Agrees s₁.shelf.view s₂.shelf.view x) :
    commons (s₁.fetchEnv segment) haves = commons (s₂.fetchEnv segment) haves := by
  refine filter_congr fun x hx => ?_
  show (Names.lookup (sha1Map s₁.shelf.view) x).isSome =
    (Names.lookup (sha1Map s₂.shelf.view) x).isSome
  rw [(h x hx).lookup_eq]

/-- **A fetch is answered alike.** -/
theorem handleUploadPack_eq (h : Alike segment s₁ s₂) (hkept : Kept cfg segment s₁)
    (hr : FetchDiscreet segment s₁ s₂ r) :
    (handleUploadPack cfg (s₁.fetchEnv segment) segment r s₁.caches).1 =
      (handleUploadPack cfg (s₂.fetchEnv segment) segment r s₂.caches).1 := by
  have hfilter : r.wants.filter (· ∉ s₁.tips segment) = r.wants.filter (· ∉ s₂.tips segment) := by
    rw [tips_eq h]
  have hauth : (authorizeWants cfg (s₁.fetchEnv segment) segment r.wants s₁.caches).1 =
      (authorizeWants cfg (s₂.fetchEnv segment) segment r.wants s₂.caches).1 := by
    rw [authorizeWants_fst, authorizeWants_fst]
    show List.find? _ (r.wants.filter (· ∉ s₁.tips segment)) =
      List.find? _ (r.wants.filter (· ∉ s₂.tips segment))
    rw [hfilter]
    refine find?_congr fun w _ => ?_
    rw [decide_eq_decide, mem_closureOf_iff h hr]
  have hlookups := hr.lookups
  cases hrefused : (authorizeWants cfg (s₁.fetchEnv segment) segment r.wants s₁.caches).1 with
  | some bad =>
    rw [handleUploadPack, handleUploadPack, Prod.fst_eq_iff.mp hrefused,
      Prod.fst_eq_iff.mp (hauth.symm.trans hrefused)]
  | none =>
    have hwants : ∀ w ∈ r.wants, Agrees s₁.shelf.view s₂.shelf.view w :=
      fun w hw => agrees_of_authorized h hkept hrefused hw
    rw [handleUploadPack, handleUploadPack, Prod.fst_eq_iff.mp hrefused,
      Prod.fst_eq_iff.mp (hauth.symm.trans hrefused)]
    unfold lookups at hlookups
    dsimp only
    cases hdepth : r.depth with
    | some d =>
      rw [hdepth] at hlookups
      dsimp only [GitState.fetchEnv, FetchEnv.on] at hlookups ⊢
      by_cases hnil : r.shallow = []
      · rw [if_pos hnil, if_pos hnil, collectShallow_eq d hwants]
      · rw [if_neg hnil, if_neg hnil, collectDeepen_eq d hwants fun x hx y hy =>
          hlookups y (mem_flatMap.mpr ⟨x, hx, hy⟩)]
    | none =>
      rw [hdepth] at hlookups
      by_cases hhaves : r.haves = []
      · rw [if_pos hhaves, if_pos hhaves]
        by_cases hall : r.filter = .all
        · rw [if_neg (not_not.mpr hall), if_neg (not_not.mpr hall), cloneReply_fst_eq,
            cloneReply_fst_eq, cachedPack_authorizeWants, cachedPack_authorizeWants]
          exact congrArg _ (hr.packs.getD eq_equivalence (collectPackObjects_eq [] .all hwants))
        · rw [if_pos hall, if_pos hall]
          exact congrArg (UploadReply.pack none) (collectPackObjects_eq [] r.filter hwants)
      · rw [if_neg hhaves, if_neg hhaves]
        by_cases hdone : r.done = true
        · rw [if_pos hdone] at hlookups
          rw [if_pos hdone, if_pos hdone]
          have hcommons := commons_eq segment hlookups
          have hexclude : reachableClosure s₁.shelf.view (commons (s₁.fetchEnv segment) r.haves) =
              reachableClosure s₂.shelf.view (commons (s₂.fetchEnv segment) r.haves) := by
            rw [← hcommons]
            exact reachableClosure_eq fun x hx => hlookups x (mem_filter.mp hx).1
          exact congrArg₂ _ (congrArg _ hcommons)
            ((collectPackObjects_eq _ r.filter hwants).trans
              (congrArg (collectPackObjects _ _ · _) hexclude))
        · rw [if_neg hdone, if_neg hdone]

/-- A fetch changes neither refs nor objects, and keeps what a walk finds. -/
theorem Kept.uploadPack (h : Kept cfg segment s₁) (r : UploadRequest) :
    Kept cfg segment (s₁.handle cfg segment (.uploadPack r)).2 := by
  have hclosures : (handleUploadPack cfg (s₁.fetchEnv segment) segment r s₁.caches).2.closures =
      (authorizeWants cfg (s₁.fetchEnv segment) segment r.wants s₁.caches).2.closures := by
    rcases handleUploadPack_cases cfg (s₁.fetchEnv segment) segment s₁.caches r with
      ⟨-, -, -, heq⟩ | ⟨-, ⟨-, heq⟩ | ⟨-, -, heq⟩⟩
    · rw [heq]
    · rw [heq]
      exact closures_cloneReply
    · rw [heq]
  have hkept : Lru.WF cfg.closures (authorizeWants cfg (s₁.fetchEnv segment) segment r.wants
      s₁.caches).2.closures ∧
      (authorizeWants cfg (s₁.fetchEnv segment) segment r.wants s₁.caches).2.closures.All
        (fun key names => key.1 = segment → ∀ x ∈ names, ∃ tip ∈ key.2,
          LeadsTo s₁.shelf.view tip x) := by
    rcases authorizeWants_cases cfg (s₁.fetchEnv segment) segment r.wants s₁.caches with
      ⟨-, heq⟩ | ⟨-, closure, closures, -, heq, ⟨-, rfl⟩ | ⟨-, rfl, rfl⟩⟩
    · rw [heq]
      exact ⟨h.wf, h.reached⟩
    · rw [heq]
      exact ⟨h.wf.get _, h.reached.get _⟩
    · rw [heq]
      refine ⟨(h.wf.get _).put, (h.reached.get _).put (h.wf.get _) fun _ _ x hx => ?_⟩
      exact mem_reachableClosure.mp hx
  rw [← hclosures] at hkept
  exact ⟨hkept.1, hkept.2⟩

end

/-! ### Pushes -/

/-- The pack has an object of this name. -/
def Sends (P : Primitives) (sent : List TypedWrite) (x : Sha1) : Prop :=
  ∃ o ∈ sent, o.gitName P = some x

/-- The name is of the push itself, or it agrees. -/
def Own {P : Primitives} (s₁ s₂ : Shelf P) (sent : List TypedWrite) (x : Sha1) : Prop :=
  Sends P sent x ∨ Agrees s₁.view s₂.view x

/-- **A push that names nothing foreign**: the names in its objects, gitlinks included, and the
targets of its commands are its own or agree. Its objects are stored with the types that they have
elsewhere. -/
structure NamesOwn {P : Primitives} (s₁ s₂ : Shelf P) (commands : List RefCommand)
    (sent : List TypedWrite) : Prop where
  fresh₁ : s₁.Fresh sent
  fresh₂ : s₂.Fresh sent
  children : ∀ o ∈ sent, ∀ x ∈ childSha1s o.gitType o.content, Own s₁ s₂ sent x
  new : ∀ c ∈ commands, c.newSha1 ≠ nullSha1 → Own s₁ s₂ sent c.newSha1
  old : ∀ c ∈ commands, c.oldSha1 ≠ nullSha1 →
    Sends P sent c.oldSha1 ∨ objectAt s₁.view c.oldSha1 = objectAt s₂.view c.oldSha1

section

variable {P : Primitives} {s₁ s₂ : Shelf P} {commands : List RefCommand} {sent : List TypedWrite}
  {x : Sha1} {id : ObjectId}

theorem NamesOwn.objectAt_eq (h : NamesOwn s₁ s₂ commands sent)
    (hx : Sends P sent x ∨ objectAt s₁.view x = objectAt s₂.view x) :
    objectAt (s₁.writeAll sent).view x = objectAt (s₂.writeAll sent).view x := by
  by_cases hsent : Sends P sent x
  · obtain ⟨o, ho, hname⟩ := hsent
    rw [h.fresh₁.objectAt_of_mem ho hname, h.fresh₂.objectAt_of_mem ho hname]
  · have hne : ∀ o ∈ sent, o.gitName P ≠ some x := fun o ho hname => hsent ⟨o, ho, hname⟩
    rw [h.fresh₁.objectAt_of_forall_ne hne, h.fresh₂.objectAt_of_forall_ne hne]
    exact hx.resolve_left hsent

theorem NamesOwn.child (h : NamesOwn s₁ s₂ commands sent) (hx : Own s₁ s₂ sent x) {y : Sha1}
    (hy : y ∈ bodyNames (s₁.writeAll sent).view childSha1s x) : Own s₁ s₂ sent y := by
  unfold bodyNames at hy
  by_cases hsent : Sends P sent x
  · obtain ⟨o, ho, hname⟩ := hsent
    rw [h.fresh₁.objectAt_of_mem ho hname] at hy
    exact h.children o ho y hy
  · rw [h.fresh₁.objectAt_of_forall_ne fun o ho hname => hsent ⟨o, ho, hname⟩] at hy
    exact Or.inr ((hx.resolve_left hsent).child childSha1s_subset hy)

/-- **Own names agree after the push**, with all that they lead to. -/
theorem NamesOwn.agrees (h : NamesOwn s₁ s₂ commands sent) (hx : Own s₁ s₂ sent x) :
    Agrees (s₁.writeAll sent).view (s₂.writeAll sent).view x := by
  intro y hpath
  have hown : Own s₁ s₂ sent y := by
    induction hpath with
    | refl => exact hx
    | tail _ hedge ih => exact h.child ih hedge
  exact h.objectAt_eq (hown.imp_right Agrees.objectAt_eq)

/-- Ids with the same name in both stores, which agrees. -/
def Good (s₁ s₂ : Shelf P) (id : ObjectId) : Prop :=
  s₁.sha1Of id = s₂.sha1Of id ∧ ∀ n, s₁.sha1Of id = some n → Agrees s₁.view s₂.view n

theorem NamesOwn.good_of_sent (h : NamesOwn s₁ s₂ commands sent) {o : TypedWrite} (ho : o ∈ sent) :
    Good (s₁.writeAll sent) (s₂.writeAll sent) (P.blake3 o.content) := by
  have hname := h.fresh₁.sha1Of_of_mem ho
  refine ⟨hname.trans (h.fresh₂.sha1Of_of_mem ho).symm, fun n hn => h.agrees (Or.inl ⟨o, ho, ?_⟩)⟩
  rw [← hname, hn]

theorem NamesOwn.good_of_lookup (h : NamesOwn s₁ s₂ commands sent) (hx : Own s₁ s₂ sent x)
    (hid : (sha1Map (s₁.writeAll sent).view).lookup x = some id) :
    Good (s₁.writeAll sent) (s₂.writeAll sent) id := by
  have hagrees := h.agrees hx
  rw [Shelf.lookup_eq_objectAt] at hid
  obtain ⟨o, ho, rfl⟩ := map_eq_some_iff.mp hid
  obtain ⟨hmem₁, hname⟩ := Shelf.mem_of_objectAt ho
  obtain ⟨hmem₂, -⟩ := Shelf.mem_of_objectAt (hagrees.objectAt_eq.symm.trans ho)
  have hsha1 := Shelf.sha1Of_of_mem hmem₁
  refine ⟨hsha1.trans (Shelf.sha1Of_of_mem hmem₂).symm, fun n hn => ?_⟩
  rw [hsha1, hname] at hn
  rw [← some.inj hn]
  exact hagrees

theorem NamesOwn.good (h : NamesOwn s₁ s₂ commands sent) (hgood : Good s₁ s₂ id) :
    Good (s₁.writeAll sent) (s₂.writeAll sent) id := by
  by_cases hsent : ∃ o ∈ sent, P.blake3 o.content = id
  · obtain ⟨o, ho, rfl⟩ := hsent
    exact h.good_of_sent ho
  · have hne : ∀ o ∈ sent, P.blake3 o.content ≠ id := fun o ho hid => hsent ⟨o, ho, hid⟩
    unfold Good
    rw [Shelf.sha1Of_writeAll_of_forall_ne hne, Shelf.sha1Of_writeAll_of_forall_ne hne]
    exact ⟨hgood.1, fun n hn => h.agrees (Or.inr (hgood.2 n hn))⟩

theorem leadsTo_mono {v v' : StoreView} (h : ∀ n o, objectAt v n = some o → objectAt v' n = some o)
    {y : Sha1} (hpath : LeadsTo v x y) : LeadsTo v' x y := by
  refine hpath.lift id fun a b hedge => ?_
  have hedge' : b ∈ bodyNames v childSha1s a := hedge
  show b ∈ bodyNames v' childSha1s a
  unfold bodyNames at hedge' ⊢
  cases ha : objectAt v a with
  | none =>
    rw [ha] at hedge'
    cases hedge'
  | some o =>
    rw [ha] at hedge'
    rw [h a o ha]
    exact hedge'

end

/-! ### The accesses of a push -/

/-- The commands that are not done. -/
def pending (r : PushRequest) : PushPc → List RefCommand
  | .writing _ _ _ => r.commands
  | .commands todo _ _ => todo
  | .resolved c _ _ todo _ _ | .updating c _ _ _ todo _ _ | .deleting c _ _ todo _ _ => c :: todo
  | .reported _ | .failed => []

/-- The names that the check is going to look for. -/
def checks : PushPc → List Sha1
  | .writing todo _ referenced =>
    referenced ++ (GitState.written todo).flatMap (fun o => referencedSha1s o.gitType o.content)
  | _ => []

/-- What a call of the segment has in hand: refs of the segment, objects that are good, commands of
the request and names that both indexes answer alike. -/
structure InHand (segment : String) (r : PushRequest) (good : ObjectId → Prop)
    (index₁ index₂ : Names) (refs : Store) (pc : PushPc) : Prop where
  points : ∀ n e, Under segment n → refs.tree.get n = some e → good e.target
  todo : ∀ todo sent referenced, pc = .writing todo sent referenced →
    ∀ o ∈ GitState.written todo, o ∈ GitState.written r.objects
  sent : ∀ y ∈ pc.sent, good y.2
  target : ∀ x, pc.target = some x → good x
  ref : ∀ c name, pc.ref = some (c, name) → Under segment name
  pending : ∀ c ∈ pending r pc, c ∈ r.commands
  checks : ∀ x ∈ checks pc, index₁.lookup x = index₂.lookup x
  old : ∀ c name new todo sent report, pc = .resolved c name new todo sent report →
    c.oldSha1 ≠ nullSha1

/-- The indexes answer the commands of a request alike, and with good targets. -/
structure AnswersCommands (r : PushRequest) (good : ObjectId → Prop) (index₁ index₂ : Names) :
    Prop where
  new : ∀ c ∈ r.commands, c.newSha1 ≠ nullSha1 → index₁.lookup c.newSha1 = index₂.lookup c.newSha1
  old : ∀ c ∈ r.commands, c.oldSha1 ≠ nullSha1 → index₁.lookup c.oldSha1 = index₂.lookup c.oldSha1
  good : ∀ c ∈ r.commands, c.newSha1 ≠ nullSha1 → ∀ x, index₁.lookup c.newSha1 = some x → good x

section

variable {P : Primitives} {tenant : String} {r : PushRequest} {good : ObjectId → Prop}
  {index₁ index₂ : Names} {refs₁ refs₂ : Store} {pc : PushPc} {hlc : Nat}

variable {sent : Names} {segment : String} {todo : List RefCommand} {report : List ReportLine}

theorem resolve_eq {x : Sha1} (h : index₁.lookup x = index₂.lookup x) :
    resolveSha1ToObjId sent index₁ x = resolveSha1ToObjId sent index₂ x := by
  unfold resolveSha1ToObjId
  rw [h]

/-- A ref that a command of the tenant names belongs to its segment. -/
theorem under_of_new (htenant : Proper tenant) {client : String} {name : RefName}
    (h : RefName.new (storeRef client (Workspace.tenantPrefix tenant)) = .ok name) :
    Under (Workspace.tenantPrefix tenant) name := by
  obtain ⟨rest, hrest⟩ := (writes_iff htenant).mp (Or.inl ⟨client, h⟩)
  unfold Under RefName.bytes
  rw [hrest]
  exact prefix_append _ _

/-- **One access, in both servers**: it goes the same way, and the refs of the segment stay
alike. -/
theorem InHand.step_eq (h : InHand segment r good index₁ index₂ refs₁ pc)
    (hanswers : AnswersCommands r good index₁ index₂)
    (hrefs : ∀ n, Under segment n → refs₁.tree.slot n = refs₂.tree.slot n) (hlc : Nat) :
    (pc.step P r ⟨index₁, hlc⟩ refs₁).2 = (pc.step P r ⟨index₂, hlc⟩ refs₂).2 ∧
      ∀ n, Under segment n → (pc.step P r ⟨index₁, hlc⟩ refs₁).1.tree.slot n =
        (pc.step P r ⟨index₂, hlc⟩ refs₂).1.tree.slot n := by
  cases pc with
  | writing todo sent referenced =>
    cases todo with
    | cons o todo =>
      simp only [PushPc.step]
      cases gitTypeName o.gitType <;> exact ⟨rfl, hrefs⟩
    | nil =>
      have hfind : referenced.find? (fun x => resolveSha1ToObjId sent index₁ x = none) =
          referenced.find? (fun x => resolveSha1ToObjId sent index₂ x = none) := by
        refine find?_congr fun x hx => ?_
        rw [resolve_eq (h.checks x (mem_append_left _ hx))]
      simp only [PushPc.step, hfind]
      cases referenced.find? (fun x => resolveSha1ToObjId sent index₂ x = none) <;>
        exact ⟨rfl, hrefs⟩
  | commands todo sent report =>
    cases todo with
    | nil => exact ⟨rfl, hrefs⟩
    | cons c todo =>
      have hc := h.pending c mem_cons_self
      simp only [PushPc.step]
      cases RefName.new (storeRef c.refName r.segment) with
      | error e => exact ⟨rfl, hrefs⟩
      | ok name =>
        dsimp only
        by_cases hnew : c.newSha1 = nullSha1
        · rw [if_pos hnew, if_pos hnew]
          by_cases hold : c.oldSha1 = nullSha1
          · rw [if_pos hold, if_pos hold]
            exact ⟨rfl, hrefs⟩
          · rw [if_neg hold, if_neg hold, ← resolve_eq (hanswers.old c hc hold)]
            split <;> exact ⟨rfl, hrefs⟩
        · rw [if_neg hnew, if_neg hnew, ← resolve_eq (hanswers.new c hc hnew)]
          split
          · exact ⟨rfl, hrefs⟩
          · split_ifs <;> exact ⟨rfl, hrefs⟩
  | resolved c name new todo sent report =>
    have hold := hanswers.old c (h.pending c mem_cons_self) (h.old _ _ _ _ _ _ rfl)
    simp only [PushPc.step, ← resolve_eq hold]
    split <;> exact ⟨rfl, hrefs⟩
  | updating c name new expected todo sent report =>
    have hslot := hrefs name (h.ref c name rfl)
    obtain ⟨hresult, hslots⟩ := Store.run_attempt_congr hslot
      (decideUpdate_sound name new expected hlc _)
    simp only [PushPc.step, Store.update, ← hslot]
    exact ⟨by rw [hresult], fun n hn => hslots n (hrefs n hn)⟩
  | deleting c name old todo sent report =>
    have hslot := hrefs name (h.ref c name rfl)
    obtain ⟨hresult, hslots⟩ := Store.run_attempt_congr hslot (decideDelete_sound name old hlc _)
    simp only [PushPc.step, Store.delete, ← hslot]
    exact ⟨by rw [hresult], fun n hn => hslots n (hrefs n hn)⟩
  | reported report | failed => exact ⟨rfl, hrefs⟩

theorem InHand.quiet {pc' : PushPc} (h : InHand segment r good index₁ index₂ refs₁ pc)
    (hwriting : ∀ todo sent referenced, pc' ≠ .writing todo sent referenced)
    (hsent : pc'.sent ⊆ pc.sent) (htarget : ∀ x, pc'.target = some x → good x)
    (href : ∀ c name, pc'.ref = some (c, name) → Under segment name)
    (hpending : Server.pending r pc' ⊆ Server.pending r pc)
    (hold : ∀ c name new todo sent report, pc' = .resolved c name new todo sent report →
      c.oldSha1 ≠ nullSha1) : InHand segment r good index₁ index₂ refs₁ pc' where
  points := h.points
  todo todo sent referenced heq := absurd heq (hwriting todo sent referenced)
  sent y hy := h.sent y (hsent hy)
  target := htarget
  ref := href
  pending c hc := h.pending c (hpending hc)
  checks x hx := by
    cases pc' with
    | writing todo sent referenced => exact absurd rfl (hwriting todo sent referenced)
    | _ => cases hx
  old := hold

theorem InHand.done {refs' : Store} (h : InHand segment r good index₁ index₂ refs₁ pc)
    (hpoints : ∀ n e, Under segment n → refs'.tree.get n = some e → good e.target)
    (htodo : todo ⊆ Server.pending r pc) :
    InHand segment r good index₁ index₂ refs' (.commands todo pc.sent report) where
  points := hpoints
  todo := nofun
  sent := h.sent
  target := nofun
  ref := nofun
  pending c hc := h.pending c (htodo hc)
  checks := nofun
  old := nofun

theorem InHand.good_of_resolve {c : RefCommand} {x : ObjectId}
    (h : InHand segment r good index₁ index₂ refs₁ (.commands (c :: todo) sent report))
    (hanswers : AnswersCommands r good index₁ index₂) (hnew : c.newSha1 ≠ nullSha1)
    (hfound : resolveSha1ToObjId sent index₁ c.newSha1 = some x) : good x := by
  rcases resolve_cases hfound with hsent | ⟨-, hindex⟩
  · exact h.sent _ hsent
  · exact hanswers.good c (h.pending c mem_cons_self) hnew x hindex

theorem InHand.write {o : TypedWrite} {todo : List TypedWrite} {referenced : List Sha1}
    {typeName : String} (htype : gitTypeName o.gitType = some typeName)
    (h : InHand segment r good index₁ index₂ refs₁ (.writing (o :: todo) sent referenced))
    (hwritten : ∀ o ∈ GitState.written r.objects, good (P.blake3 o.content)) :
    InHand segment r good index₁ index₂ refs₁
      (.writing todo ((P.gitSha1 typeName o.content, P.blake3 o.content) :: sent)
        (referenced ++ referencedSha1s o.gitType o.content)) := by
  have hvalid : o.Valid := isSome_iff_exists.mpr ⟨typeName, htype⟩
  have hcons : GitState.written (o :: todo) = o :: GitState.written todo :=
    takeWhile_cons_of_pos (decide_eq_true hvalid)
  have htodo := h.todo _ _ _ rfl
  have hchecks := h.checks
  simp only [Server.checks, hcons] at hchecks
  rw [hcons] at htodo
  refine ⟨h.points, fun _ _ _ heq => ?_, fun y hy => ?_, nofun, nofun, h.pending,
    fun x hx => hchecks x ?_, nofun⟩
  · cases heq
    exact fun o' ho' => htodo o' (mem_cons_of_mem _ ho')
  · rcases mem_cons.mp hy with rfl | hy
    · exact hwritten o (htodo o mem_cons_self)
    · exact h.sent y hy
  · rw [flatMap_cons, ← append_assoc]
    exact hx

theorem InHand.step (htenant : Proper tenant) (hsegment : r.segment = Workspace.tenantPrefix tenant)
    (h : InHand r.segment r good index₁ index₂ refs₁ pc)
    (hanswers : AnswersCommands r good index₁ index₂)
    (hwritten : ∀ o ∈ GitState.written r.objects, good (P.blake3 o.content)) :
    InHand r.segment r good index₁ index₂ (pc.step P r ⟨index₁, hlc⟩ refs₁).1
      (pc.step P r ⟨index₁, hlc⟩ refs₁).2 := by
  have hunder : ∀ {client : String} {name : RefName},
      RefName.new (storeRef client r.segment) = .ok name → Under r.segment name := by
    intro client name hname
    rw [hsegment] at hname ⊢
    exact under_of_new htenant hname
  have haccess := PushPc.access_step P r ⟨index₁, hlc⟩ refs₁ pc
  generalize (pc.step P r ⟨index₁, hlc⟩ refs₁).1 = refs' at haccess ⊢
  generalize (pc.step P r ⟨index₁, hlc⟩ refs₁).2 = pc' at haccess ⊢
  cases haccess with
  | write htype => exact h.write htype hwritten
  | fail | missing | finish =>
    exact h.quiet nofun (nil_subset _) nofun nofun (nil_subset _) nofun
  | check hfound =>
    exact h.quiet nofun (List.Subset.refl _) nofun nofun (List.Subset.refl _) nofun
  | refuse | stale | notUpdated | notDeleted => exact h.done h.points (subset_cons_self _ _)
  | delete hname hnew hold hfound =>
    refine h.quiet nofun (List.Subset.refl _) nofun (fun _ _ heq => ?_) (List.Subset.refl _) nofun
    cases heq
    exact hunder hname
  | create hname hnew hold hfound =>
    refine h.quiet nofun (List.Subset.refl _) (fun _ heq => ?_) (fun _ _ heq => ?_)
      (List.Subset.refl _) nofun
    · cases heq
      exact h.good_of_resolve hanswers hnew hfound
    · cases heq
      exact hunder hname
  | resolve hname hnew hold hfound =>
    refine h.quiet nofun (List.Subset.refl _) (fun _ heq => ?_) (fun _ _ heq => ?_)
      (List.Subset.refl _) fun _ _ _ _ _ _ heq => ?_
    · cases heq
      exact h.good_of_resolve hanswers hnew hfound
    · cases heq
      exact hunder hname
    · cases heq
      exact hold
  | update hfound =>
    exact h.quiet nofun (List.Subset.refl _) h.target h.ref (List.Subset.refl _)
      nofun
  | updated hstood htarget hget hresult =>
    refine h.done (fun n e hn he => ?_) (subset_cons_self _ _)
    rw [hget] at he
    split_ifs at he with heq
    · rw [← some.inj he, htarget]
      exact h.target _ rfl
    · exact h.points n e hn he
  | deleted hstood hget =>
    refine h.done (fun n e hn he => ?_) (subset_cons_self _ _)
    rw [hget] at he
    split_ifs at he
    exact h.points n e hn he
  | reported | failed => exact h

/-- **All accesses of a push, in both servers.** -/
theorem InHand.run (htenant : Proper tenant) (hsegment : r.segment = Workspace.tenantPrefix tenant)
    (h : InHand r.segment r good index₁ index₂ refs₁ pc)
    (hanswers : AnswersCommands r good index₁ index₂)
    (hwritten : ∀ o ∈ GitState.written r.objects, good (P.blake3 o.content))
    (hrefs : ∀ n, Under r.segment n → refs₁.tree.slot n = refs₂.tree.slot n) (ticks : Nat → Nat)
    (n : Nat) :
    let x₁ := PushPc.run P r (fun n => ⟨index₁, ticks n⟩) n (refs₁, pc)
    let x₂ := PushPc.run P r (fun n => ⟨index₂, ticks n⟩) n (refs₂, pc)
    x₁.2 = x₂.2 ∧ (∀ n, Under r.segment n → x₁.1.tree.slot n = x₂.1.tree.slot n) ∧
      InHand r.segment r good index₁ index₂ x₁.1 x₁.2 := by
  induction n with
  | zero => exact ⟨rfl, hrefs, h⟩
  | succ n ih =>
    obtain ⟨hpc, hslots, hin⟩ := ih
    obtain ⟨hnext, hslots'⟩ := hin.step_eq (P := P) hanswers hslots (ticks n)
    simp only [PushPc.run]
    rw [← hpc]
    exact ⟨hnext, hslots', hin.step htenant hsegment hanswers hwritten⟩

end

section

variable {P : Primitives} {cfg : FetchConfig} {tenant : String} {s₁ s₂ : GitState P}

variable {segment : String}

theorem mem_tips {s : GitState P} {x : Sha1} :
    x ∈ s.tips segment ↔ ∃ n e, Under segment n ∧ s.refs.tree.get n = some e ∧
      s.shelf.sha1Of e.target = some x := by
  unfold GitState.tips segmentTipSha1s
  rw [mem_dedup, mem_filterMap]
  constructor
  · rintro ⟨⟨n, e⟩, hmem, hx⟩
    obtain ⟨hunder, hget⟩ := RefTree.mem_list.mp hmem
    exact ⟨n, e, hunder, hget, hx⟩
  · rintro ⟨n, e, hunder, hget, hx⟩
    exact ⟨(n, e), RefTree.mem_list.mpr ⟨hunder, hget⟩, hx⟩

theorem Alike.good (h : Alike segment s₁ s₂) {n : RefName} {e : RefEntry} (hunder : Under segment n)
    (hget : s₁.refs.tree.get n = some e) : Good s₁.shelf s₂.shelf e.target :=
  ⟨h.targets n e hunder hget, fun x hx => h.objects x (mem_tips.mpr ⟨n, e, hunder, hget, hx⟩)⟩

/-- **A push is answered alike**, and the servers stay alike. -/
theorem receiveObjects_alike (htenant : Proper tenant)
    (h : Alike (Workspace.tenantPrefix tenant) s₁ s₂)
    {commands : List RefCommand} {objects : List TypedWrite}
    (hown : NamesOwn s₁.shelf s₂.shelf commands (GitState.written objects)) (ticks : Nat → Nat) :
    let r : PushRequest := ⟨commands, objects, Workspace.tenantPrefix tenant⟩
    (s₁.receiveObjects r ticks).1 = (s₂.receiveObjects r ticks).1 ∧
      Alike (Workspace.tenantPrefix tenant) (s₁.receiveObjects r ticks).2
        (s₂.receiveObjects r ticks).2 := by
  intro r
  set shelf₁ := s₁.shelf.writeAll (GitState.written objects) with hshelf₁
  set shelf₂ := s₂.shelf.writeAll (GitState.written objects) with hshelf₂
  have hlookup : ∀ x, Sends P (GitState.written objects) x ∨
      objectAt s₁.shelf.view x = objectAt s₂.shelf.view x →
      (sha1Map shelf₁.view).lookup x = (sha1Map shelf₂.view).lookup x := by
    intro x hx
    rw [Shelf.lookup_eq_objectAt, Shelf.lookup_eq_objectAt, hown.objectAt_eq hx]
  have hlookupOwn : ∀ x, Own s₁.shelf s₂.shelf (GitState.written objects) x →
      (sha1Map shelf₁.view).lookup x = (sha1Map shelf₂.view).lookup x :=
    fun x hx => hlookup x (hx.imp_right Agrees.objectAt_eq)
  have hanswers : AnswersCommands r (Good shelf₁ shelf₂) (sha1Map shelf₁.view)
      (sha1Map shelf₂.view) :=
    ⟨fun c hc hnew => hlookupOwn _ (hown.new c hc hnew), fun c hc hold => hlookup _
      (hown.old c hc hold), fun c hc hnew x hx => hown.good_of_lookup (hown.new c hc hnew) hx⟩
  have hstart : InHand r.segment r (Good shelf₁ shelf₂) (sha1Map shelf₁.view)
      (sha1Map shelf₂.view) s₁.refs r.start := by
    refine ⟨fun n e hn he => hown.good (h.good hn he), fun _ _ _ heq => ?_, nofun, nofun,
      nofun, fun c hc => hc, fun x hx => ?_, nofun⟩
    · cases heq
      exact fun o ho => ho
    · obtain ⟨o, ho, hx⟩ := mem_flatMap.mp hx
      exact hlookupOwn x (hown.children o ho x (referencedSha1s_subset _ _ hx))
  obtain ⟨hpc, hslots, hin⟩ := hstart.run htenant rfl hanswers (fun o ho => hown.good_of_sent ho)
    h.refs ticks r.accesses
  refine ⟨congrArg GitState.replyOf hpc, hslots, fun n e hn he => (hin.points n e hn he).1,
    fun x hx => ?_⟩
  obtain ⟨n, e, hn, he, hx⟩ := mem_tips.mp hx
  exact (hin.points n e hn he).2 x hx

theorem Kept.receiveObjects (h : Kept cfg segment s₁) {r : PushRequest}
    (hfresh : s₁.shelf.Fresh (GitState.written r.objects)) (ticks : Nat → Nat) :
    Kept cfg segment (s₁.receiveObjects r ticks).2 := by
  refine ⟨h.wf, fun key names hkey hsegment x hx => ?_⟩
  obtain ⟨tip, htip, hpath⟩ := h.reached key names hkey hsegment x hx
  exact ⟨tip, htip, leadsTo_mono (fun n o ho => hfresh.objectAt_mono ho) hpath⟩

end

/-! ### Whole runs -/

/-- A push whose thin pack and whose objects name nothing foreign. -/
structure PushDiscreet {P : Primitives} (s₁ s₂ : GitState P) (commands : List RefCommand)
    (pack : List (Nat × Parsed)) : Prop where
  bases : ∀ x ∈ askedBases P (readGitObjectBySha1 s₁.shelf.view) pack,
    objectAt s₁.shelf.view x = objectAt s₂.shelf.view x
  names : ∀ objects, decodePackObjects P (readGitObjectBySha1 s₁.shelf.view) pack = .ok objects →
    NamesOwn s₁.shelf s₂.shelf commands (GitState.written objects)

/-- The request names nothing foreign. -/
def Discreet {P : Primitives} (segment : String) (s₁ s₂ : GitState P) : GitRequest → Prop
  | .receivePack commands pack _ => PushDiscreet s₁ s₂ commands pack
  | .uploadPack r => FetchDiscreet segment s₁ s₂ r

/-- Each request names nothing foreign where it comes. -/
def DiscreetRun {P : Primitives} (cfg : FetchConfig) (segment : String) (s₁ s₂ : GitState P) :
    List GitRequest → Prop
  | [] => True
  | r :: requests =>
    Discreet segment s₁ s₂ r ∧
      DiscreetRun cfg segment (s₁.handle cfg segment r).2 (s₂.handle cfg segment r).2 requests

section

variable {P : Primitives} {cfg : FetchConfig} {tenant : String} {s₁ s₂ : GitState P}

theorem decodePackObjects_eq {commands : List RefCommand} {pack : List (Nat × Parsed)}
    (h : PushDiscreet s₁ s₂ commands pack) :
    decodePackObjects P (readGitObjectBySha1 s₁.shelf.view) pack =
      decodePackObjects P (readGitObjectBySha1 s₂.shelf.view) pack := by
  refine resolveAll_congr fun x hx => ?_
  rw [Shelf.readGitObjectBySha1_view, Shelf.readGitObjectBySha1_view]
  exact h.bases x hx

/-- **One request**: it is answered alike, and the servers stay alike. -/
theorem handle_alike (htenant : Proper tenant) (h : Alike (Workspace.tenantPrefix tenant) s₁ s₂)
    (hkept : Kept cfg (Workspace.tenantPrefix tenant) s₁) {r : GitRequest}
    (hr : Discreet (Workspace.tenantPrefix tenant) s₁ s₂ r) :
    let x₁ := s₁.handle cfg (Workspace.tenantPrefix tenant) r
    let x₂ := s₂.handle cfg (Workspace.tenantPrefix tenant) r
    x₁.1 = x₂.1 ∧ Alike (Workspace.tenantPrefix tenant) x₁.2 x₂.2 ∧
      Kept cfg (Workspace.tenantPrefix tenant) x₁.2 := by
  cases r with
  | receivePack commands pack ticks =>
    have hdecode := decodePackObjects_eq hr
    simp only [GitState.handle, ← hdecode]
    cases hcase : decodePackObjects P (readGitObjectBySha1 s₁.shelf.view) pack with
    | error e => exact ⟨rfl, h, hkept⟩
    | ok objects =>
      have hown := hr.names objects hcase
      obtain ⟨hreply, halike⟩ := receiveObjects_alike htenant h hown ticks
      exact ⟨hreply, halike, hkept.receiveObjects hown.fresh₁ ticks⟩
  | uploadPack r =>
    refine ⟨congrArg GitReply.upload (handleUploadPack_eq h hkept hr), ?_, hkept.uploadPack r⟩
    exact ⟨h.refs, h.targets, h.objects⟩

/-- **What a tenant cannot reach stays hidden**: two servers that agree on its refs and on all that
these lead to give the same answers to its requests, as long as none of them names anything
foreign. -/
theorem foreign_objects_hidden (htenant : Proper tenant)
    (h : Alike (Workspace.tenantPrefix tenant) s₁ s₂)
    (hkept : Kept cfg (Workspace.tenantPrefix tenant) s₁) {requests : List GitRequest}
    (hrun : DiscreetRun cfg (Workspace.tenantPrefix tenant) s₁ s₂ requests) :
    s₁.serve cfg (Workspace.tenantPrefix tenant) requests =
      s₂.serve cfg (Workspace.tenantPrefix tenant) requests := by
  induction requests generalizing s₁ s₂ with
  | nil => rfl
  | cons r requests ih =>
    obtain ⟨hr, hrest⟩ := hrun
    obtain ⟨hreply, halike, hkept'⟩ := handle_alike htenant h hkept hr
    simp only [GitState.serve]
    rw [hreply, ih halike hkept' hrest]

end

/-! ### A tag of another tenant -/

def globexMain : RefName := ⟨"refs/tenants/globex/heads/main", by decide⟩

/-- Another tenant has a ref at a tag. -/
def globexState : GitState samplePrimitives :=
  ⟨((Store.openOn []).update globexMain (.fill 48) none 1).1,
    ⟨[sampleTag, sampleBlob], by decide +kernel⟩,
    ⟨some .empty, .empty⟩⟩

/-- Nobody has anything. -/
def bareState : GitState samplePrimitives := ⟨.openOn [], .empty, ⟨some .empty, .empty⟩⟩

theorem not_under_globexMain : ¬ Under (Workspace.tenantPrefix "acme") globexMain := by
  unfold Under
  decide +kernel

theorem alike_globex_bare : Alike (Workspace.tenantPrefix "acme") globexState bareState := by
  have hslot : ∀ n, Under (Workspace.tenantPrefix "acme") n → globexState.refs.tree.slot n =
      none := by
    intro n hn
    have hne : n ≠ globexMain := fun heq => not_under_globexMain (heq ▸ hn)
    show (RefTree.insert (Store.openOn []).tree globexMain _).slot n = none
    rw [RefTree.slot_insert, if_neg hne]
    rfl
  have hget : ∀ n, Under (Workspace.tenantPrefix "acme") n → globexState.refs.tree.get n =
      none := by
    intro n hn
    rw [RefTree.get, hslot n hn]
    rfl
  refine ⟨hslot, fun n e hn he => ?_, fun x hx => ?_⟩
  · rw [hget n hn] at he
    cases he
  · obtain ⟨n, e, hn, he, -⟩ := mem_tips.mp hx
    rw [hget n hn] at he
    cases he

theorem kept_globex (cfg : FetchConfig) (segment : String) : Kept cfg segment globexState :=
  ⟨Lru.wf_empty, nofun⟩

/-- **A foreign object is obtained by its name.** A tenant without any ref creates one at the tag of
the other tenant, with an empty pack, and clones it. -/
theorem foreign_tag_obtained :
    let cfg := globalCaches List.length
    let segment := Workspace.tenantPrefix "acme"
    let requests : List GitRequest :=
      [.receivePack [⟨nullSha1, .fill 184, "refs/heads/x"⟩] [] (fun _ => 1),
        .uploadPack ⟨[.fill 184], [], [], true, none, .all⟩]
    Proper "acme" ∧ Alike segment globexState bareState ∧ Kept cfg segment globexState ∧
    globexState.serve cfg segment requests =
      [.report [⟨"refs/heads/x", none⟩], .upload (.pack none [sampleTag, sampleBlob])] ∧
    bareState.serve cfg segment requests =
      [.report [⟨"refs/heads/x", some (.objectNotFound (.fill 184))⟩],
        .upload (.notOurRef (.fill 184))] := by
  intro cfg segment requests
  refine ⟨by decide, alike_globex_bare, kept_globex _ _, ?_, ?_⟩
  · decide +kernel
  · decide +kernel

def ownBlob : TypedWrite := ⟨3, [2]⟩

/-- The tenant pushes an object of its own and clones it. -/
def ownRequests : List GitRequest :=
  [.receivePack [⟨nullSha1, .fill 247, "refs/heads/main"⟩] [(12, .base 3 [2])] (fun _ => 1),
    .uploadPack ⟨[.fill 247], [], [], true, none, .all⟩]

theorem ownBlob_fresh {s : Shelf samplePrimitives}
    (h : ∀ w ∈ s.objects, samplePrimitives.blake3 w.content ≠ .fill 219 ∧
      w.gitName samplePrimitives ≠ some (.fill 247)) : s.Fresh [ownBlob] := by
  intro o ho w hw hsame
  obtain rfl := mem_singleton.mp ho
  rcases hw with hw | hw
  · rcases hsame with hsame | hsame
    · exact absurd hsame (h w hw).1
    · exact absurd hsame (h w hw).2
  · exact mem_singleton.mp hw

theorem own_objects_served_alike :
    globexState.serve (globalCaches List.length) (Workspace.tenantPrefix "acme") ownRequests =
      bareState.serve (globalCaches List.length) (Workspace.tenantPrefix "acme") ownRequests := by
  refine foreign_objects_hidden (by decide) alike_globex_bare (kept_globex _ _)
    ⟨⟨?_, ?_⟩, ⟨?_, ?_, ?_⟩, trivial⟩
  · intro x hx
    cases hx
  · intro objects hdecode
    cases hdecode
    have hsent : Sends samplePrimitives [ownBlob] (.fill 247) :=
      ⟨ownBlob, mem_singleton_self _, by decide +kernel⟩
    refine ⟨ownBlob_fresh (by decide +kernel), ownBlob_fresh (by decide +kernel), fun o ho x hx =>
      ?_, fun c hc _ => ?_, fun c hc hold => ?_⟩
    · obtain rfl : o = ownBlob := mem_singleton.mp ho
      cases hx
    · rw [mem_singleton.mp hc]
      exact Or.inl hsent
    · rw [mem_singleton.mp hc] at hold
      exact absurd rfl hold
  · intro x hx
    cases hx
  · exact Or.inl rfl
  · exact Or.inl rfl

end Ledge.Server
