import Ledge.Git.Fetch

/-!
# Ledge.Git.Shallow

**Shallow clients**: a client declares a boundary and holds nothing behind it. What it holds is
closed under the names of its repository, the parents of boundary commits apart.

The server leaves out what it takes for held: with a `deepen` line the snapshots of the boundary,
and otherwise all that the haves lead to, as if the client were not shallow
(`shallow_client_starves`). `shallow_consistent_iff` says that nothing else can go wrong.
-/

namespace Ledge.Git

open Ledge.Core Ledge.RefStore Ledge.Objects Ledge.Lib List

/-! ### What a client needs -/

/-- `y` is named by the object `x` of the repository; a boundary commit is not followed to its
parents, and a gitlink leads to another repository. -/
def Follows (view : StoreView) (boundary : Set Sha1) (x y : Sha1) : Prop :=
  ∃ o, objectAt view x = some o ∧
    (o.gitType = 1 ∧ (commitTreeSha1 o.content = some y ∨ x ∉ boundary ∧
      y ∈ commitParentSha1s o.content) ∨ o.gitType = 2 ∧ y ∈ treeChildSha1sInRepo o.content ∨
      o.gitType = 4 ∧ tagObjectSha1 o.content = some y)

/-- Reachable from the roots without passing to the parents of boundary commits. -/
def Reaches (view : StoreView) (boundary : Set Sha1) (roots : List Sha1) (x : Sha1) : Prop :=
  ∃ root ∈ roots, Relation.ReflTransGen (Follows view boundary) root x

/-- The store has an object of one of these types. -/
def HasType (view : StoreView) (types : List UInt8) (x : Sha1) : Prop :=
  ∃ o, objectAt view x = some o ∧ o.gitType ∈ types

/-- **The repository is complete**: whatever an object names is there, and is of a kind that git
allows in that place. -/
structure CompleteRepo (view : StoreView) : Prop where
  tree : ∀ x o y, objectAt view x = some o → o.gitType = 1 → commitTreeSha1 o.content = some y →
    HasType view [2] y
  parent : ∀ x o, objectAt view x = some o → o.gitType = 1 → ∀ y ∈ commitParentSha1s o.content,
    HasType view [1] y
  entry : ∀ x o, objectAt view x = some o → o.gitType = 2 → ∀ y ∈ treeChildSha1sInRepo o.content,
    HasType view [2, 3] y
  tagged : ∀ x o y, objectAt view x = some o → o.gitType = 4 → tagObjectSha1 o.content = some y →
    HasType view [1, 2, 3, 4] y

/-- The pack of an answer. -/
def UploadReply.objects : UploadReply → Option (List TypedWrite)
  | .notOurRef _ | .nak => none
  | .shallowInfo _ _ objects => objects
  | .pack _ objects => some objects

/-- The boundary after the `shallow` and `unshallow` lines of an answer. -/
def UploadReply.boundary (old : List Sha1) : UploadReply → Set Sha1
  | .notOurRef _ | .nak | .pack _ _ => {b | b ∈ old}
  | .shallowInfo shallow unshallow _ => {b | (b ∈ old ∨ b ∈ shallow) ∧ b ∉ unshallow}

/-- What the server takes for held. -/
def takenAsHeld (view : StoreView) (r : UploadRequest) : List Sha1 :=
  match r.depth with
  | some _ => r.shallow.flatMap (boundaryHeldSet view)
  | none => reachableClosure view (r.haves.filter (fun h => ((sha1Map view).lookup h).isSome))

/-- What the server does not send although the client asks for it. -/
def Withheld (view : StoreView) (r : UploadRequest) (x : Sha1) : Prop :=
  x ∈ takenAsHeld view r ∨ r.depth = none ∧ LeftOut view r.wants r.filter x

section

variable {P : Primitives} {view : StoreView} {boundary : Set Sha1} {x y : Sha1} {o : TypedWrite}
  {wanted held roots : List Sha1} {depth d : Nat}

theorem HasType.stored {types : List UInt8} (h : HasType view types x) : Stored view x := by
  obtain ⟨o, ho, -⟩ := h
  exact stored_of_objectAt ho

/-- The names that a client follows are names that the closure follows. -/
theorem edge_of_follows (h : Follows view boundary x y) : (closureGraph view).Edge x y := by
  obtain ⟨o, ho, hcase⟩ := h
  have hsucc : (closureGraph view).succ x = childSha1s o.gitType o.content := by
    simp only [closureGraph, bodyGraph, bodyNames, ho]
  unfold Graph.Edge
  rw [hsucc]
  unfold childSha1s
  rcases hcase with ⟨htype, hcommit⟩ | ⟨htype, hentry⟩ | ⟨htype, htag⟩
  · rw [htype, if_pos rfl, mem_append, Option.mem_toList]
    exact hcommit.imp_right fun h => h.2
  · rw [htype]
    exact treeChildSha1sInRepo_subset _ hentry
  · rw [htype, if_neg (by decide), if_neg (by decide), if_pos rfl, Option.mem_toList]
    exact htag

theorem CompleteRepo.stored (h : CompleteRepo view) (hfollows : Follows view boundary x y) :
    Stored view y := by
  obtain ⟨o, ho, ⟨htype, htree | ⟨-, hparent⟩⟩ | ⟨htype, hentry⟩ | ⟨htype, htag⟩⟩ := hfollows
  · exact (h.tree x o y ho htype htree).stored
  · exact (h.parent x o ho htype y hparent).stored
  · exact (h.entry x o ho htype y hentry).stored
  · exact (h.tagged x o y ho htype htag).stored

theorem CompleteRepo.stored_of_reaches (h : CompleteRepo view) (hroots : ∀ w ∈ roots, Stored view w)
    (hreach : Reaches view boundary roots x) : Stored view x := by
  obtain ⟨root, hroot, hpath⟩ := hreach
  rcases hpath.cases_tail with rfl | ⟨y, -, hlast⟩
  · exact hroots x hroot
  · exact h.stored hlast

theorem Reaches.leadsTo (h : Reaches view boundary roots x) : ∃ root ∈ roots,
    LeadsTo view root x := by
  obtain ⟨root, hroot, hpath⟩ := h
  exact ⟨root, hroot, hpath.lift id fun _ _ => edge_of_follows⟩

theorem exists_gitName_iff (h : Healthy P view) {names : List Sha1} {objects : List TypedWrite}
    (hpack : List.Forall₂ (Holds view) names objects) :
    (∃ o ∈ objects, o.gitName P = some x) ↔ x ∈ names := by
  have hname : ∀ {x o}, Holds view x o → o.gitName P = some x := fun hholds =>
    (h.holds_of_objectAt hholds.objectAt).2
  induction hpack with
  | nil => simp
  | @cons y o names objects hholds _ ih =>
    simp only [mem_cons, exists_eq_or_imp, ih, hname hholds, Option.some.injEq]
    exact or_congr_left eq_comm

/-! ### The snapshots of a history -/

/-- The names that the second phase packs. -/
def snapshotNamesOf (view : StoreView) (held roots : List Sha1) : List Sha1 :=
  let fresh := roots.filter (· ∉ held)
  fresh ++ (snapshotGraph view).sweep (fresh ++ held) (fresh.flatMap (bodyNames view rootNames))

theorem notMem_snapshotNamesOf (h : x ∈ held) : x ∉ snapshotNamesOf view held roots := by
  intro hmem
  rcases mem_append.mp hmem with hmem | hmem
  · exact of_decide_eq_true (mem_filter.mp hmem).2 h
  · exact Graph.notMem_of_mem_sweep hmem (mem_append_right _ h)

theorem mem_snapshotNamesOf_root (held : List Sha1) (h : x ∈ roots) : x ∈ held ∨
    x ∈ snapshotNamesOf view held roots := by
  by_cases hheld : x ∈ held
  · exact Or.inl hheld
  · exact Or.inr (mem_append_left _ (mem_filter.mpr ⟨h, decide_eq_true hheld⟩))

/-- A tree or the tree of a commit that is packed has its entries packed. -/
theorem mem_snapshotNamesOf_next (hx : x ∈ snapshotNamesOf view held roots)
    (hroot : x ∈ roots → y ∈ bodyNames view rootNames x)
    (hentry : x ∉ roots → y ∈ bodyNames view snapshotNames x) :
    y ∈ held ∨ y ∈ snapshotNamesOf view held roots := by
  have hseen : y ∈ roots.filter (· ∉ held) ++ held ∨ y ∈ (snapshotGraph view).sweep
      (roots.filter (· ∉ held) ++ held) ((roots.filter (· ∉ held)).flatMap
        (bodyNames view rootNames)) := by
    rcases mem_append.mp hx with hx | hx
    · have hmem := (mem_filter.mp hx).1
      exact Graph.mem_sweep_of_mem (mem_flatMap.mpr ⟨x, hx, hroot hmem⟩)
    · refine Graph.mem_sweep_of_edge hx (hentry fun hmem => ?_)
      refine Graph.notMem_of_mem_sweep hx ?_
      by_cases hheld : x ∈ held
      · exact mem_append_right _ hheld
      · exact mem_append_left _ (mem_filter.mpr ⟨hmem, decide_eq_true hheld⟩)
  rcases hseen with hseen | hseen
  · rcases mem_append.mp hseen with hseen | hseen
    · exact Or.inr (mem_append_left _ hseen)
    · exact Or.inl hseen
  · exact Or.inr (mem_append_right _ hseen)

/-! ### The walk over the history -/

section

variable {walk : List (Sha1 × Nat)} (hwalk : walk = history view wanted [] depth)

include hwalk

theorem mem_history_want (h : x ∈ wanted) : ∃ d, (x, d) ∈ walk := by
  rw [hwalk]
  have htodo : (x, 1) ∈ wanted.map (fun w => (w, 1)) := mem_map_of_mem h
  exact (Graph.exists_mem_explore htodo).resolve_left not_mem_nil

theorem mem_history_next {d' : Nat} (h : (x, d) ∈ walk)
    (hlabel : nextDepth view depth x d = some d')
    (hname : y ∈ bodyNames view (historyNames view []) x) : ∃ d, (y, d) ∈ walk := by
  rw [hwalk] at h ⊢
  exact (Graph.exists_mem_explore_of_edge h hlabel hname).resolve_left not_mem_nil

theorem history_unique {d' : Nat} (h : (x, d) ∈ walk) (h' : (x, d') ∈ walk) : d = d' := by
  rw [hwalk] at h h'
  have hnodup : ((history view wanted [] depth).map Prod.fst).Nodup := Graph.nodup_explore
  have heq := inj_on_of_nodup_map hnodup h h' rfl
  exact (Prod.mk.inj heq).2

theorem mem_history_tag (h : (x, d) ∈ walk) (ho : objectAt view x = some o) (htype : o.gitType = 4)
    (htag : tagObjectSha1 o.content = some y) : ∃ d, (y, d) ∈ walk := by
  have hlabel : nextDepth view depth x d = some d := by simp [nextDepth, ho, htype]
  refine mem_history_next hwalk h hlabel ?_
  simp [bodyNames, ho, historyNames, htype, htag]

omit hwalk in
theorem mem_historyNames_parent (ho : objectAt view x = some o) (htype : o.gitType = 1)
    (hparent : y ∈ commitParentSha1s o.content) (hstored : Stored view y) :
    y ∈ bodyNames view (historyNames view []) x := by
  simp only [bodyNames, ho, historyNames, htype, if_true]
  exact mem_filter.mpr ⟨hparent, decide_eq_true ⟨not_mem_nil, hstored⟩⟩

/-- The parents of a commit are taken too, unless it is a new boundary. -/
theorem mem_history_parent (h : (x, d) ∈ walk) (ho : objectAt view x = some o)
    (htype : o.gitType = 1) (hparent : y ∈ commitParentSha1s o.content) (hstored : Stored view y) :
    x ∈ newShallow view [] depth walk ∨ ∃ d, (y, d) ∈ walk := by
  have hname := mem_historyNames_parent ho htype hparent hstored
  by_cases hdeep : d < depth
  · have hlabel : nextDepth view depth x d = some (d + 1) := by simp [nextDepth, ho, htype, hdeep]
    exact Or.inr (mem_history_next hwalk h hlabel hname)
  · refine Or.inl (mem_map.mpr ⟨(x, d), mem_filter.mpr ⟨h, decide_eq_true ⟨?_, ?_, ?_⟩⟩, rfl⟩)
    · simp [isCommit, ho, htype]
    · exact Nat.le_of_not_lt hdeep
    · exact ne_nil_of_mem hname

omit hwalk in
theorem mem_historyRoots (h : (x, d) ∈ walk) (hstored : (objectAt view x).isSome) :
    x ∈ historyRoots view walk :=
  mem_map.mpr ⟨(x, d), mem_filter.mpr ⟨h, hstored⟩, rfl⟩

end

/-! ### What a shallow request brings -/

/-- What a client holds is closed under the names that it follows. -/
def HeldClosed (view : StoreView) (boundary : List Sha1) (client : Set Sha1) : Prop :=
  ∀ x ∈ client, ∀ y, Follows view {b | b ∈ boundary} x y → y ∈ client

section

variable {client : Set Sha1} {old : List Sha1}

/-- **A request with a depth** brings all that the client needs, apart from what is wrongly taken
for held. -/
theorem snapshots_cover (hcomplete : CompleteRepo view) (hwants : ∀ w ∈ wanted, Stored view w)
    (hhealthy : Healthy P view) (hclient : HeldClosed view old client) {walk : List (Sha1 × Nat)}
    (hwalk : walk = history view wanted [] depth)
    (hboundary : ∀ b ∈ newShallow view [] depth walk, b ∈ boundary)
    (hheld : ∀ x, Reaches view boundary wanted x → x ∈ held → x ∈ client)
    (hreach : Reaches view boundary wanted x) :
    x ∈ client ∨ x ∈ snapshotNamesOf view held (historyRoots view walk) := by
  have hroot : ∀ {x d}, (x, d) ∈ walk → Reaches view boundary wanted x →
      x ∈ client ∨ x ∈ snapshotNamesOf view held (historyRoots view walk) := by
    intro x d hx hreach
    obtain ⟨o, hholds, -⟩ := hhealthy.holds x (hcomplete.stored_of_reaches hwants hreach)
    have hsome : (objectAt view x).isSome := by
      rw [hholds.objectAt]
      rfl
    rcases mem_snapshotNamesOf_root held (mem_historyRoots hx hsome) with hmem | hmem
    · exact Or.inl (hheld x hreach hmem)
    · exact Or.inr hmem
  obtain ⟨root, hmem, hpath⟩ := hreach
  -- commits and tags on the way have been taken by the walk
  suffices hboth : (x ∈ client ∨ x ∈ snapshotNamesOf view held (historyRoots view walk)) ∧
      (HasType view [1, 4] x → ∃ d, (x, d) ∈ walk) from hboth.1
  induction hpath with
  | refl =>
    obtain ⟨d, hd⟩ := mem_history_want hwalk hmem
    exact ⟨hroot hd ⟨root, hmem, .refl⟩, fun _ => ⟨d, hd⟩⟩
  | @tail x y hpath hstep ih =>
    obtain ⟨hx, htaken⟩ := ih
    have hreach : Reaches view boundary wanted y := ⟨root, hmem, hpath.tail hstep⟩
    obtain ⟨o, ho, hcase⟩ := hstep
    -- the tree of a commit and the entries of a tree come with it
    have hcontents : ∀ {types : List UInt8}, 1 ∉ types → 4 ∉ types → HasType view types y →
        (x ∈ client → y ∈ client) →
        (x ∈ historyRoots view walk → y ∈ bodyNames view rootNames x) →
        (x ∉ historyRoots view walk → y ∈ bodyNames view snapshotNames x) →
        (y ∈ client ∨ y ∈ snapshotNamesOf view held (historyRoots view walk)) ∧
          (HasType view [1, 4] y → ∃ d, (y, d) ∈ walk) := by
      intro types hcommit htag htype hclosed hrootName hentryName
      refine ⟨?_, fun hother => ?_⟩
      · rcases hx with hx | hx
        · exact Or.inl (hclosed hx)
        · rcases mem_snapshotNamesOf_next hx hrootName hentryName with hmem | hmem
          · exact Or.inl (hheld y hreach hmem)
          · exact Or.inr hmem
      · obtain ⟨o₁, ho₁, htype₁⟩ := htype
        obtain ⟨o₂, ho₂, htype₂⟩ := hother
        cases ho₁.symm.trans ho₂
        rcases mem_cons.mp htype₂ with heq | hmem
        · exact absurd (heq ▸ htype₁) hcommit
        · exact absurd (mem_singleton.mp hmem ▸ htype₁) htag
    rcases hcase with ⟨htype, htree | ⟨hnot, hparent⟩⟩ | ⟨htype, hentry⟩ | ⟨htype, htag⟩
    · obtain ⟨d, hd⟩ := htaken ⟨o, ho, by simp [htype]⟩
      have hroots : x ∈ historyRoots view walk := mem_historyRoots hd (by rw [ho]; rfl)
      refine hcontents (by decide) (by decide) (hcomplete.tree x o y ho htype htree)
        (fun hx => hclient x hx y ⟨o, ho, Or.inl ⟨htype, Or.inl htree⟩⟩) (fun _ => ?_)
        (fun hnot => absurd hroots hnot)
      simp [bodyNames, ho, rootNames, htype, htree]
    · obtain ⟨d, hd⟩ := htaken ⟨o, ho, by simp [htype]⟩
      have hstored := (hcomplete.parent x o ho htype y hparent).stored
      rcases mem_history_parent hwalk hd ho htype hparent hstored with hnew | ⟨d', hd'⟩
      · exact absurd (hboundary x hnew) hnot
      · exact ⟨hroot hd' hreach, fun _ => ⟨d', hd'⟩⟩
    · have hchild := treeChildSha1sInRepo_subset _ hentry
      refine hcontents (by decide) (by decide) (hcomplete.entry x o ho htype y hentry)
        (fun hx => hclient x hx y ⟨o, ho, Or.inr (Or.inl ⟨htype, hentry⟩)⟩) (fun _ => ?_)
          (fun _ => ?_)
      · simp [bodyNames, ho, rootNames, htype, hchild]
      · simp [bodyNames, ho, snapshotNames, htype, hchild]
    · obtain ⟨d, hd⟩ := htaken ⟨o, ho, by simp [htype]⟩
      obtain ⟨d', hd'⟩ := mem_history_tag hwalk hd ho htype htag
      exact ⟨hroot hd' hreach, fun _ => ⟨d', hd'⟩⟩

theorem packSnapshots_holds (hhealthy : Healthy P view) (held roots : List Sha1) :
    List.Forall₂ (Holds view) ((snapshotNamesOf view held roots).filter
      (fun x => (objectAt view x).isSome)) (packSnapshots view held roots) := by
  refine (forall₂_filterMap _).imp fun x o ho => ?_
  exact (hhealthy.holds_of_objectAt ho).1

end

/-! ### What an answer says -/

section

variable {cfg : FetchConfig} {env : FetchEnv} {segment : String} {r : UploadRequest}
  {caches : FetchCaches} {objects : List TypedWrite}

/-- The pack and the lines of an answer: those of a fetch, or those of a request with a depth. -/
theorem handleUploadPack_objects (henv : env.Sees view) (hpacks : caches.packs = none)
    (hauth : (authorizeWants cfg env segment r.wants caches).1 = none)
    (hobjects : (handleUploadPack cfg env segment r caches).1.objects = some objects) :
    r.depth = none ∧ objects = collectPackObjects view r.wants (takenAsHeld view r) r.filter ∧
      (handleUploadPack cfg env segment r caches).1.boundary r.shallow = {b | b ∈ r.shallow} ∨
    ∃ d walk, r.depth = some d ∧ walk = history view r.wants [] (max d 1) ∧
      objects = packSnapshots view (takenAsHeld view r) (historyRoots view walk) ∧
      ∀ b ∈ newShallow view [] (max d 1) walk,
        b ∈ (handleUploadPack cfg env segment r caches).1.boundary r.shallow := by
  cases hdepth : r.depth with
  | none =>
    by_cases hdone : r.haves = [] ∨ r.done = true
    · obtain ⟨caches', hreply⟩ := handleUploadPack_pack hdone hdepth hpacks hauth
      rw [hreply] at hobjects ⊢
      refine Or.inl ⟨rfl, ?_, rfl⟩
      rw [← Option.some.inj hobjects, takenAsHeld, hdepth, henv.collect, henv.exclude, commons,
        henv.negotiate]
    · -- without `done` there is only a `NAK`
      obtain ⟨hhaves, hnot⟩ := not_or.mp hdone
      have hnak : (handleUploadPack cfg env segment r caches).1 = .nak := by
        rw [handleUploadPack, Prod.fst_eq_iff.mp hauth, hdepth]
        dsimp only
        rw [if_neg hhaves, if_neg hnot]
      rw [hnak] at hobjects
      cases hobjects
  | some d =>
    have hreply : (handleUploadPack cfg env segment r caches).1 =
        .shallowInfo (newShallow view [] (max d 1) (history view r.wants [] (max d 1)))
          (if r.shallow = [] then [] else
            ((history view r.wants [] (max d 1)).filter
              (fun x => isCommit view x.1 ∧ x.2 < max d 1 ∧ x.1 ∈ r.shallow)).map Prod.fst)
          (if r.done then some (packSnapshots view (takenAsHeld view r)
            (historyRoots view (history view r.wants [] (max d 1)))) else none) := by
      rw [handleUploadPack, Prod.fst_eq_iff.mp hauth, takenAsHeld, hdepth, henv.collect]
      dsimp only
      by_cases hshallow : r.shallow = []
      · rw [hshallow]
        rfl
      · rw [if_neg hshallow, if_neg hshallow]
        rfl
    refine Or.inr ⟨d, _, rfl, rfl, ?_, fun b hb => ?_⟩
    · rw [hreply] at hobjects
      have hpack : (if r.done then some (packSnapshots view (takenAsHeld view r)
          (historyRoots view (history view r.wants [] (max d 1)))) else none) = some objects :=
            hobjects
      split_ifs at hpack
      exact (Option.some.inj hpack).symm
    · -- a new boundary is at the depth limit, and what is given up is above it
      rw [hreply]
      refine ⟨Or.inr hb, fun hgone => ?_⟩
      split_ifs at hgone
      · cases hgone
      · obtain ⟨x, hx, rfl⟩ := mem_map.mp hb
        obtain ⟨y, hy, hname⟩ := mem_map.mp hgone
        obtain ⟨hxmem, hxdeep⟩ := mem_filter.mp hx
        obtain ⟨hymem, hydeep⟩ := mem_filter.mp hy
        have hmem : (x.1, y.2) ∈ history view r.wants [] (max d 1) := by
          rw [← hname]
          exact hymem
        have hunique : x.2 = y.2 := history_unique rfl hxmem hmem
        have hlimit := (of_decide_eq_true hxdeep).2.1
        have habove := (of_decide_eq_true hydeep).2.1
        omega

variable {client : Set Sha1}

/-- **When shallow clients stay consistent**: after a request that gets a pack the client holds all
that the wants lead to within the new boundary, if and only if it held whatever of that the server
does not send. -/
theorem shallow_consistent_iff (hhealthy : Healthy P view) (hcomplete : CompleteRepo view)
    (henv : env.Sees view) (hpacks : caches.packs = none)
    (hauth : (authorizeWants cfg env segment r.wants caches).1 = none)
    (hwants : ∀ w ∈ r.wants, Stored view w) (hclient : HeldClosed view r.shallow client)
    (hobjects : (handleUploadPack cfg env segment r caches).1.objects = some objects) :
    (∀ x, Reaches view ((handleUploadPack cfg env segment r caches).1.boundary r.shallow) r.wants
        x → x ∈ client ∨ ∃ o ∈ objects, o.gitName P = some x) ↔
      ∀ x, Reaches view ((handleUploadPack cfg env segment r caches).1.boundary r.shallow) r.wants
        x → Withheld view r x → x ∈ client := by
  rcases handleUploadPack_objects henv hpacks hauth hobjects with
    ⟨hdepth, rfl, -⟩ | ⟨d, walk, hdepth, hwalk, rfl, hboundary⟩
  · have hclosed : ∀ a ∈ takenAsHeld view r, ∀ b, (closureGraph view).Edge a b →
        b ∈ takenAsHeld view r := by
      intro a ha b hedge
      unfold takenAsHeld at ha ⊢
      rw [hdepth] at ha ⊢
      exact reachableClosure_closed ha hedge
    obtain ⟨names, -, hholds, hnames⟩ := collectPackObjects_exact hhealthy r.wants r.filter hclosed
    refine forall₂_congr fun x hreach => ?_
    rw [exists_gitName_iff hhealthy hholds, hnames]
    have hstored := hcomplete.stored_of_reaches hwants hreach
    have hwithheld : Withheld view r x ↔ x ∈ takenAsHeld view r ∨
        LeftOut view r.wants r.filter x := by
      simp [Withheld, hdepth]
    have hleads := hreach.leadsTo
    tauto
  · have hwithheld : ∀ x, Withheld view r x ↔ x ∈ takenAsHeld view r := by
      intro x
      simp [Withheld, hdepth]
    have hpack : ∀ x, (∃ o ∈ packSnapshots view (takenAsHeld view r) (historyRoots view walk),
        o.gitName P = some x) ↔
        x ∈ snapshotNamesOf view (takenAsHeld view r) (historyRoots view walk) ∧
          (objectAt view x).isSome := by
      intro x
      rw [exists_gitName_iff hhealthy (packSnapshots_holds hhealthy _ _), mem_filter]
    constructor
    · intro hholds x hreach hheld
      refine (hholds x hreach).resolve_right fun hsent => ?_
      exact notMem_snapshotNamesOf ((hwithheld x).mp hheld) ((hpack x).mp hsent).1
    · intro hheld x hreach
      refine (snapshots_cover hcomplete hwants hhealthy hclient hwalk (hwalk ▸ hboundary)
        (fun x hreach hmem => hheld x hreach ((hwithheld x).mpr hmem)) hreach).imp_right fun hmem =>
          ?_
      obtain ⟨o, hholds, -⟩ := hhealthy.holds x (hcomplete.stored_of_reaches hwants hreach)
      refine (hpack x).mpr ⟨hmem, ?_⟩
      rw [hholds.objectAt]
      rfl

end

end

/-! ### A fork behind the boundary -/

variable {P : Primitives} {writes : List TypedWrite}

theorem mem_of_objectAt_ofWrites {x : Sha1} {o : TypedWrite}
    (h : objectAt (ofWrites P writes) x = some o) : o ∈ writes := by
  unfold objectAt at h
  cases hlookup : (sha1Map (ofWrites P writes)).lookup x with
  | none =>
    rw [hlookup] at h
    cases h
  | some id =>
    rw [hlookup] at h
    dsimp only [ofWrites, gitTypeOr] at h
    cases hfind : writes.find? (fun o => P.blake3 o.content = id) with
    | none =>
      rw [hfind] at h
      cases h
    | some o' =>
      rw [hfind] at h
      cases h
      exact mem_of_find?_eq_some hfind

/-- The object is there, with one of these types. -/
def hasTypeB (view : StoreView) (types : List UInt8) (x : Sha1) : Bool :=
  (objectAt view x).any (fun o => o.gitType ∈ types)

theorem hasType_of_hasTypeB {view : StoreView} {types : List UInt8} {x : Sha1}
    (h : hasTypeB view types x = true) : HasType view types x := by
  obtain ⟨o, ho, htype⟩ := Option.any_eq_true _ _ |>.mp h
  exact ⟨o, ho, of_decide_eq_true htype⟩

/-- The names of a written object are those of objects of the right kinds. -/
def completeAt (view : StoreView) (o : TypedWrite) : Bool :=
  (o.gitType ≠ 1 || ((commitTreeSha1 o.content).toList.all (hasTypeB view [2]) &&
      (commitParentSha1s o.content).all (hasTypeB view [1]))) &&
    (o.gitType ≠ 2 || (treeChildSha1sInRepo o.content).all (hasTypeB view [2, 3])) &&
    (o.gitType ≠ 4 || (tagObjectSha1 o.content).toList.all (hasTypeB view [1, 2, 3, 4]))

theorem completeRepo_ofWrites (h : writes.all (completeAt (ofWrites P writes)) = true) :
    CompleteRepo (ofWrites P writes) := by
  have hat : ∀ {x o}, objectAt (ofWrites P writes) x = some o → completeAt (ofWrites P writes) o =
      true :=
    fun ho => all_eq_true.mp h _ (mem_of_objectAt_ofWrites ho)
  refine ⟨fun x o y ho htype hy => ?_, fun x o ho htype y hy => ?_, fun x o ho htype y hy => ?_,
    fun x o y ho htype hy => ?_⟩
  all_goals
    have hall := hat ho
    simp only [completeAt, htype, ne_eq, not_true_eq_false, decide_false, Bool.false_or,
      Bool.and_eq_true, all_eq_true] at hall
    refine hasType_of_hasTypeB ?_
  · exact hall.1.1.1 y (Option.mem_toList.mpr hy)
  · exact hall.1.1.2 y hy
  · exact hall.1.2 y hy
  · exact hall.2 y (Option.mem_toList.mpr hy)

def emptyTree : TypedWrite := ⟨2, []⟩

def rootCommit : TypedWrite := ⟨1, strBytes "tree abababababababababababababababababababab\n"⟩

/-- The commit that the client has. -/
def oldCommit : TypedWrite := ⟨1, strBytes ("tree abababababababababababababababababababab\n" ++
  "parent 1010101010101010101010101010101010101010\n")⟩

/-- Another commit with the same parent. -/
def newCommit : TypedWrite := ⟨1, strBytes ("tree abababababababababababababababababababab\n" ++
  "parent 1010101010101010101010101010101010101010\n\nc")⟩

def forkView : StoreView := ofWrites samplePrimitives [newCommit, oldCommit, rootCommit, emptyTree]

theorem healthy_forkView : Healthy samplePrimitives forkView := healthy_ofWrites (by decide +kernel)

theorem completeRepo_forkView : CompleteRepo forkView := completeRepo_ofWrites (by decide +kernel)

/-- The client has the old commit and its tree. -/
def shallowClient : Set Sha1 := {.fill 255, .fill 171}

theorem heldClosed_shallowClient : HeldClosed forkView [.fill 255] shallowClient := by
  have hold : objectAt forkView (.fill 255) = some oldCommit := by decide +kernel
  have htree : objectAt forkView (.fill 171) = some emptyTree := by decide +kernel
  have hname : commitTreeSha1 oldCommit.content = some (.fill 171) := by decide +kernel
  have hentries : treeChildSha1sInRepo emptyTree.content = [] := by decide +kernel
  rintro x (rfl | rfl) y ⟨o, ho, hcase⟩
  · cases hold.symm.trans ho
    rcases hcase with ⟨-, hy | ⟨hnot, -⟩⟩ | ⟨htype, -⟩ | ⟨htype, -⟩
    · cases hname.symm.trans hy
      exact Or.inr rfl
    · exact absurd mem_cons_self hnot
    · cases htype
    · cases htype
  · cases htree.symm.trans ho
    rcases hcase with ⟨htype, -⟩ | ⟨-, hy⟩ | ⟨htype, -⟩
    · cases htype
    · rw [hentries] at hy
      cases hy
    · cases htype

/-- The parent of the new commit is needed, whatever the boundary is elsewhere. -/
theorem reaches_root {boundary : Set Sha1} (h : .fill 22 ∉ boundary) :
    Reaches forkView boundary [.fill 22] (.fill 16) := by
  have hnew : objectAt forkView (.fill 22) = some newCommit := by decide +kernel
  have hparent : Sha1.fill 16 ∈ commitParentSha1s newCommit.content := by decide +kernel
  refine ⟨_, mem_cons_self, .single ⟨newCommit, hnew, Or.inl ⟨rfl, Or.inr ⟨h, hparent⟩⟩⟩⟩

/-- **A shallow client starves.** It fetches a commit whose parent is behind its boundary, and does
not get that parent: it is reachable from what the client has. -/
theorem shallow_client_starves :
    let r : UploadRequest := ⟨[.fill 22], [.fill 255], [.fill 255], true, none, .all⟩
    let reply := (handleUploadPack (globalCaches List.length)
      (.on forkView [.fill 22]) "" r ⟨none, .empty⟩).1
    Healthy samplePrimitives forkView ∧ CompleteRepo forkView ∧
    HeldClosed forkView r.shallow shallowClient ∧ (∀ h ∈ r.haves, h ∈ shallowClient) ∧
    reply = .pack (some (.fill 255)) [newCommit] ∧
    Reaches forkView (reply.boundary r.shallow) r.wants (.fill 16) ∧
    .fill 16 ∉ shallowClient ∧ newCommit.gitName samplePrimitives ≠ some (.fill 16) := by
  intro r reply
  have hreply : reply = .pack (some (.fill 255)) [newCommit] := by decide +kernel
  refine ⟨healthy_forkView, completeRepo_forkView, heldClosed_shallowClient, fun h hh => ?_, hreply,
    ?_, ?_, ?_⟩
  · rw [mem_singleton.mp hh]
    exact Or.inl rfl
  · refine reaches_root fun hmem => ?_
    have hne : Sha1.fill 22 ∉ [Sha1.fill 255] := by decide
    exact hne hmem
  · rintro (hmem | hmem)
    · exact absurd hmem (by decide)
    · exact absurd hmem (by decide)
  · decide +kernel

/-- With a `deepen` line the parent comes. -/
theorem deepened_client_served :
    let r : UploadRequest := ⟨[.fill 22], [.fill 255], [.fill 255], true, some 10, .all⟩
    let objects := [newCommit, rootCommit]
    (handleUploadPack (globalCaches List.length) (.on forkView [.fill 22]) "" r
      ⟨none, .empty⟩).1.objects = some objects ∧
    (.fill 16 ∈ shallowClient ∨ ∃ o ∈ objects, o.gitName samplePrimitives = some (.fill 16)) := by
  intro r objects
  have hobjects : (handleUploadPack (globalCaches List.length) (.on forkView [.fill 22]) "" r
      ⟨none, .empty⟩).1.objects = some objects := by decide +kernel
  have hheld : takenAsHeld forkView r = [.fill 255, .fill 171] := by decide +kernel
  have hreply : (handleUploadPack (globalCaches List.length) (.on forkView [.fill 22]) "" r
      ⟨none, .empty⟩).1 = .shallowInfo [] [] (some objects) := by decide +kernel
  refine ⟨hobjects, ?_⟩
  refine (@shallow_consistent_iff samplePrimitives forkView (globalCaches List.length)
    (.on forkView [.fill 22]) "" r ⟨none, .empty⟩ objects shallowClient healthy_forkView
    completeRepo_forkView (FetchEnv.sees_on _ _) rfl (by decide +kernel) ?_ heldClosed_shallowClient
    hobjects).mpr ?_ (.fill 16) ?_
  · intro w hw
    rw [mem_singleton.mp hw]
    unfold Stored
    decide +kernel
  · rintro x - (hmem | ⟨hdepth, -⟩)
    · rw [hheld] at hmem
      rcases mem_cons.mp hmem with rfl | hmem
      · exact Or.inl rfl
      · exact Or.inr (mem_singleton.mp hmem)
    · cases hdepth
  · rw [hreply]
    refine reaches_root fun hmem => ?_
    have hne : Sha1.fill 22 ∉ [Sha1.fill 255] := by decide
    rcases hmem.1 with hmem | hmem
    · exact hne hmem
    · cases hmem

end Ledge.Git
