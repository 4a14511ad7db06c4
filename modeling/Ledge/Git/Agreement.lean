import Ledge.Git.Requests

/-!
# Ledge.Git.Agreement

Two stores and the names on which they agree (`Agrees`): what such a name leads to is the same in
both. So
**the walks of a fetch that start at names that agree find the same**, object by object and in the
same order.
-/

namespace Ledge.Git

open Ledge.Core Ledge.RefStore Ledge.Objects Ledge.Lib List

/-- Both stores have the same object under each name that `x` leads to, or none. -/
def Agrees (v₁ v₂ : StoreView) (x : Sha1) : Prop :=
  ∀ y, LeadsTo v₁ x y → objectAt v₁ y = objectAt v₂ y

/-! ### Walks -/

section

variable {v₁ v₂ : StoreView} {x y : Sha1} {follow : UInt8 → List UInt8 → List Sha1}

theorem Agrees.objectAt_eq (h : Agrees v₁ v₂ x) : objectAt v₁ x = objectAt v₂ x := h x .refl

theorem Agrees.leads (h : Agrees v₁ v₂ x) (hpath : LeadsTo v₁ x y) : Agrees v₁ v₂ y :=
  fun z hz => h z (hpath.trans hz)

theorem bodyNames_subset (hfollow : ∀ gitType content,
    follow gitType content ⊆ childSha1s gitType content)
    (view : StoreView) (x : Sha1) : bodyNames view follow x ⊆ bodyNames view childSha1s x := by
  unfold bodyNames
  cases objectAt view x with
  | none => exact nil_subset _
  | some o => exact hfollow o.gitType o.content

theorem Agrees.child (h : Agrees v₁ v₂ x)
    (hfollow : ∀ gitType content, follow gitType content ⊆ childSha1s gitType content)
    (hy : y ∈ bodyNames v₁ follow x) : Agrees v₁ v₂ y :=
  h.leads (.single (bodyNames_subset hfollow v₁ x hy))

theorem Agrees.bodyNames_eq (h : Agrees v₁ v₂ x) : bodyNames v₁ follow x =
    bodyNames v₂ follow x := by
  unfold bodyNames
  rw [h.objectAt_eq]

variable {seen queue roots : List Sha1}

theorem sweep_bodyGraph_eq
    (hfollow : ∀ gitType content, follow gitType content ⊆ childSha1s gitType content)
    (hqueue : ∀ x ∈ queue, Agrees v₁ v₂ x) :
    (bodyGraph v₁ follow).sweep seen queue = (bodyGraph v₂ follow).sweep seen queue :=
  Graph.sweep_congr (S := {x | Agrees v₁ v₂ x}) (fun _ ha => ha.bodyNames_eq)
    (fun _ ha _ hb => ha.child hfollow hb) hqueue

theorem agrees_of_mem_sweep
    (hfollow : ∀ gitType content, follow gitType content ⊆ childSha1s gitType content)
    (hqueue : ∀ x ∈ queue, Agrees v₁ v₂ x) (h : y ∈ (bodyGraph v₁ follow).sweep seen queue) :
    Agrees v₁ v₂ y := by
  obtain ⟨z, hz, hpath⟩ := Graph.path_of_mem_explore (Graph.mem_sweep_iff_mem_explore.mp h)
  obtain ⟨a, ha, rfl⟩ := mem_map.mp hz
  refine (hqueue a ha).leads (hpath.lift id fun b c hedge => ?_)
  exact bodyNames_subset hfollow v₁ b hedge

theorem childSha1s_subset (gitType : UInt8) (content : List UInt8) :
    childSha1s gitType content ⊆ childSha1s gitType content := List.Subset.refl _

theorem snapshotNames_subset (gitType : UInt8) (content : List UInt8) :
    snapshotNames gitType content ⊆ childSha1s gitType content := by
  unfold snapshotNames childSha1s
  by_cases htree : gitType = 2
  · rw [htree]
    exact List.Subset.refl _
  · rw [if_neg htree]
    exact nil_subset _

theorem rootNames_subset (gitType : UInt8) (content : List UInt8) :
    rootNames gitType content ⊆ childSha1s gitType content := by
  unfold rootNames childSha1s
  by_cases hcommit : gitType = 1
  · rw [if_pos hcommit, if_pos hcommit]
    exact subset_append_left _ _
  · rw [if_neg hcommit, if_neg hcommit]
    by_cases htree : gitType = 2
    · rw [if_pos htree, if_pos htree]
      exact List.Subset.refl _
    · rw [if_neg htree]
      exact nil_subset _

theorem historyNames_subset (view : StoreView) (exclude : List Sha1) (gitType : UInt8)
    (content : List UInt8) : historyNames view exclude gitType content ⊆ childSha1s gitType
      content := by
  unfold historyNames childSha1s
  by_cases htag : gitType = 4
  · rw [htag]
    exact List.Subset.refl _
  · rw [if_neg htag]
    by_cases hcommit : gitType = 1
    · rw [if_pos hcommit, if_pos hcommit]
      exact fun a ha => mem_append_right _ (mem_filter.mp ha).1
    · rw [if_neg hcommit]
      exact nil_subset _

theorem reachableClosure_eq (h : ∀ x ∈ roots, Agrees v₁ v₂ x) :
    reachableClosure v₁ roots = reachableClosure v₂ roots := sweep_bodyGraph_eq childSha1s_subset h

theorem collectPackObjects_eq {wanted : List Sha1} (exclude : List Sha1) (filter : BlobFilter)
    (h : ∀ x ∈ wanted, Agrees v₁ v₂ x) :
    collectPackObjects v₁ wanted exclude filter = collectPackObjects v₂ wanted exclude filter := by
  have hsweep : (closureGraph v₁).sweep exclude wanted = (closureGraph v₂).sweep exclude wanted :=
    sweep_bodyGraph_eq childSha1s_subset h
  unfold collectPackObjects
  rw [← hsweep]
  refine filterMap_congr fun x hx => ?_
  unfold packEntry
  rw [(agrees_of_mem_sweep childSha1s_subset h hx).objectAt_eq]

theorem packSnapshots_eq (held : List Sha1) (h : ∀ x ∈ roots, Agrees v₁ v₂ x) :
    packSnapshots v₁ held roots = packSnapshots v₂ held roots := by
  have hfresh : ∀ x ∈ roots.filter (· ∉ held), Agrees v₁ v₂ x := fun x hx =>
    h x (mem_filter.mp hx).1
  have hqueue : ∀ x ∈ (roots.filter (· ∉ held)).flatMap (bodyNames v₁ rootNames),
      Agrees v₁ v₂ x := by
    intro x hx
    obtain ⟨root, hroot, hx⟩ := mem_flatMap.mp hx
    exact (hfresh root hroot).child rootNames_subset hx
  have hnames : (roots.filter (· ∉ held)).flatMap (bodyNames v₁ rootNames) =
      (roots.filter (· ∉ held)).flatMap (bodyNames v₂ rootNames) :=
    flatMap_congr fun x hx => (hfresh x hx).bodyNames_eq
  unfold packSnapshots snapshotGraph
  dsimp only
  rw [← hnames, ← sweep_bodyGraph_eq snapshotNames_subset hqueue]
  refine filterMap_congr fun x hx => ?_
  rcases mem_append.mp hx with hx | hx
  · exact (hfresh x hx).objectAt_eq
  · exact (agrees_of_mem_sweep snapshotNames_subset hqueue hx).objectAt_eq

end

/-! ### The history -/

section

variable {P : Primitives} {s₁ s₂ : Shelf P} {x : Sha1} {wanted exclude : List Sha1} {depth : Nat}

theorem Agrees.lookup_eq (h : Agrees s₁.view s₂.view x) :
    (sha1Map s₁.view).lookup x = (sha1Map s₂.view).lookup x := by
  rw [Shelf.lookup_eq_objectAt, Shelf.lookup_eq_objectAt, h.objectAt_eq]

/-- The parents that are followed are the same, for they agree themselves. -/
theorem Agrees.historyNames_eq (h : Agrees s₁.view s₂.view x) (exclude : List Sha1) :
    bodyNames s₁.view (historyNames s₁.view exclude) x =
      bodyNames s₂.view (historyNames s₂.view exclude) x := by
  have hchild : ∀ y ∈ bodyNames s₁.view childSha1s x, Agrees s₁.view s₂.view y :=
    fun y hy => h.child childSha1s_subset hy
  unfold bodyNames at hchild ⊢
  rw [← h.objectAt_eq]
  cases hobject : objectAt s₁.view x with
  | none => rfl
  | some o =>
    rw [hobject] at hchild
    dsimp only at hchild ⊢
    unfold historyNames
    by_cases htag : o.gitType = 4
    · rw [if_pos htag, if_pos htag]
    · rw [if_neg htag, if_neg htag]
      by_cases hcommit : o.gitType = 1
      · rw [if_pos hcommit, if_pos hcommit]
        refine filter_congr fun p hp => ?_
        have hagrees : Agrees s₁.view s₂.view p := by
          refine hchild p ?_
          rw [childSha1s, if_pos hcommit]
          exact mem_append_right _ hp
        rw [hagrees.lookup_eq]
      · rw [if_neg hcommit, if_neg hcommit]

theorem Agrees.nextDepth_eq (h : Agrees s₁.view s₂.view x) (depth : Nat) :
    nextDepth s₁.view depth x = nextDepth s₂.view depth x := by
  funext d
  unfold Git.nextDepth
  rw [h.objectAt_eq]

theorem history_eq (exclude : List Sha1) (depth : Nat)
    (h : ∀ x ∈ wanted, Agrees s₁.view s₂.view x) :
    history s₁.view wanted exclude depth = history s₂.view wanted exclude depth := by
  refine Graph.explore_congr (S := {x | Agrees s₁.view s₂.view x})
    (fun a ha => ha.historyNames_eq exclude)
    (fun a ha => ha.nextDepth_eq depth) (fun a ha b hb => ha.child (historyNames_subset _ _) hb)
      fun y hy => ?_
  obtain ⟨w, hw, rfl⟩ := mem_map.mp hy
  exact h w hw

theorem agrees_of_mem_history {y : Sha1 × Nat} (h : ∀ x ∈ wanted, Agrees s₁.view s₂.view x)
    (hy : y ∈ history s₁.view wanted exclude depth) : Agrees s₁.view s₂.view y.1 := by
  obtain ⟨z, hz, hpath⟩ := Graph.path_of_mem_explore hy
  obtain ⟨w, hw, rfl⟩ := mem_map.mp hz
  refine (h w hw).leads (hpath.lift id fun b c hedge => ?_)
  exact bodyNames_subset (historyNames_subset _ _) s₁.view b hedge

theorem agrees_of_mem_historyRoots (h : ∀ x ∈ wanted, Agrees s₁.view s₂.view x)
    (hx : x ∈ historyRoots s₁.view (history s₁.view wanted exclude depth)) :
      Agrees s₁.view s₂.view x := by
  obtain ⟨y, hy, rfl⟩ := mem_map.mp hx
  exact agrees_of_mem_history h (mem_filter.mp hy).1

theorem historyRoots_eq (exclude : List Sha1) (depth : Nat)
    (h : ∀ x ∈ wanted, Agrees s₁.view s₂.view x) :
    historyRoots s₁.view (history s₁.view wanted exclude depth) =
      historyRoots s₂.view (history s₁.view wanted exclude depth) := by
  refine congrArg _ (filter_congr fun y hy => ?_)
  rw [(agrees_of_mem_history h hy).objectAt_eq]

theorem newShallow_eq (exclude : List Sha1) (depth : Nat)
    (h : ∀ x ∈ wanted, Agrees s₁.view s₂.view x) :
    newShallow s₁.view exclude depth (history s₁.view wanted exclude depth) =
      newShallow s₂.view exclude depth (history s₁.view wanted exclude depth) := by
  refine congrArg _ (filter_congr fun y hy => ?_)
  have hagrees := agrees_of_mem_history h hy
  unfold isCommit
  rw [hagrees.objectAt_eq, hagrees.historyNames_eq]

theorem collectShallow_eq (depth : Nat) (h : ∀ x ∈ wanted, Agrees s₁.view s₂.view x) :
    collectShallow s₁.view wanted exclude depth = collectShallow s₂.view wanted exclude depth := by
  unfold collectShallow
  dsimp only
  rw [← history_eq exclude _ h, ← historyRoots_eq exclude _ h, ← newShallow_eq exclude _ h,
    packSnapshots_eq exclude fun x hx => agrees_of_mem_historyRoots h hx]

/-- A line `shallow` is looked up, and so is the tree that its object names, whatever its type
is. -/
def boundaryNames (view : StoreView) (boundary : Sha1) : List Sha1 :=
  boundary :: ((objectAt view boundary).bind (fun o => commitTreeSha1 o.content)).toList

theorem boundaryHeldSet_eq (h : ∀ y ∈ boundaryNames s₁.view x, Agrees s₁.view s₂.view y) :
    boundaryHeldSet s₁.view x = boundaryHeldSet s₂.view x := by
  unfold boundaryHeldSet
  rw [← (h x mem_cons_self).objectAt_eq]
  cases htree : (objectAt s₁.view x).bind (fun o => commitTreeSha1 o.content) with
  | none => rfl
  | some tree =>
    refine congrArg _ (sweep_bodyGraph_eq snapshotNames_subset fun y hy => h y ?_)
    rw [boundaryNames, htree, mem_singleton.mp hy]
    exact mem_cons_of_mem _ mem_cons_self

theorem collectDeepen_eq {clientShallow : List Sha1} (depth : Nat)
    (h : ∀ x ∈ wanted, Agrees s₁.view s₂.view x)
    (hshallow : ∀ x ∈ clientShallow, ∀ y ∈ boundaryNames s₁.view x, Agrees s₁.view s₂.view y) :
    collectDeepen s₁.view wanted clientShallow depth =
      collectDeepen s₂.view wanted clientShallow depth := by
  have hheld : clientShallow.flatMap (boundaryHeldSet s₁.view) =
      clientShallow.flatMap (boundaryHeldSet s₂.view) :=
    flatMap_congr fun x hx => boundaryHeldSet_eq (hshallow x hx)
  have hunshallow : ∀ d, (history s₁.view wanted [] d).filter (fun x =>
        isCommit s₁.view x.1 ∧ x.2 < d ∧ x.1 ∈ clientShallow) =
      (history s₁.view wanted [] d).filter (fun x =>
        isCommit s₂.view x.1 ∧ x.2 < d ∧ x.1 ∈ clientShallow) := by
    intro d
    refine filter_congr fun y hy => ?_
    unfold isCommit
    rw [(agrees_of_mem_history h hy).objectAt_eq]
  unfold collectDeepen
  dsimp only
  rw [← history_eq [] _ h, ← historyRoots_eq [] _ h, ← newShallow_eq [] _ h, ← hheld, ← hunshallow,
    packSnapshots_eq _ fun x hx => agrees_of_mem_historyRoots h hx]

end

end Ledge.Git
