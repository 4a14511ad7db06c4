import Ledge.Objects.Table

/-!
# Ledge.Objects.MarkSweep

Mark and sweep in one go, as both collectors do it when nothing else goes on.

The mark passes over what it cannot read. What a sweep deletes is said exactly
(`isLoose_sweep`), and so **when a pass with failing reads is safe** (`failsSafe_markSweep_iff`):
what is reachable in the full graph has to be found in spite of them.
-/

namespace Ledge.Objects

open Ledge.Core List

/-- The reads of a view are those of the full one, or fail. -/
structure StoreView.FaultyOf (seen full : StoreView) : Prop where
  sha1Index : seen.sha1Index = full.sha1Index ∨ ∃ e, seen.sha1Index = .error e
  read : ∀ id, seen.read id = full.read id ∨ ∃ e, seen.read id = .error e
  gitTypeOf : ∀ id, seen.gitTypeOf id = full.gitTypeOf id ∨ ∃ e, seen.gitTypeOf id = .error e
  deltaBaseOf : ∀ id, seen.deltaBaseOf id = full.deltaBaseOf id ∨ ∃ e, seen.deltaBaseOf id =
    .error e

/-- Reachable from the roots. -/
def StoreView.Reachable (view : StoreView) (roots : List ObjectId) (id : ObjectId) : Prop :=
  ∃ root ∈ roots, Relation.ReflTransGen view.Child root id

/-- The mark finds it: it is reachable by reads that succeed, or a delta base of what is. -/
def StoreView.Found (view : StoreView) (roots : List ObjectId) (id : ObjectId) : Prop :=
  ∃ root ∈ roots, view.Needs root id

namespace Disk

variable (d : Disk)

/-- The file is loose and at least `grace` seconds old. -/
def Old (nowUnixSecs grace : Nat) (id : ObjectId) : Prop :=
  ∃ mtime ∈ d.mtime id, grace ≤ nowUnixSecs - mtime

/-- The sweep of all candidates. -/
def sweep (keep : List ObjectId) (nowUnixSecs grace : Nat) (candidates : List ObjectId) : Disk :=
  candidates.foldl (fun d id => d.sweepOne keep nowUnixSecs grace id) d

/-- A pass with its roots collected. -/
def markSweep (view : StoreView) (roots : List ObjectId) (nowUnixSecs grace : Nat) :
    Except LedgeError Unit × Disk :=
  match view.mark roots with
  | .error e => (.error e, d)
  | .ok keep => (.ok (), d.sweep keep nowUnixSecs grace d.listAllIds)

variable {d} {keep candidates : List ObjectId} {nowUnixSecs grace : Nat} {id id' : ObjectId}

theorem isLoose_delete : (d.delete id').IsLoose id ↔ d.IsLoose id ∧ id ≠ id' := by
  simp [IsLoose, delete]

theorem mtime_delete (h : id ≠ id') : (d.delete id').mtime id = d.mtime id := by
  have hfind : (d.loose.filter (fun x => x.1 ≠ id')).find? (fun x => x.1 = id) =
      d.loose.find? (fun x => x.1 = id) := by
    rw [find?_filter]
    congr 1
    funext x
    by_cases hx : x.1 = id <;> simp [hx, h]
  rw [mtime, mtime, delete, hfind]

theorem isLoose_write {now : Nat} : (d.write id' now).IsLoose id ↔ id = id' ∨ d.IsLoose id := by
  have hdelete : id ∈ (d.delete id').loose.map Prod.fst ↔ d.IsLoose id ∧ id ≠ id' := isLoose_delete
  rw [IsLoose, write, map_cons, mem_cons]
  tauto

theorem present_write {now : Nat} : (d.write id' now).Present id ↔ id = id' ∨ d.Present id := by
  rw [Present, isLoose_write, or_assoc]
  rfl

theorem mtime_write {now : Nat} :
    (d.write id' now).mtime id = if id = id' then some now else d.mtime id := by
  rw [mtime, write, find?_cons]
  split_ifs with h
  · simp [h]
  · have hother : decide (id' = id) = false := decide_eq_false (Ne.symm h)
    simp only [hother]
    exact mtime_delete h

theorem sweepOne_eq_of_old (hkeep : id ∉ keep) (h : d.Old nowUnixSecs grace id) :
    d.sweepOne keep nowUnixSecs grace id = d.delete id := by
  obtain ⟨mtime, hmtime, hold⟩ := h
  obtain ⟨⟨id', mtime'⟩, hfind, rfl⟩ := Option.map_eq_some_iff.mp hmtime
  unfold sweepOne
  rw [if_neg hkeep, hfind]
  dsimp only
  rw [if_neg (Nat.not_lt_of_le hold)]

theorem sweepOne_eq_self (h : id ∈ keep ∨ ¬ d.Old nowUnixSecs grace id) :
    d.sweepOne keep nowUnixSecs grace id = d := by
  unfold sweepOne
  split_ifs with hkeep
  · rfl
  · split
    · rfl
    · rename_i id' mtime hfind
      have hold := h.resolve_left hkeep
      split_ifs with hyoung
      · rfl
      · refine absurd ⟨mtime, ?_, Nat.le_of_not_lt hyoung⟩ hold
        rw [Disk.mtime, hfind]
        rfl

/-- **What a sweep deletes**: the candidates that are not kept and old enough. -/
theorem isLoose_sweep : (d.sweep keep nowUnixSecs grace candidates).IsLoose id ↔
    d.IsLoose id ∧ ¬ (id ∈ candidates ∧ id ∉ keep ∧ d.Old nowUnixSecs grace id) := by
  induction candidates generalizing d with
  | nil => simp [sweep]
  | cons c candidates ih =>
    rw [sweep, foldl_cons]
    by_cases hgoes : c ∉ keep ∧ d.Old nowUnixSecs grace c
    · rw [sweepOne_eq_of_old hgoes.1 hgoes.2]
      refine ih.trans ?_
      rw [isLoose_delete]
      by_cases hid : id = c
      · obtain rfl := hid
        simp [hgoes]
      · have hold : (d.delete c).Old nowUnixSecs grace id ↔ d.Old nowUnixSecs grace id := by
          rw [Old, Old, mtime_delete hid]
        simp [hid, hold]
    · have hstays : c ∈ keep ∨ ¬ d.Old nowUnixSecs grace c := by
        by_cases hc : c ∈ keep
        · exact Or.inl hc
        · exact Or.inr fun hold => hgoes ⟨hc, hold⟩
      rw [sweepOne_eq_self hstays]
      refine ih.trans ?_
      by_cases hid : id = c
      · obtain rfl := hid
        rcases hstays with hkeep | hold
        · simp [hkeep]
        · simp [hold]
      · simp [hid]

theorem packed_sweepOne : (d.sweepOne keep nowUnixSecs grace id).packed = d.packed := by
  unfold sweepOne
  split_ifs
  · rfl
  · split
    · rfl
    · split_ifs <;> rfl

theorem packed_sweep : (d.sweep keep nowUnixSecs grace candidates).packed = d.packed := by
  induction candidates generalizing d with
  | nil => rfl
  | cons c candidates ih => exact ih.trans packed_sweepOne

theorem mem_listAllIds : id ∈ d.listAllIds ↔ d.Present id := by
  rw [listAllIds, mem_dedup, mem_append]
  rfl

end Disk

/-- **A pass fails safe**: it returns an error, or deletes nothing that is reachable in the full
graph. -/
def FailsSafe (full : StoreView) (roots : List ObjectId) (d : Disk)
    (pass : Except LedgeError Unit × Disk) : Prop :=
  (∃ e, pass.1 = .error e) ∨ ∀ id, full.Reachable roots id → d.Present id → pass.2.Present id

/-- What a pass could delete is found. -/
def StoreView.FindsAll (view full : StoreView) (roots : List ObjectId) (nowUnixSecs grace : Nat)
    (d : Disk) : Prop :=
  ∀ id, full.Reachable roots id → d.IsLoose id → id ∉ d.packed → d.Old nowUnixSecs grace id →
    view.Found roots id

variable {view full : StoreView} {roots : List ObjectId} {nowUnixSecs grace : Nat} {d : Disk}

/-- **When a pass fails safe.** -/
theorem failsSafe_markSweep_iff :
    FailsSafe full roots d (d.markSweep view roots nowUnixSecs grace) ↔
      (∃ e, view.mark roots = .error e) ∨ view.FindsAll full roots nowUnixSecs grace d := by
  unfold Disk.markSweep
  cases hmark : view.mark roots with
  | error e => simp [FailsSafe]
  | ok keep =>
    have hkeep : ∀ id, id ∈ keep ↔ view.Found roots id := fun id => StoreView.mem_mark hmark
    have hpacks : (d.sweep keep nowUnixSecs grace d.listAllIds).packed = d.packed :=
      Disk.packed_sweep
    constructor
    · intro h
      refine Or.inr fun id hreach hloose hpacked hold => ?_
      by_contra hmissed
      rcases h with ⟨e, he⟩ | hsafe
      · cases he
      · rcases hsafe id hreach (Or.inl hloose) with hstays | hstays
        · refine (Disk.isLoose_sweep.mp hstays).2 ⟨?_, fun hid => hmissed ((hkeep id).mp hid), hold⟩
          exact Disk.mem_listAllIds.mpr (Or.inl hloose)
        · exact hpacked (hpacks ▸ hstays)
    · intro h
      rcases h with ⟨e, he⟩ | hall
      · cases he
      · refine Or.inr fun id hreach hpresent => ?_
        by_cases hpacked : id ∈ d.packed
        · exact Or.inr (hpacks.symm ▸ hpacked)
        · have hloose := hpresent.resolve_right hpacked
          refine Or.inl (Disk.isLoose_sweep.mpr ⟨hloose, fun hgoes => ?_⟩)
          obtain ⟨-, hmissed, hold⟩ := hgoes
          exact hmissed ((hkeep id).mpr (hall id hreach hloose hpacked hold))

end Ledge.Objects
