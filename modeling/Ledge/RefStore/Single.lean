import Ledge.RefStore.AtomicCommit

/-!
# Ledge.RefStore.Single

The writes of a single-node store as the callers of the `RefStore` trait see them: each takes
effect at one point, and its append succeeds. What they do is said in terms of `get`.
-/

namespace Ledge.RefStore

open Ledge.Core

namespace Store

/-- `update` -/
def update (s : Store) (name : RefName) (new : ObjectId) (expected : Option ObjectId) (hlc : Nat) :
    Store × Except LedgeError RefEntry :=
  s.run true ((decideUpdate name new expected hlc (s.tree.slot name)).attempt s.tree name)

/-- `delete` -/
def delete (s : Store) (name : RefName) (expected : ObjectId) (hlc : Nat) :
    Store × Except LedgeError Unit :=
  s.run true ((decideDelete name expected hlc (s.tree.slot name)).attempt s.tree name)

end Store

variable (s : Store) (name : RefName) (hlc : Nat)

/-- `update` is refused, or its ref shows the expected target and gets a new entry. -/
theorem decideUpdate_cases (new : ObjectId) (expected : Option ObjectId) (slot : Option RefSlot) :
    (∃ err, decideUpdate name new expected hlc slot = .answer (.error err)) ∨
    ((slot.bind RefSlot.visible).map RefEntry.target = expected ∧
      ∃ e, e.target = new ∧ e.version ≠ 0 ∧ decideUpdate name new expected hlc slot =
        .put (.ofCommitted e) (some (.update name e)) (.ok e) (.error .io)) := by
  unfold decideUpdate
  split
  · exact Or.inl ⟨_, rfl⟩
  · dsimp only
    rcases precondition_cases (slot.bind RefSlot.visible) expected with
      ⟨hpre, htarget⟩ | ⟨e, hpre, -, -⟩ | ⟨x, hpre, -, -⟩
    · rw [hpre]
      exact Or.inr ⟨htarget, _, rfl, nextVersion_ne_zero _, rfl⟩
    · rw [hpre]
      exact Or.inl ⟨_, rfl⟩
    · rw [hpre]
      exact Or.inl ⟨_, rfl⟩

/-- `delete` is refused, or its ref shows the expected target and goes. -/
theorem decideDelete_cases (expected : ObjectId) (slot : Option RefSlot) :
    (∃ err, decideDelete name expected hlc slot = .answer (.error err)) ∨
    ((slot.bind RefSlot.visible).map RefEntry.target = some expected ∧
      decideDelete name expected hlc slot =
        .remove (some (.delete name hlc)) (.ok ()) (.error .io)) := by
  unfold decideDelete
  split
  · exact Or.inl ⟨_, rfl⟩
  · split_ifs with hprepared hversion htarget
    · exact Or.inl ⟨_, rfl⟩
    · exact Or.inl ⟨_, rfl⟩
    · exact Or.inl ⟨_, rfl⟩
    · refine Or.inr ⟨?_, rfl⟩
      simp [RefSlot.visible, hversion, not_not.mp htarget]

/-- An update that succeeds makes its ref show the new target, one that fails changes nothing. -/
theorem Store.update_cases (new : ObjectId) (expected : Option ObjectId) :
    (∃ err, s.update name new expected hlc = (s, .error err)) ∨
    ((s.tree.get name).map RefEntry.target = expected ∧
      ∃ s' e, s.update name new expected hlc = (s', .ok e) ∧ e.target = new ∧
        ∀ n, s'.tree.get n = if n = name then some e else s.tree.get n) := by
  unfold Store.update
  rcases decideUpdate_cases name hlc new expected (s.tree.slot name) with
    ⟨err, hdecide⟩ | ⟨hexpected, e, htarget, hversion, hdecide⟩
  · rw [hdecide]
    exact Or.inl ⟨err, rfl⟩
  · rw [hdecide]
    refine Or.inr ⟨hexpected, _, e, rfl, htarget, fun n => ?_⟩
    rw [RefTree.get, RefTree.slot_insert]
    split_ifs
    · simp [RefSlot.visible, RefSlot.ofCommitted, hversion]
    · rfl

/-- A delete that succeeds removes its ref from the expected target, one that fails changes
nothing. -/
theorem Store.delete_cases (expected : ObjectId) :
    (∃ err, s.delete name expected hlc = (s, .error err)) ∨
    ((s.tree.get name).map RefEntry.target = some expected ∧
      ∃ s', s.delete name expected hlc = (s', .ok ()) ∧
        ∀ n, s'.tree.get n = if n = name then none else s.tree.get n) := by
  unfold Store.delete
  have hsound := decideDelete_sound name expected hlc (s.tree.slot name)
  rcases decideDelete_cases name hlc expected (s.tree.slot name) with
    ⟨err, hdecide⟩ | ⟨hexpected, hdecide⟩
  · rw [hdecide]
    exact Or.inl ⟨err, rfl⟩
  · rw [hdecide] at hsound ⊢
    refine Or.inr ⟨hexpected, _, rfl, fun n => ?_⟩
    obtain ⟨slot, hslot⟩ := Option.isSome_iff_exists.mp (hsound.present _ _ _ rfl)
    rw [RefTree.get, RefTree.slot_delete_of_present hslot]
    split_ifs <;> rfl

/-- What a writer of one ref does to two stores that have the same slot for it. -/
theorem Store.run_attempt_congr {R : Type} {s s' : Store} {name : RefName} {d : Decision R}
    (hslot : s.tree.slot name = s'.tree.slot name) (hsound : d.Sound name (s.tree.slot name)) :
    (s.run true (d.attempt s.tree name)).2 = (s'.run true (d.attempt s'.tree name)).2 ∧
      ∀ n, s.tree.slot n = s'.tree.slot n →
        (s.run true (d.attempt s.tree name)).1.tree.slot n =
          (s'.run true (d.attempt s'.tree name)).1.tree.slot n := by
  cases d with
  | answer r => exact ⟨rfl, fun n hn => hn⟩
  | put slot log r lost =>
    have hinsert : ∀ n, s.tree.slot n = s'.tree.slot n →
        (s.tree.insert name slot).slot n = (s'.tree.insert name slot).slot n := by
      intro n hn
      rw [RefTree.slot_insert, RefTree.slot_insert, hn]
    cases log <;> exact ⟨rfl, hinsert⟩
  | remove log r lost =>
    obtain ⟨slot, hpresent⟩ := Option.isSome_iff_exists.mp (hsound.present _ _ _ rfl)
    have hdelete : ∀ n, s.tree.slot n = s'.tree.slot n →
        (s.tree.delete name).slot n = (s'.tree.delete name).slot n := by
      intro n hn
      rw [RefTree.slot_delete_of_present hpresent,
        RefTree.slot_delete_of_present (hslot.symm.trans hpresent), hn]
    cases log <;> exact ⟨rfl, hdelete⟩

/-- A commit leaves each ref as it is or moves it to the target of one of its mappings. -/
theorem Store.get_commitAtomic (mappings : List Mapping) (hlc : Nat → Nat) (n : RefName) :
    (s.commitAtomic true mappings hlc).1.tree.get n = s.tree.get n ∨
      ∃ m ∈ mappings, m.name = n ∧
        ((s.commitAtomic true mappings hlc).1.tree.get n).map RefEntry.target = some m.target := by
  unfold Store.commitAtomic
  split_ifs with hnil
  · exact Or.inl rfl
  · rw [Store.run_commitBatch]
    by_cases hnone : batchConflicts s.tree (batchInput mappings hlc) = []
    · rw [if_neg (not_not.mpr hnone)]
      have hget := get_of_batch hnone
        (slot_foldl_insertCommitted (batchPlanned s.tree (batchInput mappings hlc)) s.tree n)
      show RefTree.get (List.foldl _ _ _) n = _ ∨ ∃ m ∈ mappings, _ ∧
        (RefTree.get (List.foldl _ _ _) n).map _ = _
      rw [hget]
      cases hlast : lastFor n (batchPlanned s.tree (batchInput mappings hlc)) with
      | none => exact Or.inl rfl
      | some e =>
        obtain ⟨op, hop, hname, rfl⟩ := lastFor_batchPlanned hnone hlast
        obtain ⟨i, hi, rfl⟩ := List.mem_mapIdx.mp hop
        exact Or.inr ⟨mappings[i], List.getElem_mem hi, hname, rfl⟩
    · rw [if_pos hnone]
      exact Or.inl rfl

end Ledge.RefStore
