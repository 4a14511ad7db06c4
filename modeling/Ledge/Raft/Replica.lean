import Ledge.Raft.Apply
import Ledge.RefStore.Applied

/-!
# Ledge.Raft.Replica

What commands can do to a replica.

`Replica.Same` is a **bisimulation**: replicas with the same slots, leases and transaction
records answer every command alike and stay the same. The logs are not part of it.
-/

namespace Ledge.Raft

open Ledge.Core Ledge.RefStore Ledge.Workspace Ledge.Lib

variable {r r' : Replica} {durable durable' : Bool} {a : Action}

theorem advance_perform (r : Replica) (durable : Bool) (a : Action) :
    Store.Advance durable r.refs (r.perform durable a).1.refs := by
  cases a with
  | ref op => exact advance_applyOp r.refs durable op
  | batch ops => exact advance_commitBatch r.refs durable ops
  | noop | leasePut | leaseTombstone | txnBegin | txnDecide | txnEnd => exact .refl durable r.refs

theorem tidy_perform (h : r.refs.tree.Tidy) : (r.perform durable a).1.refs.tree.Tidy := by
  cases a with
  | ref op => exact tidy_applyOp h
  | batch ops => exact tidy_commitBatch h
  | noop | leasePut | leaseTombstone | txnBegin | txnDecide | txnEnd => exact h

/-! ### Replicas that commands cannot tell apart -/

/-- The same slots, leases and transaction records. -/
structure Replica.Same (r r' : Replica) : Prop where
  slot : ∀ n, r.refs.tree.slot n = r'.refs.tree.slot n
  leases : r.leases.index = r'.leases.index
  txnRecords : r.txnRecords = r'.txnRecords

theorem Replica.Same.refl (r : Replica) : r.Same r := ⟨fun _ => rfl, rfl, rfl⟩

theorem Replica.Same.ref (h : r.Same r') (op : AppliedOp) :
    (r.perform durable (.ref op)).2 = (r'.perform durable' (.ref op)).2 ∧
      (r.perform durable (.ref op)).1.Same (r'.perform durable' (.ref op)).1 := by
  simp only [Replica.perform, run_applyOp, h.slot]
  refine ⟨trivial, fun n => ?_, h.leases, h.txnRecords⟩
  have hsound := op.decide_sound (r'.refs.tree.slot op.name)
  rw [hsound.slot_tree]
  rw [← h.slot] at hsound
  have hslot := hsound.slot_tree n
  rw [h.slot, h.slot] at hslot
  exact hslot

theorem Replica.Same.batch (h : r.Same r') (ops : List RefStore.BatchOp) :
    (r.perform durable (.batch ops)).2 = (r'.perform durable' (.batch ops)).2 ∧
      (r.perform durable (.batch ops)).1.Same (r'.perform durable' (.batch ops)).1 := by
  simp only [Replica.perform, Store.run_commitBatch, batchConflicts_congr h.slot,
    batchPlanned_congr h.slot]
  by_cases hblocked : batchConflicts r'.refs.tree ops ≠ []
  · rw [if_pos hblocked, if_pos hblocked]
    refine ⟨?_, h.slot, h.leases, h.txnRecords⟩
    -- the entries reported for refs that do not block are read from the tree
    have hreport : batchConflict r.refs.tree (batchConflicts r'.refs.tree ops) =
        batchConflict r'.refs.tree (batchConflicts r'.refs.tree ops) := by
      funext op
      rw [batchConflict, batchConflict, RefTree.get_congr (h.slot op.name)]
    simp only [batchOutcomes, hreport]
  · rw [if_neg hblocked, if_neg hblocked]
    refine ⟨?_, fun n => ?_, h.leases, h.txnRecords⟩
    · cases durable <;> cases durable' <;> rfl
    · simp only [slot_foldl_insertCommitted, h.slot]

/-- **Same replicas answer alike and stay the same.** -/
theorem Replica.Same.perform (h : r.Same r') (durable durable' : Bool) (a : Action) :
    (r.perform durable a).2 = (r'.perform durable' a).2 ∧
      (r.perform durable a).1.Same (r'.perform durable' a).1 := by
  cases a with
  | noop => exact ⟨rfl, h⟩
  | ref op => exact h.ref op
  | batch ops => exact h.batch ops
  | leasePut lease =>
    exact ⟨rfl, h.slot, congrArg (replayLease · (.put lease)) h.leases, h.txnRecords⟩
  | leaseTombstone id hlc =>
    exact ⟨rfl, h.slot, congrArg (replayLease · (.tombstone id hlc)) h.leases, h.txnRecords⟩
  | txnBegin txnId participants =>
    exact ⟨rfl, h.slot, h.leases, congrArg (Finmap.insert txnId _) h.txnRecords⟩
  | txnDecide txnId commit =>
    refine ⟨?_, h.slot, h.leases, ?_⟩
    · simp only [Replica.perform, h.txnRecords]
    · simp only [Replica.perform, h.txnRecords]
  | txnEnd txnId =>
    exact ⟨rfl, h.slot, h.leases, congrArg (Finmap.erase txnId) h.txnRecords⟩

/-! ### Sequences of commands -/

/-- Commands in order, each with whether its append succeeds. -/
def Replica.performAll (r : Replica) : List (Action × Bool) → Replica × List LedgeResp
  | [] => (r, [])
  | (a, durable) :: l =>
    let (r', resp) := r.perform durable a
    let (r'', resps) := r'.performAll l
    (r'', resp :: resps)

theorem performAll_append (r : Replica) (l₁ l₂ : List (Action × Bool)) :
    r.performAll (l₁ ++ l₂) =
      (((r.performAll l₁).1.performAll l₂).1,
        (r.performAll l₁).2 ++ ((r.performAll l₁).1.performAll l₂).2) := by
  induction l₁ generalizing r with
  | nil => rfl
  | cons x l₁ ih => simp [Replica.performAll, ih]

theorem length_performAll (r : Replica) (l : List (Action × Bool)) :
    (r.performAll l).2.length = l.length := by
  induction l generalizing r with
  | nil => rfl
  | cons x l ih => simp [Replica.performAll, ih]

/-- What holds initially and is kept by every command holds after all of them. -/
theorem performAll_induct {p : Replica → Prop} {l : List (Action × Bool)} (h : p r)
    (hstep : ∀ r x, x ∈ l → p r → p (r.perform x.2 x.1).1) : p (r.performAll l).1 := by
  induction l generalizing r with
  | nil => exact h
  | cons x l ih =>
    refine ih (hstep r x (by simp) h) fun r' y hy => ?_
    exact hstep r' y (List.mem_cons_of_mem x hy)

theorem Replica.Same.performAll (h : r.Same r') {l l' : List (Action × Bool)}
    (hl : l.map Prod.fst = l'.map Prod.fst) :
    (r.performAll l).2 = (r'.performAll l').2 ∧ (r.performAll l).1.Same (r'.performAll l').1 := by
  induction l generalizing r r' l' with
  | nil =>
    obtain rfl : l' = [] := by simpa using hl.symm
    exact ⟨rfl, h⟩
  | cons x l ih =>
    cases l' with
    | nil => cases hl
    | cons x' l' =>
      obtain ⟨a, durable⟩ := x
      obtain ⟨a', durable'⟩ := x'
      simp only [List.map_cons, List.cons.injEq] at hl
      obtain ⟨rfl, hl⟩ := hl
      obtain ⟨hresp, hsame⟩ := h.perform durable durable' a
      obtain ⟨hresps, hsames⟩ := ih hsame hl
      simp only [Replica.performAll]
      exact ⟨by rw [hresp, hresps], hsames⟩

end Ledge.Raft
