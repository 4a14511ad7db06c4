import Ledge.Raft.Replica

/-!
# Ledge.Raft.Lock

What the commands of a transaction do to the **locks** of a shard. A lock is taken by
`RefPrepare` and ends with the `RefCommitPrepared` or `RefAbortPrepared` of its own
transaction; batches respect it.
-/

namespace Ledge.RefStore

open Ledge.Core

/-- The transaction that has the lock on a name. -/
def RefTree.holder (t : RefTree) (n : RefName) : Option TxnId :=
  (t.lock n).map PreparedIntent.txnId

/-- The version that rolling a lock forward gives is the one after the visible version. -/
theorem nextVersion_visible (s : RefSlot) :
    nextVersion s.visible = s.committed.version + 1 := by
  by_cases hv : s.committed.version = 0 <;> simp [RefSlot.visible, nextVersion, hv]

end Ledge.RefStore

namespace Ledge.Raft

open Ledge.Core Ledge.RefStore

variable (r : Replica) (durable : Bool)

theorem slot_perform_ref (op : AppliedOp) {d : Decision AppliedOutcome}
    (h : op.decide (r.refs.tree.slot op.name) = d) (m : RefName) :
    (r.perform durable (.ref op)).1.refs.tree.slot m =
      if m = op.name then d.after (r.refs.tree.slot op.name) else r.refs.tree.slot m := by
  rw [← h]
  simp only [Replica.perform, run_applyOp]
  exact (op.decide_sound _).slot_tree m

theorem tree_perform_answer (op : AppliedOp) {outcome : AppliedOutcome}
    (h : op.decide (r.refs.tree.slot op.name) = .answer outcome) :
    (r.perform durable (.ref op)).1.refs.tree = r.refs.tree ∧
      (r.perform durable (.ref op)).2 = outcomeToResp outcome := by
  simp only [Replica.perform, run_applyOp, h]
  exact ⟨rfl, rfl⟩

/-- `RefPrepare` takes a lock that no other transaction has on a ref with the expected target
and votes yes, or finds it otherwise, changes nothing and votes no. -/
theorem prepare_cases (t : TxnId) (coordShard : Nat) (n : RefName) (target : ObjectId)
    (expected : Option ObjectId) (hlc : Nat) :
    let op := AppliedOp.prepare t coordShard n target expected hlc
    ((r.perform durable (.ref op)).2 = .vote true ∧
      (r.refs.tree.holder n = none ∨ r.refs.tree.holder n = some t) ∧
      (r.refs.tree.get n).map RefEntry.target = expected ∧
      (∀ m, (r.perform durable (.ref op)).1.refs.tree.lock m =
        if m = n then some ⟨t, coordShard, target, hlc⟩ else r.refs.tree.lock m) ∧
      ∀ m, (r.perform durable (.ref op)).1.refs.tree.get m = r.refs.tree.get m) ∨
    ((r.perform durable (.ref op)).2 = .vote false ∧
      ((∃ u, u ≠ t ∧ r.refs.tree.holder n = some u) ∨
        (r.refs.tree.get n).map RefEntry.target ≠ expected) ∧
      (r.perform durable (.ref op)).1.refs.tree = r.refs.tree) := by
  intro op
  have hno : op.decide (r.refs.tree.slot op.name) = .answer .voteNo →
      (r.perform durable (.ref op)).2 = .vote false ∧
        (r.perform durable (.ref op)).1.refs.tree = r.refs.tree := fun h =>
    (tree_perform_answer r durable op h).symm
  have hdecide : op.decide (r.refs.tree.slot op.name) =
      applyPrepare t coordShard target expected hlc (r.refs.tree.slot n) := rfl
  rw [applyPrepare] at hdecide
  by_cases hother : (r.refs.tree.slot n).any (·.lockedByOther t) = true
  · rw [if_pos hother] at hdecide
    refine Or.inr ⟨(hno hdecide).1, Or.inl ?_, (hno hdecide).2⟩
    rw [RefTree.holder, RefTree.lock]
    rcases hslot : r.refs.tree.slot n with _ | ⟨committed, _ | p⟩
    · rw [hslot] at hother
      cases hother
    · rw [hslot] at hother
      cases hother
    · rw [hslot] at hother
      simp only [Option.any_some, RefSlot.lockedByOther, bne_iff_ne] at hother
      exact ⟨p.txnId, hother, rfl⟩
  · rw [if_neg hother] at hdecide
    have hholder : r.refs.tree.holder n = none ∨ r.refs.tree.holder n = some t := by
      rw [RefTree.holder, RefTree.lock]
      rcases hslot : r.refs.tree.slot n with _ | ⟨committed, _ | p⟩
      · exact Or.inl rfl
      · exact Or.inl rfl
      · rw [hslot] at hother
        simp only [Option.any_some, RefSlot.lockedByOther, bne_iff_ne, not_not] at hother
        exact Or.inr (congrArg some hother)
    rcases precondition_cases ((r.refs.tree.slot n).bind RefSlot.visible) expected with
      ⟨hpre, hexpected⟩ | ⟨e, hpre, hcurrent, hne⟩ | ⟨x, hpre, hcurrent, hexp⟩
    · rw [hpre] at hdecide
      refine Or.inl ⟨?_, hholder, hexpected, fun m => ?_, fun m => ?_⟩
      · simp only [Replica.perform, run_applyOp, hdecide]
        cases r.refs.tree.slot n <;> rfl
      · rw [RefTree.lock, slot_perform_ref r durable op hdecide]
        show (if m = n then _ else _ : Option RefSlot).bind _ = _
        split_ifs
        · cases r.refs.tree.slot n <;> rfl
        · rfl
      · -- a lock does not show
        rw [RefTree.get, RefTree.get, slot_perform_ref r durable op hdecide]
        show (if m = n then _ else _ : Option RefSlot).bind _ = _
        split_ifs with hm
        · rw [hm]
          cases r.refs.tree.slot n <;> rfl
        · rfl
    · rw [hpre] at hdecide
      refine Or.inr ⟨(hno hdecide).1, Or.inr ?_, (hno hdecide).2⟩
      rw [RefTree.get, hcurrent]
      exact hne
    · rw [hpre] at hdecide
      refine Or.inr ⟨(hno hdecide).1, Or.inr ?_, (hno hdecide).2⟩
      rw [RefTree.get, hcurrent, hexp]
      simp

variable {t t' : RefTree} {slot : Option RefSlot}

theorem lock_of_slot {n : RefName} (h : ∀ m, t'.slot m = if m = n then slot else t.slot m)
    (hslot : slot.bind RefSlot.prepared = none) (m : RefName) :
    t'.lock m = if m = n then none else t.lock m := by
  rw [RefTree.lock, h]
  split_ifs
  · exact hslot
  · rfl

theorem get_of_slot_ne {n : RefName} (h : ∀ m, t'.slot m = if m = n then slot else t.slot m)
    (m : RefName) (hm : m ≠ n) : t'.get m = t.get m := by
  rw [RefTree.get, RefTree.get, h, if_neg hm]

/-- `RefCommitPrepared` ends the lock of its transaction and installs the staged entry, or
changes nothing. -/
theorem commitPrepared_cases (t : TxnId) (n : RefName) :
    let r' := (r.perform durable (.ref (.commitPrepared t n))).1
    (∃ p, r.refs.tree.lock n = some p ∧ p.txnId = t ∧
      (∀ m, r'.refs.tree.lock m = if m = n then none else r.refs.tree.lock m) ∧
      (∀ m, m ≠ n → r'.refs.tree.get m = r.refs.tree.get m) ∧
      r'.refs.tree.get n =
        some ⟨p.stagedTarget, p.stagedHlc, nextVersion (r.refs.tree.get n)⟩) ∨
    (r.refs.tree.holder n ≠ some t ∧ r'.refs.tree = r.refs.tree) := by
  intro r'
  have hanswer : ∀ outcome, applyCommitPrepared t n (r.refs.tree.slot n) = .answer outcome →
      r'.refs.tree = r.refs.tree := fun _ h =>
    (tree_perform_answer r durable (.commitPrepared t n) h).1
  rw [RefTree.holder, RefTree.lock]
  rcases hslot : r.refs.tree.slot n with _ | ⟨committed, _ | p⟩
  · exact Or.inr ⟨by simp, hanswer _ (by rw [hslot]; rfl)⟩
  · exact Or.inr ⟨by simp, hanswer _ (by rw [hslot]; rfl)⟩
  · have hdecide : applyCommitPrepared t n (r.refs.tree.slot n) =
        if p.txnId = t then
          .putAnyway (.ofCommitted ⟨p.stagedTarget, p.stagedHlc, committed.version + 1⟩)
            (some (.update n ⟨p.stagedTarget, p.stagedHlc, committed.version + 1⟩))
            (.commitedPrepared ⟨p.stagedTarget, p.stagedHlc, committed.version + 1⟩)
        else .answer (.commitedPrepared committed) := by
      rw [hslot]
      rfl
    by_cases ht : p.txnId = t
    · have hafter : ∀ m, r'.refs.tree.slot m =
          if m = n then some (.ofCommitted ⟨p.stagedTarget, p.stagedHlc, committed.version + 1⟩)
          else r.refs.tree.slot m :=
        slot_perform_ref r durable (.commitPrepared t n) (hdecide.trans (if_pos ht))
      refine Or.inl ⟨p, rfl, ht, lock_of_slot hafter rfl, get_of_slot_ne hafter, ?_⟩
      have hnext := nextVersion_visible ⟨committed, some p⟩
      rw [RefTree.get, hafter, if_pos rfl, RefTree.get, hslot, Option.bind_some, Option.bind_some,
        hnext]
      simp [RefSlot.visible, RefSlot.ofCommitted]
    · exact Or.inr ⟨by simpa using ht, hanswer _ (hdecide.trans (if_neg ht))⟩

/-- `RefAbortPrepared` ends the lock of its transaction and leaves the visible entry, or
changes nothing. -/
theorem abortPrepared_cases (t : TxnId) (n : RefName) :
    let r' := (r.perform durable (.ref (.abortPrepared t n))).1
    (∃ p, r.refs.tree.lock n = some p ∧ p.txnId = t ∧
      (∀ m, r'.refs.tree.lock m = if m = n then none else r.refs.tree.lock m) ∧
      ∀ m, r'.refs.tree.get m = r.refs.tree.get m) ∨
    (r.refs.tree.holder n ≠ some t ∧ r'.refs.tree = r.refs.tree) := by
  intro r'
  have hanswer : ∀ outcome, applyAbortPrepared t (r.refs.tree.slot n) = .answer outcome →
      r'.refs.tree = r.refs.tree := fun _ h =>
    (tree_perform_answer r durable (.abortPrepared t n) h).1
  rw [RefTree.holder, RefTree.lock]
  rcases hslot : r.refs.tree.slot n with _ | ⟨committed, _ | p⟩
  · exact Or.inr ⟨by simp, hanswer _ (by rw [hslot]; rfl)⟩
  · exact Or.inr ⟨by simp, hanswer _ (by rw [hslot]; rfl)⟩
  · have hdecide : applyAbortPrepared t (r.refs.tree.slot n) =
        if p.txnId = t then
          if committed.version = 0 then .remove none .abortedPrepared .abortedPrepared
          else .putAnyway (.ofCommitted committed) none .abortedPrepared
        else .answer .abortedPrepared := by
      rw [hslot]
      rfl
    by_cases ht : p.txnId = t
    · have hafter : ∀ m, r'.refs.tree.slot m =
          if m = n then (if committed.version = 0 then none else some (.ofCommitted committed))
          else r.refs.tree.slot m := by
        intro m
        refine (slot_perform_ref r durable (.abortPrepared t n)
          (hdecide.trans (if_pos ht)) m).trans ?_
        show (if m = n then _ else _) = _
        split_ifs <;> rfl
      refine Or.inl ⟨p, rfl, ht, lock_of_slot hafter (by split_ifs <;> rfl), fun m => ?_⟩
      by_cases hm : m ≠ n
      · exact get_of_slot_ne hafter m hm
      obtain rfl := not_not.mp hm
      rw [RefTree.get, hafter, if_pos rfl, RefTree.get, hslot]
      split_ifs with hv <;> simp [RefSlot.visible, RefSlot.ofCommitted, hv]
    · exact Or.inr ⟨by simpa using ht, hanswer _ (hdecide.trans (if_neg ht))⟩

/-- A plain write changes nothing, or writes its ref without regard to a lock. -/
theorem plain_cases (op : AppliedOp)
    (hop : (∃ n target expected hlc, op = .update n target expected hlc) ∨
      ∃ n expected hlc, op = .delete n expected hlc) :
    let r' := (r.perform durable (.ref op)).1
    r'.refs.tree = r.refs.tree ∨
      ((∀ m, r'.refs.tree.lock m = if m = op.name then none else r.refs.tree.lock m) ∧
        ∀ m, m ≠ op.name → r'.refs.tree.get m = r.refs.tree.get m) := by
  intro r'
  cases hdecide : op.decide (r.refs.tree.slot op.name) with
  | answer outcome => exact Or.inl (tree_perform_answer r durable op hdecide).1
  | put slot log result lost =>
    have hafter : ∀ m, r'.refs.tree.slot m =
        if m = op.name then some slot else r.refs.tree.slot m :=
      slot_perform_ref r durable op hdecide
    refine Or.inr ⟨lock_of_slot hafter ?_, get_of_slot_ne hafter⟩
    -- the slot that a plain update puts has no lock
    rcases hop with ⟨n, target, expected, hlc, rfl⟩ | ⟨n, expected, hlc, rfl⟩
    · simp only [AppliedOp.decide, applyUpdate] at hdecide
      split at hdecide
      · cases hdecide
      · cases hdecide
      · cases hdecide
        rfl
    · simp only [AppliedOp.decide, applyDelete] at hdecide
      split at hdecide
      · cases hdecide
      · split_ifs at hdecide
  | remove log result lost =>
    have hafter : ∀ m, r'.refs.tree.slot m =
        if m = op.name then none else r.refs.tree.slot m :=
      slot_perform_ref r durable op hdecide
    exact Or.inr ⟨lock_of_slot hafter rfl, get_of_slot_ne hafter⟩

/-- A batch puts all its planned entries, or changes nothing and reports every ref. -/
theorem batch_cases (ops : List RefStore.BatchOp) :
    let r' := r.perform durable (.batch ops)
    (batchConflicts r.refs.tree ops = [] ∧
      r'.2 = .batchResult ((batchPlanned r.refs.tree ops).map (fun x => .ok x.2)) ∧
      ∀ m, r'.1.refs.tree.slot m =
        ((lastFor m (batchPlanned r.refs.tree ops)).map RefSlot.ofCommitted).or
          (r.refs.tree.slot m)) ∨
    (batchConflicts r.refs.tree ops ≠ [] ∧
      r'.2 = .batchResult
        (ops.map (batchConflict r.refs.tree (batchConflicts r.refs.tree ops))) ∧
      r'.1.refs.tree = r.refs.tree) := by
  simp only [Replica.perform, Store.run_commitBatch]
  by_cases hnone : batchConflicts r.refs.tree ops = []
  · rw [if_neg (not_not.mpr hnone)]
    refine Or.inl ⟨hnone, ?_, fun m => slot_foldl_insertCommitted _ _ m⟩
    cases durable with
    | true | false => exact congrArg LedgeResp.batchResult List.map_map
  · rw [if_pos hnone]
    exact Or.inr ⟨hnone, rfl, rfl⟩

theorem slot_perform_batch (ops : List RefStore.BatchOp) {m : RefName}
    (h : r.refs.tree.lock m ≠ none) :
    (r.perform durable (.batch ops)).1.refs.tree.slot m = r.refs.tree.slot m := by
  rcases batch_cases r durable ops with ⟨hnone, -, hslot⟩ | ⟨-, -, htree⟩
  · rw [hslot]
    cases hlast : lastFor m (batchPlanned r.refs.tree ops) with
    | none => rfl
    | some e =>
      obtain ⟨op, hop, rfl, -⟩ := lastFor_batchPlanned hnone hlast
      exact absurd (batchConflicts_eq_nil_iff.mp hnone op hop).1 h
  · rw [htree]

theorem lock_perform_batch (ops : List RefStore.BatchOp) (m : RefName) :
    (r.perform durable (.batch ops)).1.refs.tree.lock m = r.refs.tree.lock m := by
  by_cases hlock : r.refs.tree.lock m = none
  · rcases batch_cases r durable ops with ⟨-, -, hslot⟩ | ⟨-, -, htree⟩
    · rw [hlock, RefTree.lock, hslot]
      cases lastFor m (batchPlanned r.refs.tree ops) with
      | none => exact hlock
      | some e => rfl
    · rw [htree]
  · rw [RefTree.lock, slot_perform_batch r durable ops hlock]
    rfl

end Ledge.Raft
