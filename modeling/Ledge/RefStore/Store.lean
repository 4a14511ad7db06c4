import Ledge.RefStore.Wal

/-!
# Ledge.RefStore.Store

The operations of `RefStoreImpl` (`store.rs`).

Every writer is a loop: load the root, look up a slot, decide, build a new root with
`art_insert` or `art_delete`, compare-and-swap it in, append a log frame. One turn of
the loop is an `Attempt` on the loaded tree. What a single-ref writer decides depends
only on the slot it looked up, so it is a `Decision` about that slot.

How attempts of concurrent calls interleave is the business of
`Ledge.RefStore.Concurrent`; `Store.run` is an attempt that nobody disturbs.
-/

namespace Ledge.RefStore

open Ledge.Core List Option

/-! ### Attempts -/

/-- What a single-ref writer does about the slot it found. `log` is the frame appended
after a successful swap; `lost` is returned when that append fails. -/
inductive Decision (R : Type) where
  | answer (result : R)
  | put (slot : RefSlot) (log : Option WalEntry) (result lost : R)
  | remove (log : Option WalEntry) (result lost : R)

/-- One turn of a writer's loop on the tree it loaded. -/
inductive Attempt (R : Type) where
  | done (result : R)
  | publish (tree : RefTree) (log : Option WalEntry) (result lost : R)

/-- `art_insert` or `art_delete` of the decision on the loaded tree. -/
def Decision.attempt {R : Type} (t : RefTree) (name : RefName) : Decision R → Attempt R
  | .answer r => .done r
  | .put s log r lost => .publish (t.insert name s) log r lost
  | .remove log r lost => .publish (t.delete name) log r lost

/-! ### Compare-and-set preconditions -/

/-- The outcome of the precondition match that all writers share. -/
inductive Precondition where
  | conflict (existing : RefEntry)
  | absent (exp : ObjectId)
  | holds

/-- `match (&current_entry, expected)` -/
def precondition (current : Option RefEntry) (expected : Option ObjectId) : Precondition :=
  match current, expected with
  | some existing, none => .conflict existing
  | none, some exp => .absent exp
  | some existing, some exp => if existing.target ≠ exp then .conflict existing else .holds
  | none, none => .holds

theorem precondition_cases (current : Option RefEntry) (expected : Option ObjectId) :
    (precondition current expected = .holds ∧ current.map RefEntry.target = expected) ∨
    (∃ e, precondition current expected = .conflict e ∧ current = some e ∧
      some e.target ≠ expected) ∨
    (∃ x, precondition current expected = .absent x ∧ current = none ∧ expected = some x) := by
  cases current with
  | none =>
    cases expected with
    | none => exact Or.inl ⟨rfl, rfl⟩
    | some x => exact Or.inr (Or.inr ⟨x, rfl, rfl, rfl⟩)
  | some e =>
    cases expected with
    | none => exact Or.inr (Or.inl ⟨e, rfl, rfl, by simp⟩)
    | some x =>
      by_cases hx : e.target = x
      · exact Or.inl ⟨by simp [precondition, hx], by simp [hx]⟩
      · exact Or.inr (Or.inl ⟨e, by simp [precondition, hx], rfl, by simpa using hx⟩)

/-- `current_entry.map(|e| e.version + 1).unwrap_or(1)` -/
def nextVersion (current : Option RefEntry) : Nat := current.elim 1 (·.version + 1)

theorem some_nextVersion_ne (current : Option RefEntry) (target : ObjectId) (hlc : Nat) :
    some ⟨target, hlc, nextVersion current⟩ ≠ current := by
  intro h
  cases current with
  | none => cases h
  | some e =>
    have hversion : e.version + 1 = e.version := congrArg RefEntry.version (some.inj h)
    exact absurd hversion (Nat.succ_ne_self _)

/-! ### `update` and `delete` -/

/-- `update` on the slot of `name`, with the `hlc` of this attempt's tick. -/
def decideUpdate (name : RefName) (new : ObjectId) (expected : Option ObjectId) (hlc : Nat)
    (slot : Option RefSlot) : Decision (Except LedgeError RefEntry) :=
  match slot with
  | some ⟨committed, some _⟩ => .answer (.error (.conflict committed))
  | _ =>
    let current := slot.bind RefSlot.visible
    match precondition current expected with
    | .conflict existing => .answer (.error (.conflict existing))
    | .absent _ => .answer (.error (.notFound new))
    | .holds =>
      let entry : RefEntry := ⟨new, hlc, nextVersion current⟩
      .put (.ofCommitted entry) (some (.update name entry)) (.ok entry) (.error .io)

/-- `delete` on the slot of `name`; `hlc` is the tombstone's. -/
def decideDelete (name : RefName) (expected : ObjectId) (hlc : Nat) (slot : Option RefSlot) :
    Decision (Except LedgeError Unit) :=
  match slot with
  | none => .answer (.error (.notFound expected))
  | some s =>
    if s.prepared.isSome then .answer (.error (.conflict s.committed))
    else if s.committed.version = 0 then .answer (.error (.notFound expected))
    else if s.committed.target ≠ expected then .answer (.error (.conflict s.committed))
    else .remove (some (.delete name hlc)) (.ok ()) (.error .io)

/-! ### `commit_batch` -/

/-- One `(name, target, expected, hlc)` of a batch. -/
structure BatchOp where
  name : RefName
  target : ObjectId
  expected : Option ObjectId
  hlc : Nat
  deriving DecidableEq

/-- Why a batch did not return a clean, durable `Ok`. -/
inductive CommitBatchError
  | conflicts (blocking : List (RefName × RefEntry))
  | notDurable (applied : List RefEntry)
  deriving DecidableEq

/-- Phase 1 for one operation: a conflict or the planned entry. -/
def planOp (t : RefTree) (op : BatchOp) : RefEntry ⊕ RefEntry :=
  match t.slot op.name with
  | some ⟨committed, some _⟩ => .inl committed
  | slot =>
    let current := slot.bind RefSlot.visible
    match precondition current op.expected with
    | .conflict existing => .inl existing
    | .absent exp => .inl ⟨exp, 0, 0⟩
    | .holds => .inr ⟨op.target, op.hlc, nextVersion current⟩

/-- The conflicts of phase 1, in input order. -/
def batchConflicts (t : RefTree) (ops : List BatchOp) : List (RefName × RefEntry) :=
  ops.filterMap (fun op => (planOp t op).elim (fun e => some (op.name, e)) (fun _ => none))

/-- The planned entries of phase 1, in input order. -/
def batchPlanned (t : RefTree) (ops : List BatchOp) : List (RefName × RefEntry) :=
  ops.filterMap (fun op => (planOp t op).elim (fun _ => none) (fun e => some (op.name, e)))

/-- `commit_batch` -/
def RefTree.commitBatch (t : RefTree) (ops : List BatchOp) :
    Attempt (Except CommitBatchError (List RefEntry)) :=
  if batchConflicts t ops ≠ [] then .done (.error (.conflicts (batchConflicts t ops)))
  else
    let planned := batchPlanned t ops
    let applied := planned.map Prod.snd
    .publish (planned.foldl insertCommitted t) (some (.batch planned)) (.ok applied)
      (.error (.notDurable applied))

variable {t t' : RefTree} {op : BatchOp} {ops : List BatchOp} {R : Type} {e : RefEntry}

theorem planOp_of_locked (h : t.lock op.name ≠ none) : ∃ e, planOp t op = .inl e := by
  rw [RefTree.lock] at h
  rw [planOp]
  generalize t.slot op.name = slot at h ⊢
  rcases slot with _ | ⟨committed, _ | p⟩
  · exact absurd rfl h
  · exact absurd rfl h
  · exact ⟨committed, rfl⟩

/-- An unlocked ref is planned by the precondition on its visible entry. -/
theorem planOp_of_unlocked (h : t.lock op.name = none) :
    planOp t op =
      match precondition (t.get op.name) op.expected with
      | .conflict e => .inl e
      | .absent x => .inl ⟨x, 0, 0⟩
      | .holds => .inr ⟨op.target, op.hlc, nextVersion (t.get op.name)⟩ := by
  rw [RefTree.lock] at h
  rw [planOp, RefTree.get]
  generalize t.slot op.name = slot at h ⊢
  rcases slot with _ | ⟨committed, _ | p⟩
  · rfl
  · rfl
  · cases h

/-- Phase 1 plans an operation on an unlocked ref whose expectation is met. -/
theorem planOp_cases (t : RefTree) (op : BatchOp) :
    (planOp t op = .inr ⟨op.target, op.hlc, nextVersion (t.get op.name)⟩ ∧
      t.lock op.name = none ∧ (t.get op.name).map RefEntry.target = op.expected) ∨
    (∃ e, planOp t op = .inl e ∧
      (t.lock op.name ≠ none ∨ (t.get op.name).map RefEntry.target ≠ op.expected)) := by
  by_cases hlock : t.lock op.name = none
  · rw [planOp_of_unlocked hlock]
    rcases precondition_cases (t.get op.name) op.expected with
      ⟨hpre, htarget⟩ | ⟨e, hpre, hget, hne⟩ | ⟨x, hpre, hget, hexp⟩
    · rw [hpre]
      exact Or.inl ⟨rfl, hlock, htarget⟩
    · rw [hpre, hget]
      exact Or.inr ⟨e, rfl, Or.inr hne⟩
    · rw [hget, hexp]
      exact Or.inr ⟨⟨x, 0, 0⟩, rfl, Or.inr (by simp)⟩
  · obtain ⟨e, he⟩ := planOp_of_locked hlock
    exact Or.inr ⟨e, he, Or.inl hlock⟩

/-- A batch has no conflicts when no ref is locked and every expectation is met. -/
theorem batchConflicts_eq_nil_iff :
    batchConflicts t ops = [] ↔ ∀ op ∈ ops,
      t.lock op.name = none ∧ (t.get op.name).map RefEntry.target = op.expected := by
  rw [batchConflicts, filterMap_eq_nil_iff]
  refine forall₂_congr fun op _ => ?_
  rcases planOp_cases t op with ⟨hplan, hfree⟩ | ⟨e, hplan, hblocked⟩
  · rw [hplan]
    exact iff_of_true rfl hfree
  · rw [hplan]
    refine iff_of_false (by simp) fun hfree => ?_
    exact hblocked.elim (fun h => h hfree.1) (fun h => h hfree.2)

theorem batchPlanned_eq (hnone : batchConflicts t ops = []) :
    batchPlanned t ops =
      ops.map (fun op => (op.name, ⟨op.target, op.hlc, nextVersion (t.get op.name)⟩)) := by
  rw [← filterMap_eq_map]
  refine filterMap_congr fun op hop => ?_
  have hfree := batchConflicts_eq_nil_iff.mp hnone op hop
  rcases planOp_cases t op with ⟨hplan, -⟩ | ⟨e, -, hblocked⟩
  · rw [hplan]
    rfl
  · exact absurd hfree (fun h => hblocked.elim (fun h' => h' h.1) (fun h' => h' h.2))

/-! ### `apply_op` -/

/-- A pre-resolved, replicable ref operation. -/
inductive AppliedOp
  | update (name : RefName) (target : ObjectId) (expected : Option ObjectId) (hlc : Nat)
  | delete (name : RefName) (expected : ObjectId) (hlc : Nat)
  | prepare (txnId : TxnId) (coordShard : Nat) (name : RefName) (target : ObjectId)
      (expected : Option ObjectId) (hlc : Nat)
  | commitPrepared (txnId : TxnId) (name : RefName)
  | abortPrepared (txnId : TxnId) (name : RefName)
  deriving DecidableEq

/-- The deterministic result of applying an `AppliedOp`. -/
inductive AppliedOutcome
  | updated (entry : RefEntry)
  | conflict (current : RefEntry)
  | notFound
  | deleted
  | voteYes
  | voteNo
  | commitedPrepared (entry : RefEntry)
  | abortedPrepared
  deriving DecidableEq

/-- The ref an operation is about. -/
def AppliedOp.name : AppliedOp → RefName
  | .update name .. | .delete name .. | .prepare _ _ name .. | .commitPrepared _ name
  | .abortPrepared _ name => name

/-- A decision whose outcome does not depend on the append: `apply_op` only warns. -/
def Decision.putAnyway {R : Type} (s : RefSlot) (log : Option WalEntry) (r : R) : Decision R :=
  .put s log r r

/-- The `Update` arm of `apply_op`. Unlike `update` it looks neither at the lock nor for
the version-0 sentinel. -/
def applyUpdate (name : RefName) (target : ObjectId) (expected : Option ObjectId) (hlc : Nat)
    (slot : Option RefSlot) : Decision AppliedOutcome :=
  let current := slot.map (·.committed)
  match precondition current expected with
  | .conflict existing => .answer (.conflict existing)
  | .absent _ => .answer .notFound
  | .holds =>
    let entry : RefEntry := ⟨target, hlc, nextVersion current⟩
    .putAnyway (.ofCommitted entry) (some (.update name entry)) (.updated entry)

/-- The `Delete` arm of `apply_op`, which looks at neither as well. -/
def applyDelete (name : RefName) (expected : ObjectId) (hlc : Nat) (slot : Option RefSlot) :
    Decision AppliedOutcome :=
  match slot with
  | none => .answer .notFound
  | some s =>
    if s.committed.target ≠ expected then .answer (.conflict s.committed)
    else .remove (some (.delete name hlc)) .deleted .deleted

/-- The `Prepare` arm: vote, and take the lock on a yes. -/
def applyPrepare (txnId : TxnId) (coordShard : Nat) (target : ObjectId)
    (expected : Option ObjectId) (hlc : Nat) (slot : Option RefSlot) : Decision AppliedOutcome :=
  if slot.any (·.lockedByOther txnId) then .answer .voteNo
  else
    match precondition (slot.bind RefSlot.visible) expected with
    | .conflict _ | .absent _ => .answer .voteNo
    | .holds =>
      let intent : PreparedIntent := ⟨txnId, coordShard, target, hlc⟩
      match slot with
      | some s => .putAnyway ⟨s.committed, some intent⟩ none .voteYes
      | none => .putAnyway ⟨⟨target, 0, 0⟩, some intent⟩ none .voteYes

/-- The `CommitPrepared` arm: roll a prepared intent forward. -/
def applyCommitPrepared (txnId : TxnId) (name : RefName) (slot : Option RefSlot) :
    Decision AppliedOutcome :=
  match slot with
  | none => .answer .abortedPrepared
  | some s =>
    match s.prepared with
    | some p =>
      if p.txnId = txnId then
        let entry : RefEntry := ⟨p.stagedTarget, p.stagedHlc, s.committed.version + 1⟩
        .putAnyway (.ofCommitted entry) (some (.update name entry)) (.commitedPrepared entry)
      else .answer (.commitedPrepared s.committed)
    | none => .answer (.commitedPrepared s.committed)

/-- The `AbortPrepared` arm: release a prepared intent. -/
def applyAbortPrepared (txnId : TxnId) (slot : Option RefSlot) : Decision AppliedOutcome :=
  match slot with
  | none => .answer .abortedPrepared
  | some s =>
    match s.prepared with
    | some p =>
      if p.txnId = txnId then
        if s.committed.version = 0 then .remove none .abortedPrepared .abortedPrepared
        else .putAnyway (.ofCommitted s.committed) none .abortedPrepared
      else .answer .abortedPrepared
    | none => .answer .abortedPrepared

/-- What `apply_op` decides about the slot of `op.name`. -/
def AppliedOp.decide (slot : Option RefSlot) : AppliedOp → Decision AppliedOutcome
  | .update name target expected hlc => applyUpdate name target expected hlc slot
  | .delete name expected hlc => applyDelete name expected hlc slot
  | .prepare txnId coordShard _ target expected hlc =>
    applyPrepare txnId coordShard target expected hlc slot
  | .commitPrepared txnId name => applyCommitPrepared txnId name slot
  | .abortPrepared txnId _ => applyAbortPrepared txnId slot

/-- One turn of the loop of `apply_op`. -/
def RefTree.applyOp (t : RefTree) (op : AppliedOp) : Attempt AppliedOutcome :=
  (op.decide (t.slot op.name)).attempt t op.name

/-! ### The store on its log -/

/-- A store: the published tree and the frames of its log file. -/
structure Store where
  tree : RefTree
  wal : List WalEntry

namespace Store

/-- `open`: replay the log. -/
def openOn (wal : List WalEntry) : Store := ⟨openTree wal, wal⟩

/-- An attempt that no other writer disturbs. `durable` says whether the append of its
frame succeeds. -/
def run {R : Type} (s : Store) (durable : Bool) : Attempt R → Store × R
  | .done r => (s, r)
  | .publish t none r _ => ({ s with tree := t }, r)
  | .publish t (some f) r lost =>
    if durable then (⟨t, s.wal ++ [f]⟩, r) else ({ s with tree := t }, lost)

/-- `restore_from` -/
def restoreFrom (entries : List (RefName × RefEntry)) : Store :=
  ⟨entries.foldl insertCommitted .empty, [.checkpoint entries]⟩

end Store

/-- `commit_batch` on a store. -/
theorem Store.run_commitBatch (s : Store) (durable : Bool) (ops : List BatchOp) :
    s.run durable (s.tree.commitBatch ops) =
      if batchConflicts s.tree ops ≠ [] then
        (s, .error (.conflicts (batchConflicts s.tree ops)))
      else
        (⟨(batchPlanned s.tree ops).foldl insertCommitted s.tree,
          s.wal ++ if durable then [.batch (batchPlanned s.tree ops)] else []⟩,
          if durable then .ok ((batchPlanned s.tree ops).map Prod.snd)
          else .error (.notDurable ((batchPlanned s.tree ops).map Prod.snd))) := by
  rw [RefTree.commitBatch]
  split_ifs <;> simp [Store.run, *]

/-! ### What decisions do to a slot -/

namespace Decision

variable {R : Type}

/-- The slot after the decision is published. -/
def after (slot : Option RefSlot) : Decision R → Option RefSlot
  | .answer _ => slot
  | .put s .. => some s
  | .remove .. => none

/-- The frame the decision logs. -/
def log : Decision R → Option WalEntry
  | .answer _ => none
  | .put _ log .. => log
  | .remove log .. => log

/-- The result when the append succeeds. -/
def result : Decision R → R
  | .answer r => r
  | .put _ _ r _ => r
  | .remove _ r _ => r

/-- The tree after the decision is published. -/
def tree (t : RefTree) (name : RefName) : Decision R → RefTree
  | .answer _ => t
  | .put s .. => t.insert name s
  | .remove .. => t.delete name

/-- What holds of every decision of the store about `name`, given the slot it saw: it
removes only what is there, and its frame, if any, is the visible change of `name`. -/
structure Sound (name : RefName) (slot : Option RefSlot) (d : Decision R) : Prop where
  present : ∀ log r lost, d = .remove log r lost → slot.isSome
  logged : ∀ f, d.log = some f →
    (d.after slot = none ∧ ∃ hlc, f = .delete name hlc) ∨
    ∃ e, e.version ≠ 0 ∧ d.after slot = some (.ofCommitted e) ∧ f = .update name e
  unlogged : d.log = none → (d.after slot).bind RefSlot.visible = slot.bind RefSlot.visible

variable {t : RefTree} {name : RefName} {slot : Option RefSlot}

theorem sound_answer (r : R) : (Decision.answer r).Sound name slot :=
  ⟨fun _ _ _ h => (by cases h), fun _ h => (by cases h), fun _ => rfl⟩

theorem sound_put_update {e : RefEntry} (he : e.version ≠ 0) (r lost : R) :
    (Decision.put (.ofCommitted e) (some (.update name e)) r lost).Sound name slot := by
  refine ⟨fun _ _ _ h => (by cases h), fun f hf => Or.inr ⟨e, he, rfl, ?_⟩, fun h => (by cases h)⟩
  exact (some.inj hf).symm

theorem sound_remove_delete {s : RefSlot} (hlc : Nat) (r lost : R) :
    (Decision.remove (some (.delete name hlc)) r lost).Sound name (some s) := by
  refine ⟨fun _ _ _ _ => rfl, fun f hf => Or.inl ⟨rfl, hlc, ?_⟩, fun h => (by cases h)⟩
  exact (some.inj hf).symm

theorem Sound.slot_tree {d : Decision R} (h : d.Sound name (t.slot name)) (n : RefName) :
    (d.tree t name).slot n = if n = name then d.after (t.slot name) else t.slot n := by
  cases d with
  | answer r =>
    by_cases hn : n = name
    · rw [if_pos hn, hn]
      rfl
    · rw [if_neg hn]
      rfl
  | put s log r lost => exact RefTree.slot_insert t name s n
  | remove log r lost =>
    obtain ⟨s, hs⟩ := isSome_iff_exists.mp (h.present log r lost rfl)
    exact RefTree.slot_delete_of_present hs n

end Decision

@[simp] theorem nextVersion_ne_zero (current : Option RefEntry) : nextVersion current ≠ 0 := by
  cases current <;> simp [nextVersion]

theorem decideUpdate_sound (name : RefName) (new : ObjectId) (expected : Option ObjectId)
    (hlc : Nat) (slot : Option RefSlot) :
    (decideUpdate name new expected hlc slot).Sound name slot := by
  unfold decideUpdate
  split
  · exact Decision.sound_answer _
  · dsimp only
    split
    · exact Decision.sound_answer _
    · exact Decision.sound_answer _
    · exact Decision.sound_put_update (nextVersion_ne_zero _) _ _

theorem decideDelete_sound (name : RefName) (expected : ObjectId) (hlc : Nat)
    (slot : Option RefSlot) : (decideDelete name expected hlc slot).Sound name slot := by
  unfold decideDelete
  split
  · exact Decision.sound_answer _
  · split_ifs
    · exact Decision.sound_answer _
    · exact Decision.sound_answer _
    · exact Decision.sound_answer _
    · exact Decision.sound_remove_delete hlc _ _

theorem applyUpdate_sound (name : RefName) (target : ObjectId) (expected : Option ObjectId)
    (hlc : Nat) (slot : Option RefSlot) :
    (applyUpdate name target expected hlc slot).Sound name slot := by
  unfold applyUpdate
  dsimp only
  split
  · exact Decision.sound_answer _
  · exact Decision.sound_answer _
  · exact Decision.sound_put_update (nextVersion_ne_zero _) _ _

theorem applyDelete_sound (name : RefName) (expected : ObjectId) (hlc : Nat)
    (slot : Option RefSlot) : (applyDelete name expected hlc slot).Sound name slot := by
  unfold applyDelete
  split
  · exact Decision.sound_answer _
  · split_ifs
    · exact Decision.sound_answer _
    · exact Decision.sound_remove_delete hlc _ _

theorem sound_putAnyway_unlogged {name : RefName} {slot : Option RefSlot} {s : RefSlot}
    {r : AppliedOutcome} (h : s.visible = slot.bind RefSlot.visible) :
    (Decision.putAnyway s none r).Sound name slot :=
  ⟨fun _ _ _ h => (by cases h), fun _ h => (by cases h), fun _ => h⟩

theorem applyPrepare_sound (txnId : TxnId) (coordShard : Nat) (name : RefName)
    (target : ObjectId) (expected : Option ObjectId) (hlc : Nat) (slot : Option RefSlot) :
    (applyPrepare txnId coordShard target expected hlc slot).Sound name slot := by
  unfold applyPrepare
  split_ifs
  · exact Decision.sound_answer _
  · split
    · exact Decision.sound_answer _
    · exact Decision.sound_answer _
    · split
      · exact sound_putAnyway_unlogged rfl
      · exact sound_putAnyway_unlogged rfl

theorem applyCommitPrepared_sound (txnId : TxnId) (name : RefName) (slot : Option RefSlot) :
    (applyCommitPrepared txnId name slot).Sound name slot := by
  unfold applyCommitPrepared
  split
  · exact Decision.sound_answer _
  · split
    · split_ifs
      · exact Decision.sound_put_update (Nat.succ_ne_zero _) _ _
      · exact Decision.sound_answer _
    · exact Decision.sound_answer _

theorem applyAbortPrepared_sound (txnId : TxnId) (name : RefName) (slot : Option RefSlot) :
    (applyAbortPrepared txnId slot).Sound name slot := by
  unfold applyAbortPrepared
  split
  · exact Decision.sound_answer _
  · rename_i s
    split
    · split_ifs with _ hv
      · -- releasing a placeholder removes a slot that was not visible
        refine ⟨fun _ _ _ _ => rfl, fun _ h => (by cases h), fun _ => ?_⟩
        simp [Decision.after, RefSlot.visible, hv]
      · exact sound_putAnyway_unlogged rfl
      · exact Decision.sound_answer _
    · exact Decision.sound_answer _

theorem AppliedOp.decide_sound (op : AppliedOp) (slot : Option RefSlot) :
    (op.decide slot).Sound op.name slot := by
  cases op with
  | update name target expected hlc => exact applyUpdate_sound ..
  | delete name expected hlc => exact applyDelete_sound ..
  | prepare txnId coordShard name target expected hlc => exact applyPrepare_sound ..
  | commitPrepared txnId name => exact applyCommitPrepared_sound ..
  | abortPrepared txnId name => exact applyAbortPrepared_sound ..

/-- The outcome does not depend on whether the append succeeds. -/
def Decision.Steady {R : Type} : Decision R → Prop
  | .answer _ => True
  | .put _ _ r lost | .remove _ r lost => r = lost

theorem AppliedOp.decide_steady (op : AppliedOp) (slot : Option RefSlot) :
    (op.decide slot).Steady := by
  cases op with
  | update name target expected hlc =>
    simp only [AppliedOp.decide, applyUpdate]
    split <;> trivial
  | delete name expected hlc =>
    simp only [AppliedOp.decide, applyDelete]
    split
    · trivial
    · split_ifs <;> trivial
  | prepare txnId coordShard name target expected hlc =>
    simp only [AppliedOp.decide, applyPrepare]
    split_ifs
    · trivial
    · split
      · trivial
      · trivial
      · split <;> trivial
  | commitPrepared txnId name =>
    simp only [AppliedOp.decide, applyCommitPrepared]
    split
    · trivial
    · split
      · split_ifs <;> trivial
      · trivial
  | abortPrepared txnId name =>
    simp only [AppliedOp.decide, applyAbortPrepared]
    split
    · trivial
    · split
      · split_ifs <;> trivial
      · trivial

/-- `apply_op` on a store, in terms of its decision. -/
theorem Store.run_attempt (s : Store) (durable : Bool) (name : RefName) {d : Decision R}
    (h : d.Steady) :
    s.run durable (d.attempt s.tree name) =
      (⟨d.tree s.tree name, s.wal ++ if durable then d.log.toList else []⟩, d.result) := by
  cases d with
  | answer r =>
    exact Prod.ext (by simp [Store.run, Decision.attempt, Decision.tree, Decision.log]) rfl
  | put slot log r lost | remove log r lost =>
    obtain rfl : r = lost := h
    cases log <;> cases durable <;>
      simp [Store.run, Decision.attempt, Decision.tree, Decision.log, Decision.result]

/-! ### Client calls -/

/-- The calls of the `RefStore` trait and `commit_batch`. -/
inductive Call
  | get (name : RefName)
  | list (search : String)
  | snapshot
  | update (name : RefName) (new : ObjectId) (expected : Option ObjectId)
  | delete (name : RefName) (expected : ObjectId)
  | commitBatch (ops : List BatchOp)
  deriving DecidableEq

/-- Their results. An `ArtSnapshot` is the tree it holds. -/
inductive Resp
  | got (entry : Option RefEntry)
  | listed (refs : List (RefName × RefEntry))
  | snapshot (frozen : RefTree)
  | updated (result : Except LedgeError RefEntry)
  | deleted (result : Except LedgeError Unit)
  | batch (result : Except CommitBatchError (List RefEntry))

def Attempt.map {R R' : Type} (g : R → R') : Attempt R → Attempt R'
  | .done r => .done (g r)
  | .publish t log r lost => .publish t log (g r) (g lost)

/-- One turn of a call's loop; `hlc` is what the clock returns in this turn. A read
returns in its first turn. -/
def Call.attempt (hlc : Nat) (t : RefTree) : Call → Attempt Resp
  | .get name => .done (.got (t.get name))
  | .list search => .done (.listed (t.list search))
  | .snapshot => .done (.snapshot t)
  | .update name new expected =>
    ((decideUpdate name new expected hlc (t.slot name)).attempt t name).map .updated
  | .delete name expected =>
    ((decideDelete name expected hlc (t.slot name)).attempt t name).map .deleted
  | .commitBatch ops => (t.commitBatch ops).map .batch

/-! ### Published frames -/

/-- The frame `f` is logged for a swap from `t` to `t'`: it writes what the swap changed,
and a deletion found its name. -/
structure Logged (t : RefTree) (f : WalEntry) (t' : RefTree) : Prop where
  slot : ∀ n, t'.slot n = (f.effect n).elim (t.slot n) (·.map RefSlot.ofCommitted)
  present : ∀ name hlc, f = .delete name hlc → (t.slot name).isSome
  valid : f.Valid

theorem Decision.Sound.logged_tree {d : Decision R} {name : RefName} {f : WalEntry}
    (h : d.Sound name (t.slot name)) (hf : d.log = some f) : Logged t f (d.tree t name) := by
  have hslot := fun n => h.slot_tree n
  obtain ⟨hnone, hlc, rfl⟩ | ⟨e, he, hsome, rfl⟩ := h.logged f hf
  · refine ⟨fun n => ?_, fun name' hlc' heq => ?_, fun n e heff => ?_⟩
    · rw [hslot, hnone]
      simp only [WalEntry.effect, eq_comm (a := name)]
      split_ifs <;> rfl
    · cases heq
      cases d with
      | answer r => cases hf
      | put s log r lost => cases hnone
      | remove log r lost => exact h.present log r lost rfl
    · simp only [WalEntry.effect] at heff
      split_ifs at heff
      cases heff
  · refine ⟨fun n => ?_, fun _ _ heq => (by cases heq), fun n e' heff => ?_⟩
    · rw [hslot, hsome]
      simp only [WalEntry.effect, eq_comm (a := name)]
      split_ifs <;> rfl
    · simp only [WalEntry.effect] at heff
      split_ifs at heff
      rw [← some.inj (some.inj heff)]
      exact he

theorem mem_of_lastFor {m : RefName} {us : List (RefName × RefEntry)} (h : lastFor m us = some e) :
    (m, e) ∈ us := by
  induction us using reverseRecOn with
  | nil => cases h
  | append_singleton us x ih =>
    rw [lastFor_concat] at h
    split_ifs at h with hx
    · cases h
      simp [← hx]
    · exact mem_append_left _ (ih h)

theorem batchPlanned_version_ne_zero {n : RefName} (h : (n, e) ∈ batchPlanned t ops) :
    e.version ≠ 0 := by
  rw [batchPlanned, mem_filterMap] at h
  obtain ⟨op, -, hop⟩ := h
  rcases planOp_cases t op with ⟨hplan, -⟩ | ⟨e', hplan, -⟩
  · rw [hplan] at hop
    cases hop
    exact nextVersion_ne_zero _
  · rw [hplan] at hop
    cases hop

theorem logged_batch (t : RefTree) (ops : List BatchOp) :
    Logged t (.batch (batchPlanned t ops)) ((batchPlanned t ops).foldl insertCommitted t) := by
  refine ⟨fun n => ?_, fun _ _ heq => (by cases heq), fun n e heff => ?_⟩
  · rw [slot_foldl_insertCommitted, WalEntry.effect]
    cases lastFor n (batchPlanned t ops) <;> rfl
  · simp only [WalEntry.effect, map_eq_some_iff, some.injEq] at heff
    obtain ⟨e', he', rfl⟩ := heff
    exact batchPlanned_version_ne_zero (mem_of_lastFor he')

/-- A client decision that changes a slot logs a frame. -/
def Decision.Logs {R : Type} : Decision R → Prop
  | .answer _ => True
  | .put _ log .. | .remove log .. => log.isSome

theorem decideUpdate_logs (name : RefName) (new : ObjectId) (expected : Option ObjectId)
    (hlc : Nat) (slot : Option RefSlot) : (decideUpdate name new expected hlc slot).Logs := by
  unfold decideUpdate
  split
  · trivial
  · dsimp only
    split
    · trivial
    · trivial
    · exact rfl

theorem decideDelete_logs (name : RefName) (expected : ObjectId) (hlc : Nat)
    (slot : Option RefSlot) : (decideDelete name expected hlc slot).Logs := by
  unfold decideDelete
  split
  · trivial
  · split_ifs
    · trivial
    · trivial
    · trivial
    · exact rfl

theorem applyUpdate_logs (name : RefName) (target : ObjectId) (expected : Option ObjectId)
    (hlc : Nat) (slot : Option RefSlot) : (applyUpdate name target expected hlc slot).Logs := by
  unfold applyUpdate
  dsimp only
  split
  · trivial
  · trivial
  · exact rfl

theorem applyDelete_logs (name : RefName) (expected : ObjectId) (hlc : Nat)
    (slot : Option RefSlot) : (applyDelete name expected hlc slot).Logs := by
  unfold applyDelete
  split
  · trivial
  · split_ifs
    · trivial
    · exact rfl

theorem Decision.Logs.cases {d : Decision R} (h : d.Logs) (t : RefTree) (name : RefName) :
    d.log = none ∧ d.tree t name = t ∨ ∃ f, d.log = some f := by
  cases d with
  | answer r => exact Or.inl ⟨rfl, rfl⟩
  | put slot log r lost | remove log r lost => exact Or.inr (isSome_iff_exists.mp h)

theorem Decision.Sound.logged_of_publish {R' : Type} {d : Decision R} {name : RefName} {g : R → R'}
    {log : Option WalEntry} {r lost : R'} (h : d.Sound name (t.slot name)) (hlogs : d.Logs)
    (hpub : (d.attempt t name).map g = .publish t' log r lost) :
    ∃ f, log = some f ∧ Logged t f t' := by
  have key : t' = d.tree t name ∧ log = d.log ∧ d.log.isSome := by
    cases d with
    | answer => cases hpub
    | put s l r' lost' | remove l r' lost' =>
      cases hpub
      exact ⟨rfl, rfl, hlogs⟩
  obtain ⟨rfl, rfl, hsome⟩ := key
  obtain ⟨f, hf⟩ := isSome_iff_exists.mp hsome
  exact ⟨f, hf, h.logged_tree hf⟩

/-- **Every publishing call logs what it publishes.** -/
theorem Call.logged_of_publish {c : Call} {hlc : Nat} {log : Option WalEntry} {r lost : Resp}
    (h : c.attempt hlc t = .publish t' log r lost) : ∃ f, log = some f ∧ Logged t f t' := by
  cases c with
  | get | list | snapshot => cases h
  | update name new expected =>
    exact (decideUpdate_sound ..).logged_of_publish (decideUpdate_logs ..) h
  | delete name expected =>
    exact (decideDelete_sound ..).logged_of_publish (decideDelete_logs ..) h
  | commitBatch ops =>
    simp only [Call.attempt, RefTree.commitBatch] at h
    split_ifs at h
    · cases h
    · cases h
      exact ⟨_, rfl, logged_batch t ops⟩

end Ledge.RefStore
