import Ledge.Raft.Op

/-!
# Ledge.Raft.Apply

`apply_one` (`state_machine.rs`): the effect of one committed command on the applied
state of a shard, which is its ref store, its lease store and its transaction records.

A panic of the source is `none`. An invalid ref name panics, and so do the `unreachable!`
arms, which are never taken (`applyOne_eq`). The `expect` on the append of a lease write
fails with the disk only, and is left out.
-/

namespace Ledge.Raft

open Ledge.Core Ledge.RefStore Ledge.Workspace

/-- Durable per-transaction record kept on the coordinator shard. -/
structure TxnRecord where
  decision : TxnDecision
  participants : List Nat
  deriving DecidableEq

/-- The `BTreeMap` of transaction records. -/
abbrev TxnRecords := Finmap (fun _ : TxnId => TxnRecord)

/-- The applied state of a shard. -/
structure Replica where
  refs : Store
  leases : LeaseStore
  txnRecords : TxnRecords

/-- Empty stores and no records. -/
def Replica.empty : Replica := ⟨⟨.empty, []⟩, .openOn [], ∅⟩

/-! ### The arms of `apply_one` -/

/-- Apply a ref command through `apply_op`; `durable` says whether the append of its
frame succeeds. -/
def Replica.applyRef (r : Replica) (durable : Bool) (op : LedgeOp)
    (resp : AppliedOutcome → Option LedgeResp) : Option (Replica × LedgeResp) :=
  match op.toApplied with
  | some (.ok applied) =>
    let (refs, outcome) := r.refs.run durable (r.refs.tree.applyOp applied)
    (resp outcome).map (fun resp => ({ r with refs := refs }, resp))
  | _ => none

/-- The `RefPrepare` arm's match; other outcomes are `unreachable!`. -/
def voteResp : AppliedOutcome → Option LedgeResp
  | .voteYes => some (.vote true)
  | .voteNo => some (.vote false)
  | _ => none

/-- The `RefCommitPrepared` arm's match. -/
def commitResp : AppliedOutcome → Option LedgeResp
  | .commitedPrepared e => some (.committedPrepared e)
  | .abortedPrepared => some .abortedPrepared
  | _ => none

/-- The `RefAbortPrepared` arm's match. -/
def abortResp : AppliedOutcome → Option LedgeResp
  | .abortedPrepared => some .abortedPrepared
  | _ => none

/-- The input tuple of `commit_batch`. -/
def BatchOp.toInput (b : BatchOp) : Option RefStore.BatchOp :=
  match RefName.new b.name with
  | .ok n => some ⟨n, b.target, b.expected, b.hlc⟩
  | .error _ => none

/-- What a batch that did not apply reports for one of its refs: the blocking entry (the
last one, as `conflicts` is collected into a map), or the current one. -/
def batchConflict (t : RefTree) (conflicts : List (RefName × RefEntry))
    (op : RefStore.BatchOp) : BatchOutcome :=
  match lastFor op.name conflicts with
  | some e => .conflict e
  | none => .conflict ((t.get op.name).getD ⟨op.target, 0, 0⟩)

/-- The outcomes of a batch, in input order. -/
def batchOutcomes (t : RefTree) (ops : List RefStore.BatchOp) :
    Except CommitBatchError (List RefEntry) → List BatchOutcome
  | .ok applied => applied.map .ok
  | .error (.notDurable applied) => applied.map .ok
  | .error (.conflicts conflicts) => ops.map (batchConflict t conflicts)

/-- The `RefBatch` arm. -/
def Replica.applyBatch (r : Replica) (durable : Bool) (ops : List BatchOp) :
    Option (Replica × LedgeResp) :=
  (ops.mapM BatchOp.toInput).map (fun inputs =>
    let (refs, result) := r.refs.run durable (r.refs.tree.commitBatch inputs)
    ({ r with refs := refs }, .batchResult (batchOutcomes refs.tree inputs result)))

/-- The `TxnDecide` arm: the first terminal decision wins. A missing record is created. -/
def decideTxn (m : TxnRecords) (txnId : TxnId) (commit : Bool) : TxnRecords × TxnDecision :=
  let requested : TxnDecision := if commit then .commit else .abort
  let entry := (m.lookup txnId).getD ⟨.pending, []⟩
  let actual := if entry.decision = .pending then requested else entry.decision
  (m.insert txnId { entry with decision := actual }, actual)

/-- `apply_one` -/
def applyOne (r : Replica) (durable : Bool) (op : LedgeOp) : Option (Replica × LedgeResp) :=
  match op with
  | .refUpdate .. | .refDelete .. => r.applyRef durable op (fun o => some (outcomeToResp o))
  | .leasePut lease => some ({ r with leases := r.leases.put lease }, .leaseOk)
  | .leaseTombstone id hlc =>
    some ({ r with leases := r.leases.tombstoneWithHlc id hlc }, .leaseOk)
  | .txnBegin txnId participants =>
    some ({ r with txnRecords := r.txnRecords.insert txnId ⟨.pending, participants⟩ },
      .txnState (some .pending))
  | .txnDecide txnId commit =>
    let (records, actual) := decideTxn r.txnRecords txnId commit
    some ({ r with txnRecords := records }, .txnState (some actual))
  | .txnEnd txnId =>
    some ({ r with txnRecords := r.txnRecords.erase txnId }, .txnState none)
  | .refPrepare .. => r.applyRef durable op voteResp
  | .refCommitPrepared .. => r.applyRef durable op commitResp
  | .refAbortPrepared .. => r.applyRef durable op abortResp
  | .refBatch ops => r.applyBatch durable ops

/-! ### Commands with checked names -/

/-- A command whose names have been checked, or an entry without a command. -/
inductive Action
  | noop
  | ref (op : AppliedOp)
  | batch (ops : List RefStore.BatchOp)
  | leasePut (lease : Lease)
  | leaseTombstone (id : WorkspaceId) (hlc : Nat)
  | txnBegin (txnId : TxnId) (participants : List Nat)
  | txnDecide (txnId : TxnId) (commit : Bool)
  | txnEnd (txnId : TxnId)
  deriving DecidableEq

/-- The check of a command's names; `none` when one is invalid. -/
def LedgeOp.action (op : LedgeOp) : Option Action :=
  match op with
  | .leasePut lease => some (.leasePut lease)
  | .leaseTombstone id hlc => some (.leaseTombstone id hlc)
  | .refBatch ops => (ops.mapM BatchOp.toInput).map .batch
  | .txnBegin txnId participants => some (.txnBegin txnId participants)
  | .txnDecide txnId commit => some (.txnDecide txnId commit)
  | .txnEnd txnId => some (.txnEnd txnId)
  | .refUpdate .. | .refDelete .. | .refPrepare .. | .refCommitPrepared .. | .refAbortPrepared .. =>
    op.toApplied.bind (fun checked => checked.toOption.map .ref)

/-- The effect of a checked command, which never panics. -/
def Replica.perform (r : Replica) (durable : Bool) : Action → Replica × LedgeResp
  | .noop => (r, .noop)
  | .ref op =>
    let (refs, outcome) := r.refs.run durable (r.refs.tree.applyOp op)
    ({ r with refs := refs }, outcomeToResp outcome)
  | .batch ops =>
    let (refs, result) := r.refs.run durable (r.refs.tree.commitBatch ops)
    ({ r with refs := refs }, .batchResult (batchOutcomes refs.tree ops result))
  | .leasePut lease => ({ r with leases := r.leases.put lease }, .leaseOk)
  | .leaseTombstone id hlc => ({ r with leases := r.leases.tombstoneWithHlc id hlc }, .leaseOk)
  | .txnBegin txnId participants =>
    ({ r with txnRecords := r.txnRecords.insert txnId ⟨.pending, participants⟩ },
      .txnState (some .pending))
  | .txnDecide txnId commit =>
    ({ r with txnRecords := (decideTxn r.txnRecords txnId commit).1 },
      .txnState (some (decideTxn r.txnRecords txnId commit).2))
  | .txnEnd txnId => ({ r with txnRecords := r.txnRecords.erase txnId }, .txnState none)

theorem voteResp_of_prepare (txnId : TxnId) (coordShard : Nat) (target : ObjectId)
    (expected : Option ObjectId) (hlc : Nat) (slot : Option RefSlot) :
    voteResp (applyPrepare txnId coordShard target expected hlc slot).result =
      some (outcomeToResp (applyPrepare txnId coordShard target expected hlc slot).result) := by
  unfold applyPrepare
  split_ifs
  · rfl
  · split
    · rfl
    · rfl
    · split <;> rfl

theorem commitResp_of_commitPrepared (txnId : TxnId) (name : RefName) (slot : Option RefSlot) :
    commitResp (applyCommitPrepared txnId name slot).result =
      some (outcomeToResp (applyCommitPrepared txnId name slot).result) := by
  unfold applyCommitPrepared
  split
  · rfl
  · split
    · split_ifs <;> rfl
    · rfl

theorem abortResp_of_abortPrepared (txnId : TxnId) (slot : Option RefSlot) :
    abortResp (applyAbortPrepared txnId slot).result =
      some (outcomeToResp (applyAbortPrepared txnId slot).result) := by
  unfold applyAbortPrepared
  split
  · rfl
  · split
    · split_ifs <;> rfl
    · rfl

theorem run_applyOp (s : Store) (durable : Bool) (op : AppliedOp) :
    s.run durable (s.tree.applyOp op) =
      (⟨(op.decide (s.tree.slot op.name)).tree s.tree op.name,
        s.wal ++ if durable then (op.decide (s.tree.slot op.name)).log.toList else []⟩,
        (op.decide (s.tree.slot op.name)).result) :=
  s.run_attempt durable op.name (op.decide_steady _)

/-- A ref command whose arm accepts every outcome of its operation. -/
theorem applyRef_eq {r : Replica} {durable : Bool} {op : LedgeOp}
    {resp : AppliedOutcome → Option LedgeResp} {checked : Except LedgeError AppliedOp}
    (hop : op.toApplied = some checked)
    (hresp : ∀ applied, checked = .ok applied → ∀ slot,
      resp (applied.decide slot).result = some (outcomeToResp (applied.decide slot).result)) :
    r.applyRef durable op resp =
      (checked.toOption.map Action.ref).map (r.perform durable) := by
  rw [Replica.applyRef, hop]
  cases checked with
  | error e => rfl
  | ok applied =>
    simp only [run_applyOp, hresp applied rfl, Option.map_some, Except.toOption,
      Replica.perform]

theorem exists_of_map_ok {E A B : Type} {x : Except E A} {g : A → B} {b : B}
    (h : x.map g = .ok b) : ∃ a, g a = b := by
  cases x with
  | error e => cases h
  | ok a => exact ⟨a, Except.ok.inj h⟩

/-- **`apply_one` is a check of the names and then a total function.** In particular the
`unreachable!` arms are not reached. -/
theorem applyOne_eq (r : Replica) (durable : Bool) (op : LedgeOp) :
    applyOne r durable op = op.action.map (r.perform durable) := by
  cases op with
  | leasePut | leaseTombstone | txnBegin | txnDecide | txnEnd => rfl
  | refBatch ops =>
    simp only [applyOne, Replica.applyBatch, LedgeOp.action, Option.map_map]
    rfl
  | refUpdate name target expected hlc =>
    show r.applyRef durable (.refUpdate name target expected hlc)
      (fun o => some (outcomeToResp o)) = _
    exact applyRef_eq rfl fun _ _ _ => rfl
  | refDelete name expected hlc =>
    show r.applyRef durable (.refDelete name expected hlc) (fun o => some (outcomeToResp o)) = _
    exact applyRef_eq rfl fun _ _ _ => rfl
  | refPrepare txnId coordShard name target expected hlc =>
    refine applyRef_eq rfl fun applied heq slot => ?_
    obtain ⟨n, rfl⟩ := exists_of_map_ok heq
    exact voteResp_of_prepare ..
  | refCommitPrepared txnId name =>
    refine applyRef_eq rfl fun applied heq slot => ?_
    obtain ⟨n, rfl⟩ := exists_of_map_ok heq
    exact commitResp_of_commitPrepared ..
  | refAbortPrepared txnId name =>
    refine applyRef_eq rfl fun applied heq slot => ?_
    obtain ⟨n, rfl⟩ := exists_of_map_ok heq
    exact abortResp_of_abortPrepared ..

end Ledge.Raft
