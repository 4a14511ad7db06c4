import Ledge.RefStore.Store
import Ledge.Workspace.Lease

/-!
# Ledge.Raft.Op

The replicated commands and their results (`op.rs`). On the wire a ref name is a string;
`RefName::new` is called when a committed command is applied. An object id is its 32
bytes on the wire, which is what an `ObjectId` is.
-/

namespace Ledge.Raft

open Ledge.Core Ledge.RefStore Ledge.Workspace

/-- One ref CAS within a single-shard atomic `RefBatch`. -/
structure BatchOp where
  name : String
  target : ObjectId
  expected : Option ObjectId
  hlc : Nat
  deriving DecidableEq

/-- A replicable mutation. -/
inductive LedgeOp
  | refUpdate (name : String) (target : ObjectId) (expected : Option ObjectId) (hlc : Nat)
  | refDelete (name : String) (expected : ObjectId) (hlc : Nat)
  | leasePut (lease : Lease)
  | leaseTombstone (id : WorkspaceId) (hlc : Nat)
  | refPrepare (txnId : TxnId) (coordShard : Nat) (name : String) (target : ObjectId)
      (expected : Option ObjectId) (hlc : Nat)
  | refCommitPrepared (txnId : TxnId) (name : String)
  | refAbortPrepared (txnId : TxnId) (name : String)
  | refBatch (ops : List BatchOp)
  | txnBegin (txnId : TxnId) (participants : List Nat)
  | txnDecide (txnId : TxnId) (commit : Bool)
  | txnEnd (txnId : TxnId)
  deriving DecidableEq

/-- Per-ref result of a `RefBatch`. -/
inductive BatchOutcome
  | ok (entry : RefEntry)
  | conflict (current : RefEntry)
  deriving DecidableEq

/-- Durable transaction decision recorded on the coordinator shard. -/
inductive TxnDecision
  | pending
  | commit
  | abort
  deriving DecidableEq

/-- The applied result of a command. -/
inductive LedgeResp
  | refUpdated (entry : RefEntry)
  | conflict (current : RefEntry)
  | notFound
  | deleted
  | leaseOk
  | noop
  | vote (yes : Bool)
  | batchResult (outcomes : List BatchOutcome)
  | txnState (decision : Option TxnDecision)
  | committedPrepared (entry : RefEntry)
  | abortedPrepared
  deriving DecidableEq

/-- `to_applied`: `none` for commands that do not go through `apply_op`. -/
def LedgeOp.toApplied : LedgeOp → Option (Except LedgeError AppliedOp)
  | .refUpdate name target expected hlc =>
    some ((RefName.new name).map (fun n => .update n target expected hlc))
  | .refDelete name expected hlc =>
    some ((RefName.new name).map (fun n => .delete n expected hlc))
  | .refPrepare txnId coordShard name target expected hlc =>
    some ((RefName.new name).map (fun n => .prepare txnId coordShard n target expected hlc))
  | .refCommitPrepared txnId name =>
    some ((RefName.new name).map (fun n => .commitPrepared txnId n))
  | .refAbortPrepared txnId name =>
    some ((RefName.new name).map (fun n => .abortPrepared txnId n))
  | .leasePut _ | .leaseTombstone _ _ | .refBatch _ | .txnBegin _ _ | .txnDecide _ _
  | .txnEnd _ => none

/-- `outcome_to_resp` -/
def outcomeToResp : AppliedOutcome → LedgeResp
  | .updated e => .refUpdated e
  | .conflict e => .conflict e
  | .notFound => .notFound
  | .deleted => .deleted
  | .voteYes => .vote true
  | .voteNo => .vote false
  | .commitedPrepared e => .committedPrepared e
  | .abortedPrepared => .abortedPrepared

end Ledge.Raft
