import Ledge.Cluster.Router
import Ledge.Raft.Apply
import Ledge.RefStore.AtomicCommit
import Mathlib.Data.List.Sort

/-!
# Ledge.Cluster.Txn

Cross-shard commits (`txn.rs`): the calls of `commit_atomic`, the passes of the resolver,
and the shards on which they act.

* Every operation on a shard, a write or a linearizable read, is one step, and the steps of
  all calls and passes interleave in any order. A call can stop after any of its steps,
  which is a crash as well as an error returned by an operation; so can a pass.
* Where an operation is applied, locally or forwarded, makes no difference to the shard. A
  pass scans the shards that its node hosts, in any number.
* What a clock decides is left open: the `hlc` that the leader of a shard ticks, and
  whether a lock is older than the time to live of the resolver.
* A multi-shard call is known by its transaction id, so no two calls share one.
* Plain `update` and `delete` calls of the cluster's ref store act on the same refs.
* Every operation is recorded with the state of its shard before and after it.
-/

namespace Ledge.Cluster

open Ledge.Core Ledge.RefStore Ledge.Raft

/-! ### Calls -/

/-- `group_by_shard`: shards ascending, the refs of a shard by name. -/
def groupByShard (route : RefName → ShardId) (mappings : List Mapping) :
    List (ShardId × List Mapping) :=
  let shards := (mappings.map (fun m => route m.name)).dedup.insertionSort (· ≤ ·)
  shards.map (fun shard =>
    (shard, (mappings.filter (fun m => route m.name = shard)).insertionSort
      (fun x y => ¬ y.name.bytes < x.name.bytes)))

/-- The next operation of a multi-shard call. -/
inductive Phase
  /-- `TxnBegin` -/
  | begin
  /-- `Prepare` of the first of `rest` -/
  | prepare (rest : List (ShardId × Mapping))
  /-- `TxnDecide` -/
  | decide (allYes : Bool) (conflicts : List RefName)
  /-- `CommitPrepared` or `AbortPrepared` of the first of `rest`, then `TxnEnd` -/
  | sweep (commit allYes : Bool) (conflicts : List RefName) (rest : List (ShardId × Mapping))
      (committed : List (RefName × RefEntry))
  | returned (result : AtomicCommitResult)
  /-- A crash, or an operation that returned an error. -/
  | failed
  deriving DecidableEq

/-- A multi-shard call of `commit_atomic`. -/
structure Call where
  mappings : List Mapping
  coordShard : ShardId
  participants : List ShardId
  /-- The refs in canonical order. -/
  refs : List (ShardId × Mapping)
  phase : Phase
  deriving DecidableEq

/-- The call that `commit_atomic` makes of mappings on several shards. -/
def Call.new (mappings : List Mapping) (groups : List (ShardId × List Mapping)) : Call :=
  let participants := groups.map Prod.fst
  { mappings := mappings
    coordShard := participants.min?.getD 0
    participants := participants
    refs := groups.flatMap (fun (shard, refs) => refs.map (fun m => (shard, m)))
    phase := .begin }

/-! ### Resolver passes -/

/-- A prepared lock that a pass has seen. -/
structure LockItem where
  shard : ShardId
  name : String
  intent : PreparedIntent
  deriving DecidableEq

/-- The next operation of a pass of `resolve_once`. -/
inductive Pass
  | idle
  /-- `prepared_locks_by_shard` -/
  | scan (rest : List ShardId) (found : List LockItem)
  /-- `read_decision` for the first of `rest` -/
  | resolve (rest : List LockItem) (toGc : List (TxnId × ShardId))
  /-- `TxnDecide` for a stale lock without a decision -/
  | presume (item : LockItem) (rest : List LockItem) (toGc : List (TxnId × ShardId))
  /-- `CommitPrepared` or `AbortPrepared` -/
  | act (item : LockItem) (commit : Bool) (rest : List LockItem) (toGc : List (TxnId × ShardId))
  /-- `TxnEnd` for the first of `rest` -/
  | collect (rest : List (TxnId × ShardId))
  | done
  deriving DecidableEq

/-- Insert into the `BTreeSet` of records to drop. -/
def gcInsert (x : TxnId × ShardId) : List (TxnId × ShardId) → List (TxnId × ShardId)
  | [] => [x]
  | y :: l =>
    if x = y then y :: l
    else if x.1.bytes < y.1.bytes ∨ (x.1 = y.1 ∧ x.2 < y.2) then x :: y :: l
    else y :: gcInsert x l

/-! ### The state -/

/-- An operation on a shard. -/
structure ShardStep where
  shard : ShardId
  op : LedgeOp
  before : Replica
  after : Replica

/-- The shards, and the calls and passes that act on them. -/
structure Fleet where
  shards : ShardId → Replica
  calls : TxnId → Option Call
  passes : Nat → Pass
  /-- The operations so far. -/
  trace : List ShardStep
  /-- What calls of `commit_atomic` have returned. -/
  returns : List (List Mapping × AtomicCommitResult)

namespace Fleet

/-- A shard has applied a command. -/
def setShard (c : Fleet) (shard : ShardId) (op : LedgeOp) (r : Replica) : Fleet :=
  { c with
    shards := Function.update c.shards shard r
    trace := c.trace ++ [⟨shard, op, c.shards shard, r⟩] }

/-- One command on a shard; `none` if the state machine panics. -/
def shardOp (c : Fleet) (shard : ShardId) (op : LedgeOp) : Option (Fleet × LedgeResp) :=
  (applyOne (c.shards shard) true op).map (fun (r, resp) => (c.setShard shard op r, resp))

/-- `txn_decision` on the coordinator shard. -/
def txnDecision (c : Fleet) (shard : ShardId) (t : TxnId) : Option TxnDecision :=
  ((c.shards shard).txnRecords.lookup t).map TxnRecord.decision

def setCall (c : Fleet) (t : TxnId) (call : Call) : Fleet :=
  { c with calls := Function.update c.calls t (some call) }

def setPass (c : Fleet) (i : Nat) (p : Pass) : Fleet :=
  { c with passes := Function.update c.passes i p }

/-- A call of `commit_atomic` returns. -/
def addReturn (c : Fleet) (mappings : List Mapping) (result : AtomicCommitResult) : Fleet :=
  { c with returns := c.returns ++ [(mappings, result)] }

/-- What `commit_atomic` returns after `TxnEnd`. -/
def result (commit allYes : Bool) (conflicts : List RefName)
    (committed : List (RefName × RefEntry)) : AtomicCommitResult :=
  if commit then .committed committed
  else if allYes then .aborted "presumed-abort by recovery (coordinator was in-doubt)" conflicts
  else .aborted "prepare vote NO" conflicts

/-- The phase after a yes vote. -/
def afterYes : List (ShardId × Mapping) → Phase
  | [] => .decide true []
  | rest => .prepare rest

/-- The phase after a vote; other responses are an error. -/
def afterVote (name : RefName) (rest : List (ShardId × Mapping)) : LedgeResp → Phase
  | .vote true => afterYes rest
  | .vote false => .decide false [name]
  | _ => .failed

/-- Roll a lock forward or release it. -/
def phaseTwoOp (commit : Bool) (t : TxnId) (name : String) : LedgeOp :=
  if commit then .refCommitPrepared t name else .refAbortPrepared t name

/-- The next operation of a multi-shard call. -/
def stepCall (c : Fleet) (t : TxnId) (hlc : Nat) (call : Call) : Option Fleet :=
  match call.phase with
  | .begin =>
    (c.shardOp call.coordShard (.txnBegin t call.participants)).map (fun (c', _) =>
      c'.setCall t { call with phase := afterYes call.refs })
  | .prepare [] => none
  | .prepare ((shard, m) :: rest) =>
    let op := .refPrepare t call.coordShard m.name.asStr m.target m.expected hlc
    (c.shardOp shard op).map (fun (c', resp) =>
      c'.setCall t { call with phase := afterVote m.name rest resp })
  | .decide allYes conflicts =>
    (c.shardOp call.coordShard (.txnDecide t allYes)).map (fun (c', resp) =>
      let commit := decide (resp = .txnState (some .commit))
      c'.setCall t { call with phase := .sweep commit allYes conflicts call.refs [] })
  | .sweep commit allYes conflicts ((shard, m) :: rest) committed =>
    (c.shardOp shard (phaseTwoOp commit t m.name.asStr)).map (fun (c', resp) =>
      let committed' :=
        match commit, resp with
        | true, .committedPrepared e => committed ++ [(m.name, e)]
        | _, _ => committed
      c'.setCall t { call with phase := .sweep commit allYes conflicts rest committed' })
  | .sweep commit allYes conflicts [] committed =>
    (c.shardOp call.coordShard (.txnEnd t)).map (fun (c', _) =>
      (c'.setCall t
        { call with phase := .returned (result commit allYes conflicts committed) }).addReturn
          call.mappings (result commit allYes conflicts committed))
  | .returned _ | .failed => none

/-- The locks of a shard as a pass finds them. -/
def locksOf (c : Fleet) (shard : ShardId) : List LockItem :=
  (c.shards shard).refs.tree.preparedLocks.map (fun (name, intent) => ⟨shard, name, intent⟩)

/-- The next operation of a pass; `stale` is the answer of `lock_is_stale`. -/
def stepPass (c : Fleet) (i : Nat) (stale : Bool) : Option Fleet :=
  match c.passes i with
  | .idle | .done => none
  | .scan [] found => some (c.setPass i (.resolve found []))
  | .scan (shard :: rest) found => some (c.setPass i (.scan rest (found ++ c.locksOf shard)))
  | .resolve [] toGc => some (c.setPass i (.collect toGc))
  | .resolve (item :: rest) toGc =>
    match c.txnDecision item.intent.coordShard item.intent.txnId with
    | some .commit => some (c.setPass i (.act item true rest toGc))
    | some .abort => some (c.setPass i (.act item false rest toGc))
    | none | some .pending =>
      some (c.setPass i (if stale then .presume item rest toGc else .resolve rest toGc))
  | .presume item rest toGc =>
    (c.shardOp item.intent.coordShard (.txnDecide item.intent.txnId false)).map
      (fun (c', resp) =>
        let commit := decide (resp = .txnState (some .commit))
        c'.setPass i (.act item commit rest toGc))
  | .act item commit rest toGc =>
    (c.shardOp item.shard (phaseTwoOp commit item.intent.txnId item.name)).map (fun (c', _) =>
      let toGc' :=
        if commit then gcInsert (item.intent.txnId, item.intent.coordShard) toGc else toGc
      c'.setPass i (.resolve rest toGc'))
  | .collect [] => some (c.setPass i .done)
  | .collect ((t, shard) :: rest) =>
    (c.shardOp shard (.txnEnd t)).map (fun (c', _) => c'.setPass i (.collect rest))

/-- The commands of `apply_batch_on_shard`. -/
def batchOps (refs : List Mapping) (hlc : Nat → Nat) : List Raft.BatchOp :=
  refs.mapIdx (fun i m => ⟨m.name.asStr, m.target, m.expected, hlc i⟩)

/-- The entries of the `Ok` outcomes. -/
def batchCommitted (refs : List Mapping) (outcomes : List BatchOutcome) :
    List (RefName × RefEntry) :=
  (refs.zip outcomes).filterMap (fun
    | (m, .ok e) => some (m.name, e)
    | (_, .conflict _) => none)

/-- The refs of the `Conflict` outcomes. -/
def batchRefused (refs : List Mapping) (outcomes : List BatchOutcome) : List RefName :=
  (refs.zip outcomes).filterMap (fun
    | (_, .ok _) => none
    | (m, .conflict _) => some m.name)

/-- What `commit_single_shard` makes of the outcomes. -/
def singleResult (refs : List Mapping) (outcomes : List BatchOutcome) : AtomicCommitResult :=
  if batchRefused refs outcomes = [] then .committed (batchCommitted refs outcomes)
  else .aborted "single-shard batch precondition failed" (batchRefused refs outcomes)

/-- `commit_single_shard`; another response is an error. -/
def commitSingleShard (c : Fleet) (mappings : List Mapping) (shard : ShardId)
    (refs : List Mapping) (hlc : Nat → Nat) : Option Fleet :=
  (c.shardOp shard (.refBatch (batchOps refs hlc))).map (fun (c', resp) =>
    match resp with
    | .batchResult outcomes => c'.addReturn mappings (singleResult refs outcomes)
    | _ => c')

/-- `commit_atomic` up to its first operation on several shards. -/
def commitAtomic (c : Fleet) (route : RefName → ShardId) (t : TxnId) (mappings : List Mapping)
    (hlc : Nat → Nat) : Option Fleet :=
  match groupByShard route mappings with
  | [] => some (c.addReturn mappings (.committed []))
  | [(shard, refs)] => c.commitSingleShard mappings shard refs hlc
  | groups =>
    match c.calls t with
    | none => some (c.setCall t (Call.new mappings groups))
    | some _ => none

end Fleet

/-- What happens next. -/
inductive Move
  /-- A call of `commit_atomic`. On several shards it has the transaction id `t`; on one
  shard it is one `RefBatch` with the ticks `hlc` of the leader. -/
  | commitAtomic (t : TxnId) (mappings : List Mapping) (hlc : Nat → Nat)
  | call (t : TxnId) (hlc : Nat)
  | crash (t : TxnId)
  /-- A pass starts on a node that hosts these shards. -/
  | startPass (i : Nat) (hosted : List ShardId)
  | pass (i : Nat) (stale : Bool)
  | stopPass (i : Nat)
  /-- A plain `update` of the cluster's ref store. -/
  | update (name : RefName) (target : ObjectId) (expected : Option ObjectId) (hlc : Nat)
  /-- A plain `delete`. -/
  | delete (name : RefName) (expected : ObjectId) (hlc : Nat)

/-- One step. -/
def Fleet.step (route : RefName → ShardId) (c : Fleet) : Move → Option Fleet
  | .commitAtomic t mappings hlc => c.commitAtomic route t mappings hlc
  | .call t hlc => (c.calls t).bind (c.stepCall t hlc)
  | .crash t =>
    match c.calls t with
    | none | some ⟨_, _, _, _, .returned _⟩ => none
    | some call => some (c.setCall t { call with phase := .failed })
  | .startPass i hosted =>
    match c.passes i with
    | .idle => some (c.setPass i (.scan hosted []))
    | _ => none
  | .pass i stale => c.stepPass i stale
  | .stopPass i => some (c.setPass i .done)
  | .update name target expected hlc =>
    (c.shardOp (route name) (.refUpdate name.asStr target expected hlc)).map Prod.fst
  | .delete name expected hlc =>
    (c.shardOp (route name) (.refDelete name.asStr expected hlc)).map Prod.fst

/-- Steps in order. -/
def Fleet.exec (route : RefName → ShardId) (c : Fleet) : List Move → Option Fleet
  | [] => some c
  | m :: moves => (c.step route m).bind (fun c' => c'.exec route moves)

/-- No call or pass has been made, and no transaction is in progress on any shard. -/
structure Fleet.Fresh (c : Fleet) : Prop where
  unlocked : ∀ shard n, (c.shards shard).refs.tree.lock n = none
  records : ∀ shard, (c.shards shard).txnRecords = ∅
  calls : ∀ t, c.calls t = none
  passes : ∀ i, c.passes i = .idle
  trace : c.trace = []
  returns : c.returns = []

end Ledge.Cluster
