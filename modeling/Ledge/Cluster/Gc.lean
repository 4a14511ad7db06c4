import Ledge.Cluster.Router
import Ledge.Raft.Lock
import Ledge.Workspace.Gc
import Mathlib.Data.List.Destutter

/-!
# Ledge.Cluster.Gc

The collectors of a cluster node, interleaved with the transactions on its shards.

A node in cluster mode runs two of them: `ClusterGc::run` on demand, and on a timer the
single-node `Gc::run_at` over the `ClusterRefStore`. Both list the stored objects, gather roots
shard by shard, mark, and sweep object by object. Each read of a shard goes through the barrier of
its leader, so it is one step and sees what is committed; between the reads the shards go on.

Reads of objects are left to a parameter (`Collector.view`).
-/

namespace Ledge.Cluster

open Ledge.Core Ledge.RefStore Ledge.Raft Ledge.Objects Ledge.Workspace List

/-! ### The shards -/

/-- What transactions do to a shard. -/
inductive TxnOp
  | prepare (txnId : TxnId) (coordShard : Nat) (name : RefName) (target : ObjectId)
      (expected : Option ObjectId) (hlc : Nat)
  | commitPrepared (txnId : TxnId) (name : RefName)
  | abortPrepared (txnId : TxnId) (name : RefName)
  deriving DecidableEq

namespace TxnOp

def applied : TxnOp → AppliedOp
  | .prepare txnId coordShard name target expected hlc =>
    .prepare txnId coordShard name target expected hlc
  | .commitPrepared txnId name => .commitPrepared txnId name
  | .abortPrepared txnId name => .abortPrepared txnId name

def name (op : TxnOp) : RefName := op.applied.name

/-- The shard after the operation. -/
def run (op : TxnOp) (durable : Bool) (r : Replica) : Replica :=
  (r.perform durable (.ref op.applied)).1

end TxnOp

theorem TxnOp.slot_run_of_ne (op : TxnOp) (durable : Bool) (r : Replica) {n : RefName}
    (hn : n ≠ op.name) : (op.run durable r).refs.tree.slot n = r.refs.tree.slot n :=
  (slot_perform_ref r durable op.applied rfl n).trans (if_neg hn)

/-- The shards of a cluster. A ref is on the shard that the router gives it. -/
structure Shards (router : ShardRouter) where
  replica : ShardId → Replica
  placed : ∀ shard n, (replica shard).refs.tree.slot n ≠ none → router.shardFor n = shard

namespace Shards

variable {router : ShardRouter}

def empty (router : ShardRouter) : Shards router := ⟨fun _ => .empty, fun _ _ h => absurd rfl h⟩

/-- An operation of a transaction is applied to the shard of its ref. -/
def apply (s : Shards router) (op : TxnOp) (durable : Bool) : Shards router where
  replica := Function.update s.replica (router.shardFor op.name)
    (op.run durable (s.replica (router.shardFor op.name)))
  placed := by
    intro shard n h
    by_cases hshard : shard = router.shardFor op.name
    · by_cases hn : n = op.name
      · rw [hn, hshard]
      · rw [hshard, Function.update_self, op.slot_run_of_ne durable _ hn] at h
        rw [hshard]
        exact s.placed _ n h
    · rw [Function.update_of_ne hshard] at h
      exact s.placed shard n h

end Shards

/-! ### Roots -/

/-- One shard of `committed_targets_by_shard` -/
def committedTargets (r : Replica) : List ObjectId := durableTargets (r.refs.tree.list "")

/-- One shard of `prepared_locks_by_shard`, of which only the staged targets are used -/
def stagedTargets (r : Replica) : List ObjectId :=
  r.refs.tree.preparedLocks.map (fun x => x.2.stagedTarget)

/-- The end of `ClusterRefStore::list`: `sort_by` and `dedup_by` on the names. -/
def mergeRefs (out : List (RefName × RefEntry)) : List (RefName × RefEntry) :=
  (out.mergeSort (fun x y => decide (x.1.bytes ≤ y.1.bytes))).destutter (fun x y => x.1 ≠ y.1)

/-! ### A pass -/

inductive GcKind
  /-- `ClusterGc::run` -/
  | cluster
  /-- `Gc::run_at` over the `ClusterRefStore` -/
  | scheduled
  deriving DecidableEq

/-- A node and one pass on it. `live` are the leases that the pass gets to see, in the order of
the lease index. -/
structure Collector where
  kind : GcKind
  router : ShardRouter
  hosted : List ShardId
  nodup : hosted.Nodup
  hosted_lt : ∀ shard ∈ hosted, shard < router.numShards
  nowUnixSecs : Nat
  grace : Nat
  leases : LeaseIndex
  live : List Lease
  isLive : leases.Live (min (nowUnixSecs * 1000) (2 ^ 64 - 1)) live
  view : Disk → StoreView

/-- Where a pass is. `candidates` are the objects that it may delete, and `rest` is what the
current loop has still to read. -/
inductive GcPhase
  | idle
  /-- `committed_targets_by_shard` -/
  | committed (candidates : List ObjectId) (rest : List ShardId) (roots : List ObjectId)
  /-- `prepared_locks_by_shard` -/
  | locks (candidates : List ObjectId) (rest : List ShardId) (roots : List ObjectId)
  /-- `list("refs/")` of the scheduled pass -/
  | listing (candidates : List ObjectId) (rest : List ShardId) (out : List (RefName × RefEntry))
  | leases (candidates roots : List ObjectId)
  | workspaces (candidates : List ObjectId) (rest : List Lease) (roots : List ObjectId)
  | sweep (rest keep : List ObjectId)
  | ended

/-- The shards, the files of the node, and its pass. -/
structure GcState (router : ShardRouter) where
  shards : Shards router
  disk : Disk
  pass : GcPhase

namespace Collector

variable (c : Collector)

/-- The shards that `ClusterRefStore::list` reads. -/
def spanned (search : String) : List ShardId :=
  match c.router.shardsForPrefix (strBytes search) with
  | .one shard => [shard]
  | .all => c.hosted

/-- `list` of the refs of one workspace. Their prefix pins one shard, which is read in one step;
a shard of other nodes is an error. -/
def listWorkspace (shards : Shards c.router) (id : WorkspaceId) :
    Option (List (RefName × RefEntry)) :=
  let spanned := c.spanned (wsPrefix id)
  if ∀ shard ∈ spanned, shard ∈ c.hosted then
    some (mergeRefs (spanned.flatMap (fun shard =>
      (shards.replica shard).refs.tree.list (wsPrefix id))))
  else none

/-- The next step of the pass. -/
def turn (s : GcState c.router) : GcState c.router :=
  match s.pass with
  | .idle =>
    match c.kind with
    | .cluster => { s with pass := .committed s.disk.listAllIds c.hosted [] }
    | .scheduled => { s with pass := .listing s.disk.listAllIds (c.spanned "refs/") [] }
  | .committed candidates (shard :: rest) roots =>
    let targets := committedTargets (s.shards.replica shard)
    { s with pass := .committed candidates rest (roots ++ targets) }
  | .committed candidates [] roots => { s with pass := .locks candidates c.hosted roots }
  | .locks candidates (shard :: rest) roots =>
    let targets := stagedTargets (s.shards.replica shard)
    { s with pass := .locks candidates rest (roots ++ targets) }
  | .locks candidates [] roots => { s with pass := .leases candidates roots }
  | .listing candidates (shard :: rest) out =>
    if shard ∈ c.hosted then
      let refs := (s.shards.replica shard).refs.tree.list "refs/"
      { s with pass := .listing candidates rest (out ++ refs) }
    else { s with pass := .ended }
  | .listing candidates [] out =>
    { s with pass := .leases candidates (durableTargets (mergeRefs out)) }
  | .leases candidates roots => { s with pass := .workspaces candidates c.live roots }
  | .workspaces candidates (lease :: rest) roots =>
    match c.listWorkspace s.shards lease.id with
    | none => { s with pass := .ended }
    | some refs =>
      let targets := refs.map (fun x => x.2.target)
      { s with pass := .workspaces candidates rest (roots ++ targets) }
  | .workspaces candidates [] roots =>
    match (c.view s.disk).mark roots with
    | .error _ => { s with pass := .ended }
    | .ok keep => { s with pass := .sweep candidates keep }
  | .sweep (id :: rest) keep =>
    { s with
      disk := s.disk.sweepOne keep c.nowUnixSecs c.grace id
      pass := .sweep rest keep }
  | .sweep [] _ => { s with pass := .ended }
  | .ended => s

end Collector

/-- What can happen on a node during a pass. -/
inductive GcEvent
  | txn (op : TxnOp) (durable : Bool)
  | turn
  /-- A read or a deletion fails, and the pass with it. -/
  | fail

namespace Collector

variable (c : Collector)

def step (s : GcState c.router) : GcEvent → GcState c.router
  | .txn op durable => { s with shards := s.shards.apply op durable }
  | .turn => c.turn s
  | .fail => { s with pass := .ended }

/-- All states of a run, the first one included. -/
def states (s : GcState c.router) : List GcEvent → List (GcState c.router)
  | [] => [s]
  | e :: events => s :: states (c.step s e) events

end Collector

/-! ### What the reads find -/

/-- A durable ref of the shard has the target `x`. -/
def Shows (r : Replica) (x : ObjectId) : Prop :=
  ∃ n e, Workspace.Durable n ∧ r.refs.tree.get n = some e ∧ e.target = x

/-- A lock of the shard stages `x`. -/
def Stages (r : Replica) (x : ObjectId) : Prop :=
  ∃ n p, r.refs.tree.lock n = some p ∧ p.stagedTarget = x

section Reads

variable {r : Replica} {x : ObjectId}

theorem mem_durableTargets_list {search : String}
    (hall : ∀ n : RefName, strBytes search <+: n.bytes) :
    x ∈ durableTargets (r.refs.tree.list search) ↔ Shows r x := by
  rw [mem_durableTargets]
  constructor
  · intro h
    obtain ⟨n, e, hmem, hdurable, htarget⟩ := h
    exact ⟨n, e, hdurable, (RefTree.mem_list.mp hmem).2, htarget⟩
  · intro h
    obtain ⟨n, e, hdurable, hget, htarget⟩ := h
    exact ⟨n, e, RefTree.mem_list.mpr ⟨hall n, hget⟩, hdurable, htarget⟩

theorem mem_committedTargets : x ∈ committedTargets r ↔ Shows r x :=
  mem_durableTargets_list fun _ => List.nil_prefix

theorem mem_stagedTargets : x ∈ stagedTargets r ↔ Stages r x := by
  rw [stagedTargets, mem_map]
  constructor
  · intro h
    obtain ⟨⟨str, p⟩, hmem, htarget⟩ := h
    obtain ⟨n, slot, -, hslot, hp⟩ := RefTree.mem_preparedLocks.mp hmem
    exact ⟨n, p, by rw [RefTree.lock, hslot, Option.bind_some, hp], htarget⟩
  · intro h
    obtain ⟨n, p, hlock, htarget⟩ := h
    obtain ⟨slot, hslot, hp⟩ := Option.bind_eq_some_iff.mp hlock
    exact ⟨(n.asStr, p), RefTree.mem_preparedLocks.mpr ⟨n, slot, rfl, hslot, hp⟩, htarget⟩

instance (r : Replica) (x : ObjectId) : Decidable (Shows r x) :=
  decidable_of_iff _ mem_committedTargets

instance (r : Replica) (x : ObjectId) : Decidable (Stages r x) :=
  decidable_of_iff _ mem_stagedTargets

theorem mem_mergeRefs {out : List (RefName × RefEntry)} (h : (out.map Prod.fst).Nodup)
    {y : RefName × RefEntry} : y ∈ mergeRefs out ↔ y ∈ out := by
  have hperm := mergeSort_perm out (fun x y => decide (x.1.bytes ≤ y.1.bytes))
  have hne : (out.mergeSort (fun x y => decide (x.1.bytes ≤ y.1.bytes))).Pairwise
      (fun x y => x.1 ≠ y.1) :=
    pairwise_map.mp ((hperm.map Prod.fst).nodup_iff.mpr h)
  rw [mergeRefs, destutter_of_isChain _ _ hne.isChain, hperm.mem_iff]

end Reads

/-- `list("refs/")` reads every hosted shard. -/
theorem Collector.mem_spanned_refs (c : Collector) {shard : ShardId} (h : shard ∈ c.hosted) :
    shard ∈ c.spanned "refs/" := by
  unfold spanned ShardRouter.shardsForPrefix
  split_ifs with hone
  · have hlt := c.hosted_lt shard h
    rw [hone, Nat.lt_one_iff] at hlt
    exact mem_singleton.mpr hlt
  · exact h

theorem Collector.nodup_spanned_refs (c : Collector) : (c.spanned "refs/").Nodup := by
  unfold spanned ShardRouter.shardsForPrefix
  split_ifs
  · exact nodup_singleton 0
  · exact c.nodup

theorem Collector.disk_turn (c : Collector) (s : GcState c.router) :
    (c.turn s).disk = s.disk ∨ ∃ id rest keep, s.pass = .sweep (id :: rest) keep ∧
      (c.turn s).disk = s.disk.sweepOne keep c.nowUnixSecs c.grace id := by
  unfold Collector.turn
  rcases hpass : s.pass with _ | ⟨candidates, _ | ⟨shard, rest⟩, roots⟩ |
    ⟨candidates, _ | ⟨shard, rest⟩, roots⟩ | ⟨candidates, _ | ⟨shard, rest⟩, out⟩ |
    ⟨candidates, roots⟩ | ⟨candidates, _ | ⟨lease, rest⟩, roots⟩ | ⟨_ | ⟨id, rest⟩, keep⟩ | _
  case sweep.cons => exact Or.inr ⟨id, rest, keep, rfl, rfl⟩
  all_goals
    first
    | exact Or.inl rfl
    | dsimp only
      split <;> exact Or.inl rfl

end Ledge.Cluster
