import Ledge.Cluster.GcFaults
import Ledge.Cluster.ShardMap
import Ledge.Git.Closures

/-!
# Ledge.Cluster.Nodes

The nodes of a cluster: **pushes, writes of objects, ref updates, leases and collections** on any
of them, one access at a time.

* A push writes its objects to the store of the node that handles it (`objects_disk` in the
  `receive_pack` route). Its ref updates go to the shard of the ref, on this node or another.
* A write of the replicated store is a write on its node and puts on peers, in any number.
* Every node has its own lease store. A collection on a node reads the shards that the node hosts
  and its own leases.

The texts of errors of the network are left out.
-/

namespace Ledge.Cluster

open Ledge.Core Ledge.RefStore Ledge.Raft Ledge.Objects Ledge.Workspace Ledge.Git Function

/-! ### Ref operations -/

/-- What becomes of a ref operation on its way to the shard and back. -/
inductive Delivery
  | answered
  /-- The shard has applied it, and the answer is lost. -/
  | lost
  | undelivered
  deriving DecidableEq

namespace Shards

variable {router : ShardRouter}

/-- An operation on the shard of its ref. -/
def perform (s : Shards router) (op : AppliedOp) (durable : Bool) : Shards router where
  replica := Function.update s.replica (router.shardFor op.name)
    ((s.replica (router.shardFor op.name)).perform durable (.ref op)).1
  placed := by
    intro shard n h
    by_cases hshard : shard = router.shardFor op.name
    · by_cases hn : n = op.name
      · rw [hn, hshard]
      · rw [hshard, update_self, slot_perform_ref _ durable op rfl, if_neg hn] at h
        rw [hshard]
        exact s.placed _ n h
    · rw [update_of_ne hshard] at h
      exact s.placed shard n h

/-- What the shard answers. -/
def answer (s : Shards router) (op : AppliedOp) (durable : Bool) : LedgeResp :=
  ((s.replica (router.shardFor op.name)).perform durable (.ref op)).2

/-- The visible entry of a ref. -/
def get (s : Shards router) (n : RefName) : Option RefEntry :=
  (s.replica (router.shardFor n)).refs.tree.get n

/-- A ref operation, as its caller sees it; `answers` reads the response. -/
def request {α : Type} (s : Shards router) (op : AppliedOp) (durable : Bool) (delivery : Delivery)
    (answers : LedgeResp → Except LedgeError α) : Shards router × Except LedgeError α :=
  match delivery with
  | .answered => (s.perform op durable, answers (s.answer op durable))
  | .lost => (s.perform op durable, .error (.unavailable ""))
  | .undelivered => (s, .error (.unavailable ""))

variable {s : Shards router} {n : RefName} {op : AppliedOp} {durable : Bool}

theorem get_perform_of_ne (hn : n ≠ op.name) : (s.perform op durable).get n = s.get n := by
  unfold get perform
  dsimp only
  by_cases hshard : router.shardFor n = router.shardFor op.name
  · rw [hshard, update_self]
    refine RefTree.get_congr ?_
    rw [slot_perform_ref _ durable op rfl, if_neg hn]
  · rw [update_of_ne hshard]

theorem get_perform_self : (s.perform op durable).get op.name =
    ((op.decide ((s.replica (router.shardFor op.name)).refs.tree.slot op.name)).after
      ((s.replica (router.shardFor op.name)).refs.tree.slot op.name)).bind RefSlot.visible := by
  unfold get perform
  dsimp only
  rw [update_self, RefTree.get, slot_perform_ref _ durable op rfl, if_pos rfl]

theorem visible_ofCommitted {e : RefEntry} (h : e.version ≠ 0) :
    (RefSlot.ofCommitted e).visible = some e :=
  if_pos (bne_iff_ne.mpr h)

/-- Where a ref is after a plain update: where it was, or at the new target. -/
theorem get_perform_update {name : RefName} {new : ObjectId} {expected : Option ObjectId}
    {hlc : Nat}
    {entry : RefEntry} (h : (s.perform (.update name new expected hlc) durable).get n =
      some entry) :
    s.get n = some entry ∨ n = name ∧ entry.target = new := by
  by_cases hn : n = name
  · subst hn
    have hself : (s.perform (.update n new expected hlc) durable).get n = _ := get_perform_self
    rw [hself] at h
    simp only [AppliedOp.decide, applyUpdate] at h
    split at h
    · exact Or.inl h
    · exact Or.inl h
    · cases (visible_ofCommitted (nextVersion_ne_zero _)).symm.trans h
      exact Or.inr ⟨rfl, rfl⟩
  · exact Or.inl ((get_perform_of_ne hn).symm.trans h)

theorem get_perform_delete {name : RefName} {expected : ObjectId} {hlc : Nat} {entry : RefEntry}
    (h : (s.perform (.delete name expected hlc) durable).get n = some entry) :
    s.get n = some entry := by
  by_cases hn : n = name
  · subst hn
    have hself : (s.perform (.delete n expected hlc) durable).get n = _ := get_perform_self
    rw [hself] at h
    simp only [AppliedOp.decide, applyDelete] at h
    split at h
    · exact h
    · split_ifs at h
      · exact h
      · cases h
  · exact (get_perform_of_ne hn).symm.trans h

theorem request_fst {α : Type} (s : Shards router) (op : AppliedOp) (durable : Bool)
    (delivery : Delivery) (answers : LedgeResp → Except LedgeError α) :
    (s.request op durable delivery answers).1 = s ∨
      (s.request op durable delivery answers).1 = s.perform op durable := by
  cases delivery with
  | answered | lost => exact Or.inr rfl
  | undelivered => exact Or.inl rfl

end Shards

/-- `map_update_resp` -/
def mapUpdateResp (target : ObjectId) : LedgeResp → Except LedgeError RefEntry
  | .refUpdated e => .ok e
  | .conflict current => .error (.conflict current)
  | .notFound => .error (.notFound target)
  | _ => .error (.unavailable "unexpected resp for update")

/-- The answer to a delete. -/
def mapDeleteResp (expected : ObjectId) : LedgeResp → Except LedgeError Unit
  | .deleted => .ok ()
  | .conflict current => .error (.conflict current)
  | .notFound => .error (.notFound expected)
  | _ => .error (.unavailable "unexpected resp for delete")

/-! ### Pushes -/

/-- What an access of a push finds around it. -/
structure NodeEnv extends PushEnv where
  durable : Bool
  delivery : Delivery
  nowUnixSecs : Nat

/-- The next access of a push with the refs of the cluster. Only the last two touch them. -/
def pushStep {router : ShardRouter} (P : Primitives) (r : PushRequest) (env : NodeEnv)
    (shards : Shards router) : PushPc → Shards router × PushPc
  | .updating c name new expected todo sent report =>
    let (shards, result) := shards.request (.update name new expected env.hlc) env.durable
      env.delivery (mapUpdateResp new)
    (shards, .commands todo sent (report ++ [⟨c.refName, refusalOf result⟩]))
  | .deleting c name old todo sent report =>
    let (shards, result) := shards.request (.delete name old env.hlc) env.durable env.delivery
      (mapDeleteResp old)
    (shards, .commands todo sent (report ++ [⟨c.refName, refusalOf result⟩]))
  | pc => (shards, (pc.step P r env.toPushEnv (.openOn [])).2)

/-! ### The system -/

/-- A shard map whose shards are numbered from zero, and its router. -/
structure Placement where
  map : ShardMap
  router : ShardRouter
  numShards : router.numShards = map.entries.length
  bounded : ∀ node, ∀ shard ∈ map.shardsHostedBy node, shard < router.numShards

/-- A push that a node handles. -/
structure PushCall where
  node : NodeId
  request : PushRequest
  pc : PushPc

/-- The clock and the grace period of a pass, and the leases that it sees. -/
structure PassArgs where
  nowUnixSecs : Nat
  grace : Nat
  leases : LeaseIndex
  live : List Lease
  isLive : leases.Live (min (nowUnixSecs * 1000) (2 ^ 64 - 1)) live

/-- A pass on a node. -/
structure NodePass where
  node : NodeId
  args : PassArgs
  phase : GcPhase

theorem ShardMap.nodup_shardsHostedBy (map : ShardMap) (node : NodeId) :
    (map.shardsHostedBy node).Nodup := by
  have hall : (map.entries.map Prod.fst).Nodup := map.sorted.imp Nat.ne_of_lt
  exact hall.sublist (List.filter_sublist.map _)

/-- `ClusterGc` on a node, with what its walk reads. -/
def Placement.collector (pl : Placement) (node : NodeId) (args : PassArgs) (view : StoreView) :
    Collector where
  kind := .cluster
  router := pl.router
  hosted := pl.map.shardsHostedBy node
  nodup := pl.map.nodup_shardsHostedBy node
  hosted_lt := pl.bounded node
  nowUnixSecs := args.nowUnixSecs
  grace := args.grace
  leases := args.leases
  live := args.live
  isLive := args.isLive
  view := fun _ => view

/-- The shards, and for each node its files and its leases, with the pushes and passes that are
under way. -/
structure ClusterSys (pl : Placement) where
  shards : Shards pl.router
  disk : NodeId → Disk
  leases : NodeId → LeaseIndex
  pushes : Nat → Option PushCall
  passes : Nat → Option NodePass

inductive ClusterEvent
  /-- A node gets a push. -/
  | receivePack (k : Nat) (node : NodeId) (r : PushRequest)
  /-- The next access of a push. -/
  | push (k : Nat) (env : NodeEnv)
  /-- The replicated store puts an object on a node. -/
  | put (node : NodeId) (id : ObjectId) (nowUnixSecs : Nat)
  | update (name : RefName) (new : ObjectId) (expected : Option ObjectId) (hlc : Nat)
    (durable : Bool)
  | delete (name : RefName) (expected : ObjectId) (hlc : Nat) (durable : Bool)
  /-- A lease is put into the store of a node, by `fork` or `renew`. -/
  | leasePut (node : NodeId) (lease : Lease)
  | leaseTombstone (node : NodeId) (id : WorkspaceId)
  /-- A pass begins on a node. -/
  | startPass (k : Nat) (node : NodeId) (args : PassArgs)
  /-- The next access of a pass, with what its walk reads. -/
  | turn (k : Nat) (view : StoreView)
  /-- A pass fails. -/
  | failPass (k : Nat)

namespace ClusterSys

variable {pl : Placement} (P : Primitives)

def setDisk (s : ClusterSys pl) (node : NodeId) (disk : Disk) : ClusterSys pl :=
  { s with disk := Function.update s.disk node disk }

def setPush (s : ClusterSys pl) (k : Nat) (call : PushCall) : ClusterSys pl :=
  { s with pushes := Function.update s.pushes k (some call) }

def setPass (s : ClusterSys pl) (k : Nat) (pass : NodePass) : ClusterSys pl :=
  { s with passes := Function.update s.passes k (some pass) }

/-- An access of a push that a node handles. -/
def pushTurn (s : ClusterSys pl) (k : Nat) (call : PushCall) (env : NodeEnv) : ClusterSys pl :=
  let (shards, pc) := pushStep P call.request env s.shards call.pc
  ({ s with shards := shards }.setDisk call.node
    (call.pc.store P env.nowUnixSecs (s.disk call.node))).setPush k { call with pc := pc }

/-- An access of a pass. -/
def passTurn (s : ClusterSys pl) (k : Nat) (pass : NodePass) (view : StoreView) : ClusterSys pl :=
  let g := (pl.collector pass.node pass.args view).turn ⟨s.shards, s.disk pass.node, pass.phase⟩
  (s.setDisk pass.node g.disk).setPass k { pass with phase := g.pass }

/-- One access of a push or of a pass on some node, or one command on a shard or a lease store. -/
def step (s : ClusterSys pl) : ClusterEvent → ClusterSys pl
  | .receivePack k node r => if (s.pushes k).isNone then s.setPush k ⟨node, r, r.start⟩ else s
  | .push k env =>
    match s.pushes k with
    | none => s
    | some call => s.pushTurn P k call env
  | .put node id nowUnixSecs => s.setDisk node ((s.disk node).write id nowUnixSecs)
  | .update name new expected hlc durable =>
    { s with shards := s.shards.perform (.update name new expected hlc) durable }
  | .delete name expected hlc durable =>
    { s with shards := s.shards.perform (.delete name expected hlc) durable }
  | .leasePut node lease =>
    { s with leases := Function.update s.leases node ((s.leases node).insert lease) }
  | .leaseTombstone node id =>
    { s with leases := Function.update s.leases node ((s.leases node).remove id) }
  | .startPass k node args => if (s.passes k).isNone then s.setPass k ⟨node, args, .idle⟩ else s
  | .turn k view =>
    match s.passes k with
    | none => s
    | some pass => s.passTurn k pass view
  | .failPass k =>
    match s.passes k with
    | none => s
    | some pass => s.setPass k { pass with phase := .ended }

/-- Accesses of all nodes in the order in which they happen. -/
def run (s : ClusterSys pl) (events : List ClusterEvent) : ClusterSys pl :=
  events.foldl (step P) s

/-- Nothing is stored and nothing goes on. -/
def init (pl : Placement) : ClusterSys pl where
  shards := .empty pl.router
  disk := fun _ => ⟨[], List.nodup_nil, []⟩
  leases := fun _ => .empty
  pushes := fun _ => none
  passes := fun _ => none

end ClusterSys

end Ledge.Cluster
