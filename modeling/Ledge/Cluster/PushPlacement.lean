import Ledge.Cluster.Nodes
import Ledge.Cluster.UnionQuorum

/-!
# Ledge.Cluster.PushPlacement

Where the objects of a push are when its refs have moved.

The `receive_pack` route writes to the store of the node that handles the push and to no other,
while the refs are on the shards that the router gives them. So a ref that is reported `ok` has its
objects on a majority of its shard exactly if they had got there **before the push**, up to the node
itself (`pushed_objects_on_majority_iff`).
-/

namespace Ledge.Cluster

open Ledge.Core Ledge.RefStore Ledge.Raft Ledge.Objects Ledge.Workspace Ledge.Git List

/-- A majority of the members of a shard have the object on disk. -/
def OnMajority (members : List Member) (disk : NodeId → Disk) (id : ObjectId) : Prop :=
  members.length < 2 * members.countP (fun m => (disk m.nodeId).Present id)

instance (members : List Member) (disk : NodeId → Disk) (id : ObjectId) :
    Decidable (OnMajority members disk id) :=
  inferInstanceAs (Decidable (_ < _))

/-- The identifiers of the objects of a pack. -/
def packIds (P : Primitives) (objects : List TypedWrite) : List ObjectId :=
  objects.map (fun w => P.blake3 w.content)

theorem mem_packIds {P : Primitives} {objects : List TypedWrite} {id : ObjectId} :
    id ∈ packIds P objects ↔ ∃ w ∈ objects, P.blake3 w.content = id :=
  mem_map

/-! ### One access -/

/-- The objects that have been written are those that are no longer to do. -/
def Wrote (r : PushRequest) (done : List TypedWrite) : PushPc → Prop
  | .writing todo _ _ => done ++ todo = r.objects
  | .commands .. | .resolved .. | .updating .. | .deleting .. | .reported _ => done = r.objects
  | .failed => True

section Access

variable {P : Primitives} {r : PushRequest} {env : NodeEnv} {router : ShardRouter}
  {shards : Shards router} {done : List TypedWrite} {pc : PushPc}

theorem Wrote.access {env : PushEnv} {refs refs' : Store} {pc' : PushPc}
    (haccess : PushPc.Access P r env refs pc refs' pc') (h : Wrote r done pc) :
    Wrote r (done ++ pc.writes.toList) pc' := by
  cases haccess with
  | @write o todo sent referenced typeName htype =>
    rw [PushPc.writes_of_type htype]
    exact (append_assoc done [o] todo).trans h
  | fail | failed => trivial
  | missing | check => exact h
  | _ => exact (append_nil done).trans h

theorem Wrote.step (h : Wrote r done pc) :
    Wrote r (done ++ pc.writes.toList) (pushStep P r env shards pc).2 := by
  have haccess := h.access (PushPc.access_step P r env.toPushEnv (.openOn []) pc)
  cases pc with
  | updating | deleting => exact (append_nil done).trans h
  | _ => exact haccess

end Access

/-! ### A push by itself -/

section Alone

variable {P : Primitives} {pl : Placement} {s₀ s : ClusterSys pl} {k : Nat} {node : NodeId}
  {r : PushRequest}

/-- The push has written objects to the disk of its node, and to no other. -/
def Wrought (P : Primitives) (s₀ : ClusterSys pl) (k : Nat) (node : NodeId) (r : PushRequest)
    (s : ClusterSys pl) : Prop :=
  ∃ pc done, s.pushes k = some ⟨node, r, pc⟩ ∧ Wrote r done pc ∧
    (∀ m, m ≠ node → s.disk m = s₀.disk m) ∧
    ∀ id, (s.disk node).Present id ↔ id ∈ packIds P done ∨ (s₀.disk node).Present id

theorem wrought_start (hcall : s.pushes k = some ⟨node, r, r.start⟩) : Wrought P s k node r s :=
  ⟨r.start, [], hcall, rfl, fun _ _ => rfl, fun id => by simp [packIds]⟩

theorem Wrought.step (h : Wrought P s₀ k node r s) (env : NodeEnv) :
    Wrought P s₀ k node r (s.step P (.push k env)) := by
  obtain ⟨pc, done, hcall, hwrote, hothers, hpresent⟩ := h
  have hstep : s.step P (.push k env) = s.pushTurn P k ⟨node, r, pc⟩ env := by
    simp only [ClusterSys.step, hcall]
  have hdisk : (s.step P (.push k env)).disk =
      Function.update s.disk node (pc.store P env.nowUnixSecs (s.disk node)) := by
    rw [hstep]
    rfl
  refine ⟨(pushStep P r env s.shards pc).2, done ++ pc.writes.toList, ?_, hwrote.step, ?_, ?_⟩
  · rw [hstep]
    exact Function.update_self ..
  · intro m hm
    rw [hdisk, Function.update_of_ne hm]
    exact hothers m hm
  · intro id
    rw [hdisk, Function.update_self, Repo.present_store, hpresent, mem_packIds, mem_packIds]
    cases pc.writes with
    | none => simp
    | some w =>
      simp only [Option.some.injEq, exists_eq_left', Option.toList_some, mem_append,
        mem_singleton, or_and_right, exists_or, or_assoc, eq_comm]
      exact or_left_comm

theorem Wrought.run (h : Wrought P s₀ k node r s) (envs : List NodeEnv) :
    Wrought P s₀ k node r (s.run P (envs.map (.push k))) := by
  induction envs generalizing s with
  | nil => exact h
  | cons env envs ih => exact ih (h.step env)

end Alone

/-- **Where the objects of a push are**, for a push that a node handles by itself, from any state of
the cluster. What a ref reported `ok` leads to is on a majority of the shard of the ref exactly if
it was there before, where the objects of the pack count for the node. -/
theorem pushed_objects_on_majority_iff (P : Primitives) (t : ObjectTable) {pl : Placement}
    (s s' : ClusterSys pl) (k : Nat) (node : NodeId) (r : PushRequest) (envs : List NodeEnv)
    (report : List ReportLine) (hcall : s.pushes k = some ⟨node, r, r.start⟩)
    (hrun : s.run P (envs.map (.push k)) = s')
    (hreport : s'.pushes k = some ⟨node, r, .reported report⟩) :
    ∀ line ∈ report, line.refusal = none →
      ∀ name, RefName.new (storeRef line.refName r.segment) = .ok name →
        ∀ e, s'.shards.get name = some e →
          let members := pl.map.members (pl.router.shardFor name)
          ((∀ id, t.Leads e.target id → OnMajority members s'.disk id) ↔
            ∀ id, t.Leads e.target id → members.length < 2 * members.countP (fun m =>
              (s.disk m.nodeId).Present id ∨ m.nodeId = node ∧ id ∈ packIds P r.objects)) := by
  intro line _ _ name _ e _ members
  obtain ⟨pc, done, hcall', hwrote, hothers, hpresent⟩ := (wrought_start hcall).run envs
  rw [hrun] at hcall' hothers hpresent
  rw [hreport] at hcall'
  obtain rfl : .reported report = pc := by
    cases hcall'
    rfl
  obtain rfl : done = r.objects := hwrote
  refine forall₂_congr fun id _ => ?_
  have hcount : members.countP (fun m => (s'.disk m.nodeId).Present id) =
      members.countP (fun m =>
        (s.disk m.nodeId).Present id ∨ m.nodeId = node ∧ id ∈ packIds P r.objects) := by
    refine countP_congr fun m _ => ?_
    rw [decide_eq_true_iff]
    by_cases hm : m.nodeId = node
    · rw [hm, hpresent, or_comm]
      simp
    · rw [hothers _ hm]
      simp [hm]
  rw [OnMajority, hcount]

/-! ### Two shards of three nodes -/

theorem twoTriples_bounded (node : NodeId) : ∀ shard ∈ twoTriples.shardsHostedBy node,
    shard < 2 := by
  have hall : ∀ x ∈ twoTriples.entries, x.1 < 2 := by decide +kernel
  intro shard hshard
  obtain ⟨x, hx, rfl⟩ := mem_map.mp hshard
  exact hall x (mem_filter.mp hx).1

theorem twoTriples_length : 2 = twoTriples.entries.length := by decide +kernel

/-- `refs/heads/a` is on the second shard. -/
def twoTriplesPlaced : Placement :=
  ⟨twoTriples, ⟨2, Nat.le_succ 1⟩, twoTriples_length, twoTriples_bounded⟩

/-- An access with nothing in the index. -/
def bareEnv : NodeEnv := ⟨⟨[], 1⟩, true, .answered, 0⟩

/-- A node gets a push of the tag and what it names, with six accesses to go. -/
def pushToNode (k : Nat) (node : NodeId) : List ClusterEvent :=
  .receivePack k node (pushTag [sampleTag, sampleBlob]) :: replicate 6 (.push k bareEnv)

/-- The push is reported `ok`, and of the shard of the ref only the node that has handled it has the
objects. -/
theorem push_leaves_one_copy :
    let s := (ClusterSys.init twoTriplesPlaced).run samplePrimitives (pushToNode 0 4)
    (s.pushes 0).map PushCall.pc = some (.reported [⟨"refs/heads/a", none⟩]) ∧
    (s.shards.get .headsA).map RefEntry.target = some (.fill 48) ∧
    ¬ OnMajority (twoTriples.members (twoTriplesPlaced.router.shardFor .headsA)) s.disk
      (.fill 48) := by
  decide +kernel

/-- Another node of the shard has the objects already. -/
def copied : ClusterSys twoTriplesPlaced :=
  (ClusterSys.init twoTriplesPlaced).run samplePrimitives
    [.put 3 (.fill 48) 0, .put 3 (.fill 218) 0, .receivePack 0 4 (pushTag [sampleTag, sampleBlob])]

theorem tagTable_leads_cases {id : ObjectId} (h : tagTable.Leads (.fill 48) id) :
    id = .fill 48 ∨ id = .fill 218 := by
  cases h with
  | refl => exact Or.inl rfl
  | tail _ hrefers =>
    have hknown : ∀ id ∈ tagTable.known, id = .fill 48 ∨ id = .fill 218 := by decide
    exact hknown id hrefers.1

theorem copied_push_on_majority :
    let s := copied.run samplePrimitives ((replicate 6 bareEnv).map (.push 0))
    (s.pushes 0).map PushCall.pc = some (.reported [⟨"refs/heads/a", none⟩]) ∧
    OnMajority (twoTriples.members (twoTriplesPlaced.router.shardFor .headsA)) s.disk
      (.fill 218) := by
  have hreport : ((copied.run samplePrimitives ((replicate 6 bareEnv).map (.push 0))).pushes 0).map
      PushCall.pc = some (.reported [⟨"refs/heads/a", none⟩]) := by decide +kernel
  refine ⟨hreport, ?_⟩
  have hget : (copied.run samplePrimitives ((replicate 6 bareEnv).map (.push 0))).shards.get
      .headsA = some ⟨.fill 48, 1, 1⟩ := by decide +kernel
  have hcall : copied.pushes 0 = some ⟨4, pushTag [sampleTag, sampleBlob],
      (pushTag [sampleTag, sampleBlob]).start⟩ := rfl
  obtain ⟨pc, -, hcall', -⟩ :=
    (wrought_start (P := samplePrimitives) hcall).run (replicate 6 bareEnv)
  obtain rfl : pc = .reported [⟨"refs/heads/a", none⟩] := by
    rw [hcall'] at hreport
    exact Option.some.inj hreport
  have hiff := pushed_objects_on_majority_iff samplePrimitives tagTable copied _ 0 4 _ _ _ hcall rfl
    hcall' ⟨"refs/heads/a", none⟩ (mem_singleton_self _) rfl .headsA (by decide +kernel) _ hget
  refine hiff.mpr (fun id hleads => ?_) _ tagTable_leads
  rcases tagTable_leads_cases hleads with rfl | rfl <;> decide +kernel

end Ledge.Cluster
