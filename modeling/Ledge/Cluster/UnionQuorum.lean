import Ledge.Cluster.ObjectStore
import Ledge.Cluster.ShardMap
import Ledge.Lib.Majority

/-!
# Ledge.Cluster.UnionQuorum

Replicated writes on a node that hosts several shards.

The node has one replicated store with one set of peers, the other replicas of **all** its shards,
and a write returns when a majority of the peers and the node itself have the object. The peers
outside a shard count, so this is a majority of the shard only if there are hardly any
(`union_quorum_covers_iff`).

An address stands for the node that serves it (`serves`). A put that is not acked may have been
executed.
-/

namespace Ledge.Cluster

open Ledge.Core Ledge.Objects Ledge.Lib Finset List

/-! ### A replicated write -/

/-- What the peers do during a write: the answers that have come, in their order, and the puts that
have been executed. -/
structure Replies (peers : List String) where
  answers : List (String × Bool)
  executed : List String
  nodup : (answers.map Prod.fst).Nodup
  asked : ∀ x ∈ answers, x.1 ∈ peers
  sent : ∀ a ∈ executed, a ∈ peers
  acked : ∀ a, (a, true) ∈ answers → a ∈ executed

/-- The loop over the answers, which stops at the quorum. -/
def countAcks (need : Nat) : Nat → List (String × Bool) → Nat
  | acks, [] => acks
  | acks, (_, ok) :: rest =>
    if need ≤ acks + ok.toNat then acks + ok.toNat else countAcks need (acks + ok.toNat) rest

section Write

variable (P : Primitives) (serves : String → NodeId)

/-- `write` and `write_git_object` after the local write; none while they wait. -/
def awaitQuorum (peers : List String) (label : String) (id : ObjectId)
    (answers : List (String × Bool)) : Option (Except LedgeError ObjectId) :=
  let need := quorum peers.length
  let acks := if need ≤ 1 then 1 else countAcks need 1 answers
  quorumResult peers.length label id acks answers.length

/-- A node stores an object. -/
def putAt (w : TypedWrite) (stores : NodeId → DiskStore) (node : NodeId) : NodeId → DiskStore :=
  Function.update stores node ((stores node).writeGitObject P w.gitType w.content).2

/-- `ReplicatedObjectStore::write` and `write_git_object` on a node. -/
def writeReplicated (peers : List String) (node : NodeId) (label : String) (w : TypedWrite)
    (replies : Replies peers) (stores : NodeId → DiskStore) :
    Option (Except LedgeError ObjectId) × (NodeId → DiskStore) :=
  match ((stores node).writeGitObject P w.gitType w.content).1 with
  | .error e => (some (.error e), stores)
  | .ok id => (awaitQuorum peers label id replies.answers,
      (replies.executed.map serves).foldl (putAt P w) (putAt P w stores node))

/-- A majority of the members of a shard hold an object. -/
def MajorityHolds (members : List Member) (stores : NodeId → DiskStore) (id : ObjectId) : Prop :=
  members.length < 2 * members.countP (fun r => (stores r.nodeId).has id)

instance (members : List Member) (stores : NodeId → DiskStore) (id : ObjectId) :
    Decidable (MajorityHolds members stores id) :=
  inferInstanceAs (Decidable (_ < _))

/-- Any peers that make up a quorum with the node make up a majority of each of its shards. -/
def ShardMap.Covers (map : ShardMap) (node : NodeId) : Prop :=
  ∀ acked ⊆ (map.objectPeers node).toFinset, quorum (map.objectPeers node).length ≤ acked.card + 1 →
    ∀ shard ∈ map.shardsHostedBy node, (map.members shard).length <
      2 * (map.members shard).countP (fun r => r.nodeId = node ∨ r.nodeId ∈ acked.image serves)

/-- Every node has one address, and serves it. -/
structure ShardMap.OneAddress (map : ShardMap) : Prop where
  serves : ∀ shard, ∀ r ∈ map.members shard, serves r.addr = r.nodeId
  unique : ∀ shard shard' r r', r ∈ map.members shard → r' ∈ map.members shard' →
    r.nodeId = r'.nodeId → r.addr = r'.addr

end Write

/-! ### Acks -/

section Acks

variable {need acks : Nat} {answers : List (String × Bool)} {peers : List String}

theorem countP_snd_cons (a : String) (ok : Bool) (rest : List (String × Bool)) :
    ((a, ok) :: rest).countP Prod.snd = rest.countP Prod.snd + ok.toNat := by
  cases ok <;> simp

theorem le_countAcks_iff :
    need ≤ countAcks need acks answers ↔ need ≤ acks + answers.countP Prod.snd := by
  induction answers generalizing acks with
  | nil => exact Iff.rfl
  | cons x rest ih =>
    rw [countAcks, countP_snd_cons]
    split_ifs with hreached
    · exact iff_of_true hreached (by omega)
    · rw [ih]
      omega

theorem awaitQuorum_ok_iff {label : String} {id id' : ObjectId} :
    awaitQuorum peers label id answers = some (.ok id') ↔
      id' = id ∧ quorum peers.length ≤ answers.countP Prod.snd + 1 := by
  rw [awaitQuorum, quorumResult_ok_iff]
  refine and_congr_right fun _ => ?_
  split_ifs with hone
  · exact iff_of_true hone (by omega)
  · rw [le_countAcks_iff, Nat.add_comm]

theorem Replies.card_acked (replies : Replies peers) :
    ((replies.answers.filter Prod.snd).map Prod.fst).toFinset ⊆ peers.toFinset ∧
      ((replies.answers.filter Prod.snd).map Prod.fst).toFinset.card =
        replies.answers.countP Prod.snd := by
  constructor
  · intro a ha
    obtain ⟨x, hx, rfl⟩ := List.mem_map.mp (mem_toFinset.mp ha)
    exact mem_toFinset.mpr (replies.asked x (List.mem_filter.mp hx).1)
  · rw [toFinset_card_of_nodup (replies.nodup.sublist (filter_sublist.map _)),
      length_map, countP_eq_length_filter]

/-- Some peers ack and nobody else gets the object. -/
def Replies.only (acked : List String) (hnodup : acked.Nodup) (hsub : ∀ a ∈ acked, a ∈ peers) :
    Replies peers where
  answers := acked.map (fun a => (a, true))
  executed := acked
  nodup := by
    rw [List.map_map]
    exact (map_id acked).symm ▸ hnodup
  asked x hx := by
    obtain ⟨a, ha, rfl⟩ := List.mem_map.mp hx
    exact hsub a ha
  sent := hsub
  acked a ha := by
    obtain ⟨b, hb, heq⟩ := List.mem_map.mp ha
    cases heq
    exact hb

end Acks

/-! ### Who holds the object -/

section Holders

variable {P : Primitives} {w : TypedWrite} {stores : NodeId → DiskStore}

theorem has_writeGitObject {store : DiskStore} (hvalid : w.Valid) :
    (store.writeGitObject P w.gitType w.content).2.has (P.blake3 w.content) = true := by
  have hmem : P.blake3 w.content ∈ (store.writeGitObject P w.gitType w.content).2.loose :=
    ObjectSys.mem_write_self hvalid
  obtain ⟨raw, hraw⟩ := Finmap.mem_iff.mp hmem
  rw [DiskStore.has, hraw]
  rfl

/-- A node holds the object if it held it or is one of those that store it. -/
theorem has_foldl_putAt (hvalid : w.Valid) {node : NodeId} {nodes : List NodeId} :
    (nodes.foldl (putAt P w) stores node).has (P.blake3 w.content) = true ↔
      (stores node).has (P.blake3 w.content) = true ∨ node ∈ nodes := by
  induction nodes generalizing stores with
  | nil => simp
  | cons n rest ih =>
    rw [foldl_cons, ih, putAt, Function.update_apply]
    split_ifs with hn
    · simp [hn, has_writeGitObject hvalid]
    · simp [hn]

theorem writeReplicated_ok {serves : String → NodeId} {peers : List String} {node : NodeId}
    {label : String} {replies : Replies peers} {id : ObjectId} {stores' : NodeId → DiskStore}
    (h : writeReplicated P serves peers node label w replies stores = (some (.ok id), stores')) :
    w.Valid ∧ id = P.blake3 w.content ∧ quorum peers.length ≤ replies.answers.countP Prod.snd + 1 ∧
      stores' = (replies.executed.map serves).foldl (putAt P w) (putAt P w stores node) := by
  rw [writeReplicated] at h
  unfold DiskStore.writeGitObject at h
  cases hname : gitTypeName w.gitType with
  | none =>
    rw [hname] at h
    cases h
  | some typeName =>
    rw [hname] at h
    obtain ⟨hresult, rfl⟩ := Prod.mk.inj h
    obtain ⟨hid, hquorum⟩ := awaitQuorum_ok_iff.mp hresult
    exact ⟨Option.isSome_iff_exists.mpr ⟨typeName, hname⟩, hid, hquorum, rfl⟩

end Holders

/-! ### Majorities -/

section Majorities

variable {serves : String → NodeId} {map : ShardMap} {node : NodeId}

theorem countP_members {members : List Member} (hnodup : (members.map Member.nodeId).Nodup)
    (nodes : Finset NodeId) :
    members.countP (fun r => r.nodeId ∈ nodes) =
      ((members.map Member.nodeId).toFinset ∩ nodes).card := by
  have hfilter : (members.map Member.nodeId).toFinset ∩ nodes =
      ((members.map Member.nodeId).filter (· ∈ nodes)).toFinset := by
    ext n
    simp [mem_toFinset]
  rw [hfilter, toFinset_card_of_nodup (hnodup.filter _), ← countP_eq_length_filter,
    countP_map]
  rfl

theorem ShardMap.OneAddress.injOn (h : map.OneAddress serves) :
    Set.InjOn serves ((map.objectPeers node).toFinset : Set String) := by
  intro a ha b hb heq
  obtain ⟨shard, -, r, hr, -, rfl⟩ := ShardMap.mem_objectPeers.mp (mem_toFinset.mp ha)
  obtain ⟨shard', -, r', hr', -, rfl⟩ := ShardMap.mem_objectPeers.mp (mem_toFinset.mp hb)
  refine h.unique shard shard' r r' hr hr' ?_
  rw [← h.serves shard r hr, ← h.serves shard' r' hr', heq]

theorem ShardMap.OneAddress.self_notMem (h : map.OneAddress serves) :
    node ∉ (map.objectPeers node).toFinset.image serves := by
  intro hmem
  obtain ⟨a, ha, heq⟩ := mem_image.mp hmem
  obtain ⟨shard, -, r, hr, hother, rfl⟩ := ShardMap.mem_objectPeers.mp (mem_toFinset.mp ha)
  exact hother ((h.serves shard r hr).symm.trans heq)

/-- The members of a hosted shard are the node and some of its peers. -/
theorem ShardMap.OneAddress.members_subset (h : map.OneAddress serves) {shard : ShardId}
    (hhosted : shard ∈ map.shardsHostedBy node) :
    ((map.members shard).map Member.nodeId).toFinset ⊆
      insert node ((map.objectPeers node).toFinset.image serves) := by
  intro n hn
  obtain ⟨r, hr, rfl⟩ := List.mem_map.mp (mem_toFinset.mp hn)
  by_cases heq : r.nodeId = node
  · rw [heq]
    exact Finset.mem_insert_self _ _
  · refine Finset.mem_insert_of_mem (mem_image.mpr ⟨r.addr, ?_, h.serves shard r hr⟩)
    exact mem_toFinset.mpr (ShardMap.mem_objectPeers.mpr ⟨shard, hhosted, r, hr, heq, rfl⟩)

/-- One shard is always covered, as a matter of the number of its members and of the peers. -/
theorem ShardMap.OneAddress.covers_shard_iff (h : map.OneAddress serves) {shard : ShardId}
    (hhosted : shard ∈ map.shardsHostedBy node) :
    (∀ acked ⊆ (map.objectPeers node).toFinset,
      quorum (map.objectPeers node).length ≤ acked.card + 1 →
      (map.members shard).length < 2 * (map.members shard).countP
        (fun r => r.nodeId = node ∨ r.nodeId ∈ acked.image serves)) ↔
    ((map.members shard).length = 1 ∨
      2 * ((map.objectPeers node).length / 2) < (map.members shard).length) := by
  obtain ⟨⟨r, hr, hnode⟩, hnodup⟩ := ShardMap.mem_shardsHostedBy hhosted
  have hlength : ((map.members shard).map Member.nodeId).toFinset.card =
      (map.members shard).length := by
    rw [toFinset_card_of_nodup hnodup, length_map]
  have hself : node ∈ ((map.members shard).map Member.nodeId).toFinset := by
    rw [mem_toFinset, ← hnode]
    exact List.mem_map_of_mem hr
  have hcount : ∀ acked : Finset String, (map.members shard).countP
      (fun r => r.nodeId = node ∨ r.nodeId ∈ acked.image serves) =
        (((map.members shard).map Member.nodeId).toFinset ∩
          insert node (acked.image serves)).card := by
    intro acked
    rw [← countP_members hnodup]
    simp
  have hiff := majority_of_acks_iff h.self_notMem hself (h.members_subset hhosted)
  rw [hlength, card_image_of_injOn h.injOn,
    toFinset_card_of_nodup (ShardMap.nodup_objectPeers map node)] at hiff
  rw [← hiff]
  -- the addresses that ack, and the nodes behind them
  constructor
  · intro hall acked hacked hcard
    obtain ⟨addrs, haddrs, rfl⟩ := subset_image_iff.mp hacked
    rw [← hcount]
    refine hall addrs (by exact_mod_cast haddrs) ?_
    rw [card_image_of_injOn (h.injOn.mono haddrs)] at hcard
    rw [quorum]
    omega
  · intro hall addrs haddrs hquorum
    rw [hcount]
    refine hall _ (image_subset_image haddrs) ?_
    rw [card_image_of_injOn (h.injOn.mono (by exact_mod_cast haddrs))]
    rw [quorum] at hquorum
    omega

/-- With one address for each node, the condition is on numbers. -/
theorem ShardMap.OneAddress.covers_iff (h : map.OneAddress serves) :
    map.Covers serves node ↔ ∀ shard ∈ map.shardsHostedBy node,
      (map.members shard).length = 1 ∨
        2 * ((map.objectPeers node).length / 2) < (map.members shard).length := by
  constructor
  · intro hcovers shard hhosted
    exact (h.covers_shard_iff hhosted).mp fun acked hacked hquorum =>
      hcovers acked hacked hquorum shard hhosted
  · intro hall acked hacked hquorum shard hhosted
    exact (h.covers_shard_iff hhosted).mpr (hall shard hhosted) acked hacked hquorum

end Majorities

/-- **When a replicated write covers every shard of its node.** Whatever the peers do, a write that
returns has left the object on a majority of each hosted shard, exactly if any peers that make up a
quorum do. If every node has one address, a hosted shard must have one member, or all peers of the
node must be members of it, up to one if their number is odd. -/
theorem union_quorum_covers_iff (P : Primitives) (serves : String → NodeId) (map : ShardMap)
    (node : NodeId) :
    ((∀ (label : String) (w : TypedWrite) (replies : Replies (map.objectPeers node))
        (stores stores' : NodeId → DiskStore) (id : ObjectId),
      writeReplicated P serves (map.objectPeers node) node label w replies stores =
        (some (.ok id), stores') →
      ∀ shard ∈ map.shardsHostedBy node, MajorityHolds (map.members shard) stores' id) ↔
        map.Covers serves node) ∧
    (map.OneAddress serves → (map.Covers serves node ↔ ∀ shard ∈ map.shardsHostedBy node,
      (map.members shard).length = 1 ∨
        2 * ((map.objectPeers node).length / 2) < (map.members shard).length)) := by
  refine ⟨⟨?_, ?_⟩, ShardMap.OneAddress.covers_iff⟩
  · -- only the peers in `acked` get the object
    intro hwrites acked hacked hquorum shard hshard
    let replies := Replies.only acked.toList acked.nodup_toList fun a ha =>
      mem_toFinset.mp (hacked (mem_toList.mp ha))
    have hok : awaitQuorum (map.objectPeers node) "object" (P.blake3 []) replies.answers =
        some (.ok (P.blake3 [])) := by
      refine awaitQuorum_ok_iff.mpr ⟨rfl, ?_⟩
      show _ ≤ (acked.toList.map (fun a => (a, true))).countP Prod.snd + 1
      have hcount : (acked.toList.map (fun a => (a, true))).countP Prod.snd =
          acked.toList.length := by
        simp [Function.comp_def]
      rw [hcount, length_toList]
      exact hquorum
    have hmajority := hwrites "object" ⟨3, []⟩ replies (fun _ => .empty) _ (P.blake3 [])
      (Prod.ext hok rfl) shard hshard
    refine hmajority.trans_le (Nat.mul_le_mul_left 2 (countP_mono_left fun r _ hr => ?_))
    have hvalid : TypedWrite.Valid ⟨3, []⟩ := by decide
    refine decide_eq_true ?_
    rcases (has_foldl_putAt hvalid).mp hr with hheld | hmem
    · rw [putAt, Function.update_apply] at hheld
      split_ifs at hheld with heq
      · exact Or.inl heq
      · cases hheld
    · obtain ⟨a, ha, heq⟩ := List.mem_map.mp hmem
      exact Or.inr (mem_image.mpr ⟨a, mem_toList.mp ha, heq⟩)
  · intro hcovers label w replies stores stores' id hwrite shard hshard
    obtain ⟨hvalid, rfl, hquorum, rfl⟩ := writeReplicated_ok hwrite
    obtain ⟨hsub, hcard⟩ := replies.card_acked
    rw [← hcard] at hquorum
    refine (hcovers _ hsub hquorum shard hshard).trans_le
      (Nat.mul_le_mul_left 2 (countP_mono_left fun r _ hr => ?_))
    rw [has_foldl_putAt hvalid, putAt, Function.update_apply]
    rcases of_decide_eq_true hr with heq | hmem
    · rw [if_pos heq]
      exact Or.inl (has_writeGitObject hvalid)
    · right
      obtain ⟨a, ha, heq⟩ := mem_image.mp hmem
      obtain ⟨x, hx, rfl⟩ := List.mem_map.mp (mem_toFinset.mp ha)
      obtain ⟨hx, hok⟩ := List.mem_filter.mp hx
      rw [← heq]
      refine List.mem_map_of_mem (replies.acked x.1 ?_)
      rw [← hok]
      exact hx

/-- Two shards that share one node. -/
def twoTriples : ShardMap :=
  (ShardMap.fromEntries [(0, [⟨1, "n1"⟩, ⟨2, "n2"⟩, ⟨3, "n3"⟩]),
    (1, [⟨3, "n3"⟩, ⟨4, "n4"⟩, ⟨5, "n5"⟩])]).toOption.getD .empty

/-- The number in an address. -/
def nodeAt : String → NodeId
  | "n1" => 1
  | "n2" => 2
  | "n3" => 3
  | "n4" => 4
  | _ => 5

/-- The node that hosts both shards gets its acks from the first one. Of the second shard nobody
else has the object. -/
theorem write_misses_second_shard :
    let replies : Replies (twoTriples.objectPeers 3) := .only ["n1", "n2"] (by decide)
      (by decide +kernel)
    let write := writeReplicated samplePrimitives nodeAt (twoTriples.objectPeers 3) 3 "object"
      ⟨3, [1]⟩ replies (fun _ => .empty)
    write.1 = some (.ok (samplePrimitives.blake3 [1])) ∧ 1 ∈ twoTriples.shardsHostedBy 3 ∧
      ¬ MajorityHolds (twoTriples.members 1) write.2 (samplePrimitives.blake3 [1]) := by
  decide +kernel

/-- One shard. -/
def oneTriple : ShardMap :=
  (ShardMap.fromEntries [(0, [⟨1, "n1"⟩, ⟨2, "n2"⟩, ⟨3, "n3"⟩])]).toOption.getD .empty

/-- Its nodes have one address each, and every quorum covers it. -/
theorem one_shard_covered : oneTriple.OneAddress nodeAt ∧ oneTriple.Covers nodeAt 3 := by
  have hmem : ∀ shard, oneTriple.members shard ⊆ oneTriple.members 0
    | 0 => List.Subset.refl _
    | _ + 1 => nil_subset _
  have hserves : ∀ r ∈ oneTriple.members 0, nodeAt r.addr = r.nodeId := by decide +kernel
  have hunique : ∀ r ∈ oneTriple.members 0, ∀ r' ∈ oneTriple.members 0,
      r.nodeId = r'.nodeId → r.addr = r'.addr := by decide +kernel
  have hone : oneTriple.OneAddress nodeAt :=
    ⟨fun shard r hr => hserves r (hmem shard hr),
      fun shard shard' r r' hr hr' => hunique r (hmem shard hr) r' (hmem shard' hr')⟩
  have hiff := (union_quorum_covers_iff samplePrimitives nodeAt oneTriple 3).2 hone
  exact ⟨hone, hiff.mpr (by decide +kernel)⟩

end Ledge.Cluster
