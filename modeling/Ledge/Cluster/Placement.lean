import Ledge.Cluster.ShardMap
import Mathlib.Data.List.Dedup
import Mathlib.Data.List.Sort

/-!
# Ledge.Cluster.Placement

Routing against placement: the router counts the shards of the map and gives out the ids below that
number (`ShardRouter::new(map.num_shards())` of `build_cluster_stack`), while the map keeps the ids
that it was given, and of two entries with one id the later. `routing_agrees_iff` says for which
entries the shard of a name is one that the map places.
-/

namespace Ledge.Cluster

open Ledge.Core List

/-- `new`; no router has no shards (`none` is the failed assertion) -/
def ShardRouter.new (numShards : Nat) : Option ShardRouter :=
  if h : 1 ≤ numShards then some ⟨numShards, h⟩ else none

namespace ShardMap

/-- `num_shards` -/
def numShards (map : ShardMap) : Nat := map.entries.length

/-- `member_map`: by node id -/
def memberMap (map : ShardMap) (shard : ShardId) : List (NodeId × String) :=
  ((map.members shard).map (fun r => (r.nodeId, r.addr))).insertionSort (fun x y => x.1 ≤ y.1)

/-- `bootstrap_shards_for` -/
def bootstrapShardsFor (map : ShardMap) (node : NodeId) : List (ShardId × List (NodeId × String)) :=
  ((map.shardsHostedBy node).map (fun shard => (shard, map.memberMap shard))).filter
    (fun x => x.2.head?.map Prod.fst = some node)

/-- The shard is a key of the map, it has members, and one node is to initialize it. -/
structure Placed (map : ShardMap) (shard : ShardId) : Prop where
  key : shard ∈ map.entries.map Prod.fst
  members : map.members shard ≠ []
  initializer : ∃! node, shard ∈ (map.bootstrapShardsFor node).map Prod.fst

/-- Every shard that the router computes for the name and the prefix is placed, and the map has all
entries that were accepted. -/
structure Agrees (map : ShardMap) (accepted : List (ShardId × List Member)) (name : RefName)
    (search : List UInt8) : Prop where
  routed : ∃ router, ShardRouter.new map.numShards = some router ∧ map.Placed
    (router.shardFor name) ∧ ∀ shard, router.shardsForPrefix search = .one shard → map.Placed shard
  kept : ∀ x ∈ accepted, x ∈ map.entries

variable {map : ShardMap} {shard : ShardId} {accepted : List (ShardId × List Member)}

/-- Every key is placed: the node with the least id initializes its shard. -/
theorem placed_iff : map.Placed shard ↔ shard ∈ map.entries.map Prod.fst := by
  refine ⟨Placed.key, fun hkey => ?_⟩
  obtain ⟨x, hx, rfl⟩ := mem_map.mp hkey
  have hne : map.members x.1 ≠ [] := members_of_mem hx ▸ map.nonempty x hx
  refine ⟨hkey, hne, ?_⟩
  have hmem : ∀ node, x.1 ∈ (map.bootstrapShardsFor node).map Prod.fst ↔
      x.1 ∈ map.shardsHostedBy node ∧ (map.memberMap x.1).head?.map Prod.fst = some node := by
    simp [bootstrapShardsFor]
  have hperm : (map.memberMap x.1).Perm ((map.members x.1).map (fun r => (r.nodeId, r.addr))) :=
    perm_insertionSort _ _
  cases hmap : map.memberMap x.1 with
  | nil =>
    rw [hmap] at hperm
    exact absurd (map_eq_nil_iff.mp hperm.nil_eq.symm) hne
  | cons first rest =>
    simp only [hmem, hmap, head?_cons, Option.map_some, Option.some.injEq]
    refine ⟨first.1, ⟨?_, rfl⟩, fun node hnode => hnode.2.symm⟩
    obtain ⟨r, hr, hfirst⟩ := mem_map.mp (hperm.mem_iff.mp (hmap ▸ mem_cons_self))
    rw [members_of_mem hx] at hr
    refine mem_map.mpr ⟨x, mem_filter.mpr ⟨hx, any_eq_true.mpr ⟨r, hr, ?_⟩⟩, rfl⟩
    simp [← hfirst]

theorem entries_addEntry {m m' : ShardMap} {x : ShardId × List Member} (h : m.addEntry x = .ok m') :
    m'.entries = insertEntry x.1 x.2 m.entries := by
  unfold addEntry at h
  split_ifs at h
  split at h <;> cases h
  rfl

/-- A map that was built has the ids that were given, and entries that were given. -/
theorem entries_foldlM {m : ShardMap} (h : accepted.foldlM addEntry m = .ok map) :
    (∀ shard, shard ∈ map.entries.map Prod.fst ↔
      shard ∈ m.entries.map Prod.fst ∨ shard ∈ accepted.map Prod.fst) ∧
      ∀ x ∈ map.entries, x ∈ m.entries ∨ x ∈ accepted := by
  induction accepted generalizing m with
  | nil =>
    cases h
    simp
  | cons x accepted ih =>
    rw [foldlM_cons] at h
    cases hadd : m.addEntry x with
    | error e =>
      rw [hadd] at h
      cases h
    | ok m' =>
      rw [hadd] at h
      obtain ⟨hkeys, hgiven⟩ := ih h
      have hmem : ∀ y, y ∈ m'.entries ↔ y = x ∨ y ∈ m.entries ∧ y.1 ≠ x.1 := by
        intro y
        rw [entries_addEntry hadd, mem_insertEntry m.sorted]
      refine ⟨fun shard => ?_, fun y hy => ?_⟩
      · rw [hkeys]
        grind
      · rcases hgiven y hy with hy | hy
        · rcases (hmem y).mp hy with rfl | ⟨hy, -⟩
          · exact Or.inr mem_cons_self
          · exact Or.inl hy
        · exact Or.inr (mem_cons_of_mem _ hy)

/-- **When routing and placement agree**: the shards that are computed are ids that were given, and
entries with one id have one list. -/
theorem routing_agrees_iff (h : fromEntries accepted = .ok map) (name : RefName)
    (search : List UInt8) : map.Agrees accepted name search ↔
      (∃ router, ShardRouter.new (accepted.map Prod.fst).dedup.length = some router ∧
        router.shardFor name ∈ accepted.map Prod.fst ∧
        ∀ shard, router.shardsForPrefix search = .one shard → shard ∈ accepted.map Prod.fst) ∧
      ∀ x ∈ accepted, ∀ y ∈ accepted, x.1 = y.1 → x = y := by
  obtain ⟨hkeys, hgiven⟩ := entries_foldlM h
  have hkey : ∀ shard, shard ∈ map.entries.map Prod.fst ↔ shard ∈ accepted.map Prod.fst := by
    intro shard
    rw [hkeys]
    exact or_iff_right not_mem_nil
  have hcount : map.numShards = (accepted.map Prod.fst).dedup.length := by
    have hperm := (perm_ext_iff_of_nodup (map.sorted.imp fun hlt => Nat.ne_of_lt hlt)
      (nodup_dedup (accepted.map Prod.fst))).mpr fun shard => by rw [hkey, mem_dedup]
    rw [numShards, ← hperm.length_eq, length_map]
  have hkept : (∀ x ∈ accepted, x ∈ map.entries) ↔ ∀ x ∈ accepted, ∀ y ∈ accepted, x.1 = y.1 → x =
      y := by
    constructor
    · intro hall x hx y hy hid
      have hlists := (lookup_of_mem map.sorted (hall x hx)).symm.trans
        (hid ▸ lookup_of_mem map.sorted (hall y hy))
      exact Prod.ext hid (Option.some.inj hlists)
    · intro hone x hx
      obtain ⟨y, hy, hid⟩ := mem_map.mp ((hkey x.1).mpr (mem_map_of_mem hx))
      rw [hone x hx y ((hgiven y hy).resolve_left not_mem_nil) hid.symm]
      exact hy
  simp only [← hkey, ← hcount, ← placed_iff, ← hkept]
  exact ⟨fun hagrees => ⟨hagrees.routed, hagrees.kept⟩, fun hboth => ⟨hboth.1, hboth.2⟩⟩

end ShardMap

/-- The router of a map with one shard gives out the id 0; this map has only the id 1. -/
theorem routed_to_missing_shard : ∃ map router, ShardMap.fromEntries [(1, [⟨1, "n1"⟩])] = .ok map ∧
    ShardRouter.new map.numShards = some router ∧ map.members (router.shardFor .headsA) = [] :=
  ⟨_, _, rfl, rfl, by decide +kernel⟩

/-- Two shards, with the ids that the router gives out. -/
def twoEntries : List (ShardId × List Member) := [(0, [⟨2, "n2"⟩, ⟨1, "n1"⟩]), (1, [⟨3, "n3"⟩])]

theorem consecutive_shards_agree : ∃ map, ShardMap.fromEntries twoEntries = .ok map ∧
    map.Agrees twoEntries .headsA (strBytes "refs/heads/a/") :=
  ⟨_, rfl, (ShardMap.routing_agrees_iff rfl _ _).mpr
    ⟨⟨⟨2, by decide⟩, rfl, by decide +kernel, fun shard hshard => by
      rw [← ShardSpan.one.inj ((show _ = ShardSpan.one 1 by decide +kernel).symm.trans hshard)]
      decide⟩, by decide⟩⟩

end Ledge.Cluster
