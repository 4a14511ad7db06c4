import Ledge.Cluster.Router
import Mathlib.Data.List.Nodup

/-!
# Ledge.Cluster.ShardMap

The placement of shards on nodes (`shard_map.rs`), and the object peers that a node gets from
it (`build_cluster_stack`): the other replicas of all shards that it hosts, one for each
address.
-/

namespace Ledge.Cluster

open List

abbrev NodeId := Nat

/-- `Replica`: a node and the address that it serves on. -/
structure Member where
  nodeId : NodeId
  addr : String
  deriving DecidableEq

inductive ShardMapError
  | emptyShard (shard : ShardId)
  | duplicateNode (shard : ShardId) (nodeId : NodeId)
  deriving DecidableEq

/-- The entries of the `BTreeMap`, in its order. -/
structure ShardMap where
  entries : List (ShardId × List Member)
  sorted : (entries.map Prod.fst).Pairwise (· < ·)
  nonempty : ∀ x ∈ entries, x.2 ≠ []
  nodup : ∀ x ∈ entries, (x.2.map Member.nodeId).Nodup

namespace ShardMap

def empty : ShardMap where
  entries := []
  sorted := List.Pairwise.nil
  nonempty := forall_mem_nil _
  nodup := forall_mem_nil _

/-! ### Building a map -/

/-- `BTreeMap::insert` -/
def insertEntry (shard : ShardId) (replicas : List Member) :
    List (ShardId × List Member) → List (ShardId × List Member)
  | [] => [(shard, replicas)]
  | x :: rest =>
    if shard < x.1 then (shard, replicas) :: x :: rest
    else if shard = x.1 then (shard, replicas) :: rest
    else x :: insertEntry shard replicas rest

variable {replicas : List Member} {entries : List (ShardId × List Member)}

theorem mem_insertEntry {shard : ShardId} {x : ShardId × List Member}
    (h : (entries.map Prod.fst).Pairwise (· < ·)) :
    x ∈ insertEntry shard replicas entries ↔ x = (shard, replicas) ∨ x ∈ entries ∧ x.1 ≠ shard := by
  induction entries with
  | nil => simp [insertEntry]
  | cons y rest ih =>
    obtain ⟨hy, hrest⟩ := pairwise_cons.mp h
    have hlater : x ∈ rest → y.1 < x.1 := fun hx => hy _ (mem_map_of_mem hx)
    rw [insertEntry]
    split_ifs with hlt heq
    · have hne : x ∈ y :: rest → x.1 ≠ shard := by
        intro hx
        rcases mem_cons.mp hx with rfl | hx
        · exact Nat.ne_of_gt hlt
        · exact Nat.ne_of_gt (hlt.trans (hlater hx))
      rw [mem_cons, and_iff_left_of_imp hne]
    · grind
    · grind

theorem sorted_insertEntry (shard : ShardId) (replicas : List Member)
    (h : (entries.map Prod.fst).Pairwise (· < ·)) :
    ((insertEntry shard replicas entries).map Prod.fst).Pairwise (· < ·) := by
  induction entries with
  | nil => exact pairwise_singleton _ _
  | cons y rest ih =>
    obtain ⟨hy, hrest⟩ := pairwise_cons.mp h
    rw [insertEntry]
    split_ifs with hlt heq
    · refine pairwise_cons.mpr ⟨fun s hs => ?_, h⟩
      rcases mem_cons.mp hs with rfl | hs
      · exact hlt
      · exact hlt.trans (hy s hs)
    · subst heq
      exact pairwise_cons.mpr ⟨hy, hrest⟩
    · refine pairwise_cons.mpr ⟨fun s hs => ?_, ih hrest⟩
      obtain ⟨x, hx, rfl⟩ := mem_map.mp hs
      rcases (mem_insertEntry hrest).mp hx with rfl | ⟨hx, -⟩
      · exact lt_of_le_of_ne (Nat.le_of_not_lt hlt) (Ne.symm heq)
      · exact hy _ (mem_map_of_mem hx)

/-- A shard gets its replicas. -/
def setMembers (map : ShardMap) (shard : ShardId) (replicas : List Member) (hne : replicas ≠ [])
    (hnodup : (replicas.map Member.nodeId).Nodup) : ShardMap where
  entries := insertEntry shard replicas map.entries
  sorted := sorted_insertEntry shard replicas map.sorted
  nonempty x hx := by
    rcases (mem_insertEntry map.sorted).mp hx with rfl | ⟨hx, -⟩
    · exact hne
    · exact map.nonempty x hx
  nodup x hx := by
    rcases (mem_insertEntry map.sorted).mp hx with rfl | ⟨hx, -⟩
    · exact hnodup
    · exact map.nodup x hx

/-- The first node id that the loop over the replicas meets twice. -/
def duplicateNode : List NodeId → List Member → Option NodeId
  | _, [] => none
  | seen, r :: rest =>
    if r.nodeId ∈ seen then some r.nodeId else duplicateNode (r.nodeId :: seen) rest

theorem nodup_of_duplicateNode {seen : List NodeId} (h : duplicateNode seen replicas = none) :
    (replicas.map Member.nodeId).Nodup ∧
      ∀ r ∈ replicas, r.nodeId ∉ seen := by
  induction replicas generalizing seen with
  | nil => exact ⟨nodup_nil, nofun⟩
  | cons r rest ih =>
    rw [duplicateNode] at h
    split_ifs at h with hseen
    obtain ⟨hnodup, hfresh⟩ := ih h
    refine ⟨nodup_cons.mpr ⟨fun hmem => ?_, hnodup⟩, fun r' hr' => ?_⟩
    · obtain ⟨r', hr', heq⟩ := mem_map.mp hmem
      exact hfresh r' hr' (heq ▸ mem_cons_self)
    · rcases mem_cons.mp hr' with rfl | hr'
      · exact hseen
      · exact fun hmem => hfresh r' hr' (mem_cons_of_mem _ hmem)

/-- One entry of `from_entries` -/
def addEntry (map : ShardMap) (x : ShardId × List Member) : Except ShardMapError ShardMap :=
  if hne : x.2 = [] then .error (.emptyShard x.1)
  else
    match hdup : duplicateNode [] x.2 with
    | some nodeId => .error (.duplicateNode x.1 nodeId)
    | none => .ok (map.setMembers x.1 x.2 hne (nodup_of_duplicateNode hdup).1)

/-- `from_entries` -/
def fromEntries (entries : List (ShardId × List Member)) : Except ShardMapError ShardMap :=
  entries.foldlM addEntry empty

/-! ### Reading it -/

/-- `members` -/
def members (map : ShardMap) (shard : ShardId) : List Member := (map.entries.lookup shard).getD []

/-- `shards_hosted_by` -/
def shardsHostedBy (map : ShardMap) (node : NodeId) : List ShardId :=
  (map.entries.filter (fun x => x.2.any (fun r => r.nodeId = node))).map Prod.fst

/-- One replica in the loops of `build_cluster_stack` -/
def addPeer (node : NodeId) (peers : List String) (r : Member) : List String :=
  if r.nodeId = node then peers
  else if r.addr ∈ peers then peers
  else peers ++ [r.addr]

/-- The addresses of the object peers of a node. -/
def objectPeers (map : ShardMap) (node : NodeId) : List String :=
  ((map.shardsHostedBy node).flatMap map.members).foldl (addPeer node) []

section Members

variable {map : ShardMap} {node : NodeId} {shard : ShardId} {r : Member}

variable {x : ShardId × List Member} {peers : List String} {replicas : List Member}

theorem lookup_of_mem {entries : List (ShardId × List Member)}
    (hsorted : (entries.map Prod.fst).Pairwise (· < ·)) (hx : x ∈ entries) :
    entries.lookup x.1 = some x.2 := by
  induction entries with
  | nil => cases hx
  | cons y rest ih =>
    obtain ⟨hy, hrest⟩ := pairwise_cons.mp hsorted
    rcases mem_cons.mp hx with rfl | hx
    · exact lookup_cons_self
    · have hlt : y.1 < x.1 := hy _ (mem_map_of_mem hx)
      have hne : (x.1 == y.1) = false := beq_false_of_ne (Nat.ne_of_gt hlt)
      rw [lookup_cons, hne]
      exact ih hrest hx

theorem members_of_mem (hx : x ∈ map.entries) : map.members x.1 = x.2 := by
  rw [members, lookup_of_mem map.sorted hx]
  rfl

theorem mem_shardsHostedBy (h : shard ∈ map.shardsHostedBy node) :
    (∃ r ∈ map.members shard, r.nodeId = node) ∧
      ((map.members shard).map Member.nodeId).Nodup := by
  obtain ⟨x, hx, rfl⟩ := mem_map.mp h
  obtain ⟨hx, hany⟩ := mem_filter.mp hx
  rw [members_of_mem hx]
  obtain ⟨r, hr, heq⟩ := any_eq_true.mp hany
  exact ⟨⟨r, hr, of_decide_eq_true heq⟩, map.nodup x hx⟩

theorem mem_foldl_addPeer {a : String} :
    a ∈ replicas.foldl (addPeer node) peers ↔
      a ∈ peers ∨ ∃ r ∈ replicas, r.nodeId ≠ node ∧ r.addr = a := by
  induction replicas generalizing peers with
  | nil => simp
  | cons r rest ih =>
    rw [foldl_cons, ih]
    have hstep : a ∈ addPeer node peers r ↔ a ∈ peers ∨ r.nodeId ≠ node ∧ r.addr = a := by
      rw [addPeer]
      split_ifs with hself hseen
      · simp [hself]
      · constructor
        · exact Or.inl
        · intro h
          rcases h with h | ⟨-, rfl⟩
          · exact h
          · exact hseen
      · rw [mem_append, eq_comm]
        simp [hself]
    rw [hstep]
    simp only [exists_mem_cons_iff, or_assoc]

theorem nodup_foldl_addPeer (h : peers.Nodup) : (replicas.foldl (addPeer node) peers).Nodup := by
  induction replicas generalizing peers with
  | nil => exact h
  | cons r rest ih =>
    refine ih ?_
    rw [addPeer]
    split_ifs with hself hseen
    · exact h
    · exact h
    · exact List.Nodup.append h (nodup_singleton _) (by simpa using hseen)

/-- The peers are the addresses of the other replicas of the hosted shards. -/
theorem mem_objectPeers {a : String} : a ∈ map.objectPeers node ↔
    ∃ shard ∈ map.shardsHostedBy node, ∃ r ∈ map.members shard, r.nodeId ≠ node ∧ r.addr = a := by
  rw [objectPeers, mem_foldl_addPeer]
  simp only [not_mem_nil, false_or, mem_flatMap]
  constructor
  · intro h
    obtain ⟨r, ⟨shard, hshard, hr⟩, hother⟩ := h
    exact ⟨shard, hshard, r, hr, hother⟩
  · intro h
    obtain ⟨shard, hshard, r, hr, hother⟩ := h
    exact ⟨r, ⟨shard, hshard, hr⟩, hother⟩

theorem nodup_objectPeers (map : ShardMap) (node : NodeId) : (map.objectPeers node).Nodup :=
  nodup_foldl_addPeer nodup_nil

end Members

end ShardMap

end Ledge.Cluster
