import Ledge.Lib.LastWrite
import Mathlib.Data.Finmap

/-!
# Ledge.Workspace.Lease

The lease store (`lease.rs`): a log of upserts, tombstones and checkpoints, and the
index of leases that its replay builds.

A write appends its frame and changes the index under one lock, so the index is always
what the log says; replaying a log is the last write for each id. A `HashMap` is
iterated in an unspecified order, so what iterates the index is a relation.
-/

namespace Ledge.Workspace

open Ledge.Lib List Option

/-- A workspace id, 16 raw bytes. -/
structure WorkspaceId where
  bytes : List UInt8
  size : 16 = bytes.length
  deriving DecidableEq

/-- `WorkspaceId::from_bytes([byte; 16])` -/
def WorkspaceId.fill (byte : UInt8) : WorkspaceId :=
  ⟨replicate 16 byte, length_replicate.symm⟩

/-- `WorkspaceId::to_hex` -/
def WorkspaceId.toHex (id : WorkspaceId) : String :=
  String.ofList (id.bytes.flatMap (fun b =>
    [Nat.digitChar (b.toNat / 16), Nat.digitChar (b.toNat % 16)]))

/-- A durable lease over a workspace's ref namespace. -/
structure Lease where
  id : WorkspaceId
  sourceRefs : List String
  createdAtMs : Nat
  expiresAtMs : Nat
  hlc : Nat
  generation : Nat
  tenantId : String
  deriving DecidableEq

/-- A frame of the lease log. -/
inductive LeaseWalEntry
  | put (lease : Lease)
  | tombstone (id : WorkspaceId) (hlc : Nat)
  | checkpoint (leases : List Lease)
  deriving DecidableEq

/-- The live index. Every lease is filed under its own id. -/
structure LeaseIndex where
  map : Finmap (fun _ : WorkspaceId => Lease)
  keyed : ∀ id l, map.lookup id = some l → l.id = id

namespace LeaseIndex

def empty : LeaseIndex := ⟨∅, fun id l h => by rw [Finmap.lookup_empty] at h; cases h⟩

def lookup (idx : LeaseIndex) (id : WorkspaceId) : Option Lease := idx.map.lookup id

theorem lookup_insert_eq (m : Finmap (fun _ : WorkspaceId => Lease)) (l : Lease)
    (id : WorkspaceId) :
    (m.insert l.id l).lookup id = if l.id = id then some l else m.lookup id := by
  by_cases h : l.id = id
  · rw [if_pos h, ← h, Finmap.lookup_insert]
  · rw [if_neg h, Finmap.lookup_insert_of_ne m (Ne.symm h)]

theorem lookup_erase_eq (m : Finmap (fun _ : WorkspaceId => Lease)) (id' id : WorkspaceId) :
    (m.erase id').lookup id = if id' = id then none else m.lookup id := by
  by_cases h : id' = id
  · rw [if_pos h, h, Finmap.lookup_erase]
  · rw [if_neg h, Finmap.lookup_erase_ne (Ne.symm h)]

/-- `index.insert(l.id, l)` -/
def insert (idx : LeaseIndex) (l : Lease) : LeaseIndex where
  map := idx.map.insert l.id l
  keyed := by
    intro id l' h
    rw [lookup_insert_eq] at h
    split_ifs at h with hid
    · rw [← some.inj h]
      exact hid
    · exact idx.keyed id l' h

/-- `index.remove(id)` -/
def remove (idx : LeaseIndex) (id : WorkspaceId) : LeaseIndex where
  map := idx.map.erase id
  keyed := by
    intro id' l h
    rw [lookup_erase_eq] at h
    split_ifs at h
    exact idx.keyed id' l h

variable {idx idx' : LeaseIndex} {id : WorkspaceId}

@[simp] theorem lookup_empty (id : WorkspaceId) : empty.lookup id = none := Finmap.lookup_empty id

@[simp] theorem lookup_insert (idx : LeaseIndex) (l : Lease) (id : WorkspaceId) :
    (idx.insert l).lookup id = if l.id = id then some l else idx.lookup id :=
  lookup_insert_eq idx.map l id

@[simp] theorem lookup_remove (idx : LeaseIndex) (id' id : WorkspaceId) :
    (idx.remove id').lookup id = if id' = id then none else idx.lookup id :=
  lookup_erase_eq idx.map id' id

theorem id_of_lookup {l : Lease} (h : idx.lookup id = some l) : l.id = id := idx.keyed id l h

theorem ext_lookup (h : ∀ id, idx.lookup id = idx'.lookup id) : idx = idx' := by
  obtain ⟨m, hm⟩ := idx
  obtain ⟨m', hm'⟩ := idx'
  obtain rfl : m = m' := Finmap.ext_lookup h
  rfl

/-- `live`: the leases that expire after `nowMs`, in some order of the index. -/
structure Live (idx : LeaseIndex) (nowMs : Nat) (leases : List Lease) : Prop where
  nodup : leases.Nodup
  mem : ∀ l, l ∈ leases ↔ idx.lookup l.id = some l ∧ nowMs < l.expiresAtMs

end LeaseIndex

/-! ### Replay -/

/-- The body of the replay loop of `open`. -/
def replayLease (idx : LeaseIndex) : LeaseWalEntry → LeaseIndex
  | .put l => idx.insert l
  | .tombstone id _ => idx.remove id
  | .checkpoint leases => leases.foldl LeaseIndex.insert .empty

/-- The last lease of a list with a given id. -/
def lastLease (id : WorkspaceId) (leases : List Lease) : Option Lease :=
  leases.foldl (fun acc l => if l.id = id then some l else acc) none

/-- What a frame writes to an id: `none` when it leaves the id alone. -/
def LeaseWalEntry.effect (id : WorkspaceId) : LeaseWalEntry → Option (Option Lease)
  | .put l => if l.id = id then some (some l) else none
  | .tombstone id' _ => if id' = id then some none else none
  | .checkpoint leases => some (lastLease id leases)

theorem lastLease_concat (id : WorkspaceId) (leases : List Lease) (l : Lease) :
    lastLease id (leases ++ [l]) = if l.id = id then some l else lastLease id leases := by
  simp [lastLease]

/-- In a list that has one lease for each id, the last is that one. -/
theorem lastLease_eq_some_iff {id : WorkspaceId} {leases : List Lease} {l : Lease}
    (h : ∀ a ∈ leases, ∀ b ∈ leases, a.id = b.id → a = b) :
    lastLease id leases = some l ↔ l ∈ leases ∧ l.id = id := by
  induction leases using reverseRecOn with
  | nil => simp [lastLease]
  | append_singleton leases l' ih =>
    have hih := ih fun a ha b hb =>
      h a (mem_append_left _ ha) b (mem_append_left _ hb)
    rw [lastLease_concat]
    by_cases hid : l'.id = id
    · rw [if_pos hid]
      constructor
      · intro heq
        cases heq
        exact ⟨by simp, hid⟩
      · intro hl
        rw [h l' (by simp) l hl.1 (hid.trans hl.2.symm)]
    · rw [if_neg hid, hih, mem_append, mem_singleton]
      constructor
      · exact fun hl => ⟨Or.inl hl.1, hl.2⟩
      · rintro ⟨hl | rfl, hlid⟩
        · exact ⟨hl, hlid⟩
        · exact absurd hlid hid

/-- The last lease of a list of those leases of an index that satisfy `p`. -/
theorem lastLease_of_mem_iff {idx : LeaseIndex} {leases : List Lease} {p : Lease → Prop}
    [DecidablePred p] (h : ∀ l, l ∈ leases ↔ idx.lookup l.id = some l ∧ p l) (id : WorkspaceId) :
    lastLease id leases = (idx.lookup id).filter (fun l => p l) := by
  have hunique : ∀ a ∈ leases, ∀ b ∈ leases, a.id = b.id → a = b := by
    intro a ha b hb hid
    have hla := ((h a).mp ha).1
    rw [hid, ((h b).mp hb).1] at hla
    exact (some.inj hla).symm
  apply Option.ext
  intro l
  rw [lastLease_eq_some_iff hunique, h, filter_eq_some_iff]
  constructor
  · rintro ⟨⟨hl, hp⟩, rfl⟩
    exact ⟨hl, decide_eq_true hp⟩
  · rintro ⟨hl, hp⟩
    obtain rfl := LeaseIndex.id_of_lookup hl
    exact ⟨⟨hl, of_decide_eq_true hp⟩, rfl⟩

theorem lookup_foldl_insert (leases : List Lease) (idx : LeaseIndex) (id : WorkspaceId) :
    (leases.foldl LeaseIndex.insert idx).lookup id =
      (lastLease id leases).or (idx.lookup id) := by
  induction leases using reverseRecOn with
  | nil => rfl
  | append_singleton leases l ih =>
    rw [foldl_concat, LeaseIndex.lookup_insert, ih, lastLease_concat]
    split_ifs <;> rfl

theorem lookup_replayLease (idx : LeaseIndex) (f : LeaseWalEntry) (id : WorkspaceId) :
    (replayLease idx f).lookup id = (f.effect id).getD (idx.lookup id) := by
  cases f with
  | put l =>
    rw [replayLease, LeaseIndex.lookup_insert, LeaseWalEntry.effect]
    split_ifs <;> rfl
  | tombstone id' hlc =>
    rw [replayLease, LeaseIndex.lookup_remove, LeaseWalEntry.effect]
    split_ifs <;> rfl
  | checkpoint leases =>
    rw [replayLease, lookup_foldl_insert, LeaseIndex.lookup_empty, or_none]
    rfl

theorem lookup_foldl_replayLease (wal : List LeaseWalEntry) (idx : LeaseIndex)
    (id : WorkspaceId) :
    (wal.foldl replayLease idx).lookup id =
      settle (LeaseWalEntry.effect id) (idx.lookup id) wal := by
  induction wal using reverseRecOn with
  | nil => rfl
  | append_singleton wal f ih => rw [foldl_concat, lookup_replayLease, ih, settle_concat]

/-! ### The store -/

/-- The index and the frames of the log file; the index is the replay of the log. -/
structure LeaseStore where
  index : LeaseIndex
  wal : List LeaseWalEntry
  replayed : index = wal.foldl replayLease .empty

namespace LeaseStore

/-- `open`: replay the log. -/
def openOn (wal : List LeaseWalEntry) : LeaseStore := ⟨wal.foldl replayLease .empty, wal, rfl⟩

/-- Append a frame and change the index as replay will. -/
def write (s : LeaseStore) (f : LeaseWalEntry) : LeaseStore :=
  ⟨replayLease s.index f, s.wal ++ [f], by rw [foldl_concat, s.replayed]⟩

/-- `put` -/
def put (s : LeaseStore) (lease : Lease) : LeaseStore := s.write (.put lease)

/-- `tombstone_with_hlc` -/
def tombstoneWithHlc (s : LeaseStore) (id : WorkspaceId) (hlc : Nat) : LeaseStore :=
  s.write (.tombstone id hlc)

/-- `get` -/
def get (s : LeaseStore) (id : WorkspaceId) : Option Lease := s.index.lookup id

theorem openOn_wal (s : LeaseStore) : openOn s.wal = s := by
  obtain ⟨index, wal, rfl⟩ := s
  rfl

theorem get_put (s : LeaseStore) (lease : Lease) (id : WorkspaceId) :
    (s.put lease).get id = if lease.id = id then some lease else s.get id :=
  LeaseIndex.lookup_insert s.index lease id

theorem get_tombstoneWithHlc (s : LeaseStore) (id' : WorkspaceId) (hlc : Nat) (id : WorkspaceId) :
    (s.tombstoneWithHlc id' hlc).get id = if id' = id then none else s.get id :=
  LeaseIndex.lookup_remove s.index id' id

theorem get_eq_settle (s : LeaseStore) (id : WorkspaceId) :
    s.get id = settle (LeaseWalEntry.effect id) none s.wal := by
  rw [get, s.replayed, lookup_foldl_replayLease, LeaseIndex.lookup_empty]

/-- Putting leases into an empty store keeps the last one for each id. -/
theorem get_foldl_put_openOn (leases : List Lease) (id : WorkspaceId) :
    (leases.foldl put (openOn [])).get id = lastLease id leases := by
  have hindex : ∀ (l : List Lease) (s : LeaseStore),
      (l.foldl put s).index = l.foldl LeaseIndex.insert s.index := by
    intro l
    induction l with
    | nil => exact fun _ => rfl
    | cons lease l ih => exact fun s => ih (s.put lease)
  rw [get, hindex, lookup_foldl_insert]
  exact or_none

/-- Putting back the leases that `live` listed rebuilds those leases. -/
theorem get_foldl_put {idx : LeaseIndex} {nowMs : Nat} {leases : List Lease}
    (h : idx.Live nowMs leases) (id : WorkspaceId) :
    (leases.foldl put (openOn [])).get id =
      (idx.lookup id).filter (fun l => nowMs < l.expiresAtMs) := by
  rw [get_foldl_put_openOn, lastLease_of_mem_iff h.mem]

end LeaseStore

end Ledge.Workspace
