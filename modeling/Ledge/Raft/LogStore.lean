import Ledge.Raft.StateMachine

/-!
# Ledge.Raft.LogStore

The in-memory Raft log (`log_store.rs`): entries by index, the last purged id, the vote and the
committed id.

A `BTreeMap` by index is a list that ascends (`LogMap`). Indices are `u64` in the source; the
only arithmetic on them is the `+ 1` of `purge`, which both log stores do alike.
-/

namespace Ledge.Raft

open List

/-- The hard state of an election. -/
structure Vote where
  term : Nat
  nodeId : Nat
  committed : Bool
  deriving DecidableEq

/-! ### Entries by index -/

/-- `BTreeMap<u64, Entry>` -/
structure LogMap where
  entries : List (Nat × Entry)
  ascending : entries.Pairwise (fun x y => x.1 < y.1)
  deriving DecidableEq

/-- Insert into an ascending list, in place of an entry with the same index. -/
def insertEntry (index : Nat) (entry : Entry) : List (Nat × Entry) → List (Nat × Entry)
  | [] => [(index, entry)]
  | x :: l =>
    if index < x.1 then (index, entry) :: x :: l
    else if index = x.1 then (index, entry) :: l
    else x :: insertEntry index entry l

variable {entry : Entry} {l : List (Nat × Entry)}

theorem mem_insertEntry {index : Nat} {x : Nat × Entry} (h : x ∈ insertEntry index entry l) :
    x.1 = index ∨ x ∈ l := by
  induction l with
  | nil => exact Or.inl (by rw [mem_singleton.mp h])
  | cons y l ih =>
    rw [insertEntry] at h
    split_ifs at h
    · rcases mem_cons.mp h with rfl | hx
      · exact Or.inl rfl
      · exact Or.inr hx
    · rcases mem_cons.mp h with rfl | hx
      · exact Or.inl rfl
      · exact Or.inr (mem_cons_of_mem _ hx)
    · rcases mem_cons.mp h with rfl | hx
      · exact Or.inr mem_cons_self
      · exact (ih hx).imp id (mem_cons_of_mem _)

theorem insertEntry_ascending {index : Nat} (h : l.Pairwise (fun x y => x.1 < y.1)) :
    (insertEntry index entry l).Pairwise (fun x y => x.1 < y.1) := by
  induction l with
  | nil => exact pairwise_singleton _ _
  | cons x l ih =>
    obtain ⟨hx, hl⟩ := pairwise_cons.mp h
    rw [insertEntry]
    split_ifs with hlt heq
    · refine pairwise_cons.mpr ⟨fun y hy => ?_, h⟩
      rcases mem_cons.mp hy with rfl | hy
      · exact hlt
      · exact Nat.lt_trans hlt (hx y hy)
    · refine pairwise_cons.mpr ⟨fun y hy => ?_, hl⟩
      show index < y.1
      rw [heq]
      exact hx y hy
    · refine pairwise_cons.mpr ⟨fun y hy => ?_, ih hl⟩
      rcases mem_insertEntry hy with hy | hy
      · omega
      · exact hx y hy

namespace LogMap

def empty : LogMap := ⟨[], .nil⟩

def insert (m : LogMap) (index : Nat) (entry : Entry) : LogMap :=
  ⟨insertEntry index entry m.entries, insertEntry_ascending m.ascending⟩

/-- What `split_off(at)` leaves in the map. -/
def below (m : LogMap) (index : Nat) : LogMap :=
  ⟨m.entries.filter (fun x => x.1 < index), m.ascending.filter _⟩

/-- What `split_off(at)` returns. -/
def splitOff (m : LogMap) (index : Nat) : LogMap :=
  ⟨m.entries.filter (fun x => index ≤ x.1), m.ascending.filter _⟩

theorem insertEntry_of_lt {index : Nat} {entry : Entry} {l : List (Nat × Entry)}
    (h : ∀ x ∈ l, x.1 < index) : insertEntry index entry l = l ++ [(index, entry)] := by
  induction l with
  | nil => rfl
  | cons x l ih =>
    have hx := h x mem_cons_self
    rw [insertEntry, if_neg (by omega), if_neg (by omega),
      ih fun y hy => h y (mem_cons_of_mem _ hy)]
    rfl

/-- The entries of a map, inserted one after the other, are the map. -/
theorem foldl_insert (m : LogMap) :
    m.entries.foldl (fun m x => m.insert x.1 x.2) empty = m := by
  obtain ⟨l, hl⟩ := m
  induction l using reverseRecOn with
  | nil => rfl
  | append_singleton l x ih =>
    obtain ⟨hpre, -, hlast⟩ := pairwise_append.mp hl
    rw [foldl_concat, ih hpre]
    simp only [insert]
    congr 1
    exact insertEntry_of_lt fun y hy => hlast y hy x (mem_singleton_self x)

end LogMap

/-! ### The store -/

/-- `Inner`: the state of a log store. -/
structure LogStore where
  log : LogMap
  lastPurged : Option LogId
  vote : Option Vote
  committed : Option LogId
  deriving DecidableEq

/-- The operations on a log store. `rewriteSnapshot` is one of the durable store only. -/
inductive LogOp
  | append (entries : List Entry)
  | saveVote (vote : Vote)
  | saveCommitted (committed : Option LogId)
  | truncate (logId : LogId)
  | purge (logId : LogId)
  | rewriteSnapshot
  deriving DecidableEq

namespace LogStore

/-- `LogStore::default` -/
def default : LogStore := ⟨.empty, none, none, none⟩

def append (s : LogStore) (entries : List Entry) : LogStore :=
  { s with log := entries.foldl (fun log entry => log.insert entry.logId.index entry) s.log }

def saveVote (s : LogStore) (vote : Vote) : LogStore := { s with vote := some vote }

def saveCommitted (s : LogStore) (committed : Option LogId) : LogStore :=
  { s with committed := committed }

/-- Remove the entries from `logId` on. -/
def truncate (s : LogStore) (logId : LogId) : LogStore :=
  { s with log := s.log.below logId.index }

/-- Remove the entries up to `logId`. -/
def purge (s : LogStore) (logId : LogId) : LogStore :=
  { s with lastPurged := some logId, log := s.log.splitOff (logId.index + 1) }

def step (s : LogStore) : LogOp → LogStore
  | .append entries => s.append entries
  | .saveVote vote => s.saveVote vote
  | .saveCommitted committed => s.saveCommitted committed
  | .truncate logId => s.truncate logId
  | .purge logId => s.purge logId
  | .rewriteSnapshot => s

/-- The state after some operations. -/
def run (ops : List LogOp) : LogStore := ops.foldl step default

theorem run_concat (ops : List LogOp) (op : LogOp) : run (ops ++ [op]) = (run ops).step op :=
  foldl_concat ..

end LogStore

end Ledge.Raft
