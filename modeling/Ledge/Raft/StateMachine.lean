import Ledge.Raft.Replica

/-!
# Ledge.Raft.StateMachine

The replicated state machine and its files (`state_machine.rs`): `open`, `apply`,
snapshots and their installation.

* The payload of a snapshot is what its bytes decode to; bytes that do not decode are
  refused before anything happens, as is a payload with an invalid ref name.
* A durable state machine keeps the logs of its stores in its directory, until a snapshot
  is installed: `restore` builds new stores in a temporary directory, and the logs in the
  directory are left as they are (`Files.abandoned`).
* The membership that `apply` stores and reports with the last applied id is left out; no
  modelled function reads it.
-/

namespace Ledge.Raft

open Ledge.Core Ledge.RefStore Ledge.Workspace List

/-! ### Entries -/

structure LogId where
  term : Nat
  index : Nat
  deriving DecidableEq

inductive EntryPayload
  | blank
  | normal (op : LedgeOp)
  | membership
  deriving DecidableEq

structure Entry where
  logId : LogId
  payload : EntryPayload
  deriving DecidableEq

/-! ### Snapshots and files -/

/-- The snapshot payload. -/
structure StateDump where
  refs : List (String × RefEntry)
  leases : List Lease
  txnRecords : List (TxnId × TxnRecord)

/-- A persisted snapshot with its coverage. -/
structure PersistedSnapshot where
  lastLogId : Option LogId
  snapshotId : String
  payload : StateDump

/-- What the directory holds besides the logs of the stores in use. -/
structure Files where
  appliedMeta : Option LogId
  snapshot : Option PersistedSnapshot
  /-- The ref log and the lease log, once the stores in use are elsewhere. -/
  abandoned : Option (List WalEntry × List LeaseWalEntry)

/-- A closed directory. -/
structure Dir where
  refsWal : List WalEntry
  leasesWal : List LeaseWalEntry
  appliedMeta : Option LogId
  snapshot : Option PersistedSnapshot

/-- A directory before its first use. -/
def Dir.fresh : Dir := ⟨[], [], none, none⟩

/-- The state machine; `durableDir` is `none` for one on a temporary directory. -/
structure StateMachine where
  replica : Replica
  lastAppliedLog : Option LogId
  durableDir : Option Files

namespace StateMachine

/-- `new_temp` -/
def newTemp : StateMachine := ⟨.empty, none, none⟩

/-- `open`: the stores replay their logs, the transaction records start empty. -/
def openDir (d : Dir) : StateMachine where
  replica := ⟨.openOn d.refsWal, .openOn d.leasesWal, ∅⟩
  lastAppliedLog := d.appliedMeta
  durableDir := some ⟨d.appliedMeta, d.snapshot, none⟩

/-- What a state machine leaves in its directory when it is dropped. -/
def dir (sm : StateMachine) (files : Files) : Dir :=
  match files.abandoned with
  | none => ⟨sm.replica.refs.wal, sm.replica.leases.wal, files.appliedMeta, files.snapshot⟩
  | some (refsWal, leasesWal) => ⟨refsWal, leasesWal, files.appliedMeta, files.snapshot⟩

/-- Drop the state machine and open its directory again. -/
def reopen (sm : StateMachine) : Option StateMachine :=
  sm.durableDir.map (fun files => openDir (sm.dir files))

/-- `persist_meta` -/
def persistMeta (sm : StateMachine) : StateMachine :=
  let files := sm.durableDir.map (fun files => { files with appliedMeta := sm.lastAppliedLog })
  { sm with durableDir := files }

/-! ### `apply` -/

/-- The body of the loop of `apply`. `durable` says whether the append to the ref log, if
the entry makes one, succeeds. -/
def applyEntry (sm : StateMachine) (durable : Bool) (e : Entry) :
    Option (StateMachine × LedgeResp) :=
  match e.payload with
  | .blank | .membership => some ({ sm with lastAppliedLog := some e.logId }, .noop)
  | .normal op =>
    (applyOne sm.replica durable op).map (fun (replica, resp) =>
      ({ sm with replica := replica, lastAppliedLog := some e.logId }, resp))

/-- The loop of `apply`. -/
def applyLoop (sm : StateMachine) : List (Entry × Bool) → Option (StateMachine × List LedgeResp)
  | [] => some (sm, [])
  | (e, durable) :: entries =>
    (sm.applyEntry durable e).bind (fun (sm', resp) =>
      (sm'.applyLoop entries).map (fun (sm'', resps) => (sm'', resp :: resps)))

/-- `apply`: the loop, then the new resume point. -/
def applyWith (sm : StateMachine) (entries : List (Entry × Bool)) :
    Option (StateMachine × List LedgeResp) :=
  (sm.applyLoop entries).map (fun (sm', resps) => (sm'.persistMeta, resps))

/-- Entries whose appends all succeed. -/
def durably (entries : List Entry) : List (Entry × Bool) := entries.map (fun e => (e, true))

/-- `apply` when every append succeeds. -/
def apply (sm : StateMachine) (entries : List Entry) : Option (StateMachine × List LedgeResp) :=
  sm.applyWith (durably entries)

/-! ### Snapshots -/

/-- `dump`: what a snapshot of the replica can hold. Only the order of the leases is
open. -/
structure Dumps (r : Replica) (d : StateDump) : Prop where
  refs : d.refs = (r.refs.tree.list "").map (fun x => (x.1.asStr, x.2))
  leases : r.leases.index.Live 0 d.leases
  txnSorted : d.txnRecords.Pairwise (fun x y => x.1.bytes < y.1.bytes)
  txnRecords : ∀ x, x ∈ d.txnRecords ↔ r.txnRecords.lookup x.1 = some x.2

/-- The names of a payload's refs, checked in order. -/
def checkRefs : List (String × RefEntry) → Except LedgeError (List (RefName × RefEntry))
  | [] => .ok []
  | (name, entry) :: refs =>
    match RefName.new name with
    | .error e => .error e
    | .ok n => (checkRefs refs).map (fun entries => (n, entry) :: entries)

/-- The stores and records that `restore` builds. -/
def restored (entries : List (RefName × RefEntry)) (d : StateDump) : Replica where
  refs := .restoreFrom entries
  leases := d.leases.foldl LeaseStore.put (.openOn [])
  txnRecords := d.txnRecords.foldl (fun m x => m.insert x.1 x.2) ∅

/-- `restore`: new stores, and the logs in the directory are abandoned. -/
def restore (sm : StateMachine) (d : StateDump) : Except LedgeError StateMachine :=
  let logs := (sm.replica.refs.wal, sm.replica.leases.wal)
  let files := sm.durableDir.map (fun files =>
    { files with abandoned := some (files.abandoned.getD logs) })
  (checkRefs d.refs).map (fun entries =>
    { sm with replica := restored entries d, durableDir := files })

/-- `install_snapshot` -/
def installSnapshot (sm : StateMachine) (snap : PersistedSnapshot) :
    Except LedgeError StateMachine :=
  (sm.restore snap.payload).map (fun sm' =>
    let files := sm'.durableDir.map (fun files => { files with snapshot := some snap })
    persistMeta { sm' with lastAppliedLog := snap.lastLogId, durableDir := files })

/-! ### `apply` as commands on the replica -/

end StateMachine

/-- An entry as a checked command. -/
def EntryPayload.action : EntryPayload → Option Action
  | .blank | .membership => some .noop
  | .normal op => op.action

/-- The checked commands of a list of entries; `none` when a name is invalid. -/
def actions : List (Entry × Bool) → Option (List (Action × Bool))
  | [] => some []
  | (e, durable) :: entries =>
    e.payload.action.bind (fun a => (actions entries).map (fun l => (a, durable) :: l))

/-- The last applied id after a list of entries. -/
def lastId (last : Option LogId) (entries : List Entry) : Option LogId :=
  entries.foldl (fun _ e => some e.logId) last

theorem actions_append (l₁ l₂ : List (Entry × Bool)) :
    actions (l₁ ++ l₂) =
      (actions l₁).bind (fun as₁ => (actions l₂).map (fun as₂ => as₁ ++ as₂)) := by
  induction l₁ with
  | nil => cases h : actions l₂ <;> simp [actions, h]
  | cons x l₁ ih =>
    obtain ⟨e, durable⟩ := x
    simp only [cons_append, actions, ih]
    cases e.payload.action with
    | none => rfl
    | some a => cases actions l₁ <;> cases actions l₂ <;> rfl

theorem length_actions {l : List (Entry × Bool)} {as : List (Action × Bool)}
    (h : actions l = some as) : as.length = l.length := by
  induction l generalizing as with
  | nil =>
    cases h
    rfl
  | cons x l ih =>
    obtain ⟨a, -, hrest⟩ := Option.bind_eq_some_iff.mp h
    obtain ⟨as', has', rfl⟩ := Option.map_eq_some_iff.mp hrest
    rw [length_cons, length_cons, ih has']

namespace StateMachine

variable {sm sm' : StateMachine} {entries : List (Entry × Bool)}

theorem applyEntry_eq (sm : StateMachine) (durable : Bool) (e : Entry) :
    sm.applyEntry durable e = e.payload.action.map (fun a =>
      ({ sm with
          replica := (sm.replica.perform durable a).1, lastAppliedLog := some e.logId },
        (sm.replica.perform durable a).2)) := by
  rw [applyEntry]
  cases e.payload with
  | blank | membership => rfl
  | normal op =>
    simp only [applyOne_eq, Option.map_map, EntryPayload.action]
    rfl

/-- **The loop of `apply`** checks the names and performs the commands. -/
theorem applyLoop_eq (sm : StateMachine) (entries : List (Entry × Bool)) :
    sm.applyLoop entries = (actions entries).map (fun as =>
      ({ sm with
          replica := (sm.replica.performAll as).1
          lastAppliedLog := lastId sm.lastAppliedLog (entries.map Prod.fst) },
        (sm.replica.performAll as).2)) := by
  induction entries generalizing sm with
  | nil => rfl
  | cons x entries ih =>
    obtain ⟨e, durable⟩ := x
    rw [applyLoop, applyEntry_eq, actions]
    cases e.payload.action with
    | none => rfl
    | some a =>
      simp only [Option.map_some, Option.bind_some, ih, Option.map_map]
      rfl

/-- The position and the files after `apply`. -/
def appliedTo (sm : StateMachine) (r : Replica) (entries : List Entry) : StateMachine :=
  persistMeta
    { sm with replica := r, lastAppliedLog := lastId sm.lastAppliedLog entries }

theorem applyWith_eq (sm : StateMachine) (entries : List (Entry × Bool)) :
    sm.applyWith entries = (actions entries).map (fun as =>
      (sm.appliedTo (sm.replica.performAll as).1 (entries.map Prod.fst),
        (sm.replica.performAll as).2)) := by
  rw [applyWith, applyLoop_eq, Option.map_map]
  rfl

@[simp] theorem appliedTo_replica (sm : StateMachine) (r : Replica) (entries : List Entry) :
    (sm.appliedTo r entries).replica = r := rfl

@[simp] theorem appliedTo_durableDir (sm : StateMachine) (r : Replica) (entries : List Entry) :
    (sm.appliedTo r entries).durableDir = sm.durableDir.map
      (fun files => { files with appliedMeta := lastId sm.lastAppliedLog entries }) := rfl

theorem map_fst_durably (entries : List Entry) : (durably entries).map Prod.fst = entries := by
  simp [durably, Function.comp_def]

theorem apply_eq (sm : StateMachine) (entries : List Entry) :
    sm.apply entries = (actions (durably entries)).map (fun as =>
      (sm.appliedTo (sm.replica.performAll as).1 entries, (sm.replica.performAll as).2)) := by
  rw [apply, applyWith_eq]
  simp only [map_fst_durably]

end StateMachine

/-! ### Resuming after the last applied entry -/

/-- Log indexes grow along a log. -/
def Increasing (log : List Entry) : Prop :=
  log.Pairwise (fun e e' => e.logId.index < e'.logId.index)

/-- The entries of a log behind a reported position. -/
def resume (last : Option LogId) (log : List Entry) : List Entry :=
  match last with
  | none => log
  | some id => log.filter (fun e => id.index < e.logId.index)

/-- Resuming at the last entry of `P` skips exactly `P`. -/
theorem resume_lastId {P S : List Entry} (h : Increasing (P ++ S)) :
    resume (lastId none P) (P ++ S) = S := by
  obtain ⟨hP, -, hPS⟩ := pairwise_append.mp h
  cases P using reverseRecOn with
  | nil => rfl
  | append_singleton P e =>
    rw [show lastId none (P ++ [e]) = some e.logId by simp [lastId]]
    have hkeep : S.filter (fun e' => e.logId.index < e'.logId.index) = S :=
      filter_eq_self.mpr fun e' he' => by simpa using hPS e (by simp) e' he'
    have hskip : (P ++ [e]).filter (fun e' => e.logId.index < e'.logId.index) = [] := by
      refine filter_eq_nil_iff.mpr fun e' he' => ?_
      rcases mem_append.mp he' with he' | he'
      · have hlt := (pairwise_append.mp hP).2.2 e' he' e (by simp)
        simpa using Nat.le_of_lt hlt
      · simp [mem_singleton.mp he']
    simp only [resume, filter_append] at hskip ⊢
    rw [hskip, hkeep, nil_append]

end Ledge.Raft
