import Ledge.RefStore.Wal
import Ledge.Wal.File

/-!
# Ledge.RefStore.WalFile

The log of the ref store on its file (`wal.rs`), in runs where **appends and compactions fail**
and the store goes on.

The file stays good as long as every append starts where the last whole frame ends, in the file
at the path, and every checkpoint has what is in memory (`opens_to_logged`). The store does not see
to the first. After an append that failed in
the middle of its frame it goes on behind the bytes that were written, and after a compaction
that failed behind its rename it goes on in the old file.
-/

namespace Ledge.RefStore

open Ledge.Core Ledge.Wal Ledge.Lib List

/-- `Wal::open`: replay the file, and keep what follows the last checkpoint. -/
def openWal (C : Codec WalEntry) (disk : Bytes) : Except WalError (LogFile × List WalEntry) :=
  (C.openReplay disk).map (fun (file, all) => (file, fromLastCheckpoint all))

/-- What happens to the log. -/
inductive LogEvent
  /-- `Wal::append`, which may fail after some bytes of the frame. -/
  | append (entry : WalEntry) (fault : Option Nat)
  /-- `Wal::compact_with`, where `snapshot()` is `leaves`. -/
  | compactWith (leaves : List (RefName × RefEntry)) (fault : Option ReplaceFault)
  /-- The process ends, and another one opens the log. -/
  | reopen
  deriving DecidableEq

/-- The record that an event writes. -/
def LogEvent.record : LogEvent → Option WalEntry
  | .append entry _ => some entry
  | .compactWith leaves _ => some (.checkpoint leaves)
  | .reopen => none

/-- The log file, and what has become of the records, in order. -/
structure LogState where
  file : LogFile
  /-- The records whose append returned `Ok`. -/
  acked : List WalEntry
  /-- The records that the refs in memory come from. They are in memory before they are appended,
  and stay there if the append fails. -/
  memory : List WalEntry
  /-- The records that the log is to replay like. -/
  durable : List WalEntry
  deriving DecidableEq

/-- One event. An append that fails leaves less than its frame. A checkpoint takes the place of the
log with all that is in memory, and a process that opens the log has in memory what it has
replayed. -/
def LogState.step (C : Codec WalEntry) (s : LogState) : LogEvent → Option LogState
  | .append entry fault =>
    let s' := { s with
      file := (C.appendRecord s.file fault entry).1
      memory := s.memory ++ [entry] }
    match C.encodeFrame entry with
    | .error _ => some s'
    | .ok frame =>
      match fault with
      | none => some { s' with acked := s.acked ++ [entry], durable := s.durable ++ [entry] }
      | some n => if n < frame.length then some s' else none
  | .compactWith leaves fault =>
    let s' := { s with file := (C.writeCheckpoint s.file fault (.checkpoint leaves)).1 }
    match C.encodeFrame (.checkpoint leaves) with
    | .error _ => some s'
    | .ok _ =>
      match fault with
      | none | some .reopen => some { s' with durable := s.memory }
      | some .temp | some .rename => some s'
  | .reopen =>
    match openWal C s.file.disk with
    | .ok (file, _) => some { s with file := file, memory := s.durable }
    | .error _ => none

/-- Events in order. -/
def LogState.exec (C : Codec WalEntry) (s : LogState) : List LogEvent → Option LogState
  | [] => some s
  | ev :: evs => (s.step C ev).bind (fun s' => s'.exec C evs)

def LogState.empty : LogState := ⟨⟨[], none⟩, [], [], []⟩

/-- An append starts where the last whole frame of the file at the path ends, a checkpoint has the
refs that are in memory, and payloads have less than 2^32 bytes. -/
structure LogState.Careful (C : Codec WalEntry) (s : LogState) (ev : LogEvent) : Prop where
  append : ∀ entry fault, ev = .append entry fault → C.Clean s.file
  leaves : ∀ leaves fault, ev = .compactWith leaves fault →
    ∀ n, lastFor n leaves = settled n none s.memory
  small : ∀ r payload, ev.record = some r → C.encode r = .ok payload → payload.length < 2 ^ 32

/-- The states that careful events lead to. -/
inductive LogRun (C : Codec WalEntry) : LogState → Prop
  | start : LogRun C .empty
  | step {s s' : LogState} {ev : LogEvent} (h : LogRun C s) (hcareful : s.Careful C ev)
      (hstep : s.step C ev = some s') : LogRun C s'

section Runs

variable {C : Codec WalEntry} {s s' : LogState} {ev : LogEvent}

/-- The file holds records with the effects of those that are to be durable, and these have all that
was acknowledged. -/
structure LogState.Good (C : Codec WalEntry) (s : LogState) : Prop where
  holds : ∃ records, C.Holds s.file.disk records ∧
    ∀ n, settled n none records = settled n none s.durable
  durable : s.acked <+ s.durable
  memory : s.acked <+ s.memory

/-- A checkpoint sets every ref, so the records before it do not matter. -/
theorem settled_fromLastCheckpoint (n : RefName) (log : List WalEntry) :
    settled n none (fromLastCheckpoint log) = settled n none log := by
  refine foldl_fromLast WalEntry.isCheckpoint (fun f hf v v' => ?_) none log
  cases f with
  | checkpoint leaves => rfl
  | update | delete | batch => cases hf

theorem LogState.Good.append {entry : WalEntry} {fault : Option Nat} (h : s.Good C)
    (hcareful : s.Careful C (.append entry fault))
    (hstep : s.step C (.append entry fault) = some s') :
    s'.Good C := by
  obtain ⟨records, hholds, hsame⟩ := h.holds
  obtain ⟨hlinked, hwhole⟩ := hcareful.append entry fault rfl
  have hmemory : s.acked <+ s.memory ++ [entry] := h.memory.trans (sublist_append_left _ _)
  unfold LogState.step at hstep
  cases hframe : C.encodeFrame entry with
  | error e =>
    simp only [hframe, Codec.appendRecord] at hstep
    cases hstep
    exact ⟨⟨records, hholds, hsame⟩, h.durable, hmemory⟩
  | ok frame =>
    have hisFrame := Codec.isFrame_of_small hframe (fun payload => hcareful.small _ payload rfl)
    cases fault with
    | none =>
      simp only [hframe, Codec.appendRecord, LogFile.write, hlinked] at hstep
      cases hstep
      refine ⟨⟨records ++ [entry], hholds.append hwhole hisFrame, fun n => ?_⟩,
        h.durable.append_right [entry], h.memory.append_right [entry]⟩
      rw [settled, settled, settle_concat, settle_concat]
      exact congrArg _ (hsame n)
    | some n =>
      simp only [hframe, Codec.appendRecord, LogFile.write, hlinked] at hstep
      split_ifs at hstep with hn
      cases hstep
      exact ⟨⟨records, hholds.appendTorn hwhole hisFrame hn, hsame⟩, h.durable, hmemory⟩

theorem LogState.Good.compactWith {leaves : List (RefName × RefEntry)} {fault : Option ReplaceFault}
    (h : s.Good C) (hcareful : s.Careful C (.compactWith leaves fault))
    (hstep : s.step C (.compactWith leaves fault) = some s') : s'.Good C := by
  unfold LogState.step at hstep
  cases hframe : C.encodeFrame (.checkpoint leaves) with
  | error e =>
    simp only [hframe, Codec.writeCheckpoint] at hstep
    cases hstep
    exact h
  | ok frame =>
    have hisFrame := Codec.isFrame_of_small hframe (fun payload => hcareful.small _ payload rfl)
    -- the new file holds the checkpoint, whatever was there
    have hnew : ∀ old, LogState.Good C ⟨⟨frame, old⟩, s.acked, s.memory, s.memory⟩ := by
      intro old
      refine ⟨⟨[.checkpoint leaves], Codec.holds_frame hisFrame, ?_⟩, h.memory, h.memory⟩
      exact hcareful.leaves leaves fault rfl
    rcases fault with _ | _ | _ | _
    · simp only [hframe, Codec.writeCheckpoint] at hstep
      cases hstep
      exact hnew _
    · simp only [hframe, Codec.writeCheckpoint] at hstep
      cases hstep
      exact h
    · simp only [hframe, Codec.writeCheckpoint] at hstep
      cases hstep
      exact h
    · simp only [hframe, Codec.writeCheckpoint] at hstep
      cases hstep
      exact hnew _

theorem LogState.Good.reopen (h : s.Good C) (hstep : s.step C .reopen = some s') : s'.Good C := by
  obtain ⟨records, hholds, hsame⟩ := h.holds
  obtain ⟨w, hopen, -, hholds'⟩ := hholds.openReplay
  rw [LogState.step, openWal, hopen] at hstep
  cases hstep
  exact ⟨⟨records, hholds', hsame⟩, h.durable, h.durable⟩

theorem LogState.Good.step (h : s.Good C) (hcareful : s.Careful C ev)
    (hstep : s.step C ev = some s') : s'.Good C := by
  cases ev with
  | append entry fault => exact h.append hcareful hstep
  | compactWith leaves fault => exact h.compactWith hcareful hstep
  | reopen => exact h.reopen hstep

/-- **Failures do not poison the log** of a careful run: it opens, and what it replays gives every
ref what the durable records give it. Among these are, in order, all records whose append returned
`Ok`. -/
theorem opens_to_logged (h : LogRun C s) :
    s.acked <+ s.durable ∧ ∃ file replayed, openWal C s.file.disk = .ok (file, replayed) ∧
      ∀ n, settled n none replayed = settled n none s.durable := by
  have hgood : s.Good C := by
    induction h with
    | start => exact ⟨⟨[], Codec.holds_nil, fun _ => rfl⟩, .slnil, .slnil⟩
    | step _ hcareful hstep ih => exact ih.step hcareful hstep
  obtain ⟨records, hholds, hsame⟩ := hgood.holds
  obtain ⟨w, hopen, -, -⟩ := hholds.openReplay
  refine ⟨hgood.durable, w, fromLastCheckpoint records, ?_, fun n => ?_⟩
  · rw [openWal, hopen]
    rfl
  · rw [settled_fromLastCheckpoint, hsame]

end Runs

/-! ### Failures that do -/

/-- A ref and its entry as `bincode` encodes them, if the name and the numbers are small. The target
is a string of hex digits. -/
def refPayload (name : RefName) (e : RefEntry) : Bytes :=
  UInt8.ofNat name.bytes.length :: name.bytes ++ 64 :: strBytes e.target.toHex ++
    [UInt8.ofNat e.hlc, UInt8.ofNat e.version]

def headsFeature : RefName := ⟨"refs/heads/feature", by decide⟩

/-- The creation of two refs, and a checkpoint with the first of them. -/
def updateA : WalEntry := .update .headsA ⟨.fill 1, 1, 1⟩
def updateFeature : WalEntry := .update headsFeature ⟨.fill 2, 2, 1⟩
def leavesA : List (RefName × RefEntry) := [(.headsA, ⟨.fill 1, 1, 1⟩)]

def samplePayloads : List (WalEntry × Bytes) :=
  [(updateA, 0 :: refPayload .headsA ⟨.fill 1, 1, 1⟩),
    (updateFeature, 0 :: refPayload headsFeature ⟨.fill 2, 2, 1⟩),
    (.checkpoint leavesA, 2 :: 1 :: refPayload .headsA ⟨.fill 1, 1, 1⟩)]

theorem nodup_samplePayloads : (samplePayloads.map Prod.snd).Nodup := by decide +kernel

/-- These three records. -/
def sampleCodec : Codec WalEntry := tableCodec samplePayloads nodup_samplePayloads

/-- What the log opens to after some events, and what was acknowledged. -/
def opensTo (evs : List LogEvent) : Option (Option (List WalEntry) × List WalEntry) :=
  (LogState.empty.exec sampleCodec evs).map (fun s =>
    ((openWal sampleCodec s.file.disk).toOption.map Prod.snd, s.acked))

set_option maxRecDepth 20000 in
/-- The append of one record fails after its length field, and the append of a shorter one
returns `Ok`: on open the second record is taken for the torn tail of the first and is cut off.
An append after a compaction that failed to reopen the file goes to the file that was replaced,
and is lost as well. -/
theorem failed_append_poisons_log :
    opensTo [.append updateFeature (some 4), .append updateA none] =
      some (some [], [updateA]) ∧
    opensTo [.append updateA none, .compactWith leavesA (some .reopen),
        .append updateFeature none] =
      some (some [.checkpoint leavesA], [updateA, updateFeature]) := by
  decide +kernel

theorem sampleCodec_small {r : WalEntry} {payload : Bytes}
    (h : sampleCodec.encode r = .ok payload) : payload.length < 2 ^ 32 := by
  have hall : ∀ p ∈ samplePayloads.map Prod.snd, p.length < 2 ^ 32 := by decide +kernel
  exact hall payload (mem_of_encode_tableCodec h)

/-- The log after some events that are possible. -/
def sampleLog (evs : List LogEvent) : LogState :=
  (LogState.empty.exec sampleCodec evs).getD .empty

set_option maxRecDepth 20000 in
/-- A compaction repairs what a failed append has left. It takes the record in that failed. -/
theorem compaction_repairs_log :
    let s := sampleLog [.append updateA (some 4), .compactWith leavesA none,
      .append updateFeature none]
    LogRun sampleCodec s ∧ s.acked = [updateFeature] ∧ s.durable = [updateA, updateFeature] ∧
      s.acked <+ s.durable ∧ ∃ file replayed, openWal sampleCodec s.file.disk =
        .ok (file, replayed) ∧ ∀ n, settled n none replayed = settled n none s.durable := by
  intro s
  have hfailed : LogRun sampleCodec (sampleLog [.append updateA (some 4)]) := by
    refine LogRun.start.step ⟨fun _ _ _ => Codec.clean_of_isClean ?_, fun _ _ hev => ?_,
      fun _ _ _ => sampleCodec_small⟩ (?_ : LogState.step _ _ (.append updateA (some 4)) = _)
    · decide +kernel
    · cases hev
    · decide +kernel
  have hcompacted : LogRun sampleCodec
      (sampleLog [.append updateA (some 4), .compactWith leavesA none]) := by
    refine hfailed.step ⟨fun _ _ hev => ?_, fun leaves fault hev n => ?_,
      fun _ _ _ => sampleCodec_small⟩ (?_ : LogState.step _ _ (.compactWith leavesA none) = _)
    · cases hev
    · cases hev
      have hmemory : (sampleLog [.append updateA (some 4)]).memory = [updateA] := by decide +kernel
      rw [hmemory]
      simp only [lastFor, leavesA, updateA, settled, settle, WalEntry.effect, foldl_cons, foldl_nil]
      split_ifs <;> rfl
    · decide +kernel
  have hrun : LogRun sampleCodec s := by
    refine hcompacted.step ⟨fun _ _ _ => Codec.clean_of_isClean ?_, fun _ _ hev => ?_,
      fun _ _ _ => sampleCodec_small⟩ (?_ : LogState.step _ _ (.append updateFeature none) = _)
    · decide +kernel
    · cases hev
    · decide +kernel
  exact ⟨hrun, by decide +kernel, by decide +kernel, opens_to_logged hrun⟩

end Ledge.RefStore
