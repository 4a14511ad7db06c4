import Ledge.Raft.LogStore
import Ledge.Wal.File

/-!
# Ledge.Raft.LogWal

The durable Raft log (`log_wal.rs`): every operation writes its records to a log file and then
changes the same state as the in-memory store does; opening replays the file.

Replay of the records is compared with the state in memory by one relation (`LogTracks`), which
also says what is left when the last record is missing. Values inside of records are encoded on
their own (`LogCodecs`).
-/

namespace Ledge.Raft

open Ledge.Wal Ledge.Lib List

/-! ### Records -/

/-- One durable record. -/
inductive WalRec
  | entry (index : Nat) (entryBytes : Bytes)
  | vote (voteBytes : Bytes)
  | committed (committedBytes : Bytes)
  | truncate (index : Nat)
  | purge (upToBytes : Bytes)
  | snapshot (entries : List (Nat × Bytes)) (voteBytes : Option Bytes)
      (committedBytes purgedBytes : Bytes)
  deriving DecidableEq

/-- `matches!(r, WalRec::Snapshot { .. })` -/
def WalRec.isSnapshot : WalRec → Bool
  | .snapshot .. => true
  | _ => false

/-- How records and the values in them are encoded. -/
structure LogCodecs where
  record : Codec WalRec
  entry : Blob Entry
  vote : Blob Vote
  logId : Blob LogId
  optLogId : Blob (Option LogId)

inductive StorageError
  | encode (why : String)
  | decode (why : String)
  | wal (e : WalError)
  deriving DecidableEq

/-- `blob` -/
def blob {T : Type} (B : Blob T) (v : T) : Except StorageError Bytes :=
  match B.encode v with
  | .ok bytes => .ok bytes
  | .error why => .error (.encode why)

/-- `unblob` -/
def unblob {T : Type} (B : Blob T) (bytes : Bytes) : Except StorageError T :=
  match B.decode bytes with
  | .ok (v, _) => .ok v
  | .error why => .error (.decode why)

/-- `match v { Some(v) => Some(blob(v)?), None => None }` -/
def blobOption {T : Type} (B : Blob T) : Option T → Except StorageError (Option Bytes)
  | some v => (blob B v).map some
  | none => .ok none

def unblobOption {T : Type} (B : Blob T) : Option Bytes → Except StorageError (Option T)
  | some bytes => (unblob B bytes).map some
  | none => .ok none

/-- Each of the values in turn. -/
def blobEntries (B : Blob Entry) :
    List (Nat × Entry) → Except StorageError (List (Nat × Bytes))
  | [] => .ok []
  | x :: l => do
    let bytes ← blob B x.2
    let rest ← blobEntries B l
    return (x.1, bytes) :: rest

/-! ### Replay -/

section Replay

variable (K : LogCodecs)

/-- The loop over the entries of a snapshot. -/
def insertAll (log : LogMap) : List (Nat × Bytes) → Except StorageError LogMap
  | [] => .ok log
  | x :: l => do
    let entry ← unblob K.entry x.2
    insertAll (log.insert x.1 entry) l

/-- The body of the replay loop of `open`. -/
def replayRec (s : LogStore) : WalRec → Except StorageError LogStore
  | .entry index entryBytes => do
    let entry ← unblob K.entry entryBytes
    return { s with log := s.log.insert index entry }
  | .vote voteBytes => do
    let vote ← unblob K.vote voteBytes
    return { s with vote := some vote }
  | .committed committedBytes => do
    let committed ← unblob K.optLogId committedBytes
    return { s with committed := committed }
  | .truncate index => .ok { s with log := s.log.below index }
  | .purge upToBytes => do
    let upTo ← unblob K.logId upToBytes
    return { s with lastPurged := some upTo, log := s.log.splitOff (upTo.index + 1) }
  | .snapshot entries voteBytes committedBytes purgedBytes => do
    let log ← insertAll K .empty entries
    let vote ← unblobOption K.vote voteBytes
    let committed ← unblob K.optLogId committedBytes
    let lastPurged ← unblob K.optLogId purgedBytes
    return ⟨log, lastPurged, vote, committed⟩

/-- The replay loop, from the last snapshot on. -/
def replayAll (records : List WalRec) : Except StorageError LogStore :=
  (fromLast WalRec.isSnapshot records).foldlM (replayRec K) .default

end Replay

/-! ### The store -/

/-- `WalInner`: the state in memory and the log file. -/
structure WalLogStore where
  inner : LogStore
  file : LogFile
  deriving DecidableEq

namespace WalLogStore

variable (K : LogCodecs)

/-- `open`; the directory is the file. -/
def openOn (disk : Bytes) : Except StorageError WalLogStore :=
  match K.record.openReplay disk with
  | .error e => .error (.wal e)
  | .ok (file, records) => (replayAll K records).map (fun s => ⟨s, file⟩)

/-- `write_frame` -/
def writeFrame (w : WalLogStore) (r : WalRec) : Except StorageError WalLogStore :=
  match K.record.appendRecord w.file none r with
  | (file, .ok ()) => .ok { w with file := file }
  | (_, .error e) => .error (.wal e)

/-- The body of the loop of `append`. -/
def appendOne (w : WalLogStore) (entry : Entry) : Except StorageError WalLogStore := do
  let entryBytes ← blob K.entry entry
  let w ← w.writeFrame K (.entry entry.logId.index entryBytes)
  return { w with inner.log := w.inner.log.insert entry.logId.index entry }

def append (w : WalLogStore) : List Entry → Except StorageError WalLogStore
  | [] => .ok w
  | entry :: entries => do
    let w ← w.appendOne K entry
    w.append entries

def saveVote (w : WalLogStore) (vote : Vote) : Except StorageError WalLogStore := do
  let voteBytes ← blob K.vote vote
  let w ← w.writeFrame K (.vote voteBytes)
  return { w with inner.vote := some vote }

def saveCommitted (w : WalLogStore) (committed : Option LogId) :
    Except StorageError WalLogStore := do
  let committedBytes ← blob K.optLogId committed
  let w ← w.writeFrame K (.committed committedBytes)
  return { w with inner.committed := committed }

def truncate (w : WalLogStore) (logId : LogId) : Except StorageError WalLogStore := do
  let w ← w.writeFrame K (.truncate logId.index)
  return { w with inner.log := w.inner.log.below logId.index }

def purge (w : WalLogStore) (logId : LogId) : Except StorageError WalLogStore := do
  let upToBytes ← blob K.logId logId
  let w ← w.writeFrame K (.purge upToBytes)
  return { w with
    inner.lastPurged := some logId, inner.log := w.inner.log.splitOff (logId.index + 1) }

/-- The snapshot of the state in memory. -/
def snapshotRec (s : LogStore) : Except StorageError WalRec := do
  let entries ← blobEntries K.entry s.log.entries
  let voteBytes ← blobOption K.vote s.vote
  let committedBytes ← blob K.optLogId s.committed
  let purgedBytes ← blob K.optLogId s.lastPurged
  return .snapshot entries voteBytes committedBytes purgedBytes

def rewriteSnapshot (w : WalLogStore) : Except StorageError WalLogStore := do
  let r ← snapshotRec K w.inner
  match K.record.writeCheckpoint w.file none r with
  | (file, .ok ()) => return { w with file := file }
  | (_, .error e) => .error (.wal e)

def step (w : WalLogStore) : LogOp → Except StorageError WalLogStore
  | .append entries => w.append K entries
  | .saveVote vote => w.saveVote K vote
  | .saveCommitted committed => w.saveCommitted K committed
  | .truncate logId => w.truncate K logId
  | .purge logId => w.purge K logId
  | .rewriteSnapshot => w.rewriteSnapshot K

/-- A new log. -/
def fresh : WalLogStore := ⟨.default, ⟨[], none⟩⟩

end WalLogStore

/-! ### Runs -/

section Runs

variable (K : LogCodecs)

def entryRecords : List Entry → Except StorageError (List WalRec)
  | [] => .ok []
  | entry :: entries => do
    let entryBytes ← blob K.entry entry
    let rest ← entryRecords entries
    return .entry entry.logId.index entryBytes :: rest

/-- The records that an operation writes in the state `s`. -/
def LogOp.records (s : LogStore) : LogOp → Except StorageError (List WalRec)
  | .append entries => entryRecords K entries
  | .saveVote vote => return [.vote (← blob K.vote vote)]
  | .saveCommitted committed => return [.committed (← blob K.optLogId committed)]
  | .truncate logId => return [.truncate logId.index]
  | .purge logId => return [.purge (← blob K.logId logId)]
  | .rewriteSnapshot => return [← WalLogStore.snapshotRec K s]

/-- The length of the payload fits into the header of a frame. -/
def Small (r : WalRec) : Prop :=
  ∀ payload, K.record.encode r = .ok payload → payload.length < 2 ^ 32

/-- `ops`, each of which returned `Ok`, lead from a new log to a store. -/
inductive WalRun : List LogOp → WalLogStore → Prop
  | start : WalRun [] .fresh
  | step {ops : List LogOp} {op : LogOp} {w w' : WalLogStore} (h : WalRun ops w)
      (hstep : w.step K op = .ok w')
      (hsmall : ∀ records, op.records K w.inner = .ok records → ∀ r ∈ records, Small K r) :
      WalRun (ops ++ [op]) w'

end Runs

/-- The operations, latest first, without what the last frame of the file stands for: an entry of
an append, all that a snapshot has replaced, or another operation. -/
def undoFrame : List LogOp → List LogOp
  | [] => []
  | .append entries :: ops =>
    if entries = [] then undoFrame ops else .append entries.dropLast :: ops
  | .rewriteSnapshot :: _ => []
  | .saveVote _ :: ops | .saveCommitted _ :: ops | .truncate _ :: ops | .purge _ :: ops => ops

/-- The operations without what the last frame of the file stands for. -/
def withoutLastFrame (ops : List LogOp) : List LogOp := (undoFrame ops.reverse).reverse

/-! ### Values and records read back -/

section ReadBack

variable {K : LogCodecs} {T : Type} {B : Blob T}

theorem ok_of_bind {ε α β : Type} {x : Except ε α} {f : α → Except ε β} {b : β}
    (h : (x >>= f) = .ok b) : ∃ a, x = .ok a ∧ f a = .ok b := by
  cases x with
  | error e => cases h
  | ok a => exact ⟨a, rfl, h⟩

theorem unblob_of_blob {v : T} {bytes : Bytes} (h : blob B v = .ok bytes) :
    unblob B bytes = .ok v := by
  unfold blob at h
  cases hencode : B.encode v with
  | error why =>
    rw [hencode] at h
    cases h
  | ok payload =>
    rw [hencode] at h
    obtain rfl := Except.ok.inj h
    obtain ⟨used, hdecode⟩ := B.inverse v payload hencode
    rw [unblob, hdecode]

theorem insertAll_of_blobEntries {l : List (Nat × Entry)} {blobs : List (Nat × Bytes)}
    (h : blobEntries K.entry l = .ok blobs) (log : LogMap) :
    insertAll K log blobs = .ok (l.foldl (fun log x => log.insert x.1 x.2) log) := by
  induction l generalizing blobs log with
  | nil =>
    cases h
    rfl
  | cons x l ih =>
    obtain ⟨bytes, hbytes, h⟩ := ok_of_bind h
    obtain ⟨rest, hrest, h⟩ := ok_of_bind h
    cases h
    rw [insertAll, unblob_of_blob hbytes]
    exact ih hrest _

theorem unblobOption_of_blobOption {v : Option T} {bytes : Option Bytes}
    (h : blobOption B v = .ok bytes) : unblobOption B bytes = .ok v := by
  cases v with
  | none =>
    cases h
    rfl
  | some v =>
    rw [blobOption] at h
    cases hblob : blob B v with
    | error e =>
      rw [hblob] at h
      cases h
    | ok b =>
      rw [hblob] at h
      cases h
      show (unblob B b).map some = _
      rw [unblob_of_blob hblob]
      rfl

variable {s : LogStore} {r : WalRec}

/-- **A snapshot replays to the state it was taken of**, whatever was there before. -/
theorem replayRec_snapshotRec (h : WalLogStore.snapshotRec K s = .ok r) (s' : LogStore) :
    r.isSnapshot = true ∧ replayRec K s' r = .ok s := by
  obtain ⟨blobs, hblobs, h⟩ := ok_of_bind h
  obtain ⟨voteBytes, hvote, h⟩ := ok_of_bind h
  obtain ⟨committedBytes, hcommitted, h⟩ := ok_of_bind h
  obtain ⟨purgedBytes, hpurged, h⟩ := ok_of_bind h
  cases h
  refine ⟨rfl, ?_⟩
  rw [replayRec, insertAll_of_blobEntries hblobs, LogMap.foldl_insert,
    unblobOption_of_blobOption hvote, unblob_of_blob hcommitted, unblob_of_blob hpurged]
  rfl

theorem replayAll_concat {records : List WalRec} {s' : LogStore}
    (hrecords : replayAll K records = .ok s) (hr : r.isSnapshot = false)
    (hreplay : replayRec K s r = .ok s') : replayAll K (records ++ [r]) = .ok s' := by
  rw [replayAll, fromLast_concat, hr, if_neg Bool.false_ne_true, foldlM_append]
  show (replayAll K records >>= _) = _
  rw [hrecords]
  show ([r].foldlM (replayRec K) s) = _
  rw [foldlM_cons, hreplay]
  rfl

theorem replayAll_snapshot (hr : r.isSnapshot = true) (hreplay : replayRec K .default r = .ok s) :
    replayAll K [r] = .ok s := by
  rw [replayAll, ← nil_append [r], fromLast_concat, hr, if_pos rfl, foldlM_cons, hreplay]
  rfl

end ReadBack

/-! ### The file tracks the state in memory -/

section LogTracks

variable {K : LogCodecs} {w w' : WalLogStore} {prev : LogStore} {r : WalRec}

/-- The file replays to the state in memory, and without its last frame to `prev`. -/
def LogTracks (K : LogCodecs) (w : WalLogStore) (prev : LogStore) : Prop :=
  ∃ records frames, List.Forall₂ K.record.IsFrame records frames ∧
    w.file = ⟨frames.flatten, none⟩ ∧ replayAll K records = .ok w.inner ∧
    replayAll K records.dropLast = .ok prev

theorem logTracks_fresh : LogTracks K .fresh .default := ⟨[], [], .nil, rfl, rfl, rfl⟩

/-- A record is written, and then the state in memory changes in the way that the record says. -/
theorem LogTracks.write (h : LogTracks K w prev) {w₁ : WalLogStore}
    (hwrite : w.writeFrame K r = .ok w₁) (hplain : r.isSnapshot = false) (hsmall : Small K r)
    (change : LogStore → LogStore) (hreplay : replayRec K w.inner r = .ok (change w.inner)) :
    change w₁.inner = change w.inner ∧ LogTracks K ⟨change w₁.inner, w₁.file⟩ w.inner := by
  unfold WalLogStore.writeFrame Codec.appendRecord at hwrite
  cases hframe : K.record.encodeFrame r with
  | error e =>
    rw [hframe] at hwrite
    cases hwrite
  | ok frame =>
    rw [hframe] at hwrite
    cases hwrite
    obtain ⟨records, frames, hframes, hfile, hrecords, -⟩ := h
    refine ⟨rfl, records ++ [r], frames ++ [frame],
      rel_append hframes (.cons (Codec.isFrame_of_small hframe hsmall) .nil), ?_,
      replayAll_concat hrecords hplain hreplay, ?_⟩
    · show w.file.write frame = _
      rw [hfile, flatten_append, flatten_singleton]
      rfl
    · rw [dropLast_concat, hrecords]

variable {entries : List Entry} {records : List WalRec}

theorem entryRecords_of_append (h : w.append K entries = .ok w') :
    ∃ records, entryRecords K entries = .ok records := by
  induction entries generalizing w with
  | nil => exact ⟨[], rfl⟩
  | cons entry entries ih =>
    obtain ⟨w₁, hone, hrest⟩ := ok_of_bind h
    obtain ⟨entryBytes, hblob, -⟩ := ok_of_bind hone
    obtain ⟨records, hrecords⟩ := ih hrest
    refine ⟨.entry entry.logId.index entryBytes :: records, ?_⟩
    rw [entryRecords, hblob]
    show (entryRecords K entries >>= _) = _
    rw [hrecords]
    rfl

/-- The state without what the last frame of `op` stands for; `prev` is that of the operations
before. -/
def LogOp.undone (s prev : LogStore) : LogOp → LogStore
  | .append entries => if entries = [] then prev else s.append entries.dropLast
  | .rewriteSnapshot => .default
  | .saveVote _ | .saveCommitted _ | .truncate _ | .purge _ => s

theorem LogTracks.append (h : LogTracks K w prev) (happend : w.append K entries = .ok w')
    (hrecords : entryRecords K entries = .ok records) (hsmall : ∀ r ∈ records, Small K r) :
    w'.inner = w.inner.append entries ∧
      LogTracks K w' (if entries = [] then prev else w.inner.append entries.dropLast) := by
  induction entries generalizing w prev records with
  | nil =>
    cases happend
    exact ⟨rfl, h⟩
  | cons entry entries ih =>
    obtain ⟨w₂, hone, hrest⟩ := ok_of_bind happend
    obtain ⟨entryBytes, hblob, hone⟩ := ok_of_bind hone
    obtain ⟨w₁, hwrite, hone⟩ := ok_of_bind hone
    cases hone
    obtain ⟨entryBytes', hblob', hrecords⟩ := ok_of_bind hrecords
    cases hblob.symm.trans hblob'
    obtain ⟨records', hrecords', hrecords⟩ := ok_of_bind hrecords
    cases hrecords
    have hreplay : replayRec K w.inner (.entry entry.logId.index entryBytes) =
        .ok (w.inner.append [entry]) := by
      rw [replayRec, unblob_of_blob hblob]
      rfl
    obtain ⟨hinner, htracks⟩ := h.write hwrite rfl (hsmall _ mem_cons_self)
      (fun s => s.append [entry]) hreplay
    obtain ⟨hinner', htracks'⟩ := ih htracks hrest hrecords'
      (fun r hr => hsmall r (mem_cons_of_mem _ hr))
    have hcons : ∀ l, LogStore.append (w₁.inner.append [entry]) l = w.inner.append (entry :: l) :=
      fun l => congrArg (fun s => LogStore.append s l) hinner
    refine ⟨hinner'.trans (hcons entries), ?_⟩
    cases entries with
    | nil => exact htracks'
    | cons next entries =>
      rw [dropLast_cons_cons, ← hcons]
      exact htracks'

theorem LogTracks.rewriteSnapshot (hrewrite : w.rewriteSnapshot K = .ok w')
    (hrecord : WalLogStore.snapshotRec K w.inner = .ok r) (hsmall : Small K r) :
    w'.inner = w.inner ∧ LogTracks K w' .default := by
  rw [WalLogStore.rewriteSnapshot, hrecord] at hrewrite
  have hrewrite' : (match K.record.writeCheckpoint w.file none r with
      | (file, .ok ()) => Except.ok { w with file := file }
      | (_, .error e) => .error (StorageError.wal e)) = .ok w' := hrewrite
  cases hframe : K.record.encodeFrame r with
  | error e =>
    rw [Codec.writeCheckpoint, hframe] at hrewrite'
    cases hrewrite'
  | ok frame =>
    rw [Codec.writeCheckpoint, hframe] at hrewrite'
    cases hrewrite'
    obtain ⟨hsnapshot, hreplay⟩ := replayRec_snapshotRec hrecord .default
    refine ⟨rfl, [r], [frame], .cons (Codec.isFrame_of_small hframe hsmall) .nil, ?_,
      replayAll_snapshot hsnapshot hreplay, rfl⟩
    rw [flatten_singleton]

/-- **One operation** changes the state in memory like that of the in-memory store, and the file
keeps tracking it. -/
theorem LogTracks.step {op : LogOp} (h : LogTracks K w prev) (hstep : w.step K op = .ok w')
    (hsmall : ∀ records, op.records K w.inner = .ok records → ∀ r ∈ records, Small K r) :
    w'.inner = w.inner.step op ∧ LogTracks K w' (op.undone w.inner prev) := by
  cases op with
  | append entries =>
    obtain ⟨records, hrecords⟩ := entryRecords_of_append hstep
    exact h.append hstep hrecords (hsmall records hrecords)
  | saveVote vote =>
    obtain ⟨voteBytes, hblob, hstep⟩ := ok_of_bind hstep
    obtain ⟨w₁, hwrite, hstep⟩ := ok_of_bind hstep
    cases hstep
    refine h.write hwrite rfl (hsmall _ ?_ _ (mem_singleton_self _))
      (fun s => s.saveVote vote) ?_
    · rw [LogOp.records, hblob]
      rfl
    · rw [replayRec, unblob_of_blob hblob]
      rfl
  | saveCommitted committed =>
    obtain ⟨committedBytes, hblob, hstep⟩ := ok_of_bind hstep
    obtain ⟨w₁, hwrite, hstep⟩ := ok_of_bind hstep
    cases hstep
    refine h.write hwrite rfl (hsmall _ ?_ _ (mem_singleton_self _))
      (fun s => s.saveCommitted committed) ?_
    · rw [LogOp.records, hblob]
      rfl
    · rw [replayRec, unblob_of_blob hblob]
      rfl
  | truncate logId =>
    obtain ⟨w₁, hwrite, hstep⟩ := ok_of_bind hstep
    cases hstep
    exact h.write hwrite rfl (hsmall _ rfl _ (mem_singleton_self _))
      (fun s => s.truncate logId) rfl
  | purge logId =>
    obtain ⟨upToBytes, hblob, hstep⟩ := ok_of_bind hstep
    obtain ⟨w₁, hwrite, hstep⟩ := ok_of_bind hstep
    cases hstep
    refine h.write hwrite rfl (hsmall _ ?_ _ (mem_singleton_self _))
      (fun s => s.purge logId) ?_
    · rw [LogOp.records, hblob]
      rfl
    · rw [replayRec, unblob_of_blob hblob]
      rfl
  | rewriteSnapshot =>
    obtain ⟨r, hrecord, -⟩ := ok_of_bind hstep
    refine LogTracks.rewriteSnapshot hstep hrecord (hsmall _ ?_ _ (mem_singleton_self _))
    rw [LogOp.records, hrecord]
    rfl

theorem run_withoutLastFrame (ops : List LogOp) (op : LogOp) :
    LogStore.run (withoutLastFrame (ops ++ [op])) =
      op.undone (LogStore.run ops) (LogStore.run (withoutLastFrame ops)) := by
  rw [withoutLastFrame, reverse_concat]
  cases op with
  | append entries =>
    rw [undoFrame, LogOp.undone]
    split_ifs
    · rfl
    · rw [reverse_cons, reverse_reverse, LogStore.run_concat]
      rfl
  | saveVote vote | saveCommitted committed | truncate logId | purge logId =>
    rw [undoFrame, reverse_reverse, LogOp.undone]
  | rewriteSnapshot => rfl

/-- **A whole run.** -/
theorem WalRun.tracks {ops : List LogOp} (h : WalRun K ops w) :
    w.inner = LogStore.run ops ∧ LogTracks K w (LogStore.run (withoutLastFrame ops)) := by
  induction h with
  | start => exact ⟨rfl, logTracks_fresh⟩
  | step _ hstep hsmall ih =>
    obtain ⟨hinner, htracks⟩ := ih
    obtain ⟨hinner', htracks'⟩ := htracks.step hstep hsmall
    rw [LogStore.run_concat, run_withoutLastFrame, ← hinner]
    exact ⟨hinner', htracks'⟩

theorem openOn_torn {frames : List Bytes} {tail : Bytes} {s : LogStore}
    (h : List.Forall₂ K.record.IsFrame records frames) (htorn : K.record.Torn tail)
    (hreplay : replayAll K records = .ok s) :
    WalLogStore.openOn K (frames.flatten ++ tail) = .ok ⟨s, ⟨frames.flatten, none⟩⟩ := by
  rw [WalLogStore.openOn, Codec.openReplay_torn h htorn]
  show (replayAll K records).map _ = _
  rw [hreplay]
  rfl

/-- **The durable log refines the in-memory one.** Reopening it gives the store that was closed,
with the state of the in-memory store. If the file is cut inside its last frame, what that frame
stands for is missing, and nothing else. -/
theorem wal_log_refines {ops : List LogOp} (h : WalRun K ops w) :
    (WalLogStore.openOn K w.file.disk = .ok w ∧ w.inner = LogStore.run ops) ∧
    ∀ whole last r n, w.file.disk = whole ++ last → K.record.Whole whole →
      K.record.IsFrame r last → n < last.length →
      ∃ w', WalLogStore.openOn K (whole ++ last.take n) = .ok w' ∧
        w'.inner = LogStore.run (withoutLastFrame ops) := by
  obtain ⟨hinner, records, frames, hframes, hfile, hreplay, hprev⟩ := h.tracks
  refine ⟨⟨?_, hinner⟩, fun whole last r n hdisk hwhole hlast hn => ?_⟩
  · have hopen := openOn_torn hframes (Or.inl rfl) hreplay
    rw [append_nil] at hopen
    rw [hfile, hopen, ← hfile]
  · rw [hfile] at hdisk
    obtain ⟨records', frames', hframes', rfl, rfl⟩ :=
      Codec.eq_concat_of_whole hframes hdisk hwhole hlast
    rw [dropLast_concat] at hprev
    exact ⟨_, openOn_torn hframes' (Or.inr ⟨r, last, n, hlast, hn, rfl⟩) hprev, rfl⟩

end LogTracks

/-! ### Cuts that are not the end of an operation -/

/-- Entries without a request. -/
def blankEntry (index : Nat) : Entry := ⟨⟨1, index⟩, .blank⟩

/-- The records of two entries, and the snapshot of the first. -/
def sampleRecords : Codec WalRec :=
  tableCodec
    [(.entry 1 [1], [0, 1, 1, 1]), (.entry 2 [2], [0, 2, 1, 2]),
      (.snapshot [(1, [1])] none [0] [0], [5, 1, 1, 1, 1, 0, 1, 0, 1, 0])]
    (by decide)

def sampleLog : LogCodecs where
  record := sampleRecords
  entry := (tableCodec [(blankEntry 1, [1]), (blankEntry 2, [2])] (by decide)).toBlob
  vote := (tableCodec [(⟨1, 1, true⟩, [1, 1, 1])] (by decide)).toBlob
  logId := (tableCodec [(⟨1, 1⟩, [1, 1])] (by decide)).toBlob
  optLogId := (tableCodec [(none, [0]), (some ⟨1, 1⟩, [1, 1, 1])] (by decide)).toBlob

/-- The state that is found if the file has lost its last byte after some operations. -/
def reopenCut (ops : List LogOp) : Option LogStore :=
  (ops.foldlM (WalLogStore.step sampleLog) .fresh).toOption.bind (fun w =>
    (WalLogStore.openOn sampleLog w.file.disk.dropLast).toOption.map WalLogStore.inner)

/-- An append of two entries that has lost its last frame has still appended the first, and a
rewrite that has lost its only frame has lost the log. -/
theorem cut_is_not_undo :
    reopenCut [.append [blankEntry 1, blankEntry 2]] =
        some (LogStore.run [.append [blankEntry 1]]) ∧
      reopenCut [.append [blankEntry 1], .rewriteSnapshot] = some .default ∧
      LogStore.run [.append [blankEntry 1]] ≠ .default := by
  decide +kernel

theorem sampleLog_small (r : WalRec) : Small sampleLog r := by
  intro payload hencode
  have hencode' : sampleRecords.encode r = .ok payload := hencode
  have hmem := mem_of_encode_tableCodec hencode'
  have hall : ∀ p ∈ [[0, 1, 1, 1], [0, 2, 1, 2], [5, 1, 1, 1, 1, 0, 1, 0, 1, (0 : UInt8)]],
      p.length < 2 ^ 32 := by
    decide
  exact hall payload hmem

/-- The frames of two entries, of which the second is cut in its checksum. -/
theorem wal_log_refines_cut :
    let whole := [4, 0, 0, 0, 252, 180, 154, 78, 0, 1, 1, 1]
    let last := [4, 0, 0, 0, 31, 91, 213, 213, 0, 2, 1, 2]
    let w : WalLogStore := ⟨LogStore.run [.append [blankEntry 1, blankEntry 2]],
      ⟨whole ++ last, none⟩⟩
    WalRun sampleLog [.append [blankEntry 1, blankEntry 2]] w ∧
      sampleLog.record.Whole whole ∧ sampleLog.record.IsFrame (.entry 2 [2]) last ∧
      WalLogStore.openOn sampleLog w.file.disk = .ok w ∧
      ∃ w', WalLogStore.openOn sampleLog (whole ++ last.take 5) = .ok w' ∧
        w'.inner = LogStore.run [.append [blankEntry 1]] := by
  intro whole last w
  have hrun : WalRun sampleLog [.append [blankEntry 1, blankEntry 2]] w :=
    WalRun.start.step (by decide +kernel) (fun _ _ r _ => sampleLog_small r)
  have hwhole : sampleLog.record.Whole whole := ⟨[.entry 1 [1]], by decide +kernel⟩
  have hlast : sampleLog.record.IsFrame (.entry 2 [2]) last := ⟨by decide +kernel, by decide⟩
  obtain ⟨⟨hopen, -⟩, hcut⟩ := wal_log_refines hrun
  exact ⟨hrun, hwhole, hlast, hopen, hcut whole last _ 5 rfl hwhole hlast (by decide)⟩

end Ledge.Raft
