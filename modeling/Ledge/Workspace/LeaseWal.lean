import Ledge.Core.RefEntry
import Ledge.Wal.File
import Ledge.Workspace.Lease
import Mathlib.Logic.Function.Basic

/-!
# Ledge.Workspace.LeaseWal

The lease store on its log file, under **concurrent callers**. `put`, `tombstone` and `compact`
hold the lock of the file over both the write of their frame and the change of the index, so
between calls the file replays to the index.

A put or a tombstone that is cut off at the end of the file is undone. A compaction leaves one
frame only, and cutting that one off leaves nothing.
-/

namespace Ledge.Workspace

open Ledge.Core Ledge.Wal Function List

/-- `map_wal` -/
def mapWal : WalError → LedgeError
  | .io => .io
  | .encode s => .corruption ("lease WAL: " ++ s)
  | .corruption s =>
    .corruption ("lease WAL: " ++ s ++ ". Refusing to truncate — restore from a backup.")

/-- `index.values()`, in some order -/
structure LeaseIndex.Lists (idx : LeaseIndex) (leases : List Lease) : Prop where
  nodup : leases.Nodup
  mem : ∀ l, l ∈ leases ↔ idx.lookup l.id = some l

theorem replayLease_checkpoint {idx : LeaseIndex} {leases : List Lease} (h : idx.Lists leases)
    (idx' : LeaseIndex) : replayLease idx' (.checkpoint leases) = idx := by
  refine LeaseIndex.ext_lookup fun id => ?_
  have hlast := lastLease_of_mem_iff (p := fun _ => True)
    (fun l => by rw [h.mem, and_true]) id
  rw [lookup_replayLease, LeaseWalEntry.effect, hlast]
  cases idx.lookup id <;> rfl

/-- The calls that write. -/
inductive LeaseCall
  | put (lease : Lease)
  | tombstone (id : WorkspaceId) (hlc : Nat)
  | compact
  deriving DecidableEq

namespace LeaseCall

/-- The frame that is appended. -/
def record : LeaseCall → Option LeaseWalEntry
  | .put lease => some (.put lease)
  | .tombstone id hlc => some (.tombstone id hlc)
  | .compact => none

/-- What the call does to the index. -/
def apply (idx : LeaseIndex) : LeaseCall → LeaseIndex
  | .put lease => idx.insert lease
  | .tombstone id _ => idx.remove id
  | .compact => idx

theorem replayLease_record {c : LeaseCall} {r : LeaseWalEntry} (h : c.record = some r)
    (idx : LeaseIndex) : replayLease idx r = c.apply idx := by
  cases c with
  | put lease | tombstone id hlc =>
    cases h
    rfl
  | compact => cases h

end LeaseCall

/-- Where a call is. -/
inductive LeasePc
  | waiting
  /-- It has the lock of the file. -/
  | locked
  /-- Its frame is in the file, and the index is still to be changed. -/
  | appended
  /-- A compaction has copied the index. -/
  | listed (leases : List Lease)
  | returned (result : Except LedgeError Unit)

/-- It has the lock. -/
def LeasePc.inside : LeasePc → Bool
  | .waiting | .returned _ => false
  | .locked | .appended | .listed _ => true

/-- The file, the index, the lock, the calls, and the index as it was when the last frame of the
file was written; no call looks at that one. -/
structure LeaseState (I : Type) where
  file : LogFile
  index : LeaseIndex
  holder : Option I
  pc : I → LeasePc
  before : LeaseIndex

section

variable {I : Type} [DecidableEq I] (C : Codec LeaseWalEntry) (calls : I → LeaseCall)

/-- `open`; the directory is the file. -/
def openLeases (disk : Bytes) : Except LedgeError (LogFile × LeaseIndex) :=
  match C.openReplay disk with
  | .error e => .error (mapWal e)
  | .ok (file, records) => .ok (file, records.foldl replayLease .empty)

namespace LeaseState

/-- A store in a new directory. -/
def fresh : LeaseState I := ⟨⟨[], none⟩, .empty, none, fun _ => .waiting, .empty⟩

/-- The call `i` returns and gives the lock back. -/
def finish (s : LeaseState I) (i : I) (result : Except LedgeError Unit) : LeaseState I :=
  { s with holder := none, pc := Function.update s.pc i (.returned result) }

/-- The next step of the call `i`, without a failure of the operating system. `order` is the order
in which the index is copied. -/
def step (s : LeaseState I) (i : I) (order : List Lease) : LeaseState I :=
  match s.pc i with
  | .waiting =>
    match s.holder with
    | some _ => s
    | none => { s with holder := some i, pc := Function.update s.pc i .locked }
  | .locked =>
    match (calls i).record with
    | none => { s with pc := Function.update s.pc i (.listed order) }
    | some r =>
      match C.appendRecord s.file none r with
      | (file, .ok ()) =>
        { s with file := file, before := s.index, pc := Function.update s.pc i .appended }
      | (file, .error e) => finish { s with file := file } i (.error (mapWal e))
  | .appended => finish { s with index := (calls i).apply s.index } i (.ok ())
  | .listed leases =>
    match C.writeCheckpoint s.file none (.checkpoint leases) with
    | (file, .ok ()) => finish { s with file := file, before := s.index } i (.ok ())
    | (file, .error e) => finish { s with file := file } i (.error (mapWal e))
  | .returned _ => s

/-- The frame that the next step of the call `i` writes. -/
def writes (s : LeaseState I) (i : I) : Option LeaseWalEntry :=
  match s.pc i with
  | .locked => (calls i).record
  | .listed leases => some (.checkpoint leases)
  | .waiting | .appended | .returned _ => none

/-- The index as the holder of the lock will leave it, once its frame is in the file. -/
def ahead (s : LeaseState I) : LeaseIndex :=
  match s.holder with
  | none => s.index
  | some i =>
    match s.pc i with
    | .appended => (calls i).apply s.index
    | _ => s.index

end LeaseState

/-- The states that the calls lead to from a new directory, in any interleaving. -/
inductive LeaseRun : LeaseState I → Prop
  | start : LeaseRun .fresh
  | step {s : LeaseState I} (h : LeaseRun s) (i : I) (order : List Lease)
      (hlists : s.index.Lists order) (hsmall : ∀ r, s.writes calls i = some r → C.Small r) :
      LeaseRun (s.step C calls i order)

/-- The index that is left when the last frame is cut off: a checkpoint has replaced all frames
before it. -/
def LeaseWalEntry.undone (before : LeaseIndex) : LeaseWalEntry → LeaseIndex
  | .checkpoint _ => .empty
  | .put _ | .tombstone _ _ => before

theorem LeaseCall.undone_record {c : LeaseCall} {r : LeaseWalEntry} (h : c.record = some r)
    (before : LeaseIndex) : r.undone before = before := by
  cases c with
  | put lease | tombstone id hlc =>
    cases h
    rfl
  | compact => cases h

/-! ### The file tracks the index -/

/-- The frames of a file replay to `now`, and without the last one to what it has undone. -/
def FileTracks (file : LogFile) (now before : LeaseIndex) : Prop :=
  ∃ records frames, List.Forall₂ C.IsFrame records frames ∧ file = ⟨frames.flatten, none⟩ ∧
    records.foldl replayLease .empty = now ∧
    ∀ records' r, records = records' ++ [r] → records'.foldl replayLease .empty = r.undone before

/-- What holds of the lock, the copies of the index and the file in every state of a run. -/
structure LeaseTracks (s : LeaseState I) : Prop where
  held : ∀ i, (s.pc i).inside = true → s.holder = some i
  listed : ∀ i leases, s.pc i = .listed leases → s.index.Lists leases
  file : FileTracks C s.file (s.ahead calls) s.before

variable {C calls} {s : LeaseState I} {i : I} {r : LeaseWalEntry} {file file' : LogFile}
  {now before : LeaseIndex}

theorem FileTracks.append (h : FileTracks C file now before) (hsmall : C.Small r)
    (hplain : ∀ before', r.undone before' = before')
    (hwrite : C.appendRecord file none r = (file', .ok ())) :
    FileTracks C file' (replayLease now r) now := by
  unfold Codec.appendRecord at hwrite
  cases hframe : C.encodeFrame r with
  | error e =>
    rw [hframe] at hwrite
    cases hwrite
  | ok frame =>
    rw [hframe] at hwrite
    cases hwrite
    obtain ⟨records, frames, hframes, rfl, hnow, -⟩ := h
    refine ⟨records ++ [r], frames ++ [frame],
      rel_append hframes (.cons (Codec.isFrame_of_small hframe hsmall) .nil), ?_, ?_, ?_⟩
    · rw [flatten_append, flatten_singleton]
      rfl
    · rw [foldl_concat, hnow]
    · intro records' r' heq
      obtain ⟨rfl, hlast⟩ := append_inj' heq rfl
      obtain rfl : r = r' := by simpa using hlast
      rw [hnow, hplain]

theorem FileTracks.checkpoint {leases : List Lease} (hlists : now.Lists leases)
    (hsmall : C.Small (.checkpoint leases)) (before : LeaseIndex)
    (hwrite : C.writeCheckpoint file none (.checkpoint leases) = (file', .ok ())) :
    FileTracks C file' now before := by
  unfold Codec.writeCheckpoint at hwrite
  cases hframe : C.encodeFrame (.checkpoint leases) with
  | error e =>
    rw [hframe] at hwrite
    cases hwrite
  | ok frame =>
    rw [hframe] at hwrite
    cases hwrite
    refine ⟨[.checkpoint leases], [frame],
      .cons (Codec.isFrame_of_small hframe hsmall) .nil, ?_, ?_, ?_⟩
    · rw [flatten_singleton]
    · exact replayLease_checkpoint hlists .empty
    · intro records' r' heq
      obtain ⟨rfl, hlast⟩ := append_inj' (show [] ++ [_] = records' ++ [r'] from heq) rfl
      obtain rfl : .checkpoint leases = r' := by simpa using hlast
      rfl

theorem file_of_appendRecord_error {e : WalError}
    (hwrite : C.appendRecord file none r = (file', .error e)) : file' = file := by
  unfold Codec.appendRecord at hwrite
  cases hframe : C.encodeFrame r with
  | error e' =>
    rw [hframe] at hwrite
    exact (Prod.mk.inj hwrite).1.symm
  | ok frame =>
    rw [hframe] at hwrite
    cases (Prod.mk.inj hwrite).2

theorem file_of_writeCheckpoint_error {e : WalError}
    (hwrite : C.writeCheckpoint file none r = (file', .error e)) : file' = file := by
  unfold Codec.writeCheckpoint at hwrite
  cases hframe : C.encodeFrame r with
  | error e' =>
    rw [hframe] at hwrite
    exact (Prod.mk.inj hwrite).1.symm
  | ok frame =>
    rw [hframe] at hwrite
    cases (Prod.mk.inj hwrite).2

/-! ### Steps -/

omit [DecidableEq I] in
theorem LeaseState.ahead_of_holder (hholder : s.holder = some i) (hpc : s.pc i ≠ .appended) :
    s.ahead calls = s.index := by
  unfold LeaseState.ahead
  rw [hholder]
  dsimp only
  split
  · rename_i happended
    exact absurd happended hpc
  · rfl

omit [DecidableEq I] in
theorem leaseTracks_fresh : LeaseTracks C calls (.fresh : LeaseState I) where
  held := nofun
  listed := nofun
  file := ⟨[], [], .nil, rfl, rfl, fun records' r heq => by simp at heq⟩

theorem LeaseTracks.goto {s' : LeaseState I} {pc : LeasePc} (h : LeaseTracks C calls s)
    (hindex : s'.index = s.index) (hholder : s'.holder = some i)
    (hfree : s.holder = none ∨ s.holder = some i) (hpc : s'.pc = Function.update s.pc i pc)
    (hlisted : ∀ leases, pc = .listed leases → s.index.Lists leases)
    (hfile : FileTracks C s'.file (s'.ahead calls) s'.before) : LeaseTracks C calls s' := by
  refine ⟨fun j hj => ?_, fun j leases hj => ?_, hfile⟩
  · by_cases hji : j = i
    · rw [hji, hholder]
    · rw [hpc, update_of_ne hji] at hj
      rcases hfree with hnone | hsome
      · exact absurd (hnone.symm.trans (h.held j hj)) (by simp)
      · exact absurd (Option.some.inj (hsome.symm.trans (h.held j hj))) (Ne.symm hji)
  · rw [hindex]
    by_cases hji : j = i
    · rw [hpc, hji, update_self] at hj
      exact hlisted leases hj
    · rw [hpc, update_of_ne hji] at hj
      exact h.listed j leases hj

theorem LeaseTracks.finish {s' : LeaseState I} {result : Except LedgeError Unit}
    (h : LeaseTracks C calls s) (hholder : s.holder = some i) (hpc : s'.pc = s.pc)
    (hfile : FileTracks C s'.file s'.index s'.before) :
    LeaseTracks C calls (s'.finish i result) := by
  have hidle : ∀ j, (((s'.finish i result).pc j).inside) = false := by
    intro j
    show ((Function.update s'.pc i (.returned result)) j).inside = false
    by_cases hji : j = i
    · rw [hji, update_self]
      rfl
    · rw [update_of_ne hji, hpc]
      by_contra hinside
      have hj := h.held j (by simpa using hinside)
      exact hji (Option.some.inj (hj.symm.trans hholder))
  refine ⟨fun j hj => ?_, fun j leases hj => ?_, hfile⟩
  · rw [hidle] at hj
    cases hj
  · have hinside := hidle j
    rw [hj] at hinside
    cases hinside

/-- **One step.** -/
theorem LeaseTracks.step {order : List Lease} (h : LeaseTracks C calls s)
    (hlists : s.index.Lists order) (hsmall : ∀ r, s.writes calls i = some r → C.Small r) :
    LeaseTracks C calls (s.step C calls i order) := by
  have hheld := h.held i
  unfold LeaseState.writes at hsmall
  unfold LeaseState.step
  cases hpc : s.pc i with
  | waiting =>
    cases hholder : s.holder with
    | some j => exact h
    | none =>
      refine h.goto rfl rfl (Or.inl hholder) rfl (by simp) ?_
      have hfile := h.file
      unfold LeaseState.ahead at hfile ⊢
      rw [hholder] at hfile
      simpa using hfile
  | locked =>
    rw [hpc] at hheld hsmall
    have hholder := hheld rfl
    have hfile := h.file
    rw [s.ahead_of_holder hholder (by simp [hpc])] at hfile
    cases hrecord : (calls i).record with
    | none =>
      dsimp only
      refine h.goto rfl hholder (Or.inr hholder) rfl (fun leases heq => ?_) ?_
      · cases heq
        exact hlists
      · unfold LeaseState.ahead
        simpa [hholder] using hfile
    | some r =>
      dsimp only
      split
      · rename_i file hwrite
        refine h.goto rfl hholder (Or.inr hholder) rfl (by simp) ?_
        have happend := hfile.append (hsmall r hrecord) (LeaseCall.undone_record hrecord) hwrite
        rw [LeaseCall.replayLease_record hrecord] at happend
        unfold LeaseState.ahead
        simpa [hholder] using happend
      · rename_i file e hwrite
        obtain rfl := file_of_appendRecord_error hwrite
        exact h.finish hholder rfl hfile
  | appended =>
    rw [hpc] at hheld
    have hholder := hheld rfl
    refine h.finish hholder rfl ?_
    have hfile := h.file
    unfold LeaseState.ahead at hfile
    rw [hholder] at hfile
    simpa [hpc] using hfile
  | listed leases =>
    rw [hpc] at hheld hsmall
    have hholder := hheld rfl
    have hfile := h.file
    rw [s.ahead_of_holder hholder (by simp [hpc])] at hfile
    dsimp only
    split
    · rename_i file hwrite
      exact h.finish hholder rfl
        (FileTracks.checkpoint (h.listed i leases hpc) (hsmall _ rfl) _ hwrite)
    · rename_i file e hwrite
      obtain rfl := file_of_writeCheckpoint_error hwrite
      exact h.finish hholder rfl hfile
  | returned result => exact h

/-- **A whole run.** -/
theorem LeaseRun.tracks (h : LeaseRun C calls s) : LeaseTracks C calls s := by
  induction h with
  | start => exact leaseTracks_fresh
  | step _ i order hlists hsmall ih => exact ih.step hlists hsmall

theorem openLeases_torn {records : List LeaseWalEntry} {frames : List Bytes} {tail : Bytes}
    (h : List.Forall₂ C.IsFrame records frames) (htorn : C.Torn tail) :
    openLeases C (frames.flatten ++ tail) =
      .ok (⟨frames.flatten, none⟩, records.foldl replayLease .empty) := by
  rw [openLeases, Codec.openReplay_torn h htorn]

/-- **Leases persist.** Whenever no call has the lock, the file opens to the index in memory. If it
is cut inside its last frame, it opens to the index as it was before that frame was written, unless
the frame is a checkpoint: then no lease is left. -/
theorem lease_store_reopens (h : LeaseRun C calls s) (hfree : s.holder = none) :
    openLeases C s.file.disk = .ok (s.file, s.index) ∧
    ∀ whole last r n, s.file.disk = whole ++ last → C.Whole whole → C.IsFrame r last →
      n < last.length → ∃ file, openLeases C (whole ++ last.take n) =
        .ok (file, r.undone s.before) := by
  obtain ⟨records, frames, hframes, hfile, hnow, hundone⟩ := h.tracks.file
  have hindex : s.ahead calls = s.index := by
    unfold LeaseState.ahead
    rw [hfree]
  rw [hindex] at hnow
  refine ⟨?_, fun whole last r n hdisk hwhole hlast hn => ?_⟩
  · have hopen := openLeases_torn hframes (Or.inl rfl)
    rw [append_nil, hnow] at hopen
    rw [hfile, hopen]
  · rw [hfile] at hdisk
    obtain ⟨records', frames', hframes', hrecords, rfl⟩ :=
      Codec.eq_concat_of_whole hframes hdisk hwhole hlast
    have hopen := openLeases_torn hframes' (Or.inr ⟨r, last, n, hlast, hn, rfl⟩)
    rw [hundone records' r hrecords] at hopen
    exact ⟨_, hopen⟩

end

/-! ### A checkpoint that is cut -/

def sampleLease : Lease := ⟨.fill 1, ["refs/heads/main"], 0, 1000, 1, 1, "root"⟩

def sampleEntries : Codec LeaseWalEntry :=
  tableCodec [(.put sampleLease, [0, 1]), (.checkpoint [sampleLease], [2, 1, 1])] (by decide)

theorem sampleEntries_small (r : LeaseWalEntry) : sampleEntries.Small r := by
  intro payload hencode
  have hall : ∀ p ∈ [[0, 1], [2, 1, (1 : UInt8)]], p.length < 2 ^ 32 := by decide
  exact hall payload (mem_of_encode_tableCodec hencode)

/-- A call that puts a lease, and one that compacts the log. -/
def putThenCompact : Bool → LeaseCall := fun i => if i then .compact else .put sampleLease

/-- The three steps of a call. -/
def LeaseState.runCall (s : LeaseState Bool) (i : Bool) (order : List Lease) : LeaseState Bool :=
  ((s.step sampleEntries putThenCompact i order).step sampleEntries putThenCompact i order).step
    sampleEntries putThenCompact i order

theorem lists_empty : LeaseIndex.empty.Lists [] := ⟨.nil, fun l => by simp⟩

theorem lists_sampleLease : (LeaseIndex.empty.insert sampleLease).Lists [sampleLease] := by
  refine ⟨nodup_singleton _, fun l => ?_⟩
  rw [LeaseIndex.lookup_insert, LeaseIndex.lookup_empty, mem_singleton]
  constructor
  · intro hl
    rw [hl, if_pos rfl]
  · intro hl
    split_ifs at hl
    exact (Option.some.inj hl).symm

theorem leaseRun_put :
    LeaseRun sampleEntries putThenCompact (LeaseState.fresh.runCall false []) := by
  have hsmall := fun (s : LeaseState Bool) (i : Bool) (r : LeaseWalEntry)
    (_ : s.writes putThenCompact i = some r) => sampleEntries_small r
  exact ((LeaseRun.start.step false [] lists_empty (hsmall _ _)).step false [] lists_empty
    (hsmall _ _)).step false [] lists_empty (hsmall _ _)

theorem leaseRun_compact :
    LeaseRun sampleEntries putThenCompact
      ((LeaseState.fresh.runCall false []).runCall true [sampleLease]) := by
  have hsmall := fun (s : LeaseState Bool) (i : Bool) (r : LeaseWalEntry)
    (_ : s.writes putThenCompact i = some r) => sampleEntries_small r
  exact ((leaseRun_put.step true _ lists_sampleLease (hsmall _ _)).step true _ lists_sampleLease
    (hsmall _ _)).step true _ lists_sampleLease (hsmall _ _)

/-- A log of one put that is compacted and then loses its last byte has lost the lease, which was
there before the compaction. -/
theorem cut_checkpoint_forgets :
    let s := (LeaseState.fresh.runCall false []).runCall true [sampleLease]
    LeaseRun sampleEntries putThenCompact s ∧ s.holder = none ∧
      s.before.lookup (.fill 1) = some sampleLease ∧ s.index.lookup (.fill 1) = some sampleLease ∧
      (openLeases sampleEntries s.file.disk.dropLast).toOption.map (fun x => x.2.lookup (.fill 1)) =
        some none := by
  refine ⟨leaseRun_compact, ?_, ?_, ?_, ?_⟩ <;> decide +kernel

/-- The put that is cut in its payload. -/
theorem lease_store_reopens_put :
    let s := LeaseState.fresh.runCall false []
    LeaseRun sampleEntries putThenCompact s ∧ s.holder = none ∧
      openLeases sampleEntries s.file.disk = .ok (s.file, s.index) ∧
      ∃ file, openLeases sampleEntries (s.file.disk.take 9) = .ok (file, s.before) := by
  intro s
  have hfree : s.holder = none := by decide +kernel
  obtain ⟨hopen, hcut⟩ := lease_store_reopens leaseRun_put hfree
  refine ⟨leaseRun_put, hfree, hopen, ?_⟩
  exact hcut [] s.file.disk (.put sampleLease) 9 rfl ⟨[], by decide +kernel⟩
    ⟨by decide +kernel, by decide +kernel⟩ (by decide +kernel)

end Ledge.Workspace
