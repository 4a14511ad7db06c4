import Ledge.Wal.Frame

/-!
# Ledge.Wal.File

Log files (crate `ledge-wal`): opening, appending and replacing, with the **failures** that the
operating system can report in the middle of them.

An append that fails may leave the first bytes of its frame in the file. A replacement that
fails after its rename has put the new file at the path, and leaves the store with the handle of
the old one, which has no name any more.
-/

namespace Ledge.Wal

open List

/-- The file at the path, and the file behind the handle of the store if that is another one. -/
structure LogFile where
  disk : Bytes
  unlinked : Option Bytes
  deriving DecidableEq

/-- `write_all` at the end of the file behind the handle. -/
def LogFile.write (w : LogFile) (bytes : Bytes) : LogFile :=
  match w.unlinked with
  | none => { w with disk := w.disk ++ bytes }
  | some old => { w with unlinked := some (old ++ bytes) }

/-- The step at which `crash_atomic_replace` fails. -/
inductive ReplaceFault
  /-- writing or syncing the temporary file -/
  | temp
  | rename
  /-- opening the new file, or seeking to its end -/
  | reopen
  deriving DecidableEq

namespace Codec

variable {T : Type} (C : Codec T)

/-- `append_record`; with `fault = some n` the write fails after `n` bytes. -/
def appendRecord (w : LogFile) (fault : Option Nat) (r : T) : LogFile × Except WalError Unit :=
  match C.encodeFrame r with
  | .error e => (w, .error e)
  | .ok frame =>
    match fault with
    | none => (w.write frame, .ok ())
    | some n => (w.write (frame.take n), .error .io)

/-- `write_checkpoint`: `crash_atomic_replace` by one frame. The handle is replaced only at the
end. -/
def writeCheckpoint (w : LogFile) (fault : Option ReplaceFault) (checkpoint : T) :
    LogFile × Except WalError Unit :=
  match C.encodeFrame checkpoint with
  | .error e => (w, .error e)
  | .ok frame =>
    match fault with
    | none => (⟨frame, none⟩, .ok ())
    | some .temp | some .rename => (w, .error .io)
    | some .reopen => (⟨frame, some (w.unlinked.getD w.disk)⟩, .error .io)

/-- `open_replay`: a torn tail is cut off. -/
def openReplay (disk : Bytes) : Except WalError (LogFile × List T) :=
  match C.replay disk with
  | .error e => .error e
  | .ok (records, lastValid) =>
    .ok (⟨if lastValid < disk.length then disk.take lastValid else disk, none⟩, records)

/-! ### Files that end in a whole or a torn frame -/

/-- The first bytes of a frame, or nothing. -/
def Torn (tail : Bytes) : Prop :=
  tail = [] ∨ ∃ r frame n, C.IsFrame r frame ∧ n < frame.length ∧ tail = frame.take n

/-- The file is the frames of `records` and a torn tail. -/
def Holds (disk : Bytes) (records : List T) : Prop :=
  ∃ frames tail, List.Forall₂ C.IsFrame records frames ∧ C.Torn tail ∧
    disk = frames.flatten ++ tail

/-- The file ends with a whole frame. -/
def Whole (disk : Bytes) : Prop := ∃ records, C.replay disk = .ok (records, disk.length)

/-- The handle is at the file at the path, which ends with a whole frame. -/
structure Clean (w : LogFile) : Prop where
  linked : w.unlinked = none
  whole : C.Whole w.disk

/-- `Clean`, as a test. -/
def isClean (w : LogFile) : Bool :=
  w.unlinked.isNone && (C.replay w.disk).toOption.any (fun x => x.2 = w.disk.length)

variable {C} {disk frame : Bytes} {records : List T} {r : T}

theorem clean_of_isClean {w : LogFile} (h : C.isClean w = true) : C.Clean w := by
  obtain ⟨hlinked, hwhole⟩ := Bool.and_eq_true_iff.mp h
  refine ⟨Option.isNone_iff_eq_none.mp hlinked, ?_⟩
  cases hreplay : C.replay w.disk with
  | error e =>
    rw [hreplay] at hwhole
    cases hwhole
  | ok x =>
    rw [hreplay] at hwhole
    obtain ⟨records, lastValid⟩ := x
    have hlength : lastValid = w.disk.length := of_decide_eq_true hwhole
    exact ⟨records, by rw [hreplay, hlength]⟩

theorem Torn.replay {frames : List Bytes} {tail : Bytes} (htorn : C.Torn tail)
    (h : List.Forall₂ C.IsFrame records frames) :
    C.replay (frames.flatten ++ tail) = .ok (records, frames.flatten.length) := by
  rcases htorn with rfl | ⟨r, frame, n, hframe, hn, rfl⟩
  · rw [append_nil]
    exact replay_flatten h
  · exact replay_torn h hframe hn

theorem openReplay_torn {frames : List Bytes} {tail : Bytes}
    (h : List.Forall₂ C.IsFrame records frames) (htorn : C.Torn tail) :
    C.openReplay (frames.flatten ++ tail) = .ok (⟨frames.flatten, none⟩, records) := by
  have hcut : (if frames.flatten.length < (frames.flatten ++ tail).length
      then (frames.flatten ++ tail).take frames.flatten.length
      else frames.flatten ++ tail) = frames.flatten := by
    rw [take_left]
    split_ifs with hlt
    · rfl
    · rw [length_append] at hlt
      rw [length_eq_zero_iff.mp (show tail.length = 0 by omega), append_nil]
  rw [Codec.openReplay, htorn.replay h]
  show Except.ok (LogFile.mk (if _ then _ else _) none, records) = _
  rw [hcut]

theorem Holds.openReplay (h : C.Holds disk records) :
    ∃ w : LogFile, C.openReplay disk = .ok (w, records) ∧ w.unlinked = none ∧
      C.Holds w.disk records := by
  obtain ⟨frames, tail, hframes, htorn, rfl⟩ := h
  exact ⟨_, openReplay_torn hframes htorn, rfl, frames, [], hframes, Or.inl rfl,
    (append_nil _).symm⟩

theorem holds_nil : C.Holds [] [] := ⟨[], [], .nil, Or.inl rfl, rfl⟩

theorem holds_frame (h : C.IsFrame r frame) : C.Holds frame [r] :=
  ⟨[frame], [], .cons h .nil, Or.inl rfl, by simp⟩

theorem Holds.frames (h : C.Holds disk records) (hwhole : C.Whole disk) :
    ∃ frames, List.Forall₂ C.IsFrame records frames ∧ disk = frames.flatten := by
  obtain ⟨frames, tail, hframes, htorn, rfl⟩ := h
  obtain ⟨records', hreplay⟩ := hwhole
  have hlength : frames.flatten.length = (frames.flatten ++ tail).length :=
    (Prod.mk.inj (Except.ok.inj ((htorn.replay hframes).symm.trans hreplay))).2
  rw [length_append] at hlength
  refine ⟨frames, hframes, ?_⟩
  rw [length_eq_zero_iff.mp (show tail.length = 0 by omega), append_nil]

/-- A log that is a whole log and one more frame has these frames and no others. -/
theorem eq_concat_of_whole {frames : List Bytes} {pre : Bytes}
    (h : List.Forall₂ C.IsFrame records frames) (hsplit : frames.flatten = pre ++ frame)
    (hwhole : C.Whole pre) (hframe : C.IsFrame r frame) :
    ∃ records' frames', List.Forall₂ C.IsFrame records' frames' ∧ records = records' ++ [r] ∧
      pre = frames'.flatten := by
  obtain ⟨found, hfound⟩ := hwhole
  have htake := replay_take h pre.length
  rw [hsplit, take_left, hfound] at htake
  obtain ⟨-, hlength⟩ := Prod.mk.inj (Except.ok.inj htake)
  set m := wholeFrames frames pre.length
  have hsplit' : (frames.take m).flatten ++ (frames.drop m).flatten = pre ++ frame := by
    rw [← flatten_append, take_append_drop, hsplit]
  obtain ⟨hpre, hrest⟩ := append_inj hsplit' hlength.symm
  -- what follows is one frame, so it is one record
  have hdrop := replay_flatten (forall₂_drop m h)
  have hone := replay_flatten (List.Forall₂.cons hframe .nil)
  rw [hrest] at hdrop
  rw [flatten_singleton, hdrop] at hone
  have hlast : records.drop m = [r] := (Prod.mk.inj (Except.ok.inj hone)).1
  refine ⟨records.take m, frames.take m, forall₂_take m h, ?_, hpre.symm⟩
  rw [← hlast, take_append_drop]

theorem Holds.append (h : C.Holds disk records) (hwhole : C.Whole disk)
    (hframe : C.IsFrame r frame) : C.Holds (disk ++ frame) (records ++ [r]) := by
  obtain ⟨frames, hframes, rfl⟩ := h.frames hwhole
  refine ⟨frames ++ [frame], [], rel_append hframes (.cons hframe .nil), Or.inl rfl, ?_⟩
  rw [flatten_append, flatten_singleton, append_nil]

theorem Holds.appendTorn (h : C.Holds disk records) (hwhole : C.Whole disk)
    (hframe : C.IsFrame r frame) {n : Nat} (hn : n < frame.length) :
    C.Holds (disk ++ frame.take n) records := by
  obtain ⟨frames, hframes, rfl⟩ := h.frames hwhole
  exact ⟨frames, _, hframes, Or.inr ⟨r, frame, n, hframe, hn, rfl⟩, rfl⟩

section Writes

variable {w w' : LogFile} {fault : Option Nat} {e : WalError}

theorem Holds.appendRecord_ok (h : C.Holds w.disk records) (hclean : C.Clean w) (hsmall : C.Small r)
    (hwrite : C.appendRecord w fault r = (w', .ok ())) : C.Holds w'.disk (records ++ [r]) := by
  unfold appendRecord at hwrite
  cases hframe : C.encodeFrame r with
  | error e =>
    rw [hframe] at hwrite
    cases hwrite
  | ok frame =>
    rw [hframe] at hwrite
    cases fault with
    | some n => cases hwrite
    | none =>
      cases hwrite
      unfold LogFile.write
      rw [hclean.linked]
      exact h.append hclean.whole (isFrame_of_small hframe hsmall)

/-- An append that fails has left the file as it was, but for a torn tail, unless the whole frame
was written. -/
theorem Holds.appendRecord_error (h : C.Holds w.disk records) (hclean : C.Clean w)
    (hsmall : C.Small r) (hwrite : C.appendRecord w fault r = (w', .error e)) :
    C.Holds w'.disk records ∨ C.Holds w'.disk (records ++ [r]) ∧
      ∃ n frame, fault = some n ∧ C.encodeFrame r = .ok frame ∧ frame.length ≤ n := by
  unfold appendRecord at hwrite
  cases hframe : C.encodeFrame r with
  | error e =>
    rw [hframe] at hwrite
    cases hwrite
    exact Or.inl h
  | ok frame =>
    rw [hframe] at hwrite
    cases fault with
    | none => cases hwrite
    | some n =>
      cases hwrite
      unfold LogFile.write
      rw [hclean.linked]
      by_cases hn : n < frame.length
      · exact Or.inl (h.appendTorn hclean.whole (isFrame_of_small hframe hsmall) hn)
      · have hle : frame.length ≤ n := Nat.le_of_not_lt hn
        rw [take_of_length_le hle]
        exact Or.inr ⟨h.append hclean.whole (isFrame_of_small hframe hsmall), n, frame, rfl, rfl,
          hle⟩

theorem appendRecord_some_ne_ok (w : LogFile) (n : Nat) (r : T) :
    (C.appendRecord w (some n) r).2 ≠ .ok () := by
  unfold appendRecord
  cases C.encodeFrame r <;> simp

theorem disk_appendRecord_zero (w : LogFile) (r : T) :
    (C.appendRecord w (some 0) r).1.disk = w.disk := by
  unfold appendRecord
  cases C.encodeFrame r with
  | error e => rfl
  | ok frame =>
    dsimp only
    rw [LogFile.write]
    cases w.unlinked with
    | none => exact append_nil _
    | some old => rfl

theorem Holds.writeCheckpoint {fault : Option ReplaceFault} {result : Except WalError Unit}
    (h : C.Holds w.disk records) (hsmall : C.Small r)
    (hwrite : C.writeCheckpoint w fault r = (w', result)) :
    C.Holds w'.disk [r] ∨ C.Holds w'.disk records ∧ result ≠ .ok () := by
  unfold Codec.writeCheckpoint at hwrite
  cases hframe : C.encodeFrame r with
  | error e =>
    rw [hframe] at hwrite
    cases hwrite
    exact Or.inr ⟨h, by simp⟩
  | ok frame =>
    rw [hframe] at hwrite
    have hnew := holds_frame (isFrame_of_small hframe hsmall)
    rcases fault with _ | _ | _ | _ <;> cases hwrite
    · exact Or.inl hnew
    · exact Or.inr ⟨h, by simp⟩
    · exact Or.inr ⟨h, by simp⟩
    · exact Or.inl hnew

end Writes

end Codec

end Ledge.Wal
