import Mathlib.Algebra.Group.Nat.Defs
import Mathlib.Data.List.Basic
import Mathlib.Data.List.Forall2
import Mathlib.Data.List.Nodup
import Mathlib.Tactic.Common

/-!
# Ledge.Wal.Frame

The frames that all logs share (crate `ledge-wal`): a length, a checksum and a payload.

The encoding of records and the checksum are a parameter (`Codec`). `replay` tells a torn tail,
which ends the log, from a corrupt frame, which is an error; `replay_prefix_exact` says that a
log of whole frames which is cut anywhere is read back up to the cut and is never taken for a
corrupt one.
-/

namespace Ledge.Wal

open List

abbrev Bytes := List UInt8

/-! ### Fixed-width integers -/

/-- `u32::to_le_bytes` -/
def toLeBytes (x : UInt32) : Bytes :=
  [UInt8.ofNat x.toNat, UInt8.ofNat (x.toNat / 2 ^ 8), UInt8.ofNat (x.toNat / 2 ^ 16),
    UInt8.ofNat (x.toNat / 2 ^ 24)]

/-- `u32::from_le_bytes` -/
def fromLeBytes : Bytes → UInt32
  | [a, b, c, d] =>
    UInt32.ofNat (a.toNat + 2 ^ 8 * b.toNat + 2 ^ 16 * c.toNat + 2 ^ 24 * d.toNat)
  | _ => 0

theorem length_toLeBytes (x : UInt32) : (toLeBytes x).length = 4 := rfl

theorem fromLeBytes_toLeBytes (x : UInt32) : fromLeBytes (toLeBytes x) = x := by
  have hx := x.toNat_lt
  refine UInt32.toNat_inj.mp ?_
  simp only [toLeBytes, fromLeBytes, UInt8.toNat_ofNat', UInt32.toNat_ofNat']
  omega

/-! ### Encoding and decoding a frame -/

/-- How values become bytes and back (`bincode`). Decoding returns the value and the number of
bytes it has read. -/
structure Blob (T : Type) where
  encode : T → Except String Bytes
  decode : Bytes → Except String (T × Nat)
  inverse : ∀ r payload, encode r = .ok payload → ∃ used, decode payload = .ok (r, used)

/-- Records and their checksum (`crc32fast`). -/
structure Codec (T : Type) extends Blob T where
  hash : Bytes → UInt32

inductive WalError
  | io
  | encode (why : String)
  | corruption (why : String)
  deriving DecidableEq

/-- `HEADER_LEN`: the length and the checksum. -/
def headerLen : Nat := 8

theorem headerLen_eq : headerLen = 8 := rfl

/-- Outcome of decoding one frame at a byte offset. -/
inductive FrameDecode (T : Type)
  /-- A whole frame, and the offset one past its end. -/
  | entry (r : T) (newPos : Nat)
  /-- Not enough bytes for the frame that the header claims. -/
  | incomplete
  | corrupt (why : String)

/-- `&data[start..stop]` -/
def slice (data : Bytes) (start stop : Nat) : Bytes := (data.drop start).take (stop - start)

namespace Codec

variable {T : Type} (C : Codec T)

/-- `encode_frame`; the length is cast to 32 bits. -/
def encodeFrame (r : T) : Except WalError Bytes :=
  match C.encode r with
  | .error why => .error (.encode why)
  | .ok payload =>
    .ok (toLeBytes (UInt32.ofNat payload.length) ++ toLeBytes (C.hash payload) ++ payload)

/-- `decode_frame` -/
def decodeFrame (data : Bytes) (pos : Nat) : FrameDecode T :=
  if pos + headerLen > data.length then .incomplete
  else
    let length := (fromLeBytes (slice data pos (pos + 4))).toNat
    let crcStored := fromLeBytes (slice data (pos + 4) (pos + 8))
    let payloadEnd := pos + headerLen + length
    if payloadEnd > data.length then .incomplete
    else
      let payload := slice data (pos + headerLen) payloadEnd
      if C.hash payload ≠ crcStored then .corrupt ("CRC mismatch at byte " ++ toString pos)
      else
        match C.decode payload with
        | .ok (r, _) => .entry r payloadEnd
        | .error e => .corrupt ("payload decode error at byte " ++ toString pos ++ ": " ++ e)

theorem lt_of_decodeFrame {data : Bytes} {pos newPos : Nat} {r : T}
    (h : C.decodeFrame data pos = .entry r newPos) : pos < newPos := by
  have h8 := headerLen_eq
  simp only [decodeFrame] at h
  split_ifs at h
  split at h
  · cases h
    omega
  · cases h

/-- The loop of `replay`. -/
def replayLoop (data : Bytes) (records : List T) (lastValid pos : Nat) :
    Except WalError (List T × Nat) :=
  if pos < data.length then
    match h : C.decodeFrame data pos with
    | .entry r newPos =>
      have := C.lt_of_decodeFrame h
      replayLoop data (records ++ [r]) newPos newPos
    | .incomplete => .ok (records, lastValid)
    | .corrupt why =>
      .error (.corruption (why ++ "; " ++ toString records.length ++
        " record(s) recovered before it; refusing to truncate"))
  else .ok (records, lastValid)
termination_by data.length - pos

/-- `replay`: the records and the end of the last whole frame. -/
def replay (data : Bytes) : Except WalError (List T × Nat) := C.replayLoop data [] 0 0

/-! ### One frame -/

/-- `frame` is the frame of `r`, and the length of its payload fits into the header. -/
structure IsFrame (r : T) (frame : Bytes) : Prop where
  encodes : C.encodeFrame r = .ok frame
  small : frame.length < headerLen + 2 ^ 32

variable {C} {r : T} {frame : Bytes}

theorem encodeFrame_ok (h : C.encodeFrame r = .ok frame) :
    ∃ payload, C.encode r = .ok payload ∧
      frame = toLeBytes (UInt32.ofNat payload.length) ++ toLeBytes (C.hash payload) ++ payload := by
  rw [encodeFrame] at h
  cases hpayload : C.encode r with
  | error why =>
    rw [hpayload] at h
    cases h
  | ok payload =>
    rw [hpayload] at h
    exact ⟨payload, rfl, (Except.ok.inj h).symm⟩

theorem IsFrame.cases (h : C.IsFrame r frame) :
    ∃ payload, C.encode r = .ok payload ∧ payload.length < 2 ^ 32 ∧
      frame = toLeBytes (UInt32.ofNat payload.length) ++ toLeBytes (C.hash payload) ++ payload := by
  obtain ⟨payload, hpayload, rfl⟩ := encodeFrame_ok h.encodes
  refine ⟨payload, hpayload, ?_, rfl⟩
  have hsmall := h.small
  simp only [length_append, length_toLeBytes, headerLen_eq] at hsmall
  omega

variable (C) in
/-- The length of the payload fits into the header. -/
def Small (r : T) : Prop := ∀ payload, C.encode r = .ok payload → payload.length < 2 ^ 32

theorem isFrame_of_small (hframe : C.encodeFrame r = .ok frame) (hsmall : C.Small r) :
    C.IsFrame r frame := by
  refine ⟨hframe, ?_⟩
  obtain ⟨payload, hpayload, rfl⟩ := encodeFrame_ok hframe
  have hlength := hsmall payload hpayload
  simp only [length_append, length_toLeBytes, headerLen_eq]
  omega

theorem IsFrame.header_le (h : C.IsFrame r frame) : headerLen ≤ frame.length := by
  obtain ⟨payload, -, -, rfl⟩ := h.cases
  simp only [length_append, length_toLeBytes, headerLen_eq]
  omega

theorem slice_mid (pre mid post : Bytes) {start stop : Nat} (hstart : start = pre.length)
    (hstop : stop = pre.length + mid.length) : slice (pre ++ mid ++ post) start stop = mid := by
  subst hstart hstop
  rw [slice, append_assoc, drop_left, Nat.add_sub_cancel_left, take_left]

theorem claimed_length {payload : Bytes} (hsmall : payload.length < 2 ^ 32) (pre post : Bytes) :
    (fromLeBytes (slice (pre ++ toLeBytes (UInt32.ofNat payload.length) ++ post) pre.length
      (pre.length + 4))).toNat = payload.length := by
  rw [slice_mid pre (toLeBytes _) post rfl (by rw [length_toLeBytes]), fromLeBytes_toLeBytes,
    UInt32.toNat_ofNat', Nat.mod_eq_of_lt hsmall]

theorem decodeFrame_frame (h : C.IsFrame r frame) (pre post : Bytes) :
    C.decodeFrame (pre ++ frame ++ post) pre.length = .entry r (pre.length + frame.length) := by
  obtain ⟨payload, hencode, hsmall, rfl⟩ := h.cases
  obtain ⟨used, hdecode⟩ := C.inverse r payload hencode
  set len := toLeBytes (UInt32.ofNat payload.length) with hlen
  set crc := toLeBytes (C.hash payload) with hcrc
  have hlen4 : len.length = 4 := rfl
  have hcrc4 : crc.length = 4 := rfl
  set data := pre ++ (len ++ crc ++ payload) ++ post with hdata
  have hlength : data.length = pre.length + 8 + payload.length + post.length := by
    simp only [hdata, length_append, hlen4, hcrc4]
    omega
  have hclaims : (fromLeBytes (slice data pre.length (pre.length + 4))).toNat =
      payload.length := by
    have hsplit : data = pre ++ len ++ (crc ++ payload ++ post) := by
      simp [hdata]
    rw [hsplit]
    exact claimed_length hsmall _ _
  have hstored : fromLeBytes (slice data (pre.length + 4) (pre.length + 8)) =
      C.hash payload := by
    have hsplit : data = (pre ++ len) ++ crc ++ (payload ++ post) := by
      simp [hdata]
    have hpre : (pre ++ len).length = pre.length + 4 := by rw [length_append, hlen4]
    rw [hsplit, slice_mid _ _ _ hpre.symm (by rw [hpre, hcrc4]), fromLeBytes_toLeBytes]
  have hspayload : slice data (pre.length + 8) (pre.length + 8 + payload.length) = payload := by
    have hsplit : data = (pre ++ len ++ crc) ++ payload ++ post := by
      simp [hdata]
    have hpre : (pre ++ len ++ crc).length = pre.length + 8 := by
      rw [length_append, length_append, hlen4, hcrc4]
    rw [hsplit, slice_mid _ _ _ hpre.symm (by rw [hpre])]
  rw [decodeFrame, if_neg (by rw [hlength, headerLen_eq]; omega)]
  simp only [hclaims, hstored]
  rw [if_neg (by rw [hlength, headerLen_eq]; omega)]
  simp only [headerLen_eq, hspayload, hdecode, ne_eq, not_true_eq_false, if_false,
    length_append]
  congr 1
  omega

theorem decodeFrame_torn (h : C.IsFrame r frame) (pre : Bytes) {n : Nat} (hn : n < frame.length) :
    C.decodeFrame (pre ++ frame.take n) pre.length = .incomplete := by
  obtain ⟨payload, -, hsmall, rfl⟩ := h.cases
  set len := toLeBytes (UInt32.ofNat payload.length) with hlen
  set crc := toLeBytes (C.hash payload) with hcrc
  have hlen4 : len.length = 4 := rfl
  have hcrc4 : crc.length = 4 := rfl
  have hlength : (pre ++ (len ++ crc ++ payload).take n).length = pre.length + n := by
    rw [length_append, length_take, Nat.min_eq_left (Nat.le_of_lt hn)]
  simp only [length_append, hlen4, hcrc4] at hn
  rw [decodeFrame]
  by_cases hheader : n < 8
  · -- the cut is in the header
    rw [if_pos (by rw [hlength, headerLen_eq]; omega)]
  · -- the length is whole and claims more bytes than there are
    have hsplit : pre ++ (len ++ crc ++ payload).take n =
        pre ++ len ++ (crc ++ payload.take (n - 8)) := by
      rw [append_assoc len, take_append, take_append, hlen4, hcrc4,
        take_of_length_le (by omega), take_of_length_le (by omega),
        append_assoc, show n - 4 - 4 = n - 8 by omega]
    have hclaims : (fromLeBytes (slice (pre ++ (len ++ crc ++ payload).take n) pre.length
        (pre.length + 4))).toNat = payload.length := by
      rw [hsplit]
      exact claimed_length hsmall _ _
    rw [if_neg (by rw [hlength, headerLen_eq]; omega)]
    rw [if_pos (by rw [hlength, headerLen_eq]; omega)]

/-! ### A log of frames -/

/-- The number of frames that lie wholly inside the first `k` bytes. -/
def wholeFrames : List Bytes → Nat → Nat
  | [], _ => 0
  | frame :: frames, k =>
    if frame.length ≤ k then wholeFrames frames (k - frame.length) + 1 else 0

theorem wholeFrames_le (frames : List Bytes) (k : Nat) : wholeFrames frames k ≤ frames.length := by
  induction frames generalizing k with
  | nil => exact Nat.le_refl 0
  | cons frame frames ih =>
    rw [wholeFrames]
    split_ifs
    · exact Nat.succ_le_succ (ih _)
    · exact Nat.zero_le _

/-- The frames up to `i` end inside the cut if and only if `i` is one of the whole frames. -/
theorem le_wholeFrames_iff (frames : List Bytes) (k : Nat) {i : Nat} (hi : i ≤ frames.length) :
    i ≤ wholeFrames frames k ↔ (frames.take i).flatten.length ≤ k := by
  induction frames generalizing k i with
  | nil =>
    obtain rfl := Nat.le_zero.mp hi
    exact iff_of_true (Nat.zero_le _) (Nat.zero_le _)
  | cons frame frames ih =>
    cases i with
    | zero => exact iff_of_true (Nat.zero_le _) (Nat.zero_le _)
    | succ i =>
      have hi' : i ≤ frames.length := Nat.le_of_succ_le_succ hi
      rw [wholeFrames, take_succ_cons, flatten_cons, length_append]
      split_ifs with hframe
      · rw [Nat.succ_le_succ_iff, ih (k - frame.length) hi']
        omega
      · omega

theorem replayLoop_frames {records : List T} {frames : List Bytes}
    (h : List.Forall₂ C.IsFrame records frames) (pre : Bytes) (before : List T) (k : Nat) :
    C.replayLoop (pre ++ frames.flatten.take k) before pre.length pre.length =
      .ok (before ++ records.take (wholeFrames frames k),
        pre.length + (frames.take (wholeFrames frames k)).flatten.length) := by
  induction h generalizing pre before k with
  | nil =>
    rw [replayLoop]
    simp [wholeFrames]
  | @cons r frame records frames hframe hframes ih =>
    rw [flatten_cons, take_append, wholeFrames]
    by_cases hk : frame.length ≤ k
    · -- the first frame is whole
      rw [if_pos hk, take_of_length_le hk, ← append_assoc, replayLoop,
        if_pos (by
          have hheader := hframe.header_le
          simp only [length_append, headerLen_eq] at hheader ⊢
          omega)]
      split
      · next r' newPos hentry =>
        rw [decodeFrame_frame hframe] at hentry
        cases hentry
        have hnext := ih (pre ++ frame) (before ++ [r]) (k - frame.length)
        rw [length_append] at hnext
        rw [hnext]
        simp [Nat.add_assoc]
      · next hentry =>
        rw [decodeFrame_frame hframe] at hentry
        cases hentry
      · next hentry =>
        rw [decodeFrame_frame hframe] at hentry
        cases hentry
    · -- the cut is in the first frame
      have hcut : k < frame.length := Nat.lt_of_not_le hk
      rw [show k - frame.length = 0 by omega, take_zero, append_nil, replayLoop]
      split_ifs
      · split
        · next hentry =>
          rw [decodeFrame_torn hframe pre hcut] at hentry
          cases hentry
        · simp
        · next hentry =>
          rw [decodeFrame_torn hframe pre hcut] at hentry
          cases hentry
      · simp

section Logs

variable {records : List T} {frames : List Bytes} (h : List.Forall₂ C.IsFrame records frames)
include h

/-- A log that is cut after `k` bytes. -/
theorem replay_take (k : Nat) :
    C.replay (frames.flatten.take k) =
      .ok (records.take (wholeFrames frames k),
        (frames.take (wholeFrames frames k)).flatten.length) := by
  have hloop := replayLoop_frames h [] [] k
  simpa [replay] using hloop

theorem replay_flatten : C.replay frames.flatten = .ok (records, frames.flatten.length) := by
  have hwhole : wholeFrames frames frames.flatten.length = frames.length := by
    refine Nat.le_antisymm (wholeFrames_le _ _) ((le_wholeFrames_iff _ _ (Nat.le_refl _)).mpr ?_)
    exact Nat.le_of_eq (by rw [take_length])
  have htake := replay_take h frames.flatten.length
  rwa [hwhole, take_length, take_length, ← h.length_eq, take_length] at htake

theorem replay_torn (hframe : C.IsFrame r frame) {n : Nat} (hn : n < frame.length) :
    C.replay (frames.flatten ++ frame.take n) = .ok (records, frames.flatten.length) := by
  have hall : List.Forall₂ C.IsFrame (records ++ [r]) (frames ++ [frame]) :=
    rel_append h (.cons hframe .nil)
  have hflatten : (frames ++ [frame]).flatten = frames.flatten ++ frame := by
    rw [flatten_append, flatten_singleton]
  have hwhole : wholeFrames (frames ++ [frame]) (frames.flatten.length + n) = frames.length := by
    have hlength : (frames ++ [frame]).length = frames.length + 1 := length_append
    refine Nat.le_antisymm (Nat.le_of_not_lt fun hlt => ?_) ?_
    · -- the last frame is not whole
      have hle := (le_wholeFrames_iff (frames ++ [frame]) _ (Nat.le_of_eq hlength.symm)).mp hlt
      rw [← hlength, take_length, hflatten, length_append] at hle
      omega
    · refine (le_wholeFrames_iff _ _ (by omega)).mpr ?_
      rw [take_left]
      omega
  have htake := replay_take hall (frames.flatten.length + n)
  rwa [hwhole, take_left, ← h.length_eq, take_left, hflatten, take_append,
    take_of_length_le (by omega), Nat.add_sub_cancel_left] at htake

variable (C) in
/-- **Framing is prefix-exact**: a log that is cut after `k` bytes replays to the records whose
frames lie wholly inside the cut, with the end of the last of them. -/
theorem replay_prefix_exact (k : Nat) :
    ∃ n ≤ records.length,
      C.replay (frames.flatten.take k) =
        .ok (records.take n, (frames.take n).flatten.length) ∧
      ∀ i ≤ records.length, (frames.take i).flatten.length ≤ k ↔ i ≤ n := by
  rw [h.length_eq]
  refine ⟨wholeFrames frames k, wholeFrames_le frames k, replay_take h k, fun i hi => ?_⟩
  exact (le_wholeFrames_iff frames k hi).symm

end Logs

end Codec

/-! ### A codec -/

/-- One bit of the IEEE checksum. -/
def crcBit (crc : UInt32) : UInt32 :=
  if crc &&& 1 = 1 then (crc >>> 1) ^^^ 0xEDB88320 else crc >>> 1

/-- `crc32fast::hash` -/
def crc32 (payload : Bytes) : UInt32 :=
  payload.foldl (fun crc b => (List.range 8).foldl (fun c _ => crcBit c) (crc ^^^ b.toUInt32))
    0xFFFFFFFF ^^^ 0xFFFFFFFF

example : crc32 [0x31, 0x32, 0x33, 0x34, 0x35, 0x36, 0x37, 0x38, 0x39] = 0xCBF43926 := by
  decide +kernel

/-- Records that are byte strings. -/
def rawCodec : Codec Bytes where
  encode r := .ok r
  decode payload := .ok (payload, payload.length)
  hash := crc32
  inverse r payload h := ⟨payload.length, by rw [Except.ok.inj h]⟩

/-- Finitely many records with distinct payloads. -/
def tableCodec {T : Type} [DecidableEq T] (table : List (T × Bytes))
    (h : (table.map Prod.snd).Nodup) : Codec T where
  encode r := (table.find? (fun x => x.1 = r)).elim (.error "not in the table") (fun x => .ok x.2)
  decode payload := (table.find? (fun x => x.2 = payload)).elim (.error "not in the table")
    (fun x => .ok (x.1, payload.length))
  hash := crc32
  inverse r payload hencode := by
    cases hr : table.find? (fun x => x.1 = r) with
    | none =>
      rw [hr] at hencode
      cases hencode
    | some x =>
      rw [hr] at hencode
      cases hencode
      have hx : x ∈ table := mem_of_find?_eq_some hr
      have hfst : x.1 = r := by simpa using find?_some hr
      cases hp : table.find? (fun y => y.2 = x.2) with
      | none => exact absurd (find?_eq_none.mp hp x hx) (by simp)
      | some y =>
        have hy : y ∈ table := mem_of_find?_eq_some hp
        have hsnd : y.2 = x.2 := by simpa using find?_some hp
        obtain rfl : y = x := inj_on_of_nodup_map h hy hx hsnd
        exact ⟨y.2.length, by rw [← hfst]; rfl⟩

theorem mem_of_encode_tableCodec {T : Type} [DecidableEq T] {table : List (T × Bytes)}
    {h : (table.map Prod.snd).Nodup} {r : T} {payload : Bytes}
    (hencode : (tableCodec table h).encode r = .ok payload) : payload ∈ table.map Prod.snd := by
  have hencode' : (table.find? (fun x => x.1 = r)).elim (Except.error "not in the table")
      (fun x => .ok x.2) = .ok payload := hencode
  cases hr : table.find? (fun x => x.1 = r) with
  | none =>
    rw [hr] at hencode'
    cases hencode'
  | some x =>
    rw [hr] at hencode'
    rw [← Except.ok.inj hencode']
    exact mem_map_of_mem (mem_of_find?_eq_some hr)

/-- Two records, cut one byte before the end of the second. -/
theorem replay_prefix_exact_raw :
    let frames := [[1, 0, 0, 0, 0x1B, 0xDF, 0x05, 0xA5, 1],
      [2, 0, 0, 0, 0xC7, 0x21, 0xE6, 0xEA, 2, 3]]
    List.Forall₂ rawCodec.IsFrame [[1], [2, 3]] frames ∧
      ∃ n ≤ 2, rawCodec.replay (frames.flatten.take 18) =
          .ok ([[1], [2, 3]].take n, (frames.take n).flatten.length) ∧
        ∀ i ≤ 2, (frames.take i).flatten.length ≤ 18 ↔ i ≤ n := by
  intro frames
  have hframes : List.Forall₂ rawCodec.IsFrame [[1], [2, 3]] frames :=
    .cons ⟨by decide +kernel, by decide⟩ (.cons ⟨by decide +kernel, by decide⟩ .nil)
  exact ⟨hframes, rawCodec.replay_prefix_exact hframes 18⟩

end Ledge.Wal
