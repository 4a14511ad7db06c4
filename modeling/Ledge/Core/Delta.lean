import Ledge.Core.RefEntry
import Mathlib.Algebra.Group.Nat.Defs
import Mathlib.Tactic.Ring
import Mathlib.Tactic.SplitIfs

/-!
# Ledge.Core.Delta

The git delta codec (`delta.rs`): the two varint encodings, and the decoder of copy and insert
instructions.

`usize` and `u64` have 64 bits. A left shift in the source loses the bits that it moves out, also
where it is a `checked_shl`, which checks the distance only. So a varint is read modulo `2 ^ 64`
(`varints_exact_iff`); what was written is read back (`varints_round_trip`).
-/

namespace Ledge.Core

open List

/-- `MAX_OBJECT_SIZE` -/
def maxObjectSize : Nat := 2 * 1024 * 1024 * 1024

/-! ### Varints -/

/-- The loop of `read_size_varint`, over what is left of the data. -/
def readSizeVarintLoop : List UInt8 → Nat → Nat → Nat → Except LedgeError (Nat × Nat)
  | [], _, _, _ => .error (.corruption "delta: truncated varint")
  | b :: rest, result, shift, pos =>
    if 64 ≤ shift then .error (.corruption "delta: varint overflow")
    else
      let result := result ||| ((b &&& 0x7f).toNat <<< shift) % 2 ^ 64
      if b &&& 0x80 = 0 then .ok (result, pos + 1)
      else if 63 < shift + 7 then .error (.corruption "delta: varint too long")
      else readSizeVarintLoop rest result (shift + 7) (pos + 1)

/-- `read_size_varint`: the value and the position after it -/
def readSizeVarint (data : List UInt8) (pos : Nat) : Except LedgeError (Nat × Nat) :=
  readSizeVarintLoop (data.drop pos) 0 0 pos

/-- The loop of `read_ofs_varint`, after a byte with the continuation bit. -/
def readOfsVarintLoop : List UInt8 → Nat → Nat → Except LedgeError (Nat × Nat)
  | [], _, _ => .error (.corruption "delta: truncated ofs")
  | c :: rest, off, pos =>
    if 2 ^ 64 ≤ off + 1 then .error (.corruption "delta: ofs overflow")
    else
      let off := ((off + 1) <<< 7) % 2 ^ 64 ||| (c &&& 0x7f).toNat
      if c &&& 0x80 = 0 then .ok (off, pos + 1) else readOfsVarintLoop rest off (pos + 1)

/-- `read_ofs_varint`: the offset and the position after it -/
def readOfsVarint (data : List UInt8) (pos : Nat) : Except LedgeError (Nat × Nat) :=
  match data.drop pos with
  | [] => .error (.corruption "delta: truncated ofs")
  | c :: rest =>
    let off := (c &&& 0x7f).toNat
    if c &&& 0x80 = 0 then .ok (off, pos + 1) else readOfsVarintLoop rest off (pos + 1)

/-- The loop of `write_ofs_varint`, which fills its buffer from the back. -/
def writeOfsVarintLoop (off : Nat) (out : List UInt8) : List UInt8 :=
  if off / 128 = 0 then out
  else writeOfsVarintLoop (off / 128 - 1) (UInt8.ofNat (128 + (off / 128 - 1) % 128) :: out)

/-- `write_ofs_varint` -/
def writeOfsVarint (off : Nat) : List UInt8 := writeOfsVarintLoop off [UInt8.ofNat (off % 128)]

/-- `write_size_varint` -/
def writeSizeVarint (v : Nat) : List UInt8 :=
  if v / 128 = 0 then [UInt8.ofNat v]
  else UInt8.ofNat (128 + v % 128) :: writeSizeVarint (v / 128)

/-! ### Instructions -/

/-- The bytes of an operand: one for each flag that is set in `op`, with the place of its bits. -/
def readOperand (op : UInt8) (why : String) :
    List (UInt8 × Nat) → List UInt8 → Nat → Except LedgeError (Nat × List UInt8)
  | [], data, value => .ok (value, data)
  | (flag, place) :: flags, data, value =>
    if op &&& flag = 0 then readOperand op why flags data value
    else
      match data with
      | [] => .error (.corruption why)
      | b :: data => readOperand op why flags data (value ||| b.toNat <<< place)

theorem length_readOperand {op : UInt8} {why : String} {flags : List (UInt8 × Nat)}
    {data rest : List UInt8} {value v : Nat} (h : readOperand op why flags data value =
      .ok (v, rest)) :
    rest.length ≤ data.length := by
  induction flags generalizing data value with
  | nil =>
    cases h
    exact Nat.le_refl _
  | cons flag flags ih =>
    unfold readOperand at h
    split_ifs at h
    · exact ih h
    · cases data with
      | nil => cases h
      | cons b data => exact Nat.le_succ_of_le (ih h)

def offsetFlags : List (UInt8 × Nat) := [(0x01, 0), (0x02, 8), (0x04, 16), (0x08, 24)]

def sizeFlags : List (UInt8 × Nat) := [(0x10, 0), (0x20, 8), (0x40, 16)]

/-- One instruction: what it appends, and the rest of the delta. -/
def applyOp (base : List UInt8) (op : UInt8) (rest : List UInt8) :
    Except LedgeError (List UInt8 × List UInt8) :=
  if op &&& 0x80 ≠ 0 then
    match readOperand op "delta: trunc copy off" offsetFlags rest 0 with
    | .error e => .error e
    | .ok (offset, rest) =>
      match readOperand op "delta: trunc copy size" sizeFlags rest 0 with
      | .error e => .error e
      | .ok (size, rest) =>
        let size := if size = 0 then 0x10000 else size
        if base.length < offset + size then
          .error (.corruption "delta: copy out of base bounds")
        else .ok ((base.drop offset).take size, rest)
  else if op ≠ 0 then
    if rest.length < op.toNat then .error (.corruption "delta: insert out of delta bounds")
    else .ok (rest.take op.toNat, rest.drop op.toNat)
  else .error (.corruption "delta: zero opcode")

theorem length_applyOp {base : List UInt8} {op : UInt8} {rest bytes rest' : List UInt8}
    (h : applyOp base op rest = .ok (bytes, rest')) : rest'.length ≤ rest.length := by
  unfold applyOp at h
  split_ifs at h with hcopy hinsert hlen
  · split at h
    · cases h
    · rename_i offset rest₁ hoffset
      split at h
      · cases h
      · rename_i size rest₂ hsize
        dsimp only at h
        have hle := Nat.le_trans (length_readOperand hsize) (length_readOperand hoffset)
        split_ifs at h
        all_goals
          cases h
          exact hle
  · cases h
    rw [length_drop]
    exact Nat.sub_le ..

/-- The loop of `apply_delta` -/
def applyOps (base delta out : List UInt8) : Except LedgeError (List UInt8) :=
  match delta with
  | [] => .ok out
  | op :: rest =>
    match _h : applyOp base op rest with
    | .error e => .error e
    | .ok (bytes, rest') =>
      if maxObjectSize < (out ++ bytes).length then
        .error (.corruption "delta: result exceeded cap")
      else applyOps base rest' (out ++ bytes)
termination_by delta.length
decreasing_by exact Nat.lt_succ_of_le (length_applyOp _h)

/-- `apply_delta` -/
def applyDelta (base delta : List UInt8) : Except LedgeError (List UInt8) :=
  match readSizeVarint delta 0 with
  | .error e => .error e
  | .ok (baseSize, p) =>
    if baseSize ≠ base.length then
      .error (.corruption ("delta: base size " ++ toString baseSize ++ " != " ++
        toString base.length))
    else
      match readSizeVarint delta p with
      | .error e => .error e
      | .ok (resultSize, p) =>
        if maxObjectSize < resultSize then .error (.corruption "delta: result too large")
        else
          match applyOps base (delta.drop p) [] with
          | .error e => .error e
          | .ok out =>
            if out.length ≠ resultSize then
              .error (.corruption ("delta: result size " ++ toString out.length ++ " != " ++
                toString resultSize))
            else .ok out

/-! ### Groups of seven bits -/

theorem shift_or {x y s : Nat} (hs : s ≤ 64) (h : y < 2 ^ s) :
    (x <<< s) % 2 ^ 64 ||| y = (x * 2 ^ s + y) % 2 ^ 64 := by
  have hy : y < 2 ^ 64 := Nat.lt_of_lt_of_le h (Nat.pow_le_pow_right (by decide) hs)
  rw [← Nat.shiftLeft_eq, Nat.shiftLeft_add_eq_or_of_lt h, Nat.or_mod_two_pow, Nat.mod_eq_of_lt hy]

theorem add_group_lt {result x s : Nat} (hr : result < 2 ^ s) (hx : x < 128) :
    x * 2 ^ s + result < 2 ^ (s + 7) := by
  have hle : (x + 1) * 2 ^ s ≤ 128 * 2 ^ s := Nat.mul_le_mul_right _ hx
  rw [Nat.pow_add]
  lia

theorem split_group (n s : Nat) : n / 128 * 2 ^ (s + 7) + n % 128 * 2 ^ s = n * 2 ^ s := by
  rw [Nat.pow_add, Nat.mul_left_comm, Nat.mul_comm, ← Nat.add_mul, Nat.div_add_mod']

/-! ### What was written is read back -/

theorem last_group {m : Nat} (h : m < 128) :
    UInt8.ofNat m &&& 0x80 = 0 ∧ (UInt8.ofNat m &&& 0x7f).toNat = m := by
  have hall : ∀ i : Fin 128, UInt8.ofNat i &&& 0x80 = 0 ∧ (UInt8.ofNat i &&& 0x7f).toNat = i := by
    decide
  exact hall ⟨m, h⟩

theorem continued_group {m : Nat} (h : m < 128) :
    UInt8.ofNat (128 + m) &&& 0x80 ≠ 0 ∧ (UInt8.ofNat (128 + m) &&& 0x7f).toNat = m := by
  have hall : ∀ i : Fin 128,
      UInt8.ofNat (128 + i) &&& 0x80 ≠ 0 ∧ (UInt8.ofNat (128 + i) &&& 0x7f).toNat = i := by
    decide
  exact hall ⟨m, h⟩

/-- The groups before the last one, from the front. -/
def ofsGroups (m : Nat) : List UInt8 :=
  if m < 128 then [UInt8.ofNat (128 + m)]
  else ofsGroups (m / 128 - 1) ++ [UInt8.ofNat (128 + m % 128)]

theorem writeOfsVarintLoop_eq (off : Nat) (out : List UInt8) :
    writeOfsVarintLoop off out = if off / 128 =
      0 then out else ofsGroups (off / 128 - 1) ++ out := by
  induction off using Nat.strongRecOn generalizing out with
  | ind off ih =>
    rw [writeOfsVarintLoop]
    split_ifs with hsmall
    · rfl
    · rw [ih (off / 128 - 1) (by omega)]
      conv => rhs; rw [ofsGroups]
      by_cases hlast : off / 128 - 1 < 128
      · rw [if_pos hlast, if_pos (by omega), Nat.mod_eq_of_lt hlast]
        rfl
      · rw [if_neg hlast, if_neg (by omega), append_assoc]
        rfl

/-- The next group of an offset below `2 ^ 64`. -/
theorem next_group {m : Nat} (h : m < 2 ^ 64) (hm : 128 ≤ m) :
    m / 128 - 1 + 1 < 2 ^ 64 ∧ ((m / 128 - 1 + 1) <<< 7) % 2 ^ 64 ||| m % 128 = m := by
  have hsucc : m / 128 - 1 + 1 = m / 128 := by omega
  refine ⟨by omega, ?_⟩
  rw [hsucc, shift_or (by decide) (show m % 128 < 2 ^ 7 by omega)]
  omega

/-- After the continued groups of `m`, the loop goes on with `m`. -/
theorem readOfsVarint_groups {m : Nat} (h : m < 2 ^ 64) (rest : List UInt8) (pre : List UInt8) :
    readOfsVarint (pre ++ (ofsGroups m ++ rest)) pre.length =
      readOfsVarintLoop rest m (pre.length + (ofsGroups m).length) := by
  induction m using Nat.strongRecOn generalizing rest with
  | ind m ih =>
    rw [ofsGroups]
    by_cases hsmall : m < 128
    · obtain ⟨hflag, hvalue⟩ := continued_group hsmall
      rw [if_pos hsmall, readOfsVarint, drop_left]
      dsimp only [cons_append, nil_append]
      rw [if_neg hflag, hvalue]
      rfl
    · obtain ⟨hlt, hnext⟩ := next_group h (Nat.le_of_not_lt hsmall)
      obtain ⟨hflag, hvalue⟩ := continued_group (Nat.mod_lt m (show 0 < 128 by decide))
      rw [if_neg hsmall, append_assoc, ih (m / 128 - 1) (by omega) (by omega)]
      dsimp only [cons_append, nil_append]
      rw [readOfsVarintLoop, if_neg (by omega)]
      rw [if_neg hflag, hvalue, hnext, length_append]
      rfl

/-- **An offset is read back** from what was written, wherever it stands. -/
theorem readOfsVarint_write {off : Nat} (h : off < 2 ^ 64) (pre rest : List UInt8) :
    readOfsVarint (pre ++ (writeOfsVarint off ++ rest)) pre.length =
      .ok (off, pre.length + (writeOfsVarint off).length) := by
  obtain ⟨hflag, hvalue⟩ := last_group (Nat.mod_lt off (show 0 < 128 by decide))
  rw [writeOfsVarint, writeOfsVarintLoop_eq]
  by_cases hsmall : off / 128 = 0
  · have hmod : off % 128 = off := Nat.mod_eq_of_lt (by omega)
    rw [hmod] at hflag hvalue
    rw [if_pos hsmall, hmod, readOfsVarint, drop_left]
    dsimp only [cons_append, nil_append]
    rw [if_pos hflag, hvalue]
    rfl
  · obtain ⟨hlt, hnext⟩ := next_group h (by omega)
    rw [if_neg hsmall, append_assoc, readOfsVarint_groups (by omega)]
    dsimp only [cons_append, nil_append]
    rw [readOfsVarintLoop, if_neg (by omega)]
    rw [if_pos hflag, hvalue, hnext, length_append]
    rfl

theorem readSizeVarintLoop_write {n result shift : Nat} (pos : Nat) (rest : List UInt8)
    (hr : result < 2 ^ shift) (hn : n * 2 ^ shift < 2 ^ 64) (hs : shift < 64) :
    readSizeVarintLoop (writeSizeVarint n ++ rest) result shift pos =
      .ok ((n * 2 ^ shift + result) % 2 ^ 64, pos + (writeSizeVarint n).length) := by
  induction n using Nat.strongRecOn generalizing result shift pos with
  | ind n ih =>
    rw [writeSizeVarint]
    split_ifs with hsmall
    all_goals
      rw [cons_append, readSizeVarintLoop, if_neg (Nat.not_le_of_lt hs), Nat.or_comm,
        shift_or hs.le hr]
      dsimp only
    · obtain ⟨hflag, hvalue⟩ := last_group (m := n) (by omega)
      rw [if_pos hflag, hvalue, length_singleton]
    · have hmod : n % 128 < 128 := Nat.mod_lt n (by decide)
      obtain ⟨hflag, hvalue⟩ := continued_group hmod
      have hroom := add_group_lt hr hmod
      have hsplit := split_group n shift
      -- `n` has more than one group, so the next shift is inside the word.
      have hnext : 2 ^ (shift + 7) ≤ n / 128 * 2 ^ (shift + 7) :=
        Nat.le_mul_of_pos_left _ (by omega)
      have hs7 : shift + 7 < 64 := (Nat.pow_lt_pow_iff_right (by decide : 1 < 2)).mp (by omega)
      rw [if_neg hflag, hvalue, if_neg (by omega), Nat.mod_eq_of_lt (by omega),
        ih (n / 128) (by omega) (pos + 1) hroom (by omega) hs7, ← Nat.add_assoc, hsplit,
        length_cons, Nat.add_right_comm, Nat.add_assoc pos]

/-- **Both varints are read back** from what was written, wherever it stands. -/
theorem varints_round_trip {n : Nat} (h : n < 2 ^ 64) (pre rest : List UInt8) :
    readOfsVarint (pre ++ (writeOfsVarint n ++ rest)) pre.length =
      .ok (n, pre.length + (writeOfsVarint n).length) ∧
    readSizeVarint (pre ++ (writeSizeVarint n ++ rest)) pre.length =
      .ok (n, pre.length + (writeSizeVarint n).length) := by
  refine ⟨readOfsVarint_write h pre rest, ?_⟩
  have hloop := readSizeVarintLoop_write (n := n) pre.length rest (show 0 < 2 ^ 0 by decide)
    (by simpa using h) (by decide)
  rw [readSizeVarint, drop_left, hloop, Nat.pow_zero, Nat.mul_one, Nat.add_zero,
    Nat.mod_eq_of_lt h]

theorem largest_read_back :
    let n := 2 ^ 64 - 1
    readOfsVarint (writeOfsVarint n ++ [7]) 0 = .ok (n, 0 + (writeOfsVarint n).length) ∧
      readSizeVarint (writeSizeVarint n ++ [7]) 0 = .ok (n, 0 + (writeSizeVarint n).length) :=
  varints_round_trip (by decide) [] [7]

/-! ### The digits in unbounded integers -/

/-- The value of a size varint: seven bits a byte, the lowest first. -/
def sizeValue : List UInt8 → Nat
  | [] => 0
  | b :: rest => (b &&& 0x7f).toNat + if b &&& 0x80 = 0 then 0 else sizeValue rest * 128

/-- The value of an offset after its continued groups have given `off`. -/
def ofsValueFrom (off : Nat) : List UInt8 → Nat
  | [] => off
  | c :: rest =>
    let off := (off + 1) * 128 + (c &&& 0x7f).toNat
    if c &&& 0x80 = 0 then off else ofsValueFrom off rest

/-- The value of an offset varint: the highest group first, one more at each continuation. -/
def ofsValue : List UInt8 → Nat
  | [] => 0
  | c :: rest => if c &&& 0x80 = 0 then (c &&& 0x7f).toNat else ofsValueFrom (c &&& 0x7f).toNat rest

theorem group_lt (b : UInt8) : (b &&& 0x7f).toNat < 128 := by
  rw [UInt8.toNat_and]
  exact Nat.and_lt_two_pow _ (show 127 < 2 ^ 7 by decide)

/-- The size reader gives the value modulo `2 ^ 64`. -/
theorem readSizeVarintLoop_value {data : List UInt8} {result shift pos v e : Nat}
    (hr : result < 2 ^ shift) (h : readSizeVarintLoop data result shift pos = .ok (v, e)) :
    v = (sizeValue data * 2 ^ shift + result) % 2 ^ 64 := by
  induction data generalizing result shift pos with
  | nil => cases h
  | cons b rest ih =>
    simp only [readSizeVarintLoop] at h
    split_ifs at h with hshift hlast hlong
    all_goals rw [Nat.or_comm, shift_or (by omega) hr] at h
    · cases h
      simp [sizeValue, hlast]
    · have hroom := add_group_lt hr (group_lt b)
      have hfit : 2 ^ (shift + 7) < 2 ^ 64 := Nat.pow_lt_pow_right (by decide) (by omega)
      rw [Nat.mod_eq_of_lt (by omega)] at h
      rw [ih hroom h, sizeValue, if_neg hlast]
      ring_nf

theorem readOfsVarintLoop_value {data : List UInt8} {off w pos v e : Nat} (hoff : off = w % 2 ^ 64)
    (h : readOfsVarintLoop data off pos = .ok (v, e)) : v = ofsValueFrom w data % 2 ^ 64 := by
  induction data generalizing off w pos with
  | nil => cases h
  | cons c rest ih =>
    simp only [readOfsVarintLoop] at h
    have hstep : ((off + 1) <<< 7) % 2 ^ 64 ||| (c &&& 0x7f).toNat =
        ((w + 1) * 128 + (c &&& 0x7f).toNat) % 2 ^ 64 := by
      rw [shift_or (by decide) (group_lt c)]
      omega
    split_ifs at h with hover hlast
    · cases h
      simpa [ofsValueFrom, hlast] using hstep
    · simpa [ofsValueFrom, hlast] using ih hstep h

theorem readOfsVarint_value {data : List UInt8} {pos v e : Nat}
    (h : readOfsVarint data pos = .ok (v, e)) : v = ofsValue (data.drop pos) % 2 ^ 64 := by
  unfold readOfsVarint at h
  split at h
  · cases h
  · rename_i c rest hdrop
    have hmod : (c &&& 0x7f).toNat = (c &&& 0x7f).toNat % 2 ^ 64 :=
      (Nat.mod_eq_of_lt (Nat.lt_trans (group_lt c) (by decide))).symm
    dsimp only at h
    rw [hdrop, ofsValue]
    split_ifs at h ⊢ with hlast
    · cases h
      exact hmod
    · exact readOfsVarintLoop_value hmod h

/-- A number is the same modulo `2 ^ 64` iff it is below. -/
theorem eq_iff_of_eq_mod {v w : Nat} (h : v = w % 2 ^ 64) : v = w ↔ w < 2 ^ 64 := by omega

/-- **What a varint reader accepts is exact iff the value of its digits fits**: a shift drops the
bits that it moves out and no check sees it. -/
theorem varints_exact_iff (data : List UInt8) (pos : Nat) :
    (∀ v e, readSizeVarint data pos = .ok (v, e) →
      (v = sizeValue (data.drop pos) ↔ sizeValue (data.drop pos) < 2 ^ 64)) ∧
    ∀ v e, readOfsVarint data pos = .ok (v, e) →
      (v = ofsValue (data.drop pos) ↔ ofsValue (data.drop pos) < 2 ^ 64) := by
  refine ⟨fun v e h => eq_iff_of_eq_mod ?_, fun v e h => eq_iff_of_eq_mod (readOfsVarint_value h)⟩
  simpa using readSizeVarintLoop_value (by simp) h

theorem two_groups_exact :
    readSizeVarint [0xac, 2] 0 = .ok (300, 2) ∧ 300 = sizeValue [0xac, 2] :=
  ⟨by decide, ((varints_exact_iff [0xac, 2] 0).1 300 2 (by decide)).mpr (by decide)⟩

/-- Ten groups with bit 64 and nine with it: both are read as zero. -/
theorem varints_truncated :
    readSizeVarint (replicate 9 0x80 ++ [2]) 0 = .ok (0, 10) ∧
      sizeValue (replicate 9 0x80 ++ [2]) = 2 ^ 64 ∧
    readOfsVarint [0x80, 0xfe, 0xfe, 0xfe, 0xfe, 0xfe, 0xfe, 0xfe, 0xff, 0] 0 = .ok (0, 10) ∧
      ofsValue [0x80, 0xfe, 0xfe, 0xfe, 0xfe, 0xfe, 0xfe, 0xfe, 0xff, 0] = 2 ^ 64 := by
  decide

end Ledge.Core
