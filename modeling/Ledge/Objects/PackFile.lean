import Ledge.Objects.Loose

/-!
# Ledge.Objects.PackFile

Reading from git packs (`git_pack_file.rs`): the `.lidx` table beside a pack leads from object ids
to offsets, and an entry of the pack is a whole object or a delta against an earlier or a named one.

A pack is read in full for each access and its entries are parsed where the table says that they
are. `.idx` files are for git itself and are left out.
-/

namespace Ledge.Objects

open Ledge.Core List

/-! ### The table -/

/-- The lowest `k` bytes of a number, the lowest first. -/
def leBytes : Nat → Nat → List UInt8
  | 0, _ => []
  | k + 1, n => UInt8.ofNat n :: leBytes k (n / 256)

def readLe : List UInt8 → Nat
  | [] => 0
  | b :: bytes => b.toNat + 256 * readLe bytes

@[simp] theorem length_leBytes (k n : Nat) : (leBytes k n).length = k := by
  induction k generalizing n with
  | zero => rfl
  | succ k ih => rw [leBytes, length_cons, ih]

theorem readLe_leBytes (k n : Nat) : readLe (leBytes k n) = n % 256 ^ k := by
  induction k generalizing n with
  | zero => rw [Nat.pow_zero, Nat.mod_one]; rfl
  | succ k ih =>
    have hpow : (256 : Nat) ^ (k + 1) = 256 * 256 ^ k := by rw [Nat.pow_succ, Nat.mul_comm]
    rw [leBytes, readLe, ih, UInt8.toNat_ofNat', hpow, Nat.mod_mul]

/-- A row of the table. -/
structure LidxEntry where
  oid : ObjectId
  sha1 : Sha1
  gitType : UInt8
  offset : Nat
  deriving DecidableEq

def LidxEntry.bytes (e : LidxEntry) : List UInt8 :=
  e.oid.bytes ++ (e.sha1.bytes ++ (e.gitType :: leBytes 8 e.offset))

/-- `LIDX_ROW` -/
def lidxRow : Nat := 61

/-- `write_lidx` -/
def writeLidx (entries : List LidxEntry) : List UInt8 :=
  leBytes 4 entries.length ++ entries.flatMap LidxEntry.bytes

/-- `ObjectId::from_bytes` of a slice -/
def ObjectId.ofSlice (bytes : List UInt8) : Option ObjectId :=
  if h : bytes.length = 32 then some ⟨bytes, h⟩ else none

/-- One row of `read_lidx`. -/
def LidxEntry.parse (data : List UInt8) : Option LidxEntry := do
  let oid ← ObjectId.ofSlice (data.take 32)
  let sha1 ← Sha1.ofSlice ((data.drop 32).take 20)
  let gitType ← data[52]?
  some ⟨oid, sha1, gitType, readLe ((data.drop 53).take 8)⟩

/-- The loop of `read_lidx`; that the data is long enough has been checked. -/
def readRows : Nat → List UInt8 → List LidxEntry
  | 0, _ => []
  | n + 1, data => (LidxEntry.parse data).toList ++ readRows n (data.drop lidxRow)

/-- `read_lidx` -/
def readLidx (data : List UInt8) : Except LedgeError (List LidxEntry) :=
  if data.length < 4 then .error (.corruption "lidx: truncated header")
  else
    let count := readLe (data.take 4)
    if data.length < 4 + count * lidxRow then .error (.corruption "lidx: truncated entries")
    else .ok (readRows count (data.drop 4))

theorem length_lidxEntry (e : LidxEntry) : e.bytes.length = lidxRow := by
  simp only [LidxEntry.bytes, length_append, ObjectId.size, Sha1.size, length_cons,
    length_leBytes]
  rfl

theorem parse_lidxEntry (e : LidxEntry) (rest : List UInt8) (h : e.offset < 2 ^ 64) :
    LidxEntry.parse (e.bytes ++ rest) = some e := by
  have hoid : (e.bytes ++ rest).take 32 = e.oid.bytes := by
    rw [LidxEntry.bytes, append_assoc, take_left' e.oid.size]
  have htail : (e.bytes ++ rest).drop 32 = e.sha1.bytes ++
      (e.gitType :: (leBytes 8 e.offset ++ rest)) := by
    rw [LidxEntry.bytes, append_assoc, drop_left' e.oid.size, append_assoc]
    rfl
  have hrest : (e.bytes ++ rest).drop 52 = e.gitType :: (leBytes 8 e.offset ++ rest) := by
    have hdrop : (e.bytes ++ rest).drop 52 = ((e.bytes ++ rest).drop 32).drop 20 := by
      rw [drop_drop]
    rw [hdrop, htail, drop_left' e.sha1.size]
  have hsha1 : ((e.bytes ++ rest).drop 32).take 20 = e.sha1.bytes := by
    rw [htail, take_left' e.sha1.size]
  have htype : (e.bytes ++ rest)[52]? = some e.gitType := by
    rw [← head?_drop, hrest]
    rfl
  have hoffset : ((e.bytes ++ rest).drop 53).take 8 = leBytes 8 e.offset := by
    have hdrop : (e.bytes ++ rest).drop 53 = ((e.bytes ++ rest).drop 52).drop 1 := by
      rw [drop_drop]
    rw [hdrop, hrest, drop_succ_cons, drop_zero, take_left' (length_leBytes 8 _)]
  have hvalue : readLe (leBytes 8 e.offset) = e.offset := by
    rw [readLe_leBytes]
    exact Nat.mod_eq_of_lt h
  unfold LidxEntry.parse
  rw [hoid, hsha1, htype, hoffset, hvalue, ObjectId.ofSlice, dif_pos e.oid.size, Sha1.ofSlice,
    dif_pos e.sha1.size]
  rfl

theorem readRows_flatMap (n : Nat) (entries : List LidxEntry) (h : ∀ e ∈ entries, e.offset < 2 ^ 64)
    (hn : n ≤ entries.length) : readRows n (entries.flatMap LidxEntry.bytes) = entries.take n := by
  induction n generalizing entries with
  | zero => rfl
  | succ n ih =>
    cases entries with
    | nil => cases hn
    | cons e entries =>
      rw [readRows, flatMap_cons, parse_lidxEntry e _ (h e mem_cons_self),
        drop_left' (length_lidxEntry e),
        ih entries (fun e' he' => h e' (mem_cons_of_mem e he')) (Nat.le_of_succ_le_succ hn)]
      rfl

theorem length_flatMap_lidxEntry (entries : List LidxEntry) :
    (entries.flatMap LidxEntry.bytes).length = entries.length * lidxRow := by
  induction entries with
  | nil => rfl
  | cons e entries ih =>
    rw [flatMap_cons, length_append, length_lidxEntry, ih, length_cons, Nat.succ_mul,
      Nat.add_comm]

/-- **The table is read back**, up to the width of its counter. -/
theorem readLidx_writeLidx (entries : List LidxEntry) (h : ∀ e ∈ entries, e.offset < 2 ^ 64) :
    readLidx (writeLidx entries) = .ok (entries.take (entries.length % 2 ^ 32)) := by
  have hcount : readLe ((writeLidx entries).take 4) = entries.length % 2 ^ 32 := by
    rw [writeLidx, take_left' (length_leBytes 4 _), readLe_leBytes]
    rfl
  have hle : entries.length % 2 ^ 32 ≤ entries.length := Nat.mod_le ..
  have hlength : (writeLidx entries).length = 4 + entries.length * lidxRow := by
    rw [writeLidx, length_append, length_leBytes, length_flatMap_lidxEntry]
  have hdrop : (writeLidx entries).drop 4 = entries.flatMap LidxEntry.bytes := by
    rw [writeLidx, drop_left' (length_leBytes 4 _)]
  have hmul : entries.length % 2 ^ 32 * lidxRow ≤ entries.length * lidxRow :=
    Nat.mul_le_mul_right _ hle
  unfold readLidx
  rw [hcount, hdrop, if_neg (by omega)]
  rw [if_neg (by omega), readRows_flatMap _ _ h hle]

/-! ### Entries of a pack -/

/-- `MAX_DELTA_DEPTH` of the reader -/
def maxDeltaDepth : Nat := 50

/-- `MAX_PACK_OBJECT` -/
def maxPackObject : Nat := 1024 * 1024 * 1024

/-- The loop of `parse_pack_obj_header`: `byte` is the last byte read, at position `i`. -/
def parseHeaderLoop : List UInt8 → UInt8 → Nat → Nat → Nat → Except LedgeError (Nat × Nat)
  | rest, byte, size, shift, i =>
    if byte &&& 0x80 = 0 then .ok (size, i + 1)
    else
      match rest with
      | [] => .error (.corruption "git_pack_file: truncated object header")
      | byte :: rest =>
        if 64 ≤ shift then .error (.corruption "git_pack_file: header size overflow")
        else
          parseHeaderLoop rest byte (size ||| ((byte &&& 0x7f).toNat <<< shift) % 2 ^ 64)
            (shift + 7) (i + 1)

/-- `parse_pack_obj_header`: the type, the size and the length of the header -/
def parsePackObjHeader (data : List UInt8) : Except LedgeError (UInt8 × Nat × Nat) :=
  match data with
  | [] => .error (.corruption "git_pack_file: empty object header")
  | first :: rest =>
    match parseHeaderLoop rest first (first &&& 0x0f).toNat 4 0 with
    | .error e => .error e
    | .ok (size, length) => .ok ((first >>> 4) &&& 0x07, size, length)

/-- `zlib_inflate` of `git_pack_file.rs`, with a smaller limit than that for loose objects. -/
def Primitives.packInflate (P : Primitives) (data : List UInt8) : Except LedgeError (List UInt8) :=
  match P.inflate data with
  | none => .error (.corruption "git_pack_file: zlib inflate failed")
  | some (out, _) =>
    if maxPackObject < out.length then
      .error (.corruption "git_pack_file: object exceeds size limit (corrupt or zlib bomb)")
    else .ok out

/-- A pack that is registered: its name and the rows of its table. The body stays in its file. -/
structure GitPackFile where
  name : ObjectId
  rows : List LidxEntry
  deriving DecidableEq

namespace GitPackFile

variable (P : Primitives) (pf : GitPackFile)

/-- The row of an object. In the maps of the source the last row wins. -/
def row (id : ObjectId) : Option LidxEntry := pf.rows.reverse.find? (fun e => e.oid = id)

/-- `contains` -/
def contains (id : ObjectId) : Bool := (pf.row id).isSome

/-- `oids`, in some order -/
def oids : List ObjectId := pf.rows.map LidxEntry.oid

/-- `git_type_of` -/
def gitTypeOf (id : ObjectId) : Option UInt8 := (pf.row id).map LidxEntry.gitType

/-- `sha1_of` -/
def sha1Of (id : ObjectId) : Option Sha1 := (pf.row id).map LidxEntry.sha1

/-- `sha1_to_offset` and `sha1_to_oid` -/
def named (sha1 : Sha1) : Option LidxEntry := pf.rows.reverse.find? (fun e => e.sha1 = sha1)

/-- `offset_to_oid` -/
def oidAt (offset : Nat) : Option ObjectId :=
  (pf.rows.reverse.find? (fun e => e.offset = offset)).map LidxEntry.oid

/-- The magic number that `read_pack` looks for -/
def isPack (pack : List UInt8) : Bool := 12 ≤ pack.length && pack.take 4 == strBytes "PACK"

/-- `read_at`, with the number of deltas that may still be opened -/
def readAt (pack : List UInt8) : Nat → Nat → Except LedgeError (List UInt8)
  | 0, _ => .error (.corruption "git_pack_file: delta chain too deep")
  | links + 1, offset =>
    if pack.length < offset then .error (.corruption "git_pack_file: offset out of range")
    else
      let data := pack.drop offset
      match parsePackObjHeader data with
      | .error e => .error e
      | .ok (gitType, _, hdrLen) =>
        if 1 ≤ gitType ∧ gitType ≤ 4 then P.packInflate (data.drop hdrLen)
        else if gitType = 7 then
          match Sha1.ofSlice ((data.drop hdrLen).take 20) with
          | none => .error (.corruption "git_pack_file: truncated ref-delta base")
          | some baseSha1 =>
            match P.packInflate (data.drop (hdrLen + 20)) with
            | .error e => .error e
            | .ok delta =>
              match pf.named baseSha1 with
              | none => .error (.corruption "git_pack_file: ref-delta base not in pack")
              | some e =>
                match readAt pack links e.offset with
                | .error e => .error e
                | .ok base => applyDelta base delta
        else if gitType = 6 then
          match readOfsVarint data hdrLen with
          | .error e => .error e
          | .ok (rel, afterOfs) =>
            if offset < rel then .error (.corruption "git_pack_file: ofs-delta base underflow")
            else
              match P.packInflate (data.drop afterOfs) with
              | .error e => .error e
              | .ok delta =>
                match readAt pack links (offset - rel) with
                | .error e => .error e
                | .ok base => applyDelta base delta
        else
          .error (.corruption ("git_pack_file: unknown pack object type " ++
            toString gitType.toNat))

/-- `read`, given the file of the pack -/
def read (pack : Option (List UInt8)) (id : ObjectId) : Except LedgeError (Option (List UInt8)) :=
  match pf.row id with
  | none => .ok none
  | some e =>
    match pack with
    | none => .error .io
    | some pack =>
      if isPack pack then
        match readAt P pf pack (maxDeltaDepth + 1) e.offset with
        | .error e => .error e
        | .ok content => .ok (some content)
      else .error (.corruption "git_pack_file: bad pack magic")

/-- `delta_base_of`, given the file of the pack -/
def deltaBaseOf (pack : Option (List UInt8)) (id : ObjectId) :
    Except LedgeError (Option ObjectId) :=
  match pf.row id with
  | none => .ok none
  | some e =>
    match pack with
    | none => .error .io
    | some pack =>
      if !isPack pack then .error (.corruption "git_pack_file: bad pack magic")
      else if pack.length < e.offset then .error (.corruption "git_pack_file: offset out of range")
      else
        let data := pack.drop e.offset
        match parsePackObjHeader data with
        | .error e => .error e
        | .ok (gitType, _, hdrLen) =>
          if gitType = 7 then
            match Sha1.ofSlice ((data.drop hdrLen).take 20) with
            | none => .error (.corruption "git_pack_file: truncated ref-delta base")
            | some baseSha1 => .ok ((pf.named baseSha1).map LidxEntry.oid)
          else if gitType = 6 then
            match readOfsVarint data hdrLen with
            | .error e => .error e
            | .ok (rel, _) =>
              if e.offset < rel then
                .error (.corruption "git_pack_file: ofs-delta base underflow")
              else .ok (pf.oidAt (e.offset - rel))
          else .ok none

end GitPackFile

end Ledge.Objects
