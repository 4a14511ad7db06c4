import Ledge.Objects.PackFile
import Mathlib.Data.List.Perm.Basic
import Mathlib.Data.List.Nodup

/-!
# Ledge.Objects.PackWriter

Writing git packs (`git_pack.rs`), and **what was written is read back** (`readAt_writeGitPack`).

The delta encoder is a parameter without a law: whatever it proposes, the writer applies the delta
and compares before it takes it. The `.idx` that `write_git_pack` also returns is for git itself and
is left out.
-/

namespace Ledge.Objects

open Ledge.Core List GitPackFile

structure PackObject where
  gitType : UInt8
  content : List UInt8
  sha1 : Sha1
  nameHash : UInt32
  deriving DecidableEq

/-- `pack_name_hash` -/
def packNameHash (name : List UInt8) : UInt32 :=
  name.foldl (fun hash c =>
    if isAsciiWhitespace c then hash else (hash >>> 2) + (c.toUInt32 <<< 24)) 0

/-! ### Headers of entries -/

/-- The byte with the continuation bit. -/
def continued (b : UInt8) : UInt8 := b ||| 0x80

/-- The loop of `write_obj_header` -/
def writeObjHeaderLoop (byte : UInt8) (size : Nat) : List UInt8 :=
  if size = 0 then [byte]
  else continued byte :: writeObjHeaderLoop (UInt8.ofNat (size % 128)) (size / 128)

/-- `write_obj_header` -/
def writeObjHeader (gitType : UInt8) (size : Nat) : List UInt8 :=
  writeObjHeaderLoop ((gitType <<< 4) ||| UInt8.ofNat (size % 16)) (size / 16)

/-- The bits of a byte below the continuation bit are kept when it is set. -/
theorem continued_bits (b : UInt8) : continued b &&& 0x80 ≠ 0 ∧ continued b &&& 0x7f = b &&& 0x7f ∧
    continued b &&& 0x0f = b &&& 0x0f ∧ (continued b >>> 4 &&& 0x07 : UInt8) =
      b >>> 4 &&& 0x07 := by
  have hall : ∀ i : Fin 256, continued (UInt8.ofNat i) &&& 0x80 ≠ 0 ∧
      continued (UInt8.ofNat i) &&& 0x7f = UInt8.ofNat i &&& 0x7f ∧
      continued (UInt8.ofNat i) &&& 0x0f = UInt8.ofNat i &&& 0x0f ∧
      (continued (UInt8.ofNat i) >>> 4 &&& 0x07 : UInt8) = UInt8.ofNat i >>> 4 &&& 0x07 := by
    decide +kernel
  have hb := hall ⟨b.toNat, b.toNat_lt⟩
  rwa [UInt8.ofNat_toNat] at hb

variable {gitType : UInt8} {size : Nat}

theorem first_byte (h : gitType < 8) {m : Nat} (hm : m < 16) :
    ((gitType <<< 4) ||| UInt8.ofNat m) &&& 0x80 = 0 ∧
      (((gitType <<< 4) ||| UInt8.ofNat m) &&& 0x0f).toNat = m ∧
      (((gitType <<< 4) ||| UInt8.ofNat m) >>> 4) &&& 0x07 = gitType := by
  have hall : ∀ i : Fin 8, ∀ j : Fin 16,
      ((UInt8.ofNat i <<< 4) ||| UInt8.ofNat j) &&& 0x80 = 0 ∧
        (((UInt8.ofNat i <<< 4) ||| UInt8.ofNat j) &&& 0x0f).toNat = j ∧
        (((UInt8.ofNat i <<< 4) ||| UInt8.ofNat j) >>> 4) &&& 0x07 = UInt8.ofNat i := by
    decide +kernel
  have hij := hall ⟨gitType.toNat, h⟩ ⟨m, hm⟩
  rwa [UInt8.ofNat_toNat] at hij

theorem writeObjHeaderLoop_cons (byte : UInt8) (size : Nat) : ∃ tail,
    writeObjHeaderLoop byte size = (if size = 0 then byte else continued byte) :: tail := by
  rw [writeObjHeaderLoop]
  split_ifs
  · exact ⟨_, rfl⟩
  · exact ⟨_, rfl⟩

theorem length_writeObjHeader_pos : 0 < (writeObjHeader gitType size).length := by
  obtain ⟨tail, h⟩ :=
    writeObjHeaderLoop_cons ((gitType <<< 4) ||| UInt8.ofNat (size % 16)) (size / 16)
  rw [writeObjHeader, h]
  exact Nat.succ_pos _

theorem parseHeaderLoop_write {byte b : UInt8} {acc shift i : Nat} {tail rest : List UInt8}
    (hbyte : byte &&& 0x80 = 0) (hwrite : writeObjHeaderLoop byte size = b :: tail)
    (hacc : acc < 2 ^ shift) (hfits : size * 2 ^ shift < 2 ^ 64) :
    parseHeaderLoop (tail ++ rest) b acc shift i =
      .ok (size * 2 ^ shift + acc, i + (writeObjHeaderLoop byte size).length) := by
  induction size using Nat.strongRecOn generalizing byte b acc shift i tail with
  | ind size ih =>
    rw [writeObjHeaderLoop] at hwrite ⊢
    by_cases hzero : size = 0
    · rw [if_pos hzero] at hwrite ⊢
      cases hwrite
      rw [parseHeaderLoop.eq_def]
      dsimp only
      rw [if_pos hbyte, hzero, Nat.zero_mul, Nat.zero_add]
      rfl
    · rw [if_neg hzero] at hwrite ⊢
      obtain ⟨rfl, htail⟩ := List.cons.inj hwrite
      obtain ⟨hflag, -, -, -⟩ := continued_bits byte
      obtain ⟨hclear, hvalue⟩ := last_group (Nat.mod_lt size (show 0 < 128 by decide))
      obtain ⟨tail', hnext⟩ := writeObjHeaderLoop_cons (UInt8.ofNat (size % 128)) (size / 128)
      rw [hnext] at htail
      have hshift : shift < 64 := by
        by_contra hge
        have hpow : 2 ^ 64 ≤ 2 ^ shift := Nat.pow_le_pow_right (by decide) (Nat.le_of_not_lt hge)
        have hone : 1 * 2 ^ shift ≤ size * 2 ^ shift := Nat.mul_le_mul_right _ (by omega)
        omega
      -- the next seven bits stand above those read so far
      have hbits : ((if size / 128 = 0 then UInt8.ofNat (size % 128)
          else continued (UInt8.ofNat (size % 128))) &&& 0x7f).toNat = size % 128 := by
        split_ifs
        · exact hvalue
        · rw [(continued_bits _).2.1]
          exact hvalue
      have hsplit := split_group size shift
      have hor : acc ||| (size % 128) <<< shift % 2 ^ 64 = size % 128 * 2 ^ shift + acc := by
        rw [Nat.or_comm, Nat.shiftLeft_eq, Nat.mod_eq_of_lt (by omega), ← Nat.shiftLeft_eq,
          Nat.shiftLeft_add_eq_or_of_lt hacc]
      have hnextAcc := add_group_lt hacc (Nat.mod_lt size (show 0 < 128 by decide))
      rw [← htail, parseHeaderLoop.eq_def]
      dsimp only [cons_append]
      rw [if_neg hflag, if_neg (by omega), hbits, hor,
        ih (size / 128) (by omega) hclear hnext hnextAcc (by omega), length_cons]
      congr 2
      · omega
      · omega

/-- **A header is read back.** -/
theorem parsePackObjHeader_write (htype : gitType < 8) (hsize : size < 2 ^ 64) (rest : List UInt8) :
    parsePackObjHeader (writeObjHeader gitType size ++ rest) =
      .ok (gitType, size, (writeObjHeader gitType size).length) := by
  have hmod : size % 16 < 16 := Nat.mod_lt size (by decide)
  obtain ⟨hclear, hlow, hhigh⟩ := first_byte htype hmod
  obtain ⟨tail, hwrite⟩ :=
    writeObjHeaderLoop_cons ((gitType <<< 4) ||| UInt8.ofNat (size % 16)) (size / 16)
  set first := if size / 16 = 0 then (gitType <<< 4) ||| UInt8.ofNat (size % 16)
    else continued ((gitType <<< 4) ||| UInt8.ofNat (size % 16)) with hfirst
  have hfirstLow : (first &&& 0x0f).toNat = size % 16 := by
    rw [hfirst]
    split_ifs
    · exact hlow
    · rw [(continued_bits _).2.2.1]
      exact hlow
  have hfirstHigh : (first >>> 4) &&& 0x07 = gitType := by
    rw [hfirst]
    split_ifs
    · exact hhigh
    · rw [(continued_bits _).2.2.2]
      exact hhigh
  have hsum : size / 16 * 2 ^ 4 + size % 16 = size := by omega
  have hloop : parseHeaderLoop (tail ++ rest) first (size % 16) 4 0 =
      .ok (size, (writeObjHeader gitType size).length) := by
    have h : parseHeaderLoop (tail ++ rest) first (size % 16) 4 0 =
        .ok (size / 16 * 2 ^ 4 + size % 16, 0 + (writeObjHeader gitType size).length) :=
      parseHeaderLoop_write hclear hwrite hmod (by omega)
    rwa [hsum, Nat.zero_add] at h
  rw [writeObjHeader] at hloop ⊢
  rw [hwrite] at hloop ⊢
  rw [cons_append, parsePackObjHeader, hfirstLow, hloop, hfirstHigh]

/-! ### Choosing bases -/

/-- What becomes of an object: its place in the input, its base with the delta if it has one, and
the length of its chain. -/
structure PackEntry where
  index : Nat
  object : PackObject
  base : Option (Nat × List UInt8)
  depth : Nat

/-- By type, by name and then the largest first. -/
def PackObject.before (a b : PackObject) : Bool :=
  ((compare a.gitType b.gitType).then ((compare a.nameHash b.nameHash).then
    (compare b.content.length a.content.length))) != .gt

/-- The order of the pack; the sort is stable. -/
def packOrder (objects : List PackObject) : List (PackObject × Nat) :=
  objects.zipIdx.mergeSort (fun a b => a.1.before b.1)

section

variable (P : Primitives) (encodeDelta : List UInt8 → List UInt8 → List UInt8)

/-- The base with the smallest delta, if that is smaller than the content. -/
def bestBase (target : PackObject) (window : List PackEntry) : Option (PackEntry × List UInt8) :=
  window.foldl (fun best b =>
    if b.object.gitType ≠ target.gitType then best
    else if maxDeltaDepth ≤ b.depth then best
    else
      let delta := encodeDelta b.object.content target.content
      if delta.length < (best.map (fun x => x.2.length)).getD target.content.length then
        some (b, delta)
      else best) none

/-- `matches!(apply_delta(base, delta), Ok(ref r) if r == target)` -/
def verified (base delta target : List UInt8) : Bool :=
  match applyDelta base delta with
  | .ok r => r = target
  | .error _ => false

/-- The best base, if its delta is right and pays. -/
def chooseBase (target : PackObject) (window : List PackEntry) : Option (PackEntry × List UInt8) :=
  match bestBase encodeDelta target window with
  | none => none
  | some (b, delta) =>
    if verified b.object.content delta target.content = true ∧
        (P.deflate delta).length < (P.deflate target.content).length then some (b, delta)
    else none

/-- The loop over the order; `recent` is the window of the last entries. -/
def selectBases (window : Nat) : List (PackObject × Nat) → List PackEntry → List PackEntry
  | [], _ => []
  | (object, index) :: order, recent =>
    let entry : PackEntry :=
      match chooseBase P encodeDelta object (recent.take window) with
      | none => ⟨index, object, none, 0⟩
      | some (b, delta) => ⟨index, object, some (b.index, delta), b.depth + 1⟩
    entry :: selectBases window order ((entry :: recent).take (max window 1))

/-- The bytes of an entry at an offset, given the offsets of the entries before it. -/
def PackEntry.bytes (e : PackEntry) (offset : Nat) (offsets : List (Nat × Nat)) : List UInt8 :=
  match e.base with
  | some (b, delta) =>
    writeObjHeader 6 delta.length ++
      (writeOfsVarint (offset - (offsets.lookup b).getD 0) ++ P.deflate delta)
  | none => writeObjHeader e.object.gitType e.object.content.length ++ P.deflate e.object.content

/-- The loop that lays out the pack. -/
def layOut : List PackEntry → List UInt8 → List (Nat × Nat) →
    Except LedgeError (List UInt8 × List (Nat × Nat))
  | [], pack, offsets => .ok (pack, offsets)
  | e :: entries, pack, offsets =>
    if 0x80000000 ≤ pack.length then
      .error (.corruption "git_pack: large-offset packs unsupported")
    else
      layOut entries (pack ++ e.bytes P pack.length offsets) ((e.index, pack.length) :: offsets)

def packHeader (n : Nat) : List UInt8 :=
  strBytes "PACK" ++ ((leBytes 4 2).reverse ++ (leBytes 4 n).reverse)

/-- `write_git_pack`: the pack, and the offset of each object in the order of the input -/
def writeGitPack (objects : List PackObject) (window : Nat) :
    Except LedgeError (List UInt8 × List Nat) :=
  match layOut P (selectBases P encodeDelta window (packOrder objects) [])
      (packHeader objects.length) [] with
  | .error e => .error e
  | .ok (pack, offsets) =>
    .ok (pack ++ (P.sha1 pack).bytes,
      (List.range objects.length).map (fun i => (offsets.lookup i).getD 0))

end

/-! ### The pack is read back -/

section

variable {P : Primitives} {encodeDelta : List UInt8 → List UInt8 → List UInt8}

/-- Every delta leads from an earlier entry to the object, in a chain that is short enough. -/
def Planned : List PackEntry → List PackEntry → Prop
  | _, [] => True
  | done, e :: entries =>
    e.depth ≤ maxDeltaDepth ∧
    (∀ b delta, e.base = some (b, delta) → ∃ d ∈ done, d.index = b ∧ e.depth = d.depth + 1 ∧
      applyDelta d.object.content delta = .ok e.object.content ∧
      delta.length < e.object.content.length) ∧
    Planned (e :: done) entries

variable {delta pack pack' : List UInt8} {target o : PackObject} {window : Nat} {b e : PackEntry}
  {done entries : List PackEntry} {pf : GitPackFile} {offsets offsets' : List (Nat × Nat)}
  {objects : List PackObject}

theorem verified_iff {base target : List UInt8} :
    verified base delta target = true ↔ applyDelta base delta = .ok target := by
  unfold verified
  split
  · rename_i r hr
    rw [hr, decide_eq_true_iff]
    exact ⟨fun h => h ▸ rfl, fun h => Except.ok.inj h⟩
  · rename_i e he
    rw [he]
    constructor
    · intro h
      cases h
    · intro h
      cases h

theorem mem_of_bestBase {window : List PackEntry}
    (h : bestBase encodeDelta target window = some (b, delta)) :
    b ∈ window ∧ b.depth < maxDeltaDepth ∧ delta.length < target.content.length := by
  -- the fold keeps what it has found so far
  have hfold : ∀ (window' : List PackEntry) (best : Option (PackEntry × List UInt8)),
      (∀ x ∈ best, x.1 ∈ window ∧ x.1.depth < maxDeltaDepth ∧ x.2.length < target.content.length) →
      (∀ b ∈ window', b ∈ window) →
      ∀ x ∈ window'.foldl (fun best b =>
        if b.object.gitType ≠ target.gitType then best
        else if maxDeltaDepth ≤ b.depth then best
        else
          let delta := encodeDelta b.object.content target.content
          if delta.length < (best.map (fun x => x.2.length)).getD target.content.length then
            some (b, delta)
          else best) best,
        x.1 ∈ window ∧ x.1.depth < maxDeltaDepth ∧ x.2.length < target.content.length := by
    intro window'
    induction window' with
    | nil => exact fun best hbest _ => hbest
    | cons b window' ih =>
      intro best hbest hsub
      rw [foldl_cons]
      refine ih _ ?_ fun b' hb' => hsub b' (mem_cons_of_mem b hb')
      intro x hx
      split_ifs at hx with htype hdepth
      · exact hbest x hx
      · exact hbest x hx
      · dsimp only at hx
        split_ifs at hx with hlen
        · cases hx
          refine ⟨hsub b mem_cons_self, Nat.lt_of_not_le hdepth, ?_⟩
          cases best with
          | none => exact hlen
          | some y => exact Nat.lt_trans hlen (hbest y rfl).2.2
        · exact hbest x hx
  exact hfold window none nofun (fun b hb => hb) (b, delta) h

theorem chooseBase_right {window : List PackEntry}
    (h : chooseBase P encodeDelta target window = some (b, delta)) :
    b ∈ window ∧ b.depth < maxDeltaDepth ∧ applyDelta b.object.content delta = .ok target.content ∧
      delta.length < target.content.length := by
  unfold chooseBase at h
  split at h
  · cases h
  · rename_i b' delta' hbest
    split_ifs at h with hright
    cases h
    obtain ⟨hmem, hdepth, hlen⟩ := mem_of_bestBase hbest
    exact ⟨hmem, hdepth, verified_iff.mp hright.1, hlen⟩

theorem planned_selectBases (window : Nat) (order : List (PackObject × Nat))
    {recent : List PackEntry} (hrecent : ∀ e ∈ recent, e ∈ done) :
    Planned done (selectBases P encodeDelta window order recent) := by
  induction order generalizing recent done with
  | nil => trivial
  | cons x order ih =>
    obtain ⟨object, index⟩ := x
    have hnext : ∀ e : PackEntry, ∀ e' ∈ (e :: recent).take (max window 1), e' ∈ e :: done := by
      intro e e' he'
      rcases mem_cons.mp (mem_of_mem_take he') with rfl | he'
      · exact mem_cons_self
      · exact mem_cons_of_mem e (hrecent e' he')
    rw [selectBases]
    cases hchoose : chooseBase P encodeDelta object (recent.take window) with
    | none =>
      refine ⟨Nat.zero_le _, ?_, ih (hnext _)⟩
      intro b delta hbase
      cases hbase
    | some y =>
      obtain ⟨d, delta⟩ := y
      obtain ⟨hmem, hdepth, happly, hlen⟩ := chooseBase_right hchoose
      refine ⟨hdepth, ?_, ih (hnext _)⟩
      intro b delta' hbase
      cases hbase
      exact ⟨d, hrecent d (mem_of_mem_take hmem), rfl, rfl, happly, hlen⟩

theorem map_selectBases (window : Nat) (order : List (PackObject × Nat)) (recent : List PackEntry) :
    (selectBases P encodeDelta window order recent).map (fun e => (e.object, e.index)) = order := by
  induction order generalizing recent with
  | nil => rfl
  | cons x order ih =>
    obtain ⟨object, index⟩ := x
    rw [selectBases, map_cons, ih]
    cases chooseBase P encodeDelta object (recent.take window) with
    | none | some y => rfl

/-- An entry can be read at an offset, whatever follows in the pack. -/
def ReadsAt (P : Primitives) (pf : GitPackFile) (pack : List UInt8) (e : PackEntry) (offset : Nat) :
    Prop :=
  ∀ rest links, e.depth < links →
    readAt P pf (pack ++ rest) links offset = .ok e.object.content

/-- The pack has an object that it can hold. -/
def PackObject.Packable (o : PackObject) : Prop :=
  1 ≤ o.gitType ∧ o.gitType ≤ 4 ∧ o.content.length ≤ maxPackObject

theorem packInflate_deflate {content : List UInt8} (h : content.length ≤ maxPackObject)
    (rest : List UInt8) : P.packInflate (P.deflate content ++ rest) = .ok content := by
  unfold Primitives.packInflate
  rw [P.inflate_deflate]
  dsimp only
  rw [if_neg (Nat.not_lt_of_le h)]

theorem readsAt_full (hpackable : e.object.Packable) (hbase : e.base = none) :
    ReadsAt P pf (pack ++ e.bytes P pack.length offsets) e pack.length := by
  obtain ⟨hlow, hhigh, hsize⟩ := hpackable
  have htype : e.object.gitType < 8 :=
    UInt8.lt_iff_toNat_lt.mpr (Nat.lt_of_le_of_lt (UInt8.le_iff_toNat_le.mp hhigh) (by decide))
  intro rest links hlinks
  obtain ⟨links, rfl⟩ : ∃ k, links = k + 1 := ⟨links - 1, by omega⟩
  rw [PackEntry.bytes, hbase]
  rw [append_assoc, append_assoc, readAt,
    if_neg (by rw [length_append]; omega)]
  dsimp only
  rw [drop_left, parsePackObjHeader_write htype (by unfold maxPackObject at hsize; omega)]
  dsimp only
  rw [if_pos ⟨hlow, hhigh⟩, drop_left, packInflate_deflate hsize]

theorem readsAt_delta {d : PackEntry} {b offset : Nat}
    (hsize : e.object.content.length ≤ maxPackObject) (hbase : e.base = some (b, delta))
    (hdepth : e.depth = d.depth + 1)
    (happly : applyDelta d.object.content delta = .ok e.object.content)
    (hlen : delta.length < e.object.content.length) (hoffset : offsets.lookup b = some offset)
    (hle : offset ≤ pack.length) (hpack : pack.length < 2 ^ 64)
    (hread : ReadsAt P pf pack d offset) :
    ReadsAt P pf (pack ++ e.bytes P pack.length offsets) e pack.length := by
  intro rest links hlinks
  obtain ⟨links, rfl⟩ : ∃ k, links = k + 1 := ⟨links - 1, by omega⟩
  have hbytes : e.bytes P pack.length offsets = writeObjHeader 6 delta.length ++
      (writeOfsVarint (pack.length - offset) ++ P.deflate delta) := by
    rw [PackEntry.bytes, hbase]
    dsimp only
    rw [hoffset]
    rfl
  have hbaseRead := hread (e.bytes P pack.length offsets ++ rest) links (by omega)
  rw [hbytes] at hbaseRead ⊢
  simp only [append_assoc] at hbaseRead ⊢
  rw [readAt, if_neg (by rw [length_append]; omega)]
  dsimp only
  rw [drop_left, parsePackObjHeader_write (show (6 : UInt8) < 8 by decide)
    (by unfold maxPackObject at hsize; omega)]
  dsimp only
  rw [if_neg (by decide), if_neg (by decide), if_pos rfl, readOfsVarint_write (by omega)]
  dsimp only
  rw [if_neg (by omega), Nat.sub_sub_self hle, hbaseRead, ← append_assoc, ← length_append,
    drop_left, packInflate_deflate (by omega)]
  exact happly

/-- The offsets of what has been laid out. -/
def LaidOut (P : Primitives) (pf : GitPackFile) (pack : List UInt8) (offsets : List (Nat × Nat))
    (done : List PackEntry) : Prop :=
  ∀ d ∈ done, d.depth ≤ maxDeltaDepth ∧ ∃ offset, offsets.lookup d.index = some offset ∧
    offset < 0x80000000 ∧ offset ≤ pack.length ∧ ReadsAt P pf pack d offset

theorem LaidOut.cons {bytes : List UInt8} (h : LaidOut P pf pack offsets done)
    (hne : ∀ d ∈ done, d.index ≠ e.index) (hdepth : e.depth ≤ maxDeltaDepth)
    (hpack : pack.length < 0x80000000) (hread : ReadsAt P pf (pack ++ bytes) e pack.length) :
    LaidOut P pf (pack ++ bytes) ((e.index, pack.length) :: offsets) (e :: done) := by
  have hlength : (pack ++ bytes).length = pack.length + bytes.length := length_append
  intro d hd
  rcases mem_cons.mp hd with rfl | hd
  · exact ⟨hdepth, pack.length, lookup_cons_self, hpack, by omega, hread⟩
  · obtain ⟨hdepth', offset, hoffset, hlt, hle, hread'⟩ := h d hd
    refine ⟨hdepth', offset, ?_, hlt, by omega, ?_⟩
    · rw [lookup_cons, beq_false_of_ne (hne d hd)]
      exact hoffset
    · intro rest links hlinks
      rw [append_assoc]
      exact hread' (bytes ++ rest) links hlinks

/-- **The layout keeps what it has laid out** and adds its entries. -/
theorem laidOut_layOut (hplan : Planned done entries) (hpackable : ∀ e ∈ entries, e.object.Packable)
    (hnodup : ((entries.reverse ++ done).map PackEntry.index).Nodup)
    (hlaid : LaidOut P pf pack offsets done)
    (h : layOut P entries pack offsets = .ok (pack', offsets')) :
    LaidOut P pf pack' offsets' (entries.reverse ++ done) := by
  induction entries generalizing done pack offsets with
  | nil =>
    cases h
    exact hlaid
  | cons e entries ih =>
    obtain ⟨hdepth, hbase, hplan⟩ := hplan
    have hsplit : (e :: entries).reverse ++ done = entries.reverse ++ (e :: done) := by
      rw [reverse_cons, append_assoc, singleton_append]
    rw [hsplit] at hnodup ⊢
    have hne : ∀ d ∈ done, d.index ≠ e.index := by
      rw [map_append] at hnodup
      intro d hd heq
      exact (nodup_cons.mp (nodup_append.mp hnodup).2.1).1
        (heq ▸ mem_map_of_mem hd)
    rw [layOut] at h
    split_ifs at h with hlarge
    have hobject := hpackable e mem_cons_self
    have hread : ReadsAt P pf (pack ++ e.bytes P pack.length offsets) e pack.length := by
      cases hcase : e.base with
      | none => exact readsAt_full hobject hcase
      | some y =>
        obtain ⟨b, delta⟩ := y
        obtain ⟨d, hd, rfl, hlink, happly, hlen⟩ := hbase b delta hcase
        obtain ⟨-, offset, hoffset, -, hle, hreadBase⟩ := hlaid d hd
        exact readsAt_delta hobject.2.2 hcase hlink happly hlen hoffset hle (by omega) hreadBase
    exact ih hplan (fun e' he' => hpackable e' (mem_cons_of_mem e he')) hnodup
      (hlaid.cons hne hdepth (Nat.lt_of_not_le hlarge) hread) h

theorem layOut_appends (h : layOut P entries pack offsets = .ok (pack', offsets')) :
    pack <+: pack' := by
  induction entries generalizing pack offsets with
  | nil =>
    cases h
    exact prefix_rfl
  | cons e entries ih =>
    rw [layOut] at h
    split_ifs at h
    exact (prefix_append _ _).trans (ih h)

theorem length_layOut (h : layOut P entries pack offsets = .ok (pack', offsets'))
    (hne : entries ≠ []) : pack.length + entries.length ≤ 0x80000000 := by
  induction entries generalizing pack offsets with
  | nil => exact absurd rfl hne
  | cons e entries ih =>
    rw [layOut] at h
    split_ifs at h with hlarge
    have hbytes : 0 < (e.bytes P pack.length offsets).length := by
      unfold PackEntry.bytes
      split
      · rw [length_append]
        exact Nat.add_pos_left length_writeObjHeader_pos _
      · rw [length_append]
        exact Nat.add_pos_left length_writeObjHeader_pos _
    cases entries with
    | nil =>
      rw [length_singleton]
      omega
    | cons e' entries =>
      have hrest := ih h (cons_ne_nil _ _)
      rw [length_append] at hrest
      rw [length_cons]
      omega

theorem offsets_layOut (h : layOut P entries pack offsets = .ok (pack', offsets'))
    (hoffsets : ∀ x ∈ offsets, x.2 < 0x80000000) : ∀ x ∈ offsets', x.2 < 0x80000000 := by
  induction entries generalizing pack offsets with
  | nil =>
    cases h
    exact hoffsets
  | cons e entries ih =>
    rw [layOut] at h
    split_ifs at h with hlarge
    refine ih h fun x hx => ?_
    rcases mem_cons.mp hx with rfl | hx
    · exact Nat.lt_of_not_le hlarge
    · exact hoffsets x hx

theorem length_packHeader (n : Nat) : (packHeader n).length = 12 := by
  rfl

theorem isPack_of_header {n : Nat} (h : packHeader n <+: pack) :
    isPack pack = true := by
  obtain ⟨rest, rfl⟩ := h
  have htake : (packHeader n ++ rest).take 4 = strBytes "PACK" := by
    rw [packHeader, append_assoc]
    exact take_left' rfl
  unfold isPack
  rw [htake, length_append, beq_self_eq_true, Bool.and_true]
  exact decide_eq_true (Nat.le_add_right ..)

/-- A pack that was written begins with its header, and ends in the hash of what comes before. -/
theorem body_writeGitPack {offsets : List Nat}
    (h : writeGitPack P encodeDelta objects window = .ok (pack, offsets)) :
    ∃ body, packHeader objects.length <+: body ∧ pack = body ++ (P.sha1 body).bytes := by
  unfold writeGitPack at h
  split at h
  · cases h
  · rename_i body table hlay
    cases h
    exact ⟨body, layOut_appends hlay, rfl⟩

theorem offsets_writeGitPack {offsets : List Nat}
    (h : writeGitPack P encodeDelta objects window = .ok (pack, offsets)) :
    offsets.length = objects.length ∧ objects.length ≤ 0x80000000 ∧ ∀ o ∈ offsets,
      o < 0x80000000 := by
  unfold writeGitPack at h
  split at h
  · cases h
  · rename_i body table hlay
    cases h
    have hlength : (selectBases P encodeDelta window (packOrder objects) []).length =
        objects.length := by
      rw [← length_map (fun e : PackEntry => (e.object, e.index)), map_selectBases, packOrder,
        length_mergeSort, length_zipIdx]
    refine ⟨by rw [length_map, length_range], ?_, fun o ho => ?_⟩
    · by_cases hnil : selectBases P encodeDelta window (packOrder objects) [] = []
      · rw [← hlength, hnil]
        exact Nat.zero_le _
      · have hroom := length_layOut hlay hnil
        omega
    · obtain ⟨i, -, rfl⟩ := mem_map.mp ho
      cases hlookup : table.lookup i with
      | none => decide
      | some offset =>
        obtain ⟨before, after, rfl, -⟩ := lookup_eq_some_iff.mp hlookup
        exact offsets_layOut hlay nofun _
          (mem_append_right before mem_cons_self)

/-- The pack of one object, before its trailer. -/
def singlePack (P : Primitives) (o : PackObject) : List UInt8 :=
  packHeader 1 ++ (writeObjHeader o.gitType o.content.length ++ P.deflate o.content)

theorem writeGitPack_singleton (o : PackObject) (window : Nat) :
    writeGitPack P encodeDelta [o] window =
      .ok (singlePack P o ++ (P.sha1 (singlePack P o)).bytes, [12]) := by
  have horder : packOrder [o] = [(o, 0)] := mergeSort_singleton _
  have hchoose : chooseBase P encodeDelta o ([].take window) = none := by
    rw [take_nil]
    rfl
  have hselect : selectBases P encodeDelta window [(o, 0)] [] = [⟨0, o, none, 0⟩] := by
    rw [selectBases, hchoose]
    rfl
  unfold writeGitPack
  rw [horder, hselect]
  rfl

/-- **An object that is too large for the reader is refused** where it was written. -/
theorem readAt_singlePack_large (hlow : 1 ≤ o.gitType) (hhigh : o.gitType ≤ 4)
    (hlarge : maxPackObject < o.content.length) (hsize : o.content.length < 2 ^ 64)
    (rest : List UInt8) (pf : GitPackFile) (links : Nat) : ∃ e,
      readAt P pf (singlePack P o ++ rest) (links + 1) 12 = .error e := by
  have htype : o.gitType < 8 :=
    UInt8.lt_iff_toNat_lt.mpr (Nat.lt_of_le_of_lt (UInt8.le_iff_toNat_le.mp hhigh) (by decide))
  have hdrop : (singlePack P o ++ rest).drop 12 =
      writeObjHeader o.gitType o.content.length ++ (P.deflate o.content ++ rest) := by
    rw [singlePack, append_assoc, drop_left' (length_packHeader 1), append_assoc]
  have hlength : ¬ (singlePack P o ++ rest).length < 12 := by
    rw [singlePack, length_append, length_append, length_packHeader]
    omega
  rw [readAt, if_neg hlength]
  dsimp only
  rw [hdrop, parsePackObjHeader_write htype hsize]
  dsimp only
  rw [if_pos ⟨hlow, hhigh⟩, drop_left, Primitives.packInflate, P.inflate_deflate]
  dsimp only
  rw [if_pos hlarge]
  exact ⟨_, rfl⟩

/-- **What was written is read back** at the offset that was returned for it. -/
theorem readAt_writeGitPack {offsets : List Nat} (hpackable : ∀ o ∈ objects, o.Packable)
    (h : writeGitPack P encodeDelta objects window = .ok (pack, offsets)) {i : Nat}
    (ho : objects[i]? = some o) (pf : GitPackFile) :
    ∃ offset, offsets[i]? = some offset ∧ offset < 0x80000000 ∧
      readAt P pf pack (maxDeltaDepth + 1) offset = .ok o.content := by
  unfold writeGitPack at h
  split at h
  · cases h
  · rename_i body table hlay
    cases h
    have hmap : (selectBases P encodeDelta window (packOrder objects) []).map
        (fun e => (e.object, e.index)) = packOrder objects := map_selectBases window _ []
    set entries := selectBases P encodeDelta window (packOrder objects) [] with hentries
    have hperm : (packOrder objects).Perm objects.zipIdx := mergeSort_perm _ _
    -- the entries carry the places of the input
    have hindexes : (entries.map PackEntry.index).Nodup := by
      have hsnd : entries.map PackEntry.index = (packOrder objects).map Prod.snd := by
        rw [← hmap, map_map]
        rfl
      rw [hsnd, (hperm.map Prod.snd).nodup_iff, zipIdx_map_snd]
      exact nodup_range'
    have hobjects : ∀ e ∈ entries, e.object.Packable := by
      intro e he
      have hmem : (e.object, e.index) ∈ packOrder objects := hmap ▸ mem_map_of_mem he
      exact hpackable _
        (mem_of_getElem? (mk_mem_zipIdx_iff_getElem?.mp (hperm.mem_iff.mp hmem)))
    have hlaid : LaidOut P pf body table (entries.reverse ++ []) := by
      refine laidOut_layOut (planned_selectBases window _ fun e he => he) hobjects ?_ ?_ hlay
      · rw [append_nil, map_reverse]
        exact nodup_reverse.mpr hindexes
      · intro d hd
        cases hd
    have hmem : (o, i) ∈ entries.map (fun e => (e.object, e.index)) := by
      rw [hmap]
      exact hperm.mem_iff.mpr (mk_mem_zipIdx_iff_getElem?.mpr ho)
    obtain ⟨e, he, heq⟩ := mem_map.mp hmem
    cases heq
    obtain ⟨hdepth, offset, hoffset, hlt, -, hread⟩ :=
      hlaid e (by rw [append_nil]; exact mem_reverse.mpr he)
    refine ⟨offset, ?_, hlt, hread _ _ (Nat.lt_succ_of_le hdepth)⟩
    have hlt' : e.index < objects.length := (List.getElem?_eq_some_iff.mp ho).1
    rw [getElem?_map, getElem?_range hlt', Option.map_some, hoffset]
    rfl

end

end Ledge.Objects
