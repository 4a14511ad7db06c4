import Ledge.Core.Delta
import Ledge.Objects.Graph

/-!
# Ledge.Objects.Loose

The files of loose objects (`disk.rs`), down to their bytes: a header with the git name, the git
type and the encoding, and then the body.

The hash functions and zlib are parameters (`Primitives`). Of zlib the proofs use that a stream
inflates to what was deflated, whatever follows it.
-/

namespace Ledge.Objects

open Ledge.Core List

/-- The hash functions and zlib. Inflating reads one stream, and gives its content and length. -/
structure Primitives where
  blake3 : List UInt8 → ObjectId
  sha1 : List UInt8 → Sha1
  deflate : List UInt8 → List UInt8
  inflate : List UInt8 → Option (List UInt8 × Nat)
  inflate_deflate : ∀ content rest,
    inflate (deflate content ++ rest) = some (content, (deflate content).length)

/-- `ENC_RAW` -/
def encRaw : UInt8 := 0

/-- `ENC_ZLIB` -/
def encZlib : UInt8 := 1

/-- `ENC_DELTA` -/
def encDelta : UInt8 := 2

/-- `MAX_DECOMPRESSED` -/
def maxDecompressed : Nat := 2 * 1024 * 1024 * 1024

/-- The name of a git object type, if it is one. -/
def gitTypeName (gitType : UInt8) : Option String :=
  if gitType = 1 then some "commit"
  else if gitType = 2 then some "tree"
  else if gitType = 3 then some "blob"
  else if gitType = 4 then some "tag"
  else none

namespace Primitives

variable (P : Primitives)

/-- The canonical git name of an object. -/
def gitSha1 (typeName : String) (content : List UInt8) : Sha1 :=
  P.sha1 (strBytes (typeName ++ " " ++ toString content.length ++ "\x00") ++ content)

/-- The encoding of a body: a body that zlib does not shrink stays as it is. -/
def encodeBody (content : List UInt8) : UInt8 × List UInt8 :=
  let compressed := P.deflate content
  if compressed.length < content.length then (encZlib, compressed) else (encRaw, content)

/-- The file of a loose object. -/
def looseFile (typeName : String) (gitType : UInt8) (content : List UInt8) : List UInt8 :=
  let (enc, stored) := P.encodeBody content
  (P.gitSha1 typeName content).bytes ++ [gitType, enc, 0, 0] ++ stored

/-- `zlib_inflate` of `disk.rs`. The text of an error of zlib is left out. -/
def zlibInflate (data : List UInt8) (id : ObjectId) : Except LedgeError (List UInt8) :=
  match P.inflate data with
  | none => .error (.corruption ("object " ++ id.toHex ++ ": inflate"))
  | some (out, _) =>
    if maxDecompressed < out.length then
      .error (.corruption ("object " ++ id.toHex ++ ": inflated too large"))
    else .ok out

/-- The body of a loose file that is no delta. -/
def decodeBody (enc : UInt8) (stored : List UInt8) (id : ObjectId) :
    Except LedgeError (List UInt8) :=
  if enc = encRaw then .ok stored else P.zlibInflate stored id

/-- The body can be read again: it is at most 2 GiB long, or zlib does not shrink it. -/
def Fits (content : List UInt8) : Prop :=
  content.length ≤ maxDecompressed ∨ content.length ≤ (P.deflate content).length

instance (content : List UInt8) : Decidable (P.Fits content) := inferInstanceAs (Decidable (_ ∨ _))

variable {P} {typeName : String} {gitType : UInt8} {content : List UInt8}

theorem length_looseFile : 24 ≤ (P.looseFile typeName gitType content).length := by
  simp only [looseFile, length_append, Sha1.size, length_cons, length_nil]
  omega

theorem take_looseFile :
    (P.looseFile typeName gitType content).take 20 = (P.gitSha1 typeName content).bytes := by
  unfold looseFile
  dsimp only
  rw [append_assoc, take_left' (Sha1.size _)]

theorem type_looseFile : (P.looseFile typeName gitType content).getD 20 0 = gitType := by
  unfold looseFile
  dsimp only
  rw [append_assoc, getD_eq_getElem?_getD,
    getElem?_append_right (by rw [Sha1.size]), Sha1.size]
  rfl

theorem enc_looseFile :
    (P.looseFile typeName gitType content).getD 21 0 = (P.encodeBody content).1 := by
  unfold looseFile
  dsimp only
  rw [append_assoc, getD_eq_getElem?_getD,
    getElem?_append_right (by rw [Sha1.size]; decide), Sha1.size]
  rfl

theorem drop_looseFile :
    (P.looseFile typeName gitType content).drop 24 = (P.encodeBody content).2 := by
  unfold looseFile
  exact drop_left' (by rw [length_append, Sha1.size]; rfl)

theorem encodeBody_cases (P : Primitives) (content : List UInt8) :
    P.encodeBody content = (encZlib, P.deflate content) ∧
      (P.deflate content).length < content.length ∨
      P.encodeBody content = (encRaw, content) ∧ content.length ≤ (P.deflate content).length := by
  unfold encodeBody
  dsimp only
  split_ifs with h
  · exact Or.inl ⟨rfl, h⟩
  · exact Or.inr ⟨rfl, Nat.le_of_not_lt h⟩

/-- **A body is read back exactly if it fits.** -/
theorem decodeBody_encodeBody (P : Primitives) (content : List UInt8) (id : ObjectId) :
    P.decodeBody (P.encodeBody content).1 (P.encodeBody content).2 id =
      if P.Fits content then .ok content
      else .error (.corruption ("object " ++ id.toHex ++ ": inflated too large")) := by
  rcases P.encodeBody_cases content with ⟨h, hshrinks⟩ | ⟨h, hgrows⟩
  · have henc : encZlib ≠ encRaw := by decide
    have hinflate := P.inflate_deflate content []
    rw [append_nil] at hinflate
    rw [h, decodeBody, if_neg henc, zlibInflate, hinflate]
    dsimp only
    by_cases hlarge : maxDecompressed < content.length
    · have hnot : ¬ P.Fits content := fun hfits => hfits.elim (by omega) (by omega)
      rw [if_pos hlarge, if_neg hnot]
    · have hfits : P.Fits content := Or.inl (Nat.le_of_not_lt hlarge)
      rw [if_neg hlarge, if_pos hfits]
  · have hfits : P.Fits content := Or.inr hgrows
    rw [h, if_pos hfits]
    rfl

end Primitives

/-! ### Sample primitives -/

/-- A codec in which every byte is announced and an end mark closes the stream. -/
def announce (content : List UInt8) : List UInt8 := content.flatMap (fun b => [1, b]) ++ [0]

def readAnnounced : List UInt8 → Option (List UInt8 × Nat)
  | [] => none
  | [mark] => if mark = 0 then some ([], 1) else none
  | mark :: b :: rest =>
    if mark = 0 then some ([], 1)
    else if mark = 1 then (readAnnounced rest).map (fun x => (b :: x.1, x.2 + 2))
    else none

theorem readAnnounced_announce (content rest : List UInt8) :
    readAnnounced (announce content ++ rest) = some (content, (announce content).length) := by
  induction content with
  | nil => cases rest <;> rfl
  | cons b content ih =>
    have hcons : announce (b :: content) ++ rest = 1 :: b :: (announce content ++ rest) := rfl
    rw [hcons, readAnnounced, ih]
    rfl

/-- A checksum of one byte. -/
def checksum (content : List UInt8) : UInt8 := content.foldl (fun h b => h * 31 + b) 7

/-- Hashes of one byte, and a codec that never shrinks. -/
def samplePrimitives : Primitives where
  blake3 content := .fill (checksum content)
  sha1 content := .fill (checksum content)
  deflate := announce
  inflate := readAnnounced
  inflate_deflate := readAnnounced_announce

end Ledge.Objects
