import Ledge.Core.RefEntry
import Mathlib.Data.List.Infix

/-!
# Ledge.Core.RefName

Validated ref names (`ref_name.rs`). A Rust `str` is a Lean `String`: both are
byte sequences that are valid UTF-8, and the ref store sees only the bytes.

`RefName` carries its validity, so a name that is not NUL-free cannot be built.
-/

namespace Ledge.Core

/-- `str::as_bytes` -/
def strBytes (s : String) : List UInt8 := s.toByteArray.data.toList

theorem strBytes_injective : Function.Injective strBytes := by
  intro s t h
  apply String.toByteArray_inj.mp
  exact ByteArray.ext (Array.toList_inj.mp h)

theorem strBytes_append (s t : String) : strBytes (s ++ t) = strBytes s ++ strBytes t := by
  rfl

/-- `std::str::from_utf8`, as an option -/
def fromUtf8 (bytes : List UInt8) : Option String := String.fromUTF8? ⟨bytes.toArray⟩

@[simp] theorem fromUtf8_strBytes (s : String) : fromUtf8 (strBytes s) = some s := by
  have hvalid : ByteArray.IsValidUTF8 ⟨(strBytes s).toArray⟩ := s.isValidUTF8
  rw [fromUtf8, String.fromUTF8?, dif_pos hvalid]
  rfl

/-- `str::contains` on the bytes -/
def contains (s pat : String) : Bool :=
  (strBytes s).tails.any (fun t => (strBytes pat).isPrefixOf t)

/-- The checks of `RefName::new`: the first one that fails. -/
def refNameFault (s : String) : Option RefNameFault :=
  if !(strBytes "refs/").isPrefixOf (strBytes s) then some .mustStartWithRefs
  else if contains s ".." then some .containsDotDot
  else if contains s "//" then some .containsDoubleSlash
  else ((strBytes s).find? (fun b => b < 0x20 || b == 0x7f)).map .controlByte

theorem contains_iff {s pat : String} : contains s pat = true ↔ strBytes pat <:+: strBytes s := by
  simp [contains, List.infix_iff_prefix_suffix, and_comm]

theorem refNameFault_eq_none_iff {s : String} : refNameFault s = none ↔
    strBytes "refs/" <+: strBytes s ∧ ¬ strBytes ".." <:+: strBytes s ∧
      ¬ strBytes "//" <:+: strBytes s ∧ ∀ b ∈ strBytes s, ¬ (b < 0x20 || b == 0x7f) = true := by
  rw [← contains_iff, ← contains_iff, ← List.isPrefixOf_iff_prefix]
  unfold refNameFault
  split_ifs <;> simp_all

theorem refNameFault_of_prefix {s t : String} (hrefs : strBytes "refs/" <+: strBytes s)
    (hst : strBytes s <+: strBytes t) (h : refNameFault t = none) : refNameFault s = none := by
  obtain ⟨-, hdots, hslashes, hbytes⟩ := refNameFault_eq_none_iff.mp h
  exact refNameFault_eq_none_iff.mpr ⟨hrefs, fun h => hdots (h.trans hst.isInfix),
    fun h => hslashes (h.trans hst.isInfix), fun b hb => hbytes b (hst.subset hb)⟩

/-- A validated ref path. -/
structure RefName where
  asStr : String
  valid : refNameFault asStr = none
  deriving DecidableEq

namespace RefName

/-- `RefName::new` -/
def new (s : String) : Except LedgeError RefName :=
  match h : refNameFault s with
  | none => .ok ⟨s, h⟩
  | some fault => .error (.invalidRefName fault s)

/-- `name.as_str().as_bytes()` -/
def bytes (name : RefName) : List UInt8 := strBytes name.asStr

theorem bytes_injective : Function.Injective bytes := by
  rintro ⟨s, _⟩ ⟨t, _⟩ h
  have : s = t := strBytes_injective h
  subst this
  rfl

theorem asStr_of_new {s : String} {name : RefName} (h : new s = .ok name) : name.asStr = s := by
  rw [new] at h
  split at h
  · rw [← Except.ok.inj h]
  · cases h

theorem new_asStr (name : RefName) : new name.asStr = .ok name := by
  rw [new]
  split
  · rfl
  · rename_i fault h
    rw [name.valid] at h
    cases h

theorem nul_notMem_bytes (name : RefName) : (0x00 : UInt8) ∉ name.bytes := by
  intro hmem
  obtain ⟨-, -, -, hbytes⟩ := refNameFault_eq_none_iff.mp name.valid
  exact hbytes 0x00 hmem (by decide)

/-! Three names for concrete runs. -/

def headsA : RefName := ⟨"refs/heads/a", by decide⟩
def headsB : RefName := ⟨"refs/heads/b", by decide⟩
def headsC : RefName := ⟨"refs/heads/c", by decide⟩

end RefName

end Ledge.Core
