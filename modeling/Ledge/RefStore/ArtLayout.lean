import Ledge.RefStore.Art
import Mathlib.Data.FinEnum
import Mathlib.Data.Fintype.Card
import Mathlib.Order.Fin.Basic

/-!
# Ledge.RefStore.ArtLayout

The **child tables** of the four inner layouts.

Each layout stores a finite map from bytes to children. `child` reads that map
off the arrays, `Ok` is the layout's own invariant (sorted keys, an injective
`keyIndex`, a truthful `count`), and every layout function of
`Ledge.RefStore.Art` has one lemma saying what it does to `child` and that it
keeps `Ok`. Nothing above this module looks inside an array.
-/

namespace Ledge.RefStore

open Finset Function List Option UInt8

/-! ### Closed forms of the array loops -/

section

variable {N : Nat} {γ : Type}

@[simp] theorem setAt_self (a : Fin N → γ) (i : Fin N) (v : γ) : setAt a i.val v i = v := by
  simp [setAt]

theorem setAt_apply (a : Fin N → γ) (i : Nat) (v : γ) (j : Fin N) :
    setAt a i v j = if j.val = i then v else a j := rfl

theorem foldl_copyRight (pos m : Nat) (a : Fin N → γ) (j : Fin N) :
    (range' pos m).reverse.foldl copyRight a j =
      if h : pos < j.val ∧ j.val ≤ pos + m then a ⟨j.val - 1, by omega⟩ else a j := by
  induction m generalizing a with
  | zero =>
    rw [dif_neg (by omega)]
    rfl
  | succ m ih =>
    rw [range'_concat, reverse_append, reverse_singleton, singleton_append,
      foldl_cons, ih]
    simp only [copyRight]
    split_ifs with h₁ h₂ h₃ h₄ h₅ h₆
    all_goals first | rfl | omega | (congr 1; apply Fin.ext; simp; omega)

variable {pos count M : Nat}

/-- The shift-right loop moves `a[pos..count]` one slot up. -/
theorem shiftRight_apply (a : Fin N → γ) (hpos : pos ≤ count) (j : Fin N) :
    shiftRight a pos count j =
      if h : pos < j.val ∧ j.val ≤ count then a ⟨j.val - 1, by omega⟩ else a j := by
  rw [shiftRight, foldl_copyRight]
  simp only [Nat.add_sub_cancel' hpos]

theorem foldl_copyLeft (pos m : Nat) (a : Fin N → γ) (j : Fin N) :
    (range' pos m).foldl copyLeft a j =
      if h : (pos ≤ j.val ∧ j.val < pos + m) ∧ j.val + 1 < N then a ⟨j.val + 1, h.2⟩ else a j := by
  induction m generalizing j with
  | zero =>
    rw [dif_neg (by omega)]
    rfl
  | succ m ih =>
    rw [range'_concat, foldl_append, foldl_cons, foldl_nil, copyLeft]
    split_ifs with h₁ h₂ h₃
    · -- the slot this iteration writes; its source is still untouched
      rw [ih, dif_neg (by simp)]
      congr 1
      apply Fin.ext
      simp; omega
    · omega
    · rw [ih, dif_pos (by omega)]
    · rw [ih, dif_neg (by omega)]

theorem foldl_setAt (f : Fin M → γ) (l : List (Fin M)) (a : Fin N → γ) (j : Fin N) :
    l.foldl (fun a i => setAt a i.val (f i)) a j =
      if h : ∃ hj : j.val < M, (⟨j.val, hj⟩ : Fin M) ∈ l then f ⟨j.val, h.1⟩ else a j := by
  induction l generalizing a with
  | nil => simp
  | cons i l ih =>
    rw [foldl_cons, ih]
    by_cases hl : ∃ hj : j.val < M, (⟨j.val, hj⟩ : Fin M) ∈ l
    · rw [dif_pos hl, dif_pos ⟨hl.1, List.mem_cons_of_mem _ hl.2⟩]
    · rw [dif_neg hl, setAt_apply]
      by_cases hji : j.val = i.val
      · have hi : (⟨j.val, hji ▸ i.isLt⟩ : Fin M) = i := Fin.ext hji
        rw [if_pos hji, dif_pos ⟨hji ▸ i.isLt, by simp [hi]⟩, hi]
      · rw [if_neg hji, dif_neg]
        rintro ⟨hj, hmem⟩
        rcases List.mem_cons.mp hmem with heq | hmem
        · exact hji (congrArg Fin.val heq)
        · exact hl ⟨hj, hmem⟩

/-- Copying all `M` entries of one array into another. -/
theorem foldl_setAt_finRange (f : Fin M → γ) (a : Fin N → γ) (j : Fin N) :
    (finRange M).foldl (fun a i => setAt a i.val (f i)) a j =
      if h : j.val < M then f ⟨j.val, h⟩ else a j := by
  rw [foldl_setAt]
  simp

/-- The shift-left loop moves `a[pos + 1..count]` one slot down. -/
theorem shiftLeft_apply (a : Fin N → γ) (hpos : pos < count) (j : Fin N) :
    shiftLeft a pos count j =
      if h : (pos ≤ j.val ∧ j.val + 1 < count) ∧ j.val + 1 < N then a ⟨j.val + 1, h.2⟩
      else a j := by
  rw [shiftLeft, foldl_copyLeft]
  split_ifs with h₁ h₂ h₃
  · rfl
  · omega
  · omega
  · rfl

end

/-! ### The byte range -/

theorem mem_allBytes (b : UInt8) : b ∈ allBytes :=
  List.mem_map.mpr ⟨b.toNat, List.mem_range.mpr b.toNat_lt, UInt8.ofNat_toNat⟩

theorem allBytes_pairwise : allBytes.Pairwise (· < ·) := by
  refine pairwise_map.mpr (pairwise_lt_range.imp_of_mem fun {x y} hx hy hxy => ?_)
  have hx' := List.mem_range.mp hx
  have hy' := List.mem_range.mp hy
  rwa [lt_iff_toNat_lt, toNat_ofNat_of_lt' (by simpa [UInt8.size] using hx'),
    toNat_ofNat_of_lt' (by simpa [UInt8.size] using hy')]

section Ordered

variable {α : Type} {lt : α → α → Prop} {l₁ l₂ : List α}

theorem nodup_of_ordered (hlt : ∀ x y, lt x y → ¬ lt y x) (h : l₁.Pairwise lt) : l₁.Nodup :=
  h.imp fun {x y} hxy => by
    rintro rfl
    exact hlt x x hxy hxy

theorem eq_of_ordered (hlt : ∀ x y, lt x y → ¬ lt y x) (h₁ : l₁.Pairwise lt) (h₂ : l₂.Pairwise lt)
    (hmem : ∀ x, x ∈ l₁ ↔ x ∈ l₂) : l₁ = l₂ :=
  List.Perm.eq_of_pairwise (fun x y _ _ hxy hyx => absurd hyx (hlt x y hxy)) h₁ h₂
    ((perm_ext_iff_of_nodup (nodup_of_ordered hlt h₁) (nodup_of_ordered hlt h₂)).mpr hmem)

end Ordered

theorem allBytes_nodup : allBytes.Nodup :=
  nodup_of_ordered (fun _ _ => UInt8.lt_asymm) allBytes_pairwise

/-- Counting with `allBytes` is counting in the finite type of bytes. -/
theorem length_filter_allBytes (p : UInt8 → Prop) [DecidablePred p] :
    (allBytes.filter (fun b => decide (p b))).length = (univ.filter p).card := by
  rw [← toFinset_card_of_nodup (allBytes_nodup.filter _)]
  congr 1
  ext b
  simp [mem_allBytes]

/-! ### `Node4` and `Node16` -/

namespace SortedNode

variable {N : Nat} {β : Type} {n : SortedNode N β}

/-- The child under `byte`. -/
def child (n : SortedNode N β) (byte : UInt8) : Option β :=
  (n.position byte).bind n.children

/-- The layout invariant: the first `count` slots, and only those, are occupied, and
their key bytes ascend strictly. -/
structure Ok (n : SortedNode N β) : Prop where
  count_le : n.count ≤ N
  sorted : ∀ i j : Fin N, i < j → j.val < n.count → n.keys i < n.keys j
  filled : ∀ i : Fin N, (n.children i).isSome ↔ i.val < n.count

theorem Ok.sorted_val (h : n.Ok) {i j : Nat} {hi : i < N} {hj : j < N} (hij : i < j)
    (hc : j < n.count) : n.keys ⟨i, hi⟩ < n.keys ⟨j, hj⟩ :=
  h.sorted _ _ hij hc

variable {i pos : Fin N} {byte : UInt8}

theorem Ok.keys_inj (h : n.Ok) {j : Fin N} (hi : i.val < n.count) (hj : j.val < n.count)
    (hij : n.keys i = n.keys j) : i = j := by
  rcases lt_trichotomy i j with hlt | heq | hgt
  · exact absurd (hij ▸ h.sorted i j hlt hj) (by simp)
  · exact heq
  · exact absurd (hij ▸ h.sorted j i hgt hi) (by simp)

theorem position_eq_none_iff :
    n.position byte = none ↔ ∀ i : Fin N, i.val < n.count → n.keys i ≠ byte := by
  simp [position]

theorem Ok.position_eq_some_iff (h : n.Ok) :
    n.position byte = some i ↔ i.val < n.count ∧ n.keys i = byte := by
  constructor
  · intro hp
    have hpred := find?_some hp
    simpa using hpred
  · rintro ⟨hi, hk⟩
    cases hp : n.position byte with
    | none => exact absurd hk (position_eq_none_iff.mp hp i hi)
    | some j =>
      have hj := find?_some hp
      simp only [Bool.and_eq_true, decide_eq_true_eq, beq_iff_eq] at hj
      rw [h.keys_inj hj.1 hi (hj.2.trans hk.symm)]

theorem Ok.occupied_eq_position (h : n.Ok) (byte : UInt8) :
    n.occupied byte = n.position byte := by
  unfold occupied position
  congr 1
  funext i
  by_cases hi : i.val < n.count
  · simp [(h.filled i).mpr hi]
  · simp [hi]

theorem Ok.child_eq_some_iff (h : n.Ok) {c : β} :
    n.child byte = some c ↔
      ∃ i : Fin N, i.val < n.count ∧ n.keys i = byte ∧ n.children i = some c := by
  rw [child, bind_eq_some_iff]
  constructor
  · rintro ⟨i, hp, hc⟩
    obtain ⟨hi, hk⟩ := h.position_eq_some_iff.mp hp
    exact ⟨i, hi, hk, hc⟩
  · rintro ⟨i, hi, hk, hc⟩
    exact ⟨i, h.position_eq_some_iff.mpr ⟨hi, hk⟩, hc⟩

theorem Ok.child_eq_none_iff (h : n.Ok) : n.child byte = none ↔ n.position byte = none := by
  cases hp : n.position byte with
  | none => simp [child, hp]
  | some i =>
    have hi := (h.position_eq_some_iff.mp hp).1
    obtain ⟨c, hc⟩ := isSome_iff_exists.mp ((h.filled i).mpr hi)
    simp [child, hp, hc]

theorem Ok.count_eq_zero_iff (h : n.Ok) : n.count = 0 ↔ ∀ byte, n.child byte = none := by
  constructor
  · intro h0 byte
    rw [h.child_eq_none_iff, position_eq_none_iff]
    intro i hi
    omega
  · intro hnone
    by_contra hpos
    have hN : 0 < N := by have := h.count_le; omega
    have hp := h.child_eq_none_iff.mp (hnone (n.keys ⟨0, hN⟩))
    exact position_eq_none_iff.mp hp ⟨0, hN⟩ (by simp; omega) rfl

/-! #### Overwriting a child -/

theorem Ok.setChild (h : n.Ok) (hi : i.val < n.count) (c : β) : (n.setChild i c).Ok := by
  refine ⟨h.count_le, h.sorted, fun j => ?_⟩
  simp only [SortedNode.setChild, setAt_apply]
  split_ifs with hj
  · simp [hj, hi]
  · exact h.filled j

theorem Ok.child_setChild (h : n.Ok) (hp : n.position byte = some i) (c : β) :
    (n.setChild i c).child = Function.update n.child byte (some c) := by
  funext b
  rw [update_apply]
  have hpos : (n.setChild i c).position b = n.position b := rfl
  obtain ⟨hi, hk⟩ := h.position_eq_some_iff.mp hp
  by_cases hb : b = byte
  · subst hb
    rw [child, hpos, hp]
    simp [SortedNode.setChild]
  · rw [if_neg hb, child, hpos, child]
    cases hp' : n.position b with
    | none => rfl
    | some j =>
      have hne : j.val ≠ i.val := by
        intro hji
        have hkj := (h.position_eq_some_iff.mp hp').2
        rw [Fin.ext hji, hk] at hkj
        exact hb hkj.symm
      simp [SortedNode.setChild, setAt_apply, hne]

/-! #### Sorted insertion -/

/-- `insertPos` splits the occupied slots: bytes at most `byte` before it, larger ones
from it on. -/
theorem Ok.insertPos_spec (h : n.Ok) (byte : UInt8) :
    n.insertPos byte ≤ n.count ∧
    (∀ i : Fin N, i.val < n.insertPos byte → ¬ byte < n.keys i) ∧
    (∀ i : Fin N, n.insertPos byte ≤ i.val → i.val < n.count → byte < n.keys i) := by
  unfold insertPos
  cases hf : (finRange N).find? (fun i => i.val < n.count && byte < n.keys i) with
  | none =>
    simp only [find?_eq_none, mem_finRange, Bool.and_eq_true, decide_eq_true_eq,
      not_and, forall_const] at hf
    exact ⟨le_refl _, hf, fun i h₁ h₂ => absurd h₂ (Nat.not_lt.mpr h₁)⟩
  | some p =>
    obtain ⟨hp, k, hk, hget, hbefore⟩ := find?_eq_some_iff_getElem.mp hf
    simp only [Bool.and_eq_true, decide_eq_true_eq] at hp
    have hkp : k = p.val := by rw [← hget]; simp
    refine ⟨Nat.le_of_lt hp.1, fun i hi hlt => ?_, fun i hi hc => ?_⟩
    · have hnot := hbefore i.val (by simp at hi; omega)
      simp only [getElem_finRange, Fin.cast_mk, Fin.eta] at hnot
      simp only [Bool.not_eq_true', Bool.and_eq_false_iff, decide_eq_false_iff_not] at hnot
      rcases hnot with hnot | hnot
      · simp at hi; omega
      · exact hnot hlt
    · rcases Nat.lt_or_eq_of_le hi with hlt | heq
      · have hs := h.sorted p i hlt hc
        rw [lt_iff_toNat_lt] at hs hp ⊢
        omega
      · rw [← Fin.ext heq]
        exact hp.2

theorem insertSorted_keys (h : n.Ok) (byte : UInt8) (c : β) (j : Fin N) :
    (n.insertSorted byte c).keys j =
      if j.val = n.insertPos byte then byte
      else if h : n.insertPos byte < j.val ∧ j.val ≤ n.count then n.keys ⟨j.val - 1, by omega⟩
      else n.keys j := by
  simp only [insertSorted, setAt_apply, shiftRight_apply _ (h.insertPos_spec byte).1]

theorem insertSorted_children (h : n.Ok) (byte : UInt8) (c : β) (j : Fin N) :
    (n.insertSorted byte c).children j =
      if j.val = n.insertPos byte then some c
      else if h : n.insertPos byte < j.val ∧ j.val ≤ n.count then n.children ⟨j.val - 1, by omega⟩
      else n.children j := by
  simp only [insertSorted, setAt_apply, shiftRight_apply _ (h.insertPos_spec byte).1]

theorem Ok.insertSorted (h : n.Ok) (hp : n.position byte = none) (hc : n.count < N) (c : β) :
    (n.insertSorted byte c).Ok := by
  obtain ⟨hle, hlo, hhi⟩ := h.insertPos_spec byte
  have hnew := position_eq_none_iff.mp hp
  -- strict bounds around the new byte, since it is not a key yet
  have hlo' : ∀ i : Fin N, i.val < n.insertPos byte → n.keys i < byte := by
    intro i hi
    have h₁ := hlo i hi
    have h₂ : (n.keys i).toNat ≠ byte.toNat := by
      intro heq
      exact hnew i (by omega) (UInt8.toNat_inj.mp heq)
    rw [lt_iff_toNat_lt] at h₁ ⊢
    omega
  have hhi' : ∀ {i : Nat} {hi : i < N}, n.insertPos byte ≤ i → i < n.count →
      byte < n.keys ⟨i, hi⟩ := fun h₁ h₂ => hhi _ h₁ h₂
  refine ⟨hc, fun i j hij hj => ?_, fun j => ?_⟩
  · have hj' : j.val < n.count + 1 := hj
    rw [insertSorted_keys h, insertSorted_keys h]
    split_ifs with h₁ h₂ h₃ h₄ h₅ h₆
    all_goals first
      | omega
      | exact hhi' (by omega) (by omega)
      | exact hlo' i (by omega)
      | exact h.sorted_val (by omega) (by omega)
  · have hcount : (n.insertSorted byte c).count = n.count + 1 := rfl
    rw [insertSorted_children h]
    split_ifs with h₁ h₂
    · simp; omega
    · rw [h.filled]; simp; omega
    · rw [h.filled]; omega

theorem Ok.child_insertSorted (h : n.Ok) (hp : n.position byte = none) (hc : n.count < N) (c : β) :
    (n.insertSorted byte c).child = Function.update n.child byte (some c) := by
  funext b
  rw [update_apply]
  have hok := h.insertSorted hp hc c
  obtain ⟨hle, -, -⟩ := h.insertPos_spec byte
  apply Option.ext
  intro d
  rw [hok.child_eq_some_iff]
  have hcount : (n.insertSorted byte c).count = n.count + 1 := rfl
  simp only [insertSorted_keys h, insertSorted_children h, hcount]
  constructor
  · rintro ⟨i, hi, hk, hd⟩
    split_ifs at hk hd with h₁ h₂
    · simp [hk.symm, hd]
    · have hne : b ≠ byte := by
        rintro rfl
        exact position_eq_none_iff.mp hp _ (by simp; omega) hk
      rw [if_neg hne, h.child_eq_some_iff]
      exact ⟨_, by simp; omega, hk, hd⟩
    · have hne : b ≠ byte := by
        rintro rfl
        exact position_eq_none_iff.mp hp _ (by omega) hk
      rw [if_neg hne, h.child_eq_some_iff]
      exact ⟨i, by omega, hk, hd⟩
  · intro hd
    by_cases hb : b = byte
    · rw [if_pos hb] at hd
      refine ⟨⟨n.insertPos byte, by omega⟩, by simp; omega, ?_⟩
      simp [hb, hd]
    · rw [if_neg hb] at hd
      obtain ⟨i, hi, hk, hd⟩ := h.child_eq_some_iff.mp hd
      by_cases hlt : i.val < n.insertPos byte
      · refine ⟨i, by omega, ?_⟩
        rw [if_neg (by omega), dif_neg (by omega), if_neg (by omega), dif_neg (by omega)]
        exact ⟨hk, hd⟩
      · refine ⟨⟨i.val + 1, by omega⟩, by simp; omega, ?_⟩
        rw [if_neg (by simp; omega), dif_pos (by simp; omega), if_neg (by simp; omega),
          dif_pos (by simp; omega)]
        exact ⟨hk, hd⟩

/-! #### Removal -/

theorem removeAt_keys (hpos : pos.val < n.count) (j : Fin N) :
    (n.removeAt pos).keys j =
      if j.val = n.count - 1 then 0
      else if h : (pos.val ≤ j.val ∧ j.val + 1 < n.count) ∧ j.val + 1 < N
        then n.keys ⟨j.val + 1, h.2⟩
      else n.keys j := by
  simp only [removeAt, setAt_apply, shiftLeft_apply _ hpos]

theorem removeAt_children (hpos : pos.val < n.count) (j : Fin N) :
    (n.removeAt pos).children j =
      if j.val = n.count - 1 then none
      else if h : (pos.val ≤ j.val ∧ j.val + 1 < n.count) ∧ j.val + 1 < N
        then n.children ⟨j.val + 1, h.2⟩
      else n.children j := by
  simp only [removeAt, setAt_apply, shiftLeft_apply _ hpos]

theorem Ok.removeAt (h : n.Ok) (hpos : pos.val < n.count) : (n.removeAt pos).Ok := by
  have hle := h.count_le
  have hcount : (n.removeAt pos).count = n.count - 1 := rfl
  refine ⟨by omega, fun i j hij hj => ?_, fun j => ?_⟩
  · rw [removeAt_keys hpos, removeAt_keys hpos]
    split_ifs with h₁ h₂ h₃ h₄ h₅
    all_goals first
      | omega
      | exact h.sorted_val (by omega) (by omega)
  · rw [removeAt_children hpos]
    split_ifs with h₁ h₂
    · simp; omega
    · rw [h.filled]; simp; omega
    · rw [h.filled]; omega

theorem Ok.child_removeAt (h : n.Ok) (hp : n.position byte = some pos) :
    (n.removeAt pos).child = Function.update n.child byte none := by
  funext b
  rw [update_apply]
  obtain ⟨hpos, hkey⟩ := h.position_eq_some_iff.mp hp
  have hok := h.removeAt hpos
  have hle := h.count_le
  have hcount : (n.removeAt pos).count = n.count - 1 := rfl
  apply Option.ext
  intro d
  rw [hok.child_eq_some_iff]
  simp only [removeAt_keys hpos, removeAt_children hpos, hcount]
  constructor
  · rintro ⟨i, hi, hk, hd⟩
    split_ifs at hk hd with h₁
    · have hne : b ≠ byte := by
        rintro rfl
        have := h.keys_inj hpos (by simp; omega) (hkey.trans hk.symm)
        rw [Fin.ext_iff] at this
        simp at this; omega
      rw [if_neg hne, h.child_eq_some_iff]
      exact ⟨_, by simp; omega, hk, hd⟩
    · have hne : b ≠ byte := by
        rintro rfl
        have := h.keys_inj hpos (by omega) (hkey.trans hk.symm)
        omega
      rw [if_neg hne, h.child_eq_some_iff]
      exact ⟨i, by omega, hk, hd⟩
  · intro hd
    by_cases hb : b = byte
    · simp [hb] at hd
    · rw [if_neg hb] at hd
      obtain ⟨i, hi, hk, hd⟩ := h.child_eq_some_iff.mp hd
      have hne : i.val ≠ pos.val := by
        intro heq
        rw [Fin.ext heq, hkey] at hk
        exact hb hk.symm
      by_cases hlt : i.val < pos.val
      · refine ⟨i, by omega, ?_⟩
        rw [if_neg (by omega), dif_neg (by omega), if_neg (by omega), dif_neg (by omega)]
        exact ⟨hk, hd⟩
      · refine ⟨⟨i.val - 1, by omega⟩, by simp; omega, ?_⟩
        have hback : (⟨i.val - 1 + 1, by omega⟩ : Fin N) = i := Fin.ext (by simp; omega)
        rw [if_neg (by simp; omega), dif_pos (by simp; omega), if_neg (by simp; omega),
          dif_pos (by simp; omega)]
        simp only [hback]
        exact ⟨hk, hd⟩

/-! #### Visiting the children -/

/-- The occupied keys, in slot order, are the bytes with a child, in byte order. -/
theorem Ok.keys_eq_filter (h : n.Ok) :
    ((finRange N).filter (fun i => decide (i.val < n.count))).map n.keys =
      allBytes.filter (fun b => (n.child b).isSome) := by
  refine eq_of_ordered (fun _ _ => UInt8.lt_asymm) ?_ (allBytes_pairwise.filter _) fun b => ?_
  · refine pairwise_map.mpr ?_
    refine ((pairwise_lt_finRange N).filter _).imp_of_mem fun {i j} _ hj hij => ?_
    exact h.sorted _ _ hij (by simpa using (List.mem_filter.mp hj).2)
  · simp only [List.mem_map, List.mem_filter, mem_finRange, decide_eq_true_eq, true_and,
      mem_allBytes, isSome_iff_exists, h.child_eq_some_iff]
    constructor
    · rintro ⟨i, hi, rfl⟩
      obtain ⟨c, hc⟩ := isSome_iff_exists.mp ((h.filled i).mpr hi)
      exact ⟨c, i, hi, rfl, hc⟩
    · rintro ⟨c, i, hi, hk, -⟩
      exact ⟨i, hi, hk⟩

theorem flatMap_filter_of_nil {ι γ : Type} (p : ι → Bool) (f : ι → List γ) (l : List ι)
    (hf : ∀ i ∈ l, p i = false → f i = []) : (l.filter p).flatMap f = l.flatMap f := by
  induction l with
  | nil => rfl
  | cons i l ih =>
    have ih' := ih fun j hj => hf j (List.mem_cons_of_mem _ hj)
    cases hp : p i with
    | true => rw [List.filter_cons_of_pos hp, flatMap_cons, flatMap_cons, ih']
    | false =>
      rw [List.filter_cons_of_neg (by simp [hp]), flatMap_cons, ih',
        hf i List.mem_cons_self hp, nil_append]

/-- Visiting the occupied slots is visiting the bytes in ascending order. -/
theorem Ok.flatMap_children {γ : Type} (h : n.Ok) (f : Option β → List γ) (hf : f none = []) :
    (finRange N).flatMap (fun i => if i.val < n.count then f (n.children i) else []) =
      allBytes.flatMap (fun b => f (n.child b)) := by
  have hbytes : ∀ b ∈ allBytes, (n.child b).isSome = false → f (n.child b) = [] := by
    intro b _ hb
    rw [isSome_eq_false_iff, isNone_iff_eq_none] at hb
    rw [hb, hf]
  have hslots : ∀ i ∈ finRange N, decide (i.val < n.count) = false →
      (if i.val < n.count then f (n.children i) else []) = [] := by
    intro i _ hi
    exact if_neg (of_decide_eq_false hi)
  rw [← flatMap_filter_of_nil _ _ _ hbytes, ← h.keys_eq_filter, flatMap_map,
    ← flatMap_filter_of_nil _ _ _ hslots]
  refine flatMap_congr fun i hi => ?_
  have hi' : i.val < n.count := by simpa using (List.mem_filter.mp hi).2
  obtain ⟨c, hc⟩ := isSome_iff_exists.mp ((h.filled i).mpr hi')
  rw [if_pos hi', hc, h.child_eq_some_iff.mpr ⟨i, hi', rfl, hc⟩]

end SortedNode

/-! #### Growth to `Node16` -/

namespace Node4

variable {β : Type} {n : Node4 β}

theorem grow_keys (n : Node4 β) (j : Fin 16) :
    (grow n).keys j = if h : j.val < 4 then n.keys ⟨j.val, h⟩ else 0 := by
  simp only [grow, foldl_setAt_finRange, SortedNode.new]

theorem grow_children (n : Node4 β) (j : Fin 16) :
    (grow n).children j = if h : j.val < 4 then n.children ⟨j.val, h⟩ else none := by
  simp only [grow, foldl_setAt_finRange, SortedNode.new]

theorem grow_ok (h : n.Ok) (hfull : n.count = 4) : (grow n).Ok := by
  refine ⟨by simp [grow], fun i j hij hj => ?_, fun j => ?_⟩
  · have hij' : i.val < j.val := hij
    have hj' : j.val < 4 := hj
    rw [grow_keys, grow_keys, dif_pos (by omega), dif_pos hj']
    exact h.sorted_val hij' (by omega)
  · have hcount : (grow n).count = 4 := rfl
    rw [grow_children, hcount]
    split_ifs with hj
    · rw [h.filled]; simp [hfull, hj]
    · simp [hj]

theorem child_grow (h : n.Ok) (hfull : n.count = 4) : (grow n).child = n.child := by
  funext b
  have hcount : (grow n).count = 4 := rfl
  apply Option.ext
  intro c
  rw [(grow_ok h hfull).child_eq_some_iff, h.child_eq_some_iff, hcount, hfull]
  constructor
  · rintro ⟨i, hi, hk, hc⟩
    rw [grow_keys, dif_pos hi] at hk
    rw [grow_children, dif_pos hi] at hc
    exact ⟨⟨i.val, hi⟩, hi, hk, hc⟩
  · rintro ⟨i, hi, hk, hc⟩
    refine ⟨⟨i.val, by omega⟩, hi, ?_, ?_⟩
    · rw [grow_keys, dif_pos hi]; exact hk
    · rw [grow_children, dif_pos hi]; exact hc

end Node4

/-! ### `Node48` -/

namespace Node48

variable {β : Type} {n : Node48 β}

/-- The child under `byte`. -/
def child (n : Node48 β) (byte : UInt8) : Option β :=
  if n.keyIndex byte = 0xFF then none else n.childAt (n.keyIndex byte)

/-- The bytes with a slot. -/
def bytes (n : Node48 β) : Finset UInt8 := univ.filter (fun b => n.keyIndex b ≠ 0xFF)

/-- The layout invariant: `keyIndex` is injective into the occupied slots, hits all of
them, and `count` counts them. -/
structure Ok (n : Node48 β) : Prop where
  slot_lt : ∀ b, n.keyIndex b ≠ 0xFF → (n.keyIndex b).toNat < 48
  inj : ∀ b b', n.keyIndex b ≠ 0xFF → n.keyIndex b = n.keyIndex b' → b = b'
  filled : ∀ i : Fin 48, (n.children i).isSome ↔ ∃ b, (n.keyIndex b).toNat = i.val
  count_eq : n.count = n.bytes.card

theorem keyIndex_ne_of_toNat_lt {x : UInt8} (h : x.toNat < 48) : x ≠ 0xFF := by
  rintro rfl
  simp at h

variable {b : UInt8}

theorem child_eq_some_iff {c : β} :
    n.child b = some c ↔ n.keyIndex b ≠ 0xFF ∧
      ∃ hlt : (n.keyIndex b).toNat < 48, n.children ⟨(n.keyIndex b).toNat, hlt⟩ = some c := by
  rw [child, childAt]
  split_ifs with hb hlt
  · exact ⟨fun h => (by cases h), fun h => absurd hb h.1⟩
  · exact ⟨fun h => ⟨hb, hlt, h⟩, fun h => h.2.2⟩
  · exact ⟨fun h => (by cases h), fun h => absurd h.2.1 hlt⟩

theorem Ok.childAt_isSome (h : n.Ok) (hb : n.keyIndex b ≠ 0xFF) :
    (n.childAt (n.keyIndex b)).isSome := by
  rw [childAt, dif_pos (h.slot_lt b hb)]
  exact (h.filled _).mpr ⟨b, rfl⟩

theorem Ok.child_eq_none_iff (h : n.Ok) : n.child b = none ↔ n.keyIndex b = 0xFF := by
  rw [child]
  split_ifs with hb
  · simp [hb]
  · have := h.childAt_isSome hb
    simp only [hb, iff_false]
    intro hnone
    simp [hnone] at this

theorem Ok.count_eq_zero_iff (h : n.Ok) : n.count = 0 ↔ ∀ b, n.child b = none := by
  rw [h.count_eq, card_eq_zero, bytes]
  simp [h.child_eq_none_iff]

/-- A `Node48` that is not full has a free slot. -/
theorem Ok.exists_free (h : n.Ok) (hc : n.count < 48) : ∃ i : Fin 48, n.children i = none := by
  by_contra hall
  push Not at hall
  -- every slot is hit by some byte, so there are at least 48 of them
  have hsurj : ∀ i : Fin 48, ∃ b, (n.keyIndex b).toNat = i.val := fun i =>
    (h.filled i).mp (isSome_iff_ne_none.mpr (hall i))
  choose f hf using hsurj
  have hinj : Function.Injective f := by
    intro i j hij
    apply Fin.ext
    rw [← hf i, ← hf j, hij]
  have hmaps : Set.MapsTo f (univ : Finset (Fin 48)) n.bytes := by
    intro i _
    simp only [bytes, coe_filter, mem_univ, true_and, Set.mem_ofPred_eq]
    exact keyIndex_ne_of_toNat_lt (by rw [hf i]; exact i.isLt)
  have := card_le_card_of_injOn f hmaps hinj.injOn
  rw [← h.count_eq] at this
  simp at this
  omega

theorem Ok.setChild (h : n.Ok) (b : UInt8) (c : β) :
    Ok { n with children := setAt n.children (n.keyIndex b).toNat (some c) } := by
  refine ⟨h.slot_lt, h.inj, fun i => ?_, h.count_eq⟩
  simp only [setAt_apply]
  split_ifs with hi
  · simp only [isSome_some, true_iff]
    exact ⟨b, hi.symm⟩
  · exact h.filled i

theorem Ok.child_setChild (h : n.Ok) (hb : n.keyIndex b ≠ 0xFF) (c : β) :
    child { n with children := setAt n.children (n.keyIndex b).toNat (some c) } =
      Function.update n.child b (some c) := by
  funext x
  rw [update_apply]
  by_cases hx : n.keyIndex x = 0xFF
  · have hxb : x ≠ b := fun heq => hb (heq ▸ hx)
    simp only [child, if_pos hx, if_neg hxb]
  · simp only [child, if_neg hx, childAt, dif_pos (h.slot_lt x hx), setAt_apply]
    by_cases hxb : x = b
    · rw [if_pos (by rw [hxb]), if_pos hxb]
    · rw [if_neg hxb, if_neg]
      exact fun heq => hxb (h.inj x b hx (UInt8.toNat_inj.mp heq))

section

variable {slot : Fin 48} {b : UInt8}

theorem toNat_ofNat_slot (slot : Fin 48) : (UInt8.ofNat slot.val).toNat = slot.val :=
  toNat_ofNat_of_lt' (by have := slot.isLt; simp [UInt8.size]; omega)

theorem ofNat_slot_ne (slot : Fin 48) : UInt8.ofNat slot.val ≠ 0xFF :=
  keyIndex_ne_of_toNat_lt (by rw [toNat_ofNat_slot]; exact slot.isLt)

theorem Ok.keyIndex_ne_free (h : n.Ok) (hslot : n.children slot = none) (x : UInt8) :
    (n.keyIndex x).toNat ≠ slot.val := by
  intro heq
  have := (h.filled slot).mpr ⟨x, heq⟩
  simp [hslot] at this

/-- Putting a new byte into a free slot. -/
def insertFree (n : Node48 β) (b : UInt8) (slot : Fin 48) (c : β) : Node48 β :=
  { n with
    count := n.count + 1
    keyIndex := Function.update n.keyIndex b (UInt8.ofNat slot.val)
    children := setAt n.children slot.val (some c) }

theorem bytes_insertFree (n : Node48 β) (b : UInt8) (slot : Fin 48) (c : β) :
    (n.insertFree b slot c).bytes = insert b n.bytes := by
  ext x
  simp only [bytes, insertFree, Finset.mem_filter, mem_univ, true_and, mem_insert,
    update_apply]
  split_ifs with hx
  · simp [hx, ofNat_slot_ne]
  · simp [hx]

theorem Ok.insertFree (h : n.Ok) (hb : n.keyIndex b = 0xFF) (hslot : n.children slot = none)
    (c : β) : (n.insertFree b slot c).Ok := by
  refine ⟨fun x hx => ?_, fun x y hx hxy => ?_, fun i => ?_, ?_⟩
  · simp only [Node48.insertFree, update_apply] at hx ⊢
    split_ifs with hxb
    · rw [toNat_ofNat_slot]; exact slot.isLt
    · exact h.slot_lt x (by simpa [hxb] using hx)
  · -- the new index differs from every old one, because its slot was free
    have hne : ∀ z, n.keyIndex z ≠ UInt8.ofNat slot.val := fun z heq =>
      h.keyIndex_ne_free hslot z (by rw [heq, toNat_ofNat_slot])
    simp only [Node48.insertFree, update_apply] at hx hxy
    split_ifs at hx hxy with hxb hyb hyb
    · rw [hxb, hyb]
    · exact absurd hxy.symm (hne y)
    · exact absurd hxy (hne x)
    · exact h.inj x y hx hxy
  · simp only [Node48.insertFree, setAt_apply, update_apply]
    split_ifs with hi
    · simp only [isSome_some, true_iff]
      exact ⟨b, by rw [if_pos rfl, toNat_ofNat_slot, hi]⟩
    · rw [h.filled]
      constructor
      · rintro ⟨x, hx⟩
        have hxb : x ≠ b := by
          rintro rfl
          rw [hb] at hx
          simp at hx
          omega
        exact ⟨x, by rw [if_neg hxb, hx]⟩
      · rintro ⟨x, hx⟩
        by_cases hxb : x = b
        · rw [if_pos hxb, toNat_ofNat_slot] at hx
          exact absurd hx.symm hi
        · exact ⟨x, by rwa [if_neg hxb] at hx⟩
  · rw [bytes_insertFree, card_insert_of_notMem (by simp [bytes, hb]), ← h.count_eq]
    rfl

theorem Ok.child_insertFree (h : n.Ok) (hslot : n.children slot = none) (c : β) :
    (n.insertFree b slot c).child = Function.update n.child b (some c) := by
  funext x
  by_cases hxb : x = b
  · simp only [child, Node48.insertFree, update_apply, if_pos hxb, if_neg (ofNat_slot_ne slot),
      childAt, toNat_ofNat_slot, slot.isLt, dite_true, setAt_apply, if_true]
  · simp only [child, Node48.insertFree, update_apply, if_neg hxb, childAt, setAt_apply,
      if_neg (h.keyIndex_ne_free hslot x)]

end

section

variable {b : UInt8}

theorem bytes_removeByte (n : Node48 β) (b idx : UInt8) :
    (n.removeByte b idx).bytes = n.bytes.erase b := by
  ext x
  simp only [bytes, removeByte, Finset.mem_filter, mem_univ, true_and, mem_erase,
    update_apply]
  split_ifs with hx <;> simp [hx]

theorem Ok.removeByte (h : n.Ok) (hb : n.keyIndex b ≠ 0xFF) :
    (n.removeByte b (n.keyIndex b)).Ok := by
  have hcount : (n.removeByte b (n.keyIndex b)).count = n.count - 1 := rfl
  refine ⟨fun x hx => ?_, fun x y hx hxy => ?_, fun i => ?_, ?_⟩
  · simp only [Node48.removeByte, update_apply] at hx ⊢
    split_ifs at hx ⊢ with hxb
    · exact absurd rfl hx
    · exact h.slot_lt x hx
  · simp only [Node48.removeByte, update_apply] at hx hxy
    split_ifs at hx hxy with hxb hyb
    · exact absurd rfl hx
    · exact absurd rfl hx
    · exact absurd hxy hx
    · exact h.inj x y hx hxy
  · simp only [Node48.removeByte, setAt_apply, update_apply]
    split_ifs with hi
    · simp only [isSome_none, Bool.false_eq_true, false_iff, not_exists]
      intro x hx
      split_ifs at hx with hxb
      · simp at hx
        omega
      · have heq : n.keyIndex b = n.keyIndex x := UInt8.toNat_inj.mp (by omega)
        exact hxb (h.inj b x hb heq).symm
    · rw [h.filled]
      constructor
      · rintro ⟨x, hx⟩
        have hxb : x ≠ b := by
          rintro rfl
          exact hi hx.symm
        exact ⟨x, by rw [if_neg hxb, hx]⟩
      · rintro ⟨x, hx⟩
        split_ifs at hx with hxb
        · simp at hx
          omega
        · exact ⟨x, hx⟩
  · rw [hcount, bytes_removeByte, card_erase_of_mem (by simpa [bytes] using hb), h.count_eq]

theorem Ok.child_removeByte (h : n.Ok) (hb : n.keyIndex b ≠ 0xFF) :
    (n.removeByte b (n.keyIndex b)).child = Function.update n.child b none := by
  funext x
  by_cases hxb : x = b
  · simp only [child, Node48.removeByte, update_apply, if_pos hxb, if_true]
  · have hne : (n.keyIndex x).toNat ≠ (n.keyIndex b).toNat := fun heq =>
      hxb (h.inj b x hb (UInt8.toNat_inj.mp heq).symm).symm
    simp only [child, Node48.removeByte, update_apply, if_neg hxb, childAt, setAt_apply,
      if_neg hne]

end

end Node48

/-! #### Growth to `Node48` -/

variable {ι κ γ : Type}

theorem foldl_update_of_forall_ne [DecidableEq κ] (k : ι → κ) (v : ι → γ) {l : List ι} {a : κ → γ}
    {b : κ} (h : ∀ i ∈ l, k i ≠ b) :
    l.foldl (fun a i => Function.update a (k i) (v i)) a b = a b := by
  induction l generalizing a with
  | nil => rfl
  | cons i l ih =>
    rw [foldl_cons, ih (fun j hj => h j (List.mem_cons_of_mem _ hj)),
      update_of_ne (h i List.mem_cons_self).symm]

theorem foldl_update_of_mem [DecidableEq κ] {k : ι → κ} (v : ι → γ) (hk : Function.Injective k)
    {l : List ι} {a : κ → γ} {i : ι} (hi : i ∈ l) :
    l.foldl (fun a i => Function.update a (k i) (v i)) a (k i) = v i := by
  induction l generalizing a with
  | nil => simp at hi
  | cons j l ih =>
    rw [foldl_cons]
    by_cases hil : i ∈ l
    · exact ih hil
    · obtain rfl : i = j := (List.mem_cons.mp hi).resolve_right hil
      rw [foldl_update_of_forall_ne, update_self]
      intro x hx heq
      exact hil (hk heq ▸ hx)

namespace Node16

variable {β : Type} {n : Node16 β}

theorem keys_injective (h : n.Ok) (hfull : n.count = 16) : Function.Injective n.keys :=
  fun i j hij => h.keys_inj (by omega) (by omega) hij

theorem grow_keyIndex_key (h : n.Ok) (hfull : n.count = 16) (i : Fin 16) :
    (grow n).keyIndex (n.keys i) = UInt8.ofNat i.val :=
  foldl_update_of_mem _ (keys_injective h hfull) (mem_finRange i)

theorem grow_keyIndex_absent {b : UInt8} (hb : ∀ i, n.keys i ≠ b) :
    (grow n).keyIndex b = 0xFF :=
  foldl_update_of_forall_ne _ _ (fun i _ => hb i)

theorem grow_children (n : Node16 β) (j : Fin 48) :
    (grow n).children j = if h : j.val < 16 then n.children ⟨j.val, h⟩ else none := by
  simp only [grow, foldl_setAt_finRange, Node48.new]

theorem toNat_grow_keyIndex_key (h : n.Ok) (hfull : n.count = 16) (i : Fin 16) :
    ((grow n).keyIndex (n.keys i)).toNat = i.val := by
  rw [grow_keyIndex_key h hfull]
  exact Node48.toNat_ofNat_slot ⟨i.val, by omega⟩

/-- A byte of the grown node with a slot is a key of the old one. -/
theorem exists_key_of_grow_keyIndex {b : UInt8} (hb : (grow n).keyIndex b ≠ 0xFF) :
    ∃ i, n.keys i = b := by
  by_contra hall
  exact hb (grow_keyIndex_absent (not_exists.mp hall))

theorem grow_ok (h : n.Ok) (hfull : n.count = 16) : (grow n).Ok := by
  have hidx := toNat_grow_keyIndex_key h hfull
  refine ⟨fun b hb => ?_, fun b b' hb hbb' => ?_, fun j => ?_, ?_⟩
  · obtain ⟨i, rfl⟩ := exists_key_of_grow_keyIndex hb
    rw [hidx]
    omega
  · obtain ⟨i, rfl⟩ := exists_key_of_grow_keyIndex hb
    obtain ⟨j, rfl⟩ := exists_key_of_grow_keyIndex (hbb' ▸ hb)
    have := congrArg UInt8.toNat hbb'
    rw [hidx, hidx] at this
    rw [Fin.ext this]
  · rw [grow_children]
    constructor
    · intro hsome
      split_ifs at hsome with hj
      · exact ⟨n.keys ⟨j.val, hj⟩, hidx ⟨j.val, hj⟩⟩
      · simp at hsome
    · rintro ⟨b, hb⟩
      obtain ⟨i, rfl⟩ := exists_key_of_grow_keyIndex (n := n) (b := b)
        (Node48.keyIndex_ne_of_toNat_lt (by omega))
      rw [hidx] at hb
      rw [dif_pos (by omega), h.filled]
      omega
  · -- the bytes with a slot are the image of the 16 distinct keys
    have himage : (grow n).bytes = univ.image n.keys := by
      ext b
      simp only [Node48.bytes, Finset.mem_filter, mem_univ, true_and, mem_image]
      constructor
      · exact exists_key_of_grow_keyIndex
      · rintro ⟨i, rfl⟩
        exact Node48.keyIndex_ne_of_toNat_lt (by rw [hidx]; omega)
    rw [himage, card_image_of_injective _ (keys_injective h hfull)]
    rfl

theorem child_grow (h : n.Ok) (hfull : n.count = 16) : (grow n).child = n.child := by
  funext b
  by_cases hb : ∃ i, n.keys i = b
  · obtain ⟨i, rfl⟩ := hb
    have hidx := toNat_grow_keyIndex_key h hfull i
    have hsome : (n.children i).isSome := (h.filled i).mpr (by omega)
    obtain ⟨c, hc⟩ := isSome_iff_exists.mp hsome
    have hold : n.child (n.keys i) = some c := h.child_eq_some_iff.mpr ⟨i, by omega, rfl, hc⟩
    rw [hold, Node48.child, if_neg (Node48.keyIndex_ne_of_toNat_lt (by omega)), Node48.childAt,
      dif_pos (by omega), grow_children, dif_pos (by simp only [hidx]; omega)]
    simp only [hidx, hc]
  · have habsent := not_exists.mp hb
    rw [Node48.child, if_pos (grow_keyIndex_absent habsent), eq_comm, h.child_eq_none_iff,
      SortedNode.position_eq_none_iff]
    intro i _
    exact habsent i

end Node16

/-! ### `Node256` -/

namespace Node256

variable {β : Type} {n : Node256 β}

/-- The bytes with a child. -/
def bytes (n : Node256 β) : Finset UInt8 := univ.filter (fun b => (n.children b).isSome)

/-- The layout invariant: `count` counts the children. -/
def Ok (n : Node256 β) : Prop := n.count = n.bytes.card

theorem Ok.count_eq_zero_iff (h : n.Ok) : n.count = 0 ↔ ∀ b, n.children b = none := by
  rw [h, card_eq_zero, bytes]
  simp

theorem Ok.update_some (h : n.Ok) (b : UInt8) (c : β) :
    Ok { n with count := if (n.children b).isNone then n.count + 1 else n.count,
                children := Function.update n.children b (some c) } := by
  have hbytes : (Node256.mk n.pfx 0 (Function.update n.children b (some c))).bytes =
      insert b n.bytes := by
    ext x
    simp only [bytes, Finset.mem_filter, mem_univ, true_and, mem_insert,
      update_apply]
    split_ifs with hx <;> simp [hx]
  have hmem : b ∈ n.bytes ↔ (n.children b).isSome := by simp [bytes]
  change (if _ then _ else _) = (Node256.mk n.pfx 0
    (Function.update n.children b (some c))).bytes.card
  rw [hbytes, h]
  cases hb : n.children b with
  | none => rw [card_insert_of_notMem (by simp [hmem, hb])]; rfl
  | some c' => rw [insert_eq_of_mem (by simp [hmem, hb])]; rfl

theorem Ok.removeByte (h : n.Ok) {b : UInt8} (hb : (n.children b).isSome) :
    (n.removeByte b).Ok := by
  have hbytes : (n.removeByte b).bytes = n.bytes.erase b := by
    ext x
    simp only [bytes, Node256.removeByte, Finset.mem_filter, mem_univ, true_and,
      mem_erase, update_apply]
    split_ifs with hx <;> simp [hx]
  rw [Ok, hbytes, card_erase_of_mem (by simpa [bytes] using hb), ← h]
  rfl

end Node256

/-! #### Growth to `Node256` -/

namespace Node48

variable {β : Type} {n : Node48 β}

/-- One iteration of the growth loop. -/
def growStep (n : Node48 β) (m : Node256 β) (b : UInt8) : Node256 β :=
  if n.keyIndex b = 0xFF then m
  else { m with children := Function.update m.children b (n.childAt (n.keyIndex b)),
                count := m.count + 1 }

theorem foldl_growStep_children (l : List UInt8) (m : Node256 β) (x : UInt8) :
    (l.foldl n.growStep m).children x =
      if x ∈ l ∧ n.keyIndex x ≠ 0xFF then n.childAt (n.keyIndex x) else m.children x := by
  induction l generalizing m with
  | nil => simp
  | cons b l ih =>
    rw [foldl_cons, growStep]
    by_cases hb : n.keyIndex b = 0xFF <;> by_cases hxb : x = b <;>
      by_cases hx : n.keyIndex x = 0xFF <;> simp_all

theorem foldl_growStep_count (l : List UInt8) (m : Node256 β) :
    (l.foldl n.growStep m).count =
      m.count + (l.filter (fun b => decide (n.keyIndex b ≠ 0xFF))).length := by
  induction l generalizing m with
  | nil => simp
  | cons b l ih =>
    rw [foldl_cons, ih, growStep]
    by_cases hb : n.keyIndex b = 0xFF
    · simp [hb]
    · rw [if_neg hb, List.filter_cons_of_pos (by simpa using hb), length_cons]
      change m.count + 1 + _ = _
      omega

theorem foldl_growStep_pfx (l : List UInt8) (m : Node256 β) :
    (l.foldl n.growStep m).pfx = m.pfx := by
  induction l generalizing m with
  | nil => rfl
  | cons b l ih => rw [foldl_cons, ih, growStep]; split_ifs <;> rfl

theorem grow_eq (n : Node48 β) : n.grow = allBytes.foldl n.growStep (Node256.new β n.pfx) := rfl

theorem grow_pfx (n : Node48 β) : n.grow.pfx = n.pfx := by
  rw [grow_eq, foldl_growStep_pfx]; rfl

theorem grow_children (n : Node48 β) : n.grow.children = n.child := by
  funext x
  rw [grow_eq, foldl_growStep_children]
  by_cases hx : n.keyIndex x = 0xFF <;> simp [child, hx, mem_allBytes, Node256.new]

theorem grow_ok (h : n.Ok) : n.grow.Ok := by
  have hbytes : n.grow.bytes = n.bytes := by
    ext b
    simp only [Node256.bytes, grow_children, bytes, Finset.mem_filter, mem_univ, true_and,
      isSome_iff_ne_none, ne_eq, h.child_eq_none_iff]
  rw [Node256.Ok, hbytes, grow_eq, foldl_growStep_count, length_filter_allBytes]
  simp [Node256.new, bytes]

end Node48

end Ledge.RefStore
