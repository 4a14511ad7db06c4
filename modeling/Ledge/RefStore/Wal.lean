import Ledge.Lib.LastWrite
import Ledge.RefStore.RefTree

/-!
# Ledge.RefStore.Wal

The frames of the ref-store log (`wal.rs`) and their **replay** on open.

The intended meaning of a frame is a write to some names (`WalEntry.effect`), and of
a log that the last write to a name wins. Replay does not compute that in one case: a
`Delete` frame of a name that is absent from the tree replayed so far goes through
`art_delete` of an absent key, which can drop a whole subtree. `slot_replay_iff` says
exactly when a name survives.

A log file is the list of its frames. The names of frames are ref names, since the
store writes no others.
-/

namespace Ledge.RefStore

open Ledge.Core Ledge.Lib List Option

/-- A log frame. -/
inductive WalEntry
  | update (name : RefName) (entry : RefEntry)
  | delete (name : RefName) (hlc : Nat)
  | checkpoint (leaves : List (RefName × RefEntry))
  | batch (updates : List (RefName × RefEntry))
  deriving DecidableEq

/-- `art_insert` of an unlocked slot, the loop body of checkpoint and batch replay. -/
def insertCommitted (t : RefTree) (x : RefName × RefEntry) : RefTree :=
  t.insert x.1 (.ofCommitted x.2)

/-- The body of the replay loop of `open_with_compaction_threshold`. -/
def replayEntry (t : RefTree) : WalEntry → RefTree
  | .checkpoint leaves => leaves.foldl insertCommitted .empty
  | .update name entry => insertCommitted t (name, entry)
  | .delete name _ => t.delete name
  | .batch updates => updates.foldl insertCommitted t

/-- The replay loop. -/
def replay (t : RefTree) (frames : List WalEntry) : RefTree := frames.foldl replayEntry t

/-- `matches!(e, WalEntry::Checkpoint { .. })` -/
def WalEntry.isCheckpoint : WalEntry → Bool
  | .checkpoint _ => true
  | _ => false

/-- The part of `Wal::open` that selects what to replay: everything from the last
checkpoint on. -/
def fromLastCheckpoint (all : List WalEntry) : List WalEntry :=
  match all.reverse.findIdx? WalEntry.isCheckpoint with
  | some i => all.drop (all.length - 1 - i)
  | none => all

/-- The tree of a store opened on the log `all`. -/
def openTree (all : List WalEntry) : RefTree := replay .empty (fromLastCheckpoint all)

/-! ### The intended meaning of a frame -/

/-- The last entry that a list of updates gives to `m`. -/
def lastFor (m : RefName) (us : List (RefName × RefEntry)) : Option RefEntry :=
  us.foldl (fun acc x => if x.1 = m then some x.2 else acc) none

/-- What a frame writes to `m`: `none` when it leaves `m` alone, `some none` when it
removes `m`. -/
def WalEntry.effect (m : RefName) : WalEntry → Option (Option RefEntry)
  | .update name entry => if name = m then some (some entry) else none
  | .delete name _ => if name = m then some none else none
  | .checkpoint leaves => some (lastFor m leaves)
  | .batch updates => (lastFor m updates).map some

/-- No entry of the frame has the version of an absent ref. -/
def WalEntry.Valid (f : WalEntry) : Prop := ∀ m e, f.effect m = some (some e) → e.version ≠ 0

/-- The entry of `m` after a log, by the last write. -/
abbrev settled (m : RefName) (v : Option RefEntry) (frames : List WalEntry) : Option RefEntry :=
  settle (WalEntry.effect m) v frames

/-- Deleting `n`, absent from `t`, takes `m` along. -/
def RefTree.Drops (t : RefTree) (n m : RefName) : Prop :=
  ∃ a ∈ t.drop n, n.bytes.take a <+: m.bytes

instance (t : RefTree) (n m : RefName) : Decidable (t.Drops n m) :=
  inferInstanceAs (Decidable (∃ a ∈ t.drop n, n.bytes.take a <+: m.bytes))

/-! ### Replay, one frame at a time -/

variable {t : RefTree} {m n : RefName} {frames : List WalEntry}

theorem lastFor_concat (us : List (RefName × RefEntry)) (x : RefName × RefEntry) :
    lastFor m (us ++ [x]) = if x.1 = m then some x.2 else lastFor m us := by
  simp [lastFor]

theorem lastFor_ne_none {us : List (RefName × RefEntry)} (h : m ∈ us.map Prod.fst) :
    lastFor m us ≠ none := by
  induction us using reverseRecOn with
  | nil => cases h
  | append_singleton us x ih =>
    rw [lastFor_concat]
    split_ifs with hx
    · simp
    · rw [map_append, mem_append] at h
      refine ih (h.resolve_right fun hlast => hx ?_)
      exact (by simpa using hlast : m = x.1).symm

theorem slot_foldl_insertCommitted (us : List (RefName × RefEntry)) (t : RefTree) (m : RefName) :
    (us.foldl insertCommitted t).slot m =
      ((lastFor m us).map RefSlot.ofCommitted).or (t.slot m) := by
  induction us using reverseRecOn with
  | nil => rfl
  | append_singleton us x ih =>
    rw [foldl_concat, insertCommitted, RefTree.slot_insert, ih, lastFor_concat]
    by_cases hx : m = x.1
    · rw [if_pos hx, if_pos hx.symm]
      rfl
    · rw [if_neg hx, if_neg (Ne.symm hx)]

variable {f : WalEntry} {v : Option RefEntry}

theorem slot_replayEntry_of_effect (h : f.effect m = some v) :
    (replayEntry t f).slot m = v.map RefSlot.ofCommitted := by
  cases f with
  | update name entry =>
    simp only [WalEntry.effect] at h
    split_ifs at h with hm
    rw [replayEntry, insertCommitted, RefTree.slot_insert, if_pos hm.symm, ← some.inj h]
    rfl
  | delete name hlc =>
    simp only [WalEntry.effect] at h
    split_ifs at h with hm
    rw [replayEntry, RefTree.slot_delete, hm, ← some.inj h]
    cases t.drop m with
    | none => simp
    | some a => simp [List.take_prefix]
  | checkpoint leaves =>
    rw [replayEntry, slot_foldl_insertCommitted, ← some.inj h]
    simp
  | batch updates =>
    simp only [WalEntry.effect, map_eq_some_iff] at h
    obtain ⟨e, he, rfl⟩ := h
    rw [replayEntry, slot_foldl_insertCommitted, he]
    rfl

/-- The frame is a deletion that takes `m` along. -/
def WalEntry.DropsFrom (t : RefTree) (m : RefName) : WalEntry → Prop
  | .delete name _ => t.Drops name m
  | _ => False

instance (t : RefTree) (m : RefName) : (f : WalEntry) → Decidable (f.DropsFrom t m)
  | .delete name _ => inferInstanceAs (Decidable (t.Drops name m))
  | .update _ _ | .checkpoint _ | .batch _ => inferInstanceAs (Decidable False)

/-- A name that a frame leaves alone keeps its slot, unless the frame drops it. -/
theorem slot_replayEntry_of_no_effect (h : f.effect m = none) :
    (replayEntry t f).slot m = if f.DropsFrom t m then none else t.slot m := by
  cases f with
  | update name entry =>
    simp only [WalEntry.effect] at h
    split_ifs at h with hm
    rw [replayEntry, insertCommitted, RefTree.slot_insert, if_neg (Ne.symm hm)]
    exact (if_neg id).symm
  | delete name hlc =>
    simp only [WalEntry.effect] at h
    split_ifs at h with hm
    rw [replayEntry, RefTree.slot_delete]
    have hdrops : (WalEntry.delete name hlc).DropsFrom t m ↔
        ∃ a ∈ t.drop name, name.bytes.take a <+: m.bytes := Iff.rfl
    cases hd : t.drop name with
    | none => simp [hdrops, hd, Ne.symm hm]
    | some a => simp [hdrops, hd]
  | checkpoint leaves => cases h
  | batch updates =>
    simp only [WalEntry.effect, map_eq_none_iff] at h
    rw [replayEntry, slot_foldl_insertCommitted, h]
    exact (if_neg id).symm

/-! ### Replay of a whole log -/

theorem replay_concat (t : RefTree) (l : List WalEntry) (f : WalEntry) :
    replay t (l ++ [f]) = replayEntry (replay t l) f :=
  foldl_concat ..

theorem slot_replay_or (ht : t.slot m = v.map RefSlot.ofCommitted) (frames : List WalEntry) :
    (replay t frames).slot m = (settled m v frames).map RefSlot.ofCommitted ∨
      (replay t frames).slot m = none := by
  induction frames using reverseRecOn with
  | nil => exact Or.inl ht
  | append_singleton frames f ih =>
    rw [replay_concat, settled, settle_concat]
    cases hf : f.effect m with
    | some w => exact Or.inl (slot_replayEntry_of_effect hf)
    | none =>
      rw [slot_replayEntry_of_no_effect hf]
      split_ifs
      · exact Or.inr rfl
      · exact ih

/-- A deletion in the log takes `m` along, and no later frame writes `m`. -/
def LosesName (t : RefTree) (m : RefName) (frames : List WalEntry) : Prop :=
  ∃ l₁ n hlc l₂, frames = l₁ ++ .delete n hlc :: l₂ ∧ (replay t l₁).Drops n m ∧
    ¬ Touched (WalEntry.effect m) l₂

theorem not_losesName_iff :
    ¬ LosesName t m frames ↔ ∀ l₁ n hlc l₂, frames = l₁ ++ .delete n hlc :: l₂ →
      (replay t l₁).Drops n m → Touched (WalEntry.effect m) l₂ := by
  simp [LosesName]

/-- The last frame is the deletion, or the loss happened before and the last frame does
not repair it. -/
theorem losesName_concat :
    LosesName t m (frames ++ [f]) ↔
      f.DropsFrom (replay t frames) m ∨ f.effect m = none ∧ LosesName t m frames := by
  constructor
  · rintro ⟨l₁, n, hlc, l₂, heq, hdrops, hl₂⟩
    cases l₂ using reverseRecOn with
    | nil =>
      obtain ⟨rfl, hf⟩ := append_inj' heq rfl
      obtain rfl : f = .delete n hlc := by simpa using hf
      exact Or.inl hdrops
    | append_singleton l₂ g =>
      rw [← cons_append, ← append_assoc] at heq
      obtain ⟨rfl, hf⟩ := append_inj' heq rfl
      obtain rfl : f = g := by simpa using hf
      rw [touched_append, not_or] at hl₂
      refine Or.inr ⟨?_, l₁, n, hlc, l₂, rfl, hdrops, hl₂.1⟩
      simpa [Touched] using hl₂.2
  · rintro (hdrops | ⟨hf, l₁, n, hlc, l₂, rfl, hdrops, hl₂⟩)
    · cases f with
      | delete n hlc => exact ⟨frames, n, hlc, [], rfl, hdrops, by simp [Touched]⟩
      | update | checkpoint | batch => exact hdrops.elim
    · refine ⟨l₁, n, hlc, l₂ ++ [f], by simp, hdrops, ?_⟩
      rw [touched_append, not_or]
      exact ⟨hl₂, by simp [Touched, hf]⟩

/-- **When replay keeps a name.** A name with a last entry has it after replay, unless a
deletion of another, absent name dropped it and no later frame wrote it again. -/
theorem slot_replay_iff (ht : t.slot m = v.map RefSlot.ofCommitted) (frames : List WalEntry) :
    (replay t frames).slot m = (settled m v frames).map RefSlot.ofCommitted ↔
      (settled m v frames ≠ none → ¬ LosesName t m frames) := by
  induction frames using reverseRecOn with
  | nil =>
    refine iff_of_true ht fun _ => ?_
    rintro ⟨l₁, n, hlc, l₂, heq, -, -⟩
    simp at heq
  | append_singleton frames f ih =>
    rw [replay_concat, losesName_concat, settled, settle_concat]
    cases hf : f.effect m with
    | some w =>
      rw [slot_replayEntry_of_effect hf]
      refine iff_of_true rfl fun hw => ?_
      rintro (hdrops | ⟨hnone, -⟩)
      · -- a deletion that writes `m` removes it
        cases f with
        | delete n hlc =>
          simp only [WalEntry.effect] at hf
          split_ifs at hf
          exact hw (some.inj hf).symm
        | update | checkpoint | batch => exact hdrops.elim
      · cases hnone
    | none =>
      rw [slot_replayEntry_of_no_effect hf]
      by_cases hdrops : f.DropsFrom (replay t frames) m
      · rw [if_pos hdrops]
        constructor
        · intro heq hne
          exact absurd (map_eq_none_iff.mp heq.symm) hne
        · intro h
          by_contra hne
          exact h (fun hnone => hne (by rw [hnone]; rfl)) (Or.inl hdrops)
      · simpa [hdrops] using ih

theorem settled_version_ne_zero (hv : ∀ e, v = some e → e.version ≠ 0)
    (hvalid : ∀ f ∈ frames, f.Valid) : ∀ e, settled m v frames = some e → e.version ≠ 0 := by
  induction frames using reverseRecOn with
  | nil => exact hv
  | append_singleton frames f ih =>
    intro e he
    rw [settled, settle_concat] at he
    cases hf : f.effect m with
    | none =>
      rw [hf] at he
      exact ih (fun g hg => hvalid g (mem_append_left _ hg)) e he
    | some w =>
      rw [hf, getD_some] at he
      exact hvalid f (by simp) m e (by rw [hf, he])

/-! ### Opening from the last checkpoint -/

/-- Selecting from the last checkpoint loses nothing: a checkpoint starts from the empty
tree. -/
theorem openTree_eq_replay (all : List WalEntry) : openTree all = replay .empty all := by
  refine foldl_fromLast WalEntry.isCheckpoint (fun f hf t t' => ?_) RefTree.empty all
  cases f with
  | checkpoint leaves => rfl
  | update | delete | batch => cases hf

end Ledge.RefStore
