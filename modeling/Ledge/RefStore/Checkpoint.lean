import Ledge.RefStore.Plain

/-!
# Ledge.RefStore.Checkpoint

**Compaction**: a log that starts with a checkpoint of the visible refs, followed by
frames whose writes the checkpoint may already contain.

By the meaning of frames such late frames are absorbed (`settle_suffix`). Replay does
absorb late updates and batches. It does not absorb a late `Delete`: its name is absent
from the checkpoint, and `art_delete` of an absent key may drop the refs next to it.
-/

namespace Ledge.RefStore

open Ledge.Core Ledge.Lib List

variable {t t' : RefTree} {m n : RefName}

/-! ### The checkpoint of a tree -/

theorem lastFor_eq_some_iff {us : List (RefName × RefEntry)} (h : (us.map Prod.fst).Nodup)
    {e : RefEntry} : lastFor m us = some e ↔ (m, e) ∈ us := by
  refine ⟨mem_of_lastFor, fun hmem => ?_⟩
  induction us using reverseRecOn with
  | nil => simp at hmem
  | append_singleton us x ih =>
    rw [map_append, nodup_append] at h
    rw [lastFor_concat]
    rcases mem_append.mp hmem with hmem | hmem
    · have hne : x.1 ≠ m := fun heq =>
        h.2.2 m (mem_map_of_mem hmem) x.1 (by simp) heq.symm
      rw [if_neg hne]
      exact ih h.1 hmem
    · obtain rfl : (m, e) = x := by simpa using hmem
      rw [if_pos rfl]

/-- The leaves that `compact_wal` writes. -/
abbrev RefTree.checkpoint (t : RefTree) : WalEntry := .checkpoint (t.list "")

theorem lastFor_list (t : RefTree) (m : RefName) : lastFor m (t.list "") = t.get m := by
  apply Option.ext
  intro e
  rw [lastFor_eq_some_iff (t.list_names_nodup ""), RefTree.mem_list]
  exact and_iff_right List.nil_prefix

theorem slot_replay_checkpoint (t₀ t : RefTree) (m : RefName) :
    (replayEntry t₀ t.checkpoint).slot m = (t.get m).map RefSlot.ofCommitted :=
  slot_replayEntry_of_effect (by rw [WalEntry.effect, lastFor_list])

/-- Opening on the checkpoint of a tree gives what the tree shows. -/
theorem get_openTree_checkpoint (t : RefTree) (m : RefName) :
    (openTree [t.checkpoint]).get m = t.get m :=
  get_of_slot (slot_replay_checkpoint .empty t m) fun _ => get_version_ne_zero

/-! ### Histories -/

/-- The store after a sequence of calls, each with its clock reading and its append
succeeding, on the empty store. The log holds the frames in publish order. -/
def history (calls : List (Call × Nat)) : Store :=
  calls.foldl (fun s c => (s.run true (c.1.attempt c.2 s.tree)).1) ⟨.empty, []⟩

/-- A call leaves the store alone or publishes a tree with the frame that it logs. -/
theorem run_call_cases (s : Store) (c : Call) (hlc : Nat) :
    (s.run true (c.attempt hlc s.tree)).1 = s ∨
    ∃ f t', Logged s.tree f t' ∧ (s.run true (c.attempt hlc s.tree)).1 = ⟨t', s.wal ++ [f]⟩ := by
  cases hatt : c.attempt hlc s.tree with
  | done r => exact Or.inl rfl
  | publish t' log r lost =>
    obtain ⟨f, rfl, hf⟩ := Call.logged_of_publish hatt
    exact Or.inr ⟨f, t', hf, rfl⟩

/-- The live tree of a history has no locks and shows the last logged writes. -/
theorem history_tree (calls : List (Call × Nat)) :
    (history calls).tree.Plain ∧
      ∀ m, (history calls).tree.get m = settled m none (history calls).wal := by
  induction calls using reverseRecOn with
  | nil => exact ⟨plain_empty, fun _ => rfl⟩
  | append_singleton calls c ih =>
    have hstep : history (calls ++ [c]) =
        ((history calls).run true (c.1.attempt c.2 (history calls).tree)).1 := by
      simp [history]
    obtain heq | ⟨f, t', hf, heq⟩ := run_call_cases (history calls) c.1 c.2
    · rw [hstep, heq]
      exact ih
    · rw [hstep, heq]
      refine ⟨hf.plain ih.1, fun m => ?_⟩
      rw [hf.get, ih.2]
      exact (settle_concat f).symm

/-- **When a checkpoint absorbs late frames.** For a history that ends in the tree `M` and
a suffix `F` of its frames, replaying the checkpoint of `M` and then `F` gives `M` if and
only if every ref of `M` that a late deletion drops is written by a still later frame. -/
theorem checkpoint_absorbs_iff (calls : List (Call × Nat)) (k : Nat) :
    let M := (history calls).tree
    let F := (history calls).wal.drop k
    (∀ m, (openTree (M.checkpoint :: F)).get m = M.get m) ↔
      ∀ m, (M.get m).isSome → ∀ F₁ n hlc F₂, F = F₁ ++ .delete n hlc :: F₂ →
        (openTree (M.checkpoint :: F₁)).Drops n m → ∃ f ∈ F₂, (f.effect m).isSome := by
  intro M F
  obtain ⟨-, hget⟩ := history_tree calls
  -- by the meaning of frames, the suffix changes nothing
  have habsorb : ∀ m, settled m (M.get m) F = M.get m := by
    intro m
    rw [hget m]
    exact settle_suffix (drop_suffix k _)
  have hopen : ∀ l, openTree (M.checkpoint :: l) = replay (replayEntry .empty M.checkpoint) l :=
    fun l => openTree_eq_replay _
  have hbase := slot_replay_checkpoint .empty M
  have hslot : ∀ m, (openTree (M.checkpoint :: F)).get m = M.get m ↔
      (openTree (M.checkpoint :: F)).slot m = (M.get m).map RefSlot.ofCommitted := by
    intro m
    constructor
    · intro h
      have hor := slot_replay_or (hbase m) F
      rw [habsorb, ← hopen] at hor
      obtain hsome | hnone := hor
      · exact hsome
      · rw [RefTree.get, hnone, Option.bind_none] at h
        rw [hnone, ← h, Option.map_none]
    · exact fun h => get_of_slot h fun _ => get_version_ne_zero
  refine forall_congr' fun m => ?_
  rw [hslot, hopen]
  have hiff := slot_replay_iff (hbase m) F
  rw [habsorb] at hiff
  rw [hiff, Option.isSome_iff_ne_none]
  refine imp_congr_right fun _ => ?_
  simp only [not_losesName_iff, hopen]
  rfl

/-- Create `a`, `b` and `c`, delete `c`, compact, and only then log the deletion. -/
def lateDelete : List (Call × Nat) :=
  [(.update .headsA (.fill 1) none, 1), (.update .headsB (.fill 1) none, 2),
    (.update .headsC (.fill 1) none, 3), (.delete .headsC (.fill 1), 4)]

/-- The late frame drops `a` and `b`: their common parent is a `Node4` without `c`. -/
theorem lateDelete_loses_sibling :
    (history lateDelete).wal.drop 3 = [.delete .headsC 4] ∧
    (history lateDelete).tree.get .headsA = some ⟨.fill 1, 1, 1⟩ ∧
    (openTree ((history lateDelete).tree.checkpoint :: (history lateDelete).wal.drop 3)).get
      .headsA = none := by
  decide

end Ledge.RefStore
