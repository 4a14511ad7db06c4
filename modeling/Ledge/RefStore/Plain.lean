import Ledge.RefStore.Store

/-!
# Ledge.RefStore.Plain

Trees **without locks**, which are all that a store sees when no transaction is in
progress. A plain tree is what `get` shows of it: its slots, what the writers decide on
it and what its log replays to are functions of the visible entries.
-/

namespace Ledge.RefStore

open Ledge.Core Ledge.Lib

variable {t t' : RefTree} {m n : RefName}

/-- No slot is locked or a placeholder: the slots are the visible entries. -/
def RefTree.Plain (t : RefTree) : Prop := ∀ n, t.slot n = (t.get n).map RefSlot.ofCommitted

theorem get_of_slot {v : Option RefEntry} (h : t.slot n = v.map RefSlot.ofCommitted)
    (hv : ∀ e, v = some e → e.version ≠ 0) : t.get n = v := by
  rw [RefTree.get, h]
  cases v with
  | none => rfl
  | some e => simp [RefSlot.visible, RefSlot.ofCommitted, hv e rfl]

variable {e : RefEntry} {f : WalEntry} {wal : List WalEntry}

theorem get_version_ne_zero (h : t.get n = some e) : e.version ≠ 0 := by
  obtain ⟨s, -, -, hv⟩ := RefTree.get_eq_some_iff.mp h
  exact hv

theorem plain_empty : RefTree.empty.Plain := fun _ => rfl

theorem Logged.get (h : Logged t f t') (n : RefName) : t'.get n = (f.effect n).getD (t.get n) := by
  have hslot := h.slot n
  cases hf : f.effect n with
  | none =>
    rw [hf] at hslot
    rw [RefTree.get, hslot]
    rfl
  | some v =>
    rw [hf] at hslot
    exact get_of_slot hslot fun e he => h.valid n e (by rw [hf]; exact congrArg some he)

theorem Logged.plain (h : Logged t f t') (ht : t.Plain) : t'.Plain := by
  intro n
  rw [h.slot, h.get]
  cases f.effect n with
  | none => exact ht n
  | some v => rfl

/-- A log of valid frames opens to a tree without locks and placeholders. -/
theorem plain_openTree (h : ∀ f ∈ wal, f.Valid) : (openTree wal).Plain := by
  intro n
  have hv := settled_version_ne_zero (m := n) (v := none) nofun h
  rw [openTree_eq_replay]
  rcases slot_replay_or (t := .empty) (m := n) (v := none) rfl wal with hslot | hslot
  · rw [hslot, get_of_slot hslot hv]
  · rw [RefTree.get, hslot]
    rfl

theorem RefTree.Plain.lock_eq_none (h : t.Plain) (n : RefName) : t.lock n = none := by
  rw [RefTree.lock, h n]
  cases t.get n <;> rfl

/-- What a log opens to: the last writes, without the names that replay loses. -/
theorem get_openTree_eq_some_iff (h : ∀ f ∈ wal, f.Valid) :
    (openTree wal).get n = some e ↔
      settled n none wal = some e ∧ ¬ LosesName .empty n wal := by
  have hbase : RefTree.empty.slot n = (none : Option RefEntry).map RefSlot.ofCommitted := rfl
  have hv := settled_version_ne_zero (m := n) (v := none) nofun h
  have hiff := slot_replay_iff hbase wal
  rw [openTree_eq_replay]
  constructor
  · intro hget
    rcases slot_replay_or hbase wal with hslot | hslot
    · rw [get_of_slot hslot hv] at hget
      exact ⟨hget, hiff.mp hslot (by rw [hget]; simp)⟩
    · rw [RefTree.get, hslot] at hget
      cases hget
  · rintro ⟨hsettled, hkept⟩
    rw [get_of_slot (hiff.mpr fun _ => hkept) hv, hsettled]

/-- Replaying a frame whose deletion, if it is one, finds its ref. -/
theorem logged_replayEntry (hvalid : f.Valid)
    (hpresent : ∀ n hlc, f = .delete n hlc → (t.slot n).isSome) : Logged t f (replayEntry t f) := by
  refine ⟨fun n => ?_, hpresent, hvalid⟩
  cases hf : f.effect n with
  | some v => exact slot_replayEntry_of_effect hf
  | none =>
    rw [slot_replayEntry_of_no_effect hf]
    refine if_neg fun hdrops => ?_
    cases f with
    | delete n' hlc =>
      obtain ⟨s, hs⟩ := Option.isSome_iff_exists.mp (hpresent n' hlc rfl)
      obtain ⟨a, ha, -⟩ := hdrops
      rw [RefTree.drop_of_slot hs] at ha
      cases ha
    | update | checkpoint | batch => exact hdrops

/-- Every deletion of the log is of a ref that the frames before it give a value. -/
def DeletesFound (wal : List WalEntry) : Prop :=
  ∀ l₁ n hlc l₂, wal = l₁ ++ .delete n hlc :: l₂ → settled n none l₁ ≠ none

theorem deletesFound_of_none (h : ∀ n hlc, .delete n hlc ∉ wal) : DeletesFound wal :=
  fun l₁ n hlc l₂ heq => absurd (by simp [heq]) (h n hlc)

/-- **Nothing is lost** from such a log. -/
theorem DeletesFound.get_openTree (hfound : DeletesFound wal) (hvalid : ∀ f ∈ wal, f.Valid)
    (n : RefName) : (openTree wal).get n = settled n none wal := by
  induction wal using List.reverseRecOn generalizing n with
  | nil => rfl
  | append_singleton wal f ih =>
    have hget := ih (fun l₁ n hlc l₂ heq => hfound l₁ n hlc (l₂ ++ [f]) (by rw [heq]; simp))
      fun g hg => hvalid g (List.mem_append_left _ hg)
    have hf : Logged (openTree wal) f (replayEntry (openTree wal) f) := by
      refine logged_replayEntry (hvalid f (by simp)) fun n hlc heq => ?_
      have hsome := hfound wal n hlc [] (by rw [heq])
      rw [← hget] at hsome
      exact Option.isSome_of_isSome_bind (Option.isSome_iff_ne_none.mpr hsome)
    rw [openTree_eq_replay, replay_concat, ← openTree_eq_replay, hf.get, hget]
    exact (settle_concat f).symm

/-! ### What the writers decide on a plain slot -/

section PlainSlot

variable (h : t.slot n = (t.get n).map RefSlot.ofCommitted) (hlc : Nat)
include h

theorem decideUpdate_of_slot (new : ObjectId) (expected : Option ObjectId) :
    decideUpdate n new expected hlc (t.slot n) =
      match precondition (t.get n) expected with
      | .conflict e => .answer (.error (.conflict e))
      | .absent _ => .answer (.error (.notFound new))
      | .holds =>
        .put (.ofCommitted ⟨new, hlc, nextVersion (t.get n)⟩)
          (some (.update n ⟨new, hlc, nextVersion (t.get n)⟩))
          (.ok ⟨new, hlc, nextVersion (t.get n)⟩) (.error .io) := by
  rw [RefTree.get, h]
  cases t.get n <;> rfl

theorem decideDelete_of_slot (expected : ObjectId) :
    decideDelete n expected hlc (t.slot n) =
      match t.get n with
      | none => .answer (.error (.notFound expected))
      | some e =>
        if e.target ≠ expected then .answer (.error (.conflict e))
        else .remove (some (.delete n hlc)) (.ok ()) (.error .io) := by
  rw [h]
  cases hget : t.get n with
  | none => rfl
  | some e => simp [decideDelete, RefSlot.ofCommitted, get_version_ne_zero hget]

theorem applyUpdate_of_slot (target : ObjectId) (expected : Option ObjectId) :
    applyUpdate n target expected hlc (t.slot n) =
      match precondition (t.get n) expected with
      | .conflict e => .answer (.conflict e)
      | .absent _ => .answer .notFound
      | .holds =>
        .putAnyway (.ofCommitted ⟨target, hlc, nextVersion (t.get n)⟩)
          (some (.update n ⟨target, hlc, nextVersion (t.get n)⟩))
          (.updated ⟨target, hlc, nextVersion (t.get n)⟩) := by
  rw [h]
  cases t.get n <;> rfl

theorem applyDelete_of_slot (expected : ObjectId) :
    applyDelete n expected hlc (t.slot n) =
      match t.get n with
      | none => .answer .notFound
      | some e =>
        if e.target ≠ expected then .answer (.conflict e)
        else .remove (some (.delete n hlc)) .deleted .deleted := by
  rw [h]
  cases t.get n <;> rfl

end PlainSlot

theorem RefTree.Plain.batchConflicts_eq_nil_iff (h : t.Plain) {ops : List BatchOp} :
    batchConflicts t ops = [] ↔
      ∀ op ∈ ops, (t.get op.name).map RefEntry.target = op.expected := by
  rw [Ledge.RefStore.batchConflicts_eq_nil_iff]
  exact forall₂_congr fun op _ => and_iff_right (h.lock_eq_none op.name)

end Ledge.RefStore
