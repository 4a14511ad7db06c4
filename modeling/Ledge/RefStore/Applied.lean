import Ledge.RefStore.AtomicCommit
import Ledge.RefStore.Checkpoint

/-!
# Ledge.RefStore.Applied

What `apply_op` and `commit_batch` can do to a ref store, and how the replicated writes
compare with the local ones.

* `Store.Advance` says once what a command does: either nothing becomes visible and nothing
  is logged, or one frame is logged for what becomes visible.
* `RefTree.Tidy`: a slot that was never committed is locked.
* `apply_op` has its own copy of the checks of `update` and `delete`, without the one for a
  lock. `replicated_agrees_iff_unlocked` says when that makes a difference.
-/

namespace Ledge.RefStore

open Ledge.Core Ledge.Lib Option

/-! ### Reads and batches as functions of the slots -/

variable {t t' : RefTree} {s : Store} {durable : Bool}

theorem RefTree.get_congr {n : RefName} (h : t.slot n = t'.slot n) : t.get n = t'.get n := by
  rw [RefTree.get, RefTree.get, h]

theorem planOp_congr (h : ∀ n, t.slot n = t'.slot n) : planOp t = planOp t' := by
  funext op
  rw [planOp, planOp, h]

theorem batchConflicts_congr (h : ∀ n, t.slot n = t'.slot n) :
    batchConflicts t = batchConflicts t' := by
  funext ops
  rw [batchConflicts, batchConflicts, planOp_congr h]

theorem batchPlanned_congr (h : ∀ n, t.slot n = t'.slot n) : batchPlanned t = batchPlanned t' := by
  funext ops
  rw [batchPlanned, batchPlanned, planOp_congr h]

/-! ### What a command does to a ref store -/

/-- One command: nothing visible and no frame, or one frame for what becomes visible. -/
inductive Store.Advance (durable : Bool) (s s' : Store) : Prop
  | quiet (get : ∀ n, s'.tree.get n = s.tree.get n) (wal : s'.wal = s.wal)
  | frame (f : WalEntry) (logged : Logged s.tree f s'.tree)
      (wal : s'.wal = s.wal ++ if durable then [f] else [])

theorem Store.Advance.refl (durable : Bool) (s : Store) : Store.Advance durable s s :=
  .quiet (fun _ => rfl) rfl

theorem advance_applyOp (s : Store) (durable : Bool) (op : AppliedOp) :
    Store.Advance durable s (s.run durable (s.tree.applyOp op)).1 := by
  have hsound := op.decide_sound (s.tree.slot op.name)
  rw [show s.tree.applyOp op = (op.decide (s.tree.slot op.name)).attempt s.tree op.name from rfl,
    s.run_attempt durable op.name (op.decide_steady _)]
  cases hlog : (op.decide (s.tree.slot op.name)).log with
  | none =>
    refine .quiet (fun n => ?_) (by simp)
    rw [RefTree.get, RefTree.get, hsound.slot_tree]
    split_ifs with hn
    · rw [hsound.unlogged hlog, hn]
    · rfl
  | some f => exact .frame f (hsound.logged_tree hlog) (by simp)

theorem advance_commitBatch (s : Store) (durable : Bool) (ops : List BatchOp) :
    Store.Advance durable s (s.run durable (s.tree.commitBatch ops)).1 := by
  rw [Store.run_commitBatch]
  by_cases hblocked : batchConflicts s.tree ops ≠ []
  · rw [if_pos hblocked]
    exact .refl durable s
  · rw [if_neg hblocked]
    exact .frame _ (logged_batch s.tree ops) rfl

/-! ### Uncommitted slots are locked -/

/-- A slot that was never committed is there for its lock. -/
def RefTree.Tidy (t : RefTree) : Prop :=
  ∀ n s, t.slot n = some s → s.committed.version = 0 → s.prepared.isSome

theorem tidy_empty : RefTree.empty.Tidy := nofun

theorem RefTree.Plain.tidy (h : t.Plain) : t.Tidy := by
  intro n s hs hv
  rw [h n, map_eq_some_iff] at hs
  obtain ⟨e, he, rfl⟩ := hs
  exact absurd hv (get_version_ne_zero he)

theorem RefTree.Tidy.plain (h : t.Tidy) (hfree : ∀ n s, t.slot n = some s → s.prepared = none) :
    t.Plain := by
  intro n
  rw [RefTree.get]
  cases hs : t.slot n with
  | none => rfl
  | some s =>
    have hp := hfree n s hs
    have hv : s.committed.version ≠ 0 := by
      intro hv
      have := h n s hs hv
      rw [hp] at this
      cases this
    obtain ⟨committed, prepared⟩ := s
    simp only at hp hv
    simp [RefSlot.visible, RefSlot.ofCommitted, hp, hv]

theorem AppliedOp.decide_tidy (op : AppliedOp) {slot : Option RefSlot}
    (h : ∀ s, slot = some s → s.committed.version = 0 → s.prepared.isSome) :
    ∀ s, (op.decide slot).after slot = some s → s.committed.version = 0 → s.prepared.isSome := by
  have hsound := op.decide_sound slot
  intro s hs hv
  cases hlog : (op.decide slot).log with
  | some f =>
    obtain ⟨hnone, -⟩ | ⟨e, he, hsome, -⟩ := hsound.logged f hlog
    · rw [hnone] at hs
      cases hs
    · rw [hsome] at hs
      rw [← some.inj hs] at hv
      exact absurd hv he
  | none =>
    -- only a lock is taken or released
    cases op with
    | update name target expected hlc =>
      simp only [AppliedOp.decide, applyUpdate] at hlog hs
      split at hs
      · exact h s hs hv
      · exact h s hs hv
      · next hpre =>
        rw [hpre] at hlog
        cases hlog
    | delete name expected hlc =>
      simp only [AppliedOp.decide, applyDelete] at hlog hs
      split at hs
      · cases hs
      · split_ifs at hs hlog with hne
        · exact h s hs hv
        · cases hs
    | prepare txnId coordShard name target expected hlc =>
      simp only [AppliedOp.decide, applyPrepare] at hs
      split_ifs at hs
      · exact h s hs hv
      · split at hs
        · exact h s hs hv
        · exact h s hs hv
        · split at hs
          · rw [← some.inj hs]
            rfl
          · rw [← some.inj hs]
            rfl
    | commitPrepared txnId name =>
      simp only [AppliedOp.decide, applyCommitPrepared] at hlog hs
      split at hs
      · cases hs
      · split at hs
        · split_ifs at hs hlog with heq
          · rw [← some.inj hs] at hv
            exact absurd hv (Nat.succ_ne_zero _)
          · exact h s hs hv
        · exact h s hs hv
    | abortPrepared txnId name =>
      simp only [AppliedOp.decide, applyAbortPrepared] at hs
      split at hs
      · cases hs
      · split at hs
        · split_ifs at hs with htxn hzero
          · cases hs
          · rw [← some.inj hs] at hv
            exact absurd hv hzero
          · exact h s hs hv
        · exact h s hs hv

theorem Logged.tidy {f : WalEntry} (hf : Logged t f t') (h : t.Tidy) : t'.Tidy := by
  intro n s hs hv
  rw [hf.slot n] at hs
  cases heff : f.effect n with
  | none =>
    rw [heff] at hs
    exact h n s hs hv
  | some v =>
    rw [heff] at hs
    obtain ⟨e, he, rfl⟩ := map_eq_some_iff.mp hs
    exact absurd hv (hf.valid n e (by rw [heff, he]))

theorem tidy_applyOp {op : AppliedOp} (h : s.tree.Tidy) :
    (s.run durable (s.tree.applyOp op)).1.tree.Tidy := by
  rw [show s.tree.applyOp op = (op.decide (s.tree.slot op.name)).attempt s.tree op.name from rfl,
    s.run_attempt durable op.name (op.decide_steady _)]
  intro n slot hslot
  rw [(op.decide_sound _).slot_tree] at hslot
  split_ifs at hslot
  · exact op.decide_tidy (fun s' hs' => h op.name s' hs') slot hslot
  · exact h n slot hslot

theorem tidy_commitBatch {ops : List BatchOp} (h : s.tree.Tidy) :
    (s.run durable (s.tree.commitBatch ops)).1.tree.Tidy := by
  rw [Store.run_commitBatch]
  by_cases hblocked : batchConflicts s.tree ops ≠ []
  · rw [if_pos hblocked]
    exact h
  · rw [if_neg hblocked]
    exact (logged_batch s.tree ops).tidy h

/-! ### Replicated and local writes -/

/-- The states of a store: an opened log, and then client calls and replicated operations.
Whether a frame could be appended does not matter. -/
inductive Reached : Store → Prop
  | start {wal : List WalEntry} (h : ∀ f ∈ wal, f.Valid) : Reached (.openOn wal)
  | call {s : Store} (durable : Bool) (c : Call) (hlc : Nat) (h : Reached s) :
      Reached (s.run durable (c.attempt hlc s.tree)).1
  | apply {s : Store} (durable : Bool) (op : AppliedOp) (h : Reached s) :
      Reached (s.run durable (s.tree.applyOp op)).1

theorem tidy_call {c : Call} {hlc : Nat} (h : s.tree.Tidy) :
    (s.run durable (c.attempt hlc s.tree)).1.tree.Tidy := by
  cases hattempt : c.attempt hlc s.tree with
  | done r => exact h
  | publish t log r lost =>
    obtain ⟨f, rfl, hlogged⟩ := Call.logged_of_publish hattempt
    cases durable with
    | true | false => exact hlogged.tidy h

theorem Reached.tidy (h : Reached s) : s.tree.Tidy := by
  induction h with
  | start h => exact (plain_openTree h).tidy
  | call durable c hlc _ ih => exact tidy_call ih
  | apply durable op _ ih => exact tidy_applyOp ih

/-- A slot that is not locked is what `get` shows of it. -/
theorem RefTree.Tidy.slot_of_unlocked {n : RefName} (h : t.Tidy) (hfree : t.lock n = none) :
    t.slot n = (t.get n).map RefSlot.ofCommitted := by
  rw [RefTree.get]
  cases hslot : t.slot n with
  | none => rfl
  | some slot =>
    obtain ⟨committed, prepared⟩ := slot
    rw [RefTree.lock, hslot] at hfree
    obtain rfl : prepared = none := hfree
    have hv : committed.version ≠ 0 := fun hv => by cases h n _ hslot hv
    simp [RefSlot.visible, RefSlot.ofCommitted, hv]

/-- A write of one ref. -/
inductive Write
  | update (name : RefName) (target : ObjectId) (expected : Option ObjectId)
  | delete (name : RefName) (expected : ObjectId)
  deriving DecidableEq

namespace Write

def name : Write → RefName
  | .update name .. | .delete name _ => name

/-- The target that the ref must have. -/
def expected : Write → Option ObjectId
  | .update _ _ expected => expected
  | .delete _ expected => some expected

/-- The write as a client call. -/
def call : Write → Call
  | .update name target expected => .update name target expected
  | .delete name expected => .delete name expected

/-- The write as a replicated operation. -/
def op (hlc : Nat) : Write → AppliedOp
  | .update name target expected => .update name target expected hlc
  | .delete name expected => .delete name expected hlc

end Write

def Resp.succeeded : Resp → Bool
  | .updated (.ok _) | .deleted (.ok _) => true
  | _ => false

def AppliedOutcome.succeeded : AppliedOutcome → Bool
  | .updated _ | .deleted => true
  | _ => false

section Agreement

variable {s : Store} {w : Write} (hlc hlc' : Nat)

/-- The local write and the replicated one succeed alike and leave the same targets and
versions. -/
def Agrees (s : Store) (w : Write) (hlc hlc' : Nat) : Prop :=
  let l := s.run true (w.call.attempt hlc s.tree)
  let r := s.run true (s.tree.applyOp (w.op hlc'))
  r.2.succeeded = l.2.succeeded ∧ ∀ n, shown (r.1.tree.get n) = shown (l.1.tree.get n)

/-- `update` and `delete` refuse a locked ref. -/
theorem run_call_of_locked {e : RefEntry} {p : PreparedIntent}
    (h : s.tree.slot w.name = some ⟨e, some p⟩) :
    (s.run true (w.call.attempt hlc s.tree)).1 = s ∧
      (s.run true (w.call.attempt hlc s.tree)).2.succeeded = false := by
  cases w with
  | update name target expected | delete name expected =>
    have hslot : s.tree.slot name = some ⟨e, some p⟩ := h
    simp only [Write.call, Call.attempt, hslot]
    exact ⟨rfl, rfl⟩

/-- `apply_op` succeeds when the committed entry of the slot, locked or not, is the expected
one. -/
theorem run_applyOp_of_present {slot : RefSlot} (h : s.tree.slot w.name = some slot) :
    (some slot.committed.target = w.expected →
      (s.run true (s.tree.applyOp (w.op hlc))).2.succeeded = true) ∧
    (some slot.committed.target ≠ w.expected →
      (s.run true (s.tree.applyOp (w.op hlc))).1 = s ∧
        (s.run true (s.tree.applyOp (w.op hlc))).2.succeeded = false) := by
  cases w with
  | update name target expected =>
    have hslot : s.tree.slot name = some slot := h
    simp only [Write.op, RefTree.applyOp, AppliedOp.decide, AppliedOp.name, applyUpdate, hslot,
      map_some, Write.expected]
    rcases precondition_cases (some slot.committed) expected with
      ⟨hpre, htarget⟩ | ⟨e, hpre, he, hne⟩ | ⟨x, -, hnone, -⟩
    · rw [hpre]
      exact ⟨fun _ => rfl, fun hne => absurd htarget hne⟩
    · cases he
      rw [hpre]
      exact ⟨fun htarget => absurd htarget hne, fun _ => ⟨rfl, rfl⟩⟩
    · cases hnone
  | delete name expected =>
    have hslot : s.tree.slot name = some slot := h
    simp only [Write.op, RefTree.applyOp, AppliedOp.decide, AppliedOp.name, applyDelete, hslot,
      Write.expected, some.injEq, ne_eq]
    by_cases htarget : slot.committed.target = expected
    · rw [if_neg (not_not.mpr htarget)]
      exact ⟨fun _ => rfl, fun hne => absurd htarget hne⟩
    · rw [if_pos htarget]
      exact ⟨fun heq => absurd heq htarget, fun _ => ⟨rfl, rfl⟩⟩

theorem shown_get_insert {t : RefTree} {n : RefName} {target : ObjectId} {version : Nat}
    (m : RefName) :
    shown ((t.insert n (.ofCommitted ⟨target, hlc, version⟩)).get m) =
      shown ((t.insert n (.ofCommitted ⟨target, hlc', version⟩)).get m) := by
  rw [RefTree.get, RefTree.get, RefTree.slot_insert, RefTree.slot_insert]
  split_ifs
  · simp only [bind_some, RefSlot.visible, RefSlot.ofCommitted]
    split_ifs <;> rfl
  · rfl

theorem agrees_of_unlocked (h : s.tree.Tidy) (hfree : s.tree.lock w.name = none) :
    Agrees s w hlc hlc' := by
  cases w with
  | update name target expected =>
    have hslot : s.tree.slot name = (s.tree.get name).map RefSlot.ofCommitted :=
      h.slot_of_unlocked hfree
    simp only [Agrees, Write.call, Call.attempt, Write.op, RefTree.applyOp, AppliedOp.decide,
      AppliedOp.name, decideUpdate_of_slot hslot, applyUpdate_of_slot hslot]
    cases precondition (s.tree.get name) expected with
    | conflict e | absent x => exact ⟨rfl, fun _ => rfl⟩
    | holds => exact ⟨rfl, shown_get_insert _ _⟩
  | delete name expected =>
    have hslot : s.tree.slot name = (s.tree.get name).map RefSlot.ofCommitted :=
      h.slot_of_unlocked hfree
    simp only [Agrees, Write.call, Call.attempt, Write.op, RefTree.applyOp, AppliedOp.decide,
      AppliedOp.name, decideDelete_of_slot hslot, applyDelete_of_slot hslot]
    cases s.tree.get name with
    | none => exact ⟨rfl, fun _ => rfl⟩
    | some e =>
      dsimp only
      split_ifs
      · exact ⟨rfl, fun _ => rfl⟩
      · exact ⟨rfl, fun _ => rfl⟩

/-- **Replicated and local writes agree** on a reachable store if and only if the ref is not
locked, or its slot does not hold the expected target, placeholder or not, so that `apply_op`
refuses the write as well. -/
theorem replicated_agrees_iff_unlocked (h : Reached s) (w : Write) :
    Agrees s w hlc hlc' ↔
      s.tree.lock w.name = none ∨
        (s.tree.slot w.name).map (fun slot => slot.committed.target) ≠ w.expected := by
  cases hslot : s.tree.slot w.name with
  | none =>
    have hfree : s.tree.lock w.name = none := by
      rw [RefTree.lock, hslot]
      rfl
    exact iff_of_true (agrees_of_unlocked hlc hlc' h.tidy hfree) (Or.inl hfree)
  | some slot =>
    obtain ⟨e, prepared⟩ := slot
    have hlock : s.tree.lock w.name = prepared := by
      rw [RefTree.lock, hslot]
      rfl
    cases prepared with
    | none => exact iff_of_true (agrees_of_unlocked hlc hlc' h.tidy hlock) (Or.inl hlock)
    | some p =>
      obtain ⟨hlocal, hrefused⟩ := run_call_of_locked hlc hslot
      obtain ⟨hmeets, hfails⟩ := run_applyOp_of_present hlc' hslot
      rw [hlock]
      by_cases htarget : some e.target = w.expected
      · refine iff_of_false (fun hagrees => ?_) fun hor => ?_
        · have hsame := hagrees.1
          rw [hmeets htarget, hrefused] at hsame
          cases hsame
        · exact hor.elim (by simp) fun hne => hne htarget
      · obtain ⟨hreplicated, hrefused'⟩ := hfails htarget
        refine iff_of_true ⟨?_, fun n => ?_⟩ (Or.inr htarget)
        · rw [hrefused', hrefused]
        · rw [hreplicated, hlocal]

end Agreement

/-- `refs/heads/a` is to be created by a transaction that has prepared it. -/
def preparedStore : Store :=
  (Store.run (.openOn []) true ((Store.openOn []).tree.applyOp
    (.prepare (.fill 7) 0 .headsA (.fill 1) none 0))).1

theorem reached_preparedStore : Reached preparedStore :=
  .apply true _ (.start nofun)

/-- On the placeholder of a prepared ref, a replicated update from the staged target succeeds
and makes the ref visible, and the local update is refused. -/
theorem replicated_overwrites_lock :
    let s := preparedStore
    let r := s.run true (s.tree.applyOp (.update .headsA (.fill 2) (some (.fill 1)) 5))
    let l := s.run true ((Call.update .headsA (.fill 2) (some (.fill 1))).attempt 5 s.tree)
    Reached s ∧ s.tree.get .headsA = none ∧ r.2 = .updated ⟨.fill 2, 5, 1⟩ ∧
      r.1.tree.get .headsA = some ⟨.fill 2, 5, 1⟩ ∧ l.2.succeeded = false := by
  refine ⟨reached_preparedStore, ?_⟩
  decide

/-- Both create `refs/heads/b` beside the lock. -/
theorem unlocked_ref_agrees :
    Reached preparedStore ∧ Agrees preparedStore (.update .headsB (.fill 2) none) 5 6 :=
  ⟨reached_preparedStore,
    (replicated_agrees_iff_unlocked 5 6 reached_preparedStore _).mpr (Or.inl (by decide))⟩

end Ledge.RefStore
