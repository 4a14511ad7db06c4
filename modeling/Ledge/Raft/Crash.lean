import Ledge.Raft.Restart

/-!
# Ledge.Raft.Crash

**A crash inside `apply`**: some entries of a batch have reached the logs of the stores,
the applied-meta file still has the old position, and the whole batch is applied again.

For leases this does no harm: the last write for an id wins. A ref write that succeeds a
second time does: it advances the version again. On the second pass over the part that
was already applied, the entries meet the state that this part has left; if that state
refuses all of them the pass changes nothing.

The reopened store has no locks. An entry does the same there as long as it does not look at a
lock that was lost (`Clear`).
-/

namespace Ledge.Raft

open Ledge.Core Ledge.RefStore Ledge.Workspace Ledge.Lib List Option StateMachine

/-! ### Entries outside transactions -/

/-- Ref updates, deletions, batches and lease writes, and entries without a command. -/
def Action.isPlain : Action → Bool
  | .noop | .ref (.update ..) | .ref (.delete ..) | .batch _ | .leasePut _
  | .leaseTombstone .. => true
  | _ => false

/-- The entry is valid and outside transactions. -/
def Entry.isPlain (e : Entry) : Bool := e.payload.action.any Action.isPlain

/-- The tree refuses the command, or the command writes no ref: the target that it expects
is not the current one; for a batch, that of one of its refs. -/
def Inert (t : RefTree) : Action → Prop
  | .ref (.update n _ expected _) => (t.get n).map RefEntry.target ≠ expected
  | .ref (.delete n expected _) => (t.get n).map RefEntry.target ≠ some expected
  | .batch ops => ops = [] ∨ ∃ op ∈ ops, (t.get op.name).map RefEntry.target ≠ op.expected
  | _ => True

/-- The command does not look at a lock: no ref of a batch is locked, and the ref of an update or a
deletion is not one that a transaction has prepared to create. -/
def Clear (t : RefTree) : Action → Prop
  | .ref (.update n ..) | .ref (.delete n ..) => (t.slot n).map RefSlot.committed = t.get n
  | .batch ops => ∀ op ∈ ops, t.lock op.name = none
  | _ => True

variable {Q P : List Entry}

theorem exists_actions (h : ∀ e ∈ Q, e.isPlain) :
    ∃ as, actions (durably Q) = some as ∧ ∀ x ∈ as, x.1.isPlain ∧ x.2 = true := by
  induction Q with
  | nil => exact ⟨[], rfl, by simp⟩
  | cons e Q ih =>
    rw [forall_mem_cons] at h
    obtain ⟨as, has, hplain⟩ := ih h.2
    obtain ⟨a, ha, haplain⟩ : ∃ a, e.payload.action = some a ∧ a.isPlain := by
      have he := h.1
      rw [Entry.isPlain] at he
      cases ha : e.payload.action with
      | none =>
        rw [ha] at he
        cases he
      | some a =>
        rw [ha] at he
        exact ⟨a, rfl, he⟩
    refine ⟨(a, true) :: as, ?_, forall_mem_cons.mpr ⟨⟨haplain, rfl⟩, hplain⟩⟩
    simp only [durably, map_cons, actions] at has ⊢
    rw [ha, has]
    rfl

/-! ### What such a command does -/

variable {r : Replica} {a : Action}

theorem perform_ref_cases {op : AppliedOp} (hlogs : (op.decide (r.refs.tree.slot op.name)).Logs) :
    (r.perform true (.ref op)).1.refs = r.refs ∨
    ∃ f, Logged r.refs.tree f (r.perform true (.ref op)).1.refs.tree ∧
      (r.perform true (.ref op)).1.refs.wal = r.refs.wal ++ [f] := by
  simp only [Replica.perform, run_applyOp]
  rcases hlogs.cases r.refs.tree op.name with ⟨hlog, htree⟩ | ⟨f, hlog⟩
  · refine Or.inl ?_
    rw [hlog, htree]
    simp
  · refine Or.inr ⟨f, (op.decide_sound _).logged_tree hlog, ?_⟩
    rw [hlog]
    rfl

/-- It leaves the refs alone or logs a frame for what it writes. -/
theorem perform_plain_cases (ha : a.isPlain) (r : Replica) :
    (r.perform true a).1.refs = r.refs ∨
    ∃ f, Logged r.refs.tree f (r.perform true a).1.refs.tree ∧
      (r.perform true a).1.refs.wal = r.refs.wal ++ [f] := by
  cases a with
  | noop | leasePut | leaseTombstone => exact Or.inl rfl
  | txnBegin | txnDecide | txnEnd => cases ha
  | batch ops =>
    simp only [Replica.perform, Store.run_commitBatch]
    by_cases hblocked : batchConflicts r.refs.tree ops ≠ []
    · rw [if_pos hblocked]
      exact Or.inl rfl
    · rw [if_neg hblocked]
      exact Or.inr ⟨_, logged_batch r.refs.tree ops, rfl⟩
  | ref op =>
    cases op with
    | update name target expected hlc => exact perform_ref_cases (applyUpdate_logs ..)
    | delete name expected hlc => exact perform_ref_cases (applyDelete_logs ..)
    | prepare | commitPrepared | abortPrepared => cases ha

theorem clear_of_plain {t : RefTree} (h : t.Plain) (a : Action) : Clear t a := by
  have hcommitted : ∀ n, (t.slot n).map RefSlot.committed = t.get n := by
    intro n
    rw [h n]
    cases t.get n <;> rfl
  cases a with
  | ref op =>
    cases op with
    | update n | delete n => exact hcommitted n
    | prepare | commitPrepared | abortPrepared => trivial
  | batch ops => exact fun op _ => h.lock_eq_none op.name
  | noop | leasePut | leaseTombstone | txnBegin | txnDecide | txnEnd => trivial

theorem Clear.perform {b : Action} (h : Clear r.refs.tree b) (ha : a.isPlain) :
    Clear (r.perform true a).1.refs.tree b := by
  rcases perform_plain_cases ha r with hsame | ⟨f, hf, -⟩
  · rw [hsame]
    exact h
  · generalize (r.perform true a).1.refs.tree = t' at hf ⊢
    have hcommitted : ∀ n, (r.refs.tree.slot n).map RefSlot.committed = r.refs.tree.get n →
        (t'.slot n).map RefSlot.committed = t'.get n := by
      intro n hn
      rw [hf.slot, hf.get]
      rcases f.effect n with _ | _ | e
      · exact hn
      · rfl
      · rfl
    cases b with
    | ref op =>
      cases op with
      | update n | delete n => exact hcommitted n h
      | prepare | commitPrepared | abortPrepared => trivial
    | batch ops =>
      intro op hop
      rw [RefTree.lock, hf.slot]
      rcases f.effect op.name with _ | _ | e
      · exact h op hop
      · rfl
      · rfl
    | noop | leasePut | leaseTombstone | txnBegin | txnDecide | txnEnd => trivial

theorem Clear.frame_eq {r' : Replica} (h : Clear r.refs.tree a) (h' : Clear r'.refs.tree a)
    (ha : a.isPlain) (hget : ∀ n, r.refs.tree.get n = r'.refs.tree.get n) :
    r.frame a = r'.frame a := by
  cases a with
  | noop | leasePut | leaseTombstone => rfl
  | txnBegin | txnDecide | txnEnd => cases ha
  | batch ops =>
    have hplan : ∀ op ∈ ops, planOp r.refs.tree op = planOp r'.refs.tree op := by
      intro op hop
      rw [planOp_of_unlocked (h op hop), planOp_of_unlocked (h' op hop), hget]
    have hconflicts : batchConflicts r.refs.tree ops = batchConflicts r'.refs.tree ops :=
      filterMap_congr fun op hop => by rw [hplan op hop]
    have hplanned : batchPlanned r.refs.tree ops = batchPlanned r'.refs.tree ops :=
      filterMap_congr fun op hop => by rw [hplan op hop]
    rw [Replica.frame, Replica.frame, hconflicts, hplanned]
  | ref op =>
    have hslot : ∀ n, (r.refs.tree.slot n).map RefSlot.committed = r.refs.tree.get n →
        (r'.refs.tree.slot n).map RefSlot.committed = r'.refs.tree.get n →
        (r.refs.tree.slot n).map RefSlot.committed = (r'.refs.tree.slot n).map RefSlot.committed :=
      fun n hn hn' => hn.trans ((hget n).trans hn'.symm)
    cases op with
    | update n target expected hlc =>
      simp only [Replica.frame, AppliedOp.decide, AppliedOp.name, applyUpdate]
      rw [show (r.refs.tree.slot n).map (fun s => s.committed) = _ from hslot n h h']
    | delete n expected hlc =>
      have hslot := hslot n h h'
      simp only [Replica.frame, AppliedOp.decide, AppliedOp.name]
      rcases hs : r.refs.tree.slot n with _ | s <;> rcases hs' : r'.refs.tree.slot n with _ | s' <;>
        rw [hs, hs'] at hslot
      · cases hslot
      · cases hslot
      · rw [applyDelete, applyDelete, some.inj hslot]
    | prepare | commitPrepared | abortPrepared => cases ha

theorem Clear.get_ne_none {n : RefName} {hlc : Nat} (h : Clear r.refs.tree a) (ha : a.isPlain)
    (hf : r.frame a = [.delete n hlc]) : r.refs.tree.get n ≠ none := by
  cases a with
  | noop | leasePut | leaseTombstone => cases hf
  | txnBegin | txnDecide | txnEnd => cases ha
  | batch ops =>
    simp only [Replica.frame] at hf
    split_ifs at hf
    cases hf
  | ref op =>
    have hmem : WalEntry.delete n hlc ∈ r.frame (.ref op) := by
      rw [hf]
      exact mem_cons_self
    have hlog : (op.decide (r.refs.tree.slot op.name)).log = some (.delete n hlc) :=
      Option.mem_toList.mp hmem
    have hlogged := (op.decide_sound _).logged_tree hlog
    obtain rfl : op.name = n := by
      rcases (op.decide_sound _).logged _ hlog with ⟨-, _, heq⟩ | ⟨_, -, -, heq⟩
      · exact (WalEntry.delete.inj heq).1.symm
      · cases heq
    have hclear : (r.refs.tree.slot op.name).map RefSlot.committed = r.refs.tree.get op.name := by
      cases op with
      | update | delete => exact h
      | prepare | commitPrepared | abortPrepared => cases ha
    rw [← hclear, ne_eq, map_eq_none_iff, ← ne_eq, ← isSome_iff_ne_none]
    exact hlogged.present _ hlc rfl

/-- The log replays to what readers see. -/
def Replays (s : Store) : Prop := ∀ n, (openTree s.wal).get n = s.tree.get n

theorem Replays.perform (h : Replays r.refs) (hclear : Clear r.refs.tree a) (ha : a.isPlain) :
    Replays (r.perform true a).1.refs := by
  rcases perform_plain_cases ha r with hsame | ⟨f, hf, hwal⟩
  · rw [hsame]
    exact h
  · have hframe : r.frame a = [f] := append_cancel_left ((wal_perform r true a).symm.trans hwal)
    have hreplay : Logged (openTree r.refs.wal) f (replayEntry (openTree r.refs.wal) f) := by
      refine logged_replayEntry hf.valid fun n hlc heq => ?_
      have hsome := hclear.get_ne_none ha (heq ▸ hframe)
      rw [← h] at hsome
      exact isSome_of_isSome_bind (isSome_iff_ne_none.mpr hsome)
    intro n
    rw [hwal, openTree_eq_replay, replay_concat, ← openTree_eq_replay, hreplay.get, hf.get, h]

theorem Inert.tree_eq (hplain : r.refs.tree.Plain) (h : Inert r.refs.tree a) (ha : a.isPlain) :
    (r.perform true a).1.refs.tree = r.refs.tree := by
  cases a with
  | noop | leasePut | leaseTombstone => rfl
  | txnBegin | txnDecide | txnEnd => cases ha
  | batch ops =>
    simp only [Replica.perform, Store.run_commitBatch]
    rcases h with rfl | ⟨op, hop, hne⟩
    · rfl
    · have hblocked : batchConflicts r.refs.tree ops ≠ [] := fun hnone =>
        hne (hplain.batchConflicts_eq_nil_iff.mp hnone op hop)
      rw [if_pos hblocked]
  | ref op =>
    cases op with
    | update n target expected hlc =>
      simp only [Replica.perform, run_applyOp, AppliedOp.name, AppliedOp.decide,
        applyUpdate_of_slot (hplain n)]
      rcases precondition_cases (r.refs.tree.get n) expected with
        ⟨-, htarget⟩ | ⟨e, hpre, -⟩ | ⟨x, hpre, -⟩
      · exact absurd htarget h
      · rw [hpre]
        rfl
      · rw [hpre]
        rfl
    | delete n expected hlc =>
      simp only [Replica.perform, run_applyOp, AppliedOp.name, AppliedOp.decide,
        applyDelete_of_slot (hplain n)]
      cases hget : r.refs.tree.get n with
      | none => rfl
      | some e =>
        have hne : e.target ≠ expected := by
          rintro rfl
          exact h (by rw [hget]; rfl)
        simp only [ne_eq, hne, not_false_eq_true, if_true]
        rfl
    | prepare | commitPrepared | abortPrepared => cases ha

theorem exists_write (hplain : r.refs.tree.Plain) (ha : a.isPlain) (hdel : ¬ a.isDelete)
    (h : ¬ Inert r.refs.tree a) : ∃ f n v, r.frame a = [f] ∧ f.effect n = some v := by
  cases a with
  | noop | leasePut | leaseTombstone => exact absurd trivial h
  | txnBegin | txnDecide | txnEnd => cases ha
  | batch ops =>
    simp only [Inert, not_or, not_exists, not_and, not_not] at h
    have hnone := hplain.batchConflicts_eq_nil_iff.mpr h.2
    obtain ⟨op, hop⟩ := exists_mem_of_ne_nil ops h.1
    refine ⟨.batch (batchPlanned r.refs.tree ops), op.name, ?_⟩
    obtain ⟨e, he⟩ := exists_lastFor_batchPlanned hnone hop
    refine ⟨some e, ?_, by rw [WalEntry.effect, he]; rfl⟩
    rw [Replica.frame, if_neg (not_not.mpr hnone)]
  | ref op =>
    cases op with
    | update n target expected hlc =>
      have htarget : (r.refs.tree.get n).map RefEntry.target = expected := not_not.mp h
      rcases precondition_cases (r.refs.tree.get n) expected with
        ⟨hpre, -⟩ | ⟨e, -, hget, hne⟩ | ⟨x, -, hget, hexp⟩
      · refine ⟨.update n ⟨target, hlc, nextVersion (r.refs.tree.get n)⟩, n, _, ?_, if_pos rfl⟩
        simp only [Replica.frame, AppliedOp.name, AppliedOp.decide, applyUpdate_of_slot (hplain n),
          hpre]
        rfl
      · rw [hget] at htarget
        exact absurd htarget hne
      · rw [hget, hexp] at htarget
        cases htarget
    | delete n expected hlc => exact absurd rfl hdel
    | prepare | commitPrepared | abortPrepared => cases ha

/-! ### The second pass -/

/-- Commands outside transactions whose appends succeed. -/
def PlainRun (l : List (Action × Bool)) : Prop := ∀ x ∈ l, x.1.isPlain ∧ x.2 = true

variable {l : List (Action × Bool)}

theorem tree_eq_of_inert (hl : PlainRun l) (hplain : r.refs.tree.Plain)
    (h : ∀ x ∈ l, Inert r.refs.tree x.1) : (r.performAll l).1.refs.tree = r.refs.tree := by
  refine performAll_induct (p := fun r' => r'.refs.tree = r.refs.tree) rfl ?_
  intro r' x hx hr'
  obtain ⟨ha, hdurable⟩ := hl x hx
  rw [hdurable, Inert.tree_eq (hr' ▸ hplain) (hr' ▸ h x hx) ha, hr']

/-- Without deletions, a pass that changes nothing is one in which everything is
refused. -/
theorem inert_of_unchanged (hl : PlainRun l) (hdel : ∀ x ∈ l, ¬ x.1.isDelete)
    (hplain : r.refs.tree.Plain)
    (h : ∀ n, (r.performAll l).1.refs.tree.get n = r.refs.tree.get n) :
    ∀ x ∈ l, Inert r.refs.tree x.1 := by
  -- a write raises a version, which does not come back down
  have hquiet : ∀ n, ¬ Touched (WalEntry.effect n) ((r.frames l).map Prod.fst) := by
    intro n hwritten
    have hlt := (rising_frames hdel r n).lt_settle hwritten
    have hsame := (get_performAll r l n).symm.trans (h n)
    exact absurd (congrArg versionOf hsame) (Nat.ne_of_gt hlt)
  clear h
  induction l generalizing r with
  | nil =>
    intro x hx
    cases hx
  | cons x l ih =>
    obtain ⟨a, durable⟩ := x
    obtain ⟨⟨ha, rfl⟩, hl'⟩ := forall_mem_cons.mp hl
    obtain ⟨hda, hdel'⟩ := forall_mem_cons.mp hdel
    rw [Replica.frames, map_append] at hquiet
    have hinert : Inert r.refs.tree a := by
      by_contra hwrite
      obtain ⟨f, n, v, hf, heff⟩ := exists_write hplain ha hda hwrite
      exact hquiet n (touched_append.mpr (Or.inl ⟨f, by simp [hf], by rw [heff]; rfl⟩))
    have htree := Inert.tree_eq hplain hinert ha
    refine forall_mem_cons.mpr ⟨hinert, ?_⟩
    rw [← htree]
    exact ih hl' hdel' (htree ▸ hplain) fun n hlater =>
      hquiet n (touched_append.mpr (Or.inr hlater))

/-! ### Leases -/

/-- The frame that a command appends to the lease log. -/
def Action.leaseFrame : Action → List LeaseWalEntry
  | .leasePut lease => [.put lease]
  | .leaseTombstone id hlc => [.tombstone id hlc]
  | _ => []

theorem leases_wal_performAll (r : Replica) (l : List (Action × Bool)) :
    (r.performAll l).1.leases.wal = r.leases.wal ++ l.flatMap (fun x => x.1.leaseFrame) := by
  induction l generalizing r with
  | nil => simp [Replica.performAll]
  | cons x l ih =>
    obtain ⟨a, durable⟩ := x
    have hstep : (r.perform durable a).1.leases.wal = r.leases.wal ++ a.leaseFrame := by
      cases a with
      | leasePut | leaseTombstone => rfl
      | noop | ref | batch | txnBegin | txnDecide | txnEnd =>
        simp [Replica.perform, Action.leaseFrame]
    rw [performAll_cons, ih, hstep, flatMap_cons, append_assoc]

theorem leases_second_pass {r₀ r₁ : Replica}
    (h : r₁.leases = (r₀.performAll l).1.leases) :
    (r₁.performAll l).1.leases.index = r₁.leases.index := by
  apply LeaseIndex.ext_lookup
  intro id
  show (r₁.performAll l).1.leases.get id = r₁.leases.get id
  rw [LeaseStore.get_eq_settle, LeaseStore.get_eq_settle, leases_wal_performAll, h,
    leases_wal_performAll, settle_append, settle_append]
  exact settle_suffix (suffix_refl _)

theorem leases_performAll_congr {r' : Replica} (h : r.leases.index = r'.leases.index) :
    (r.performAll l).1.leases.index = (r'.performAll l).1.leases.index := by
  apply LeaseIndex.ext_lookup
  intro id
  have hget : r.leases.get id = r'.leases.get id := congrArg (LeaseIndex.lookup · id) h
  show (r.performAll l).1.leases.get id = (r'.performAll l).1.leases.get id
  rw [LeaseStore.get_eq_settle, LeaseStore.get_eq_settle] at hget ⊢
  rw [leases_wal_performAll, leases_wal_performAll, settle_append, settle_append, hget]

/-! ### The crash -/

theorem Clear.performAll {b : Action} (h : Clear r.refs.tree b) (hl : PlainRun l) :
    Clear (r.performAll l).1.refs.tree b := by
  refine performAll_induct (p := fun r => Clear r.refs.tree b) h fun r x hx hr => ?_
  rw [(hl x hx).2]
  exact hr.perform (hl x hx).1

theorem Replays.performAll (h : Replays r.refs) (hl : PlainRun l)
    (hclear : ∀ x ∈ l, Clear r.refs.tree x.1) : Replays (r.performAll l).1.refs := by
  induction l generalizing r with
  | nil => exact h
  | cons x l ih =>
    obtain ⟨a, durable⟩ := x
    obtain ⟨⟨ha, rfl⟩, hl'⟩ := forall_mem_cons.mp hl
    obtain ⟨hclear, hclear'⟩ := forall_mem_cons.mp hclear
    exact ih (h.perform hclear ha) hl' fun x hx => (hclear' x hx).perform ha

theorem get_performAll_congr {r' : Replica} (hl : PlainRun l)
    (hget : ∀ n, r.refs.tree.get n = r'.refs.tree.get n)
    (hclear : ∀ x ∈ l, Clear r.refs.tree x.1) (hclear' : ∀ x ∈ l, Clear r'.refs.tree x.1)
    (n : RefName) : (r.performAll l).1.refs.tree.get n = (r'.performAll l).1.refs.tree.get n := by
  induction l generalizing r r' with
  | nil => exact hget n
  | cons x l ih =>
    obtain ⟨a, durable⟩ := x
    obtain ⟨⟨ha, rfl⟩, hl'⟩ := forall_mem_cons.mp hl
    obtain ⟨hclear, hrest⟩ := forall_mem_cons.mp hclear
    obtain ⟨hclear', hrest'⟩ := forall_mem_cons.mp hclear'
    have hstep : ∀ n, (r.perform true a).1.refs.tree.get n =
        (r'.perform true a).1.refs.tree.get n := by
      intro n
      rw [get_perform, get_perform, hclear.frame_eq hclear' ha hget, hget]
    exact ih hl' hstep (fun x hx => (hrest x hx).perform ha) fun x hx => (hrest' x hx).perform ha

/-- The refs and leases of a replica. -/
def Replica.stored (r : Replica) : (RefName → Option RefEntry) × LeaseIndex :=
  (r.refs.tree.get, r.leases.index)

/-- The refs and leases of a result. -/
def storedOf (x : StateMachine × List LedgeResp) : (RefName → Option RefEntry) × LeaseIndex :=
  x.1.replica.stored

/-- The state machine crashes while it applies the batch `Q₁ ++ Q₂` behind `P`, after `Q₁`
and before it records a new position. Reopening and applying what follows the old
position ends with the refs and leases of an undisturbed `apply`. -/
def CrashHarmless (sm : StateMachine) (P Q₁ Q₂ : List Entry) : Prop :=
  ∃ crashed resps sm', sm.applyLoop (durably Q₁) = some (crashed, resps) ∧
    crashed.reopen = some sm' ∧
    (sm'.apply (resume sm'.lastAppliedLog (P ++ (Q₁ ++ Q₂)))).map storedOf =
      (sm.apply (Q₁ ++ Q₂)).map storedOf

/-- The state of the crash refuses every entry of `Q`. -/
def Refuses (sm : StateMachine) (Q : List Entry) : Prop :=
  ∀ e ∈ Q, ∀ a, e.payload.action = some a → Inert sm.replica.refs.tree a

theorem Inert.congr {t t' : RefTree} (h : t.get = t'.get) (hinert : Inert t a) : Inert t' a := by
  cases a with
  | ref op =>
    cases op with
    | update | delete =>
      simp only [Inert, h] at hinert ⊢
      exact hinert
    | prepare | commitPrepared | abortPrepared => trivial
  | batch ops =>
    simp only [Inert, h] at hinert ⊢
    exact hinert
  | noop | leasePut | leaseTombstone | txnBegin | txnDecide | txnEnd => trivial

/-- The refs and leases after the crash, in terms of the replica `r₁` at the crash. -/
theorem crashHarmless_iff {Q₁ Q₂ : List Entry} {as₁ as₂ : List (Action × Bool)} (r₀ : Replica)
    (h₁ : actions (durably Q₁) = some as₁)
    (h₂ : actions (durably Q₂) = some as₂) (hinc : Increasing (P ++ (Q₁ ++ Q₂))) :
    let r₁ := (r₀.performAll as₁).1
    CrashHarmless ((openDir .fresh).appliedTo r₀ P) P Q₁ Q₂ ↔
      ((r₁.reopened.performAll as₁).1.performAll as₂).1.stored = (r₁.performAll as₂).1.stored := by
  intro r₁
  have hdurably : durably (Q₁ ++ Q₂) =
      durably Q₁ ++ durably Q₂ := map_append
  have hactions : actions (durably (Q₁ ++ Q₂)) = some (as₁ ++ as₂) := by
    rw [hdurably, actions_append, h₁, h₂]
    rfl
  have hcrashed : ((openDir .fresh).appliedTo r₀ P).applyLoop
      (durably Q₁) = some
        ({ (openDir .fresh).appliedTo r₀ P with
            replica := r₁, lastAppliedLog := lastId (lastId none P) Q₁ },
          (r₀.performAll as₁).2) := by
    rw [applyLoop_eq, h₁, map_fst_durably]
    rfl
  have hagain : ((openDir ⟨r₁.refs.wal, r₁.leases.wal, lastId none P, none⟩).apply
      (resume (lastId none P) (P ++ (Q₁ ++ Q₂)))).map storedOf =
        some ((r₁.reopened.performAll as₁).1.performAll as₂).1.stored := by
    rw [resume_lastId hinc, apply_eq, hactions]
    simp only [map_some, performAll_append]
    rfl
  have honce : (((openDir .fresh).appliedTo r₀ P).apply (Q₁ ++ Q₂)).map storedOf =
      some (r₁.performAll as₂).1.stored := by
    rw [apply_eq, hactions]
    simp only [map_some, performAll_append]
    rfl
  constructor
  · rintro ⟨crashed, resps, sm', hloop, hreopen, heq⟩
    cases hcrashed.symm.trans hloop
    cases hreopen
    exact some.inj (hagain.symm.trans (heq.trans honce))
  · intro heq
    exact ⟨_, _, _, hcrashed, rfl, hagain.trans ((congrArg some heq).trans honce.symm)⟩

/-- Entries outside transactions that can follow `P` in one batch, and do not look at a lock. -/
structure Batch (sm : StateMachine) (P Q : List Entry) : Prop where
  plain : ∀ e ∈ Q, e.isPlain
  clear : ∀ e ∈ Q, ∀ a, e.payload.action = some a → Clear sm.replica.refs.tree a
  increasing : Increasing (P ++ Q)

/-- What holds for the commands of entries whose appends succeed. -/
theorem forall_actions_iff {as : List (Action × Bool)} (h : actions (durably Q) = some as)
    {p : Action → Prop} :
    (∀ x ∈ as, p x.1) ↔ ∀ e ∈ Q, ∀ a, e.payload.action = some a → p a := by
  constructor
  · intro hall e he a ha
    exact hall (a, true) ((mem_of_actions h).mpr ⟨e, mem_map_of_mem he, ha⟩)
  · rintro hall ⟨a, ok⟩ hx
    obtain ⟨e, he, ha⟩ := (mem_of_actions h).mp hx
    obtain ⟨e', he', heq⟩ := mem_map.mp he
    cases heq
    exact hall e he' a ha

/-- **When a crash inside `apply` does no harm.** Let the ref log replay to the visible refs when
the batch starts. If the state at the crash refuses every entry that was already applied, the
crash is harmless, whatever the rest of the batch is. If none of these entries is a
deletion, this is also necessary. -/
theorem crash_in_apply_iff {P Q₁ : List Entry} {sm crashed : StateMachine}
    {resps resps' : List LedgeResp}
    (hP : (openDir .fresh).apply P = some (sm, resps))
    (hreplays : Replays sm.replica.refs) (hQ₁ : Batch sm P Q₁)
    (hcrash : sm.applyLoop (durably Q₁) = some (crashed, resps')) :
    let harmless := ∀ Q₂, Batch sm P (Q₁ ++ Q₂) → CrashHarmless sm P Q₁ Q₂
    (Refuses crashed Q₁ → harmless) ∧
      ((∀ e ∈ Q₁, ∀ a, e.payload.action = some a → ¬ a.isDelete) →
        (harmless ↔ Refuses crashed Q₁)) := by
  have htracks := tracks_of_apply hP
  rw [apply_eq, map_eq_some_iff] at hP
  obtain ⟨as₀, -, heq⟩ := hP
  cases heq
  rw [appliedTo_replica] at htracks
  generalize ((openDir .fresh).replica.performAll as₀).1 = r₀
    at htracks hreplays hQ₁ hcrash ⊢
  intro harmless
  obtain ⟨as₁, h₁, hplain₁⟩ := exists_actions hQ₁.plain
  have hclear₁ := (forall_actions_iff (p := Clear r₀.refs.tree) h₁).mpr hQ₁.clear
  rw [applyLoop_eq, h₁] at hcrash
  have hcrashed : (r₀.performAll as₁).1 = crashed.replica :=
    congrArg (fun x => x.1.replica) (some.inj hcrash)
  have hiff : ∀ Q₂ as₂, actions (durably Q₂) = some as₂ →
      Increasing (P ++ (Q₁ ++ Q₂)) → _ := fun Q₂ as₂ => crashHarmless_iff r₀ h₁
  have hleases : crashed.replica.reopened.leases = (r₀.performAll as₁).1.leases := by
    rw [hcrashed]
    exact crashed.replica.leases.openOn_wal
  have htwice := leases_second_pass hleases
  have htracks₁ := tracks_performAll htracks fun x hx => (hplain₁ x hx).2
  have hreplays₁ := Replays.performAll (r := r₀) hreplays hplain₁ hclear₁
  have hclear₂ := fun b hb => Clear.performAll (r := r₀) (b := b) hb hplain₁
  rw [hcrashed] at hiff htracks₁ hreplays₁ hclear₂
  have hrefuses : Refuses crashed Q₁ ↔ ∀ x ∈ as₁, Inert crashed.replica.refs.tree x.1 :=
    (forall_actions_iff (p := Inert crashed.replica.refs.tree) h₁).symm
  generalize crashed.replica = r₁ at htracks₁ hreplays₁ hclear₂ hiff htwice hrefuses
  -- reopening the replica of the crash shows the same refs, without locks
  have hget : r₁.reopened.refs.tree.get = r₁.refs.tree.get := funext hreplays₁
  have hreopened : r₁.reopened.refs.tree.Plain := plain_openTree htracks₁.valid
  have hfirst : Refuses crashed Q₁ → harmless := by
    intro hrefused Q₂ hQ₂
    obtain ⟨as₂, h₂, hplain₂⟩ := exists_actions fun e he => hQ₂.plain e (mem_append_right _ he)
    refine (hiff Q₂ as₂ h₂ hQ₂.increasing).mpr ?_
    have hclearQ₂ := (forall_actions_iff (p := Clear r₀.refs.tree) h₂).mpr fun e he =>
      hQ₂.clear e (mem_append_right _ he)
    have hinert : ∀ x ∈ as₁, Inert r₁.reopened.refs.tree x.1 := fun x hx =>
      (hrefuses.mp hrefused x hx).congr hget.symm
    have htree := tree_eq_of_inert hplain₁ hreopened hinert
    generalize (r₁.reopened.performAll as₁).1 = r₂ at htree htwice ⊢
    refine Prod.ext (funext (get_performAll_congr hplain₂ (fun n => ?_) (fun x _ => ?_)
      fun x hx => ?_)) (leases_performAll_congr ?_)
    · rw [htree, congrFun hget n]
    · exact htree ▸ clear_of_plain hreopened x.1
    · exact hclear₂ x.1 (hclearQ₂ x hx)
    · exact htwice.trans (congrArg LeaseStore.index r₁.leases.openOn_wal)
  refine ⟨hfirst, fun hdel => ⟨fun hharmless => ?_, hfirst⟩⟩
  have hstored := (hiff [] [] rfl (by simpa using hQ₁.increasing)).mp
    (hharmless [] (by simpa using hQ₁))
  have hsame : (r₁.reopened.performAll as₁).1.refs.tree.get = r₁.refs.tree.get :=
    congrArg Prod.fst hstored
  have hdel₁ := (forall_actions_iff (p := fun a => ¬ a.isDelete) h₁).mpr hdel
  have hinert := inert_of_unchanged hplain₁ hdel₁ hreopened
    (fun n => congrFun (hsame.trans hget.symm) n)
  exact hrefuses.mpr fun x hx => (hinert x hx).congr hget

/-- A ref is moved away and back. -/
def awayAndBack : List Entry :=
  [moveEntry, ⟨⟨1, 3⟩, .normal (.refUpdate "refs/heads/a" (.fill 1) (some (.fill 2)) 3)⟩]

/-- A crash after both moves and before the new position: the moves are made again. -/
theorem crash_repeats_moves :
    (((openDir .fresh).apply [createEntry]).bind (fun x =>
        (x.1.applyLoop (durably awayAndBack)).bind (fun y =>
          y.1.reopen.bind (fun sm' =>
            (sm'.apply (resume sm'.lastAppliedLog ([createEntry] ++ awayAndBack))).map
              (fun z => refsOf z .headsA))))) =
      some (some ⟨.fill 1, 3, 5⟩) ∧
    ((openDir .fresh).apply [createEntry]).bind (fun x =>
        (x.1.apply awayAndBack).map (fun z => refsOf z .headsA)) =
      some (some ⟨.fill 1, 3, 3⟩) := by
  decide +kernel

/-- A ref that is locked is moved. -/
def moveLocked : List Entry :=
  [⟨⟨1, 3⟩, .normal (.refUpdate "refs/heads/a" (.fill 2) (some (.fill 1)) 3)⟩]

/-- The move is refused when it is made again, and it does not look at the lock. -/
theorem crash_harmless_moveLocked :
    ∃ sm resps, (openDir .fresh).apply lockedLog = some (sm, resps) ∧
      ∀ Q₂, Batch sm lockedLog (moveLocked ++ Q₂) → CrashHarmless sm lockedLog moveLocked Q₂ := by
  have hrun : ((openDir .fresh).apply lockedLog).bind (fun x =>
      (x.1.applyLoop (durably moveLocked)).map (fun y =>
        (x.1.replica.refs.wal, (x.1.replica.refs.tree.slot .headsA).map RefSlot.committed,
          x.1.replica.refs.tree.get .headsA, y.1.replica.refs.tree.get .headsA))) =
      some ([.update .headsA ⟨.fill 1, 1, 1⟩], some ⟨.fill 1, 1, 1⟩, some ⟨.fill 1, 1, 1⟩,
        some ⟨.fill 2, 3, 2⟩) := by
    decide +kernel
  obtain ⟨⟨sm, resps⟩, happly, hloop⟩ := bind_eq_some_iff.mp hrun
  obtain ⟨⟨crashed, resps'⟩, hcrash, heq⟩ := map_eq_some_iff.mp hloop
  simp only [Prod.mk.injEq] at heq
  obtain ⟨hwal, hslot, hget, hafter⟩ := heq
  have htracks := tracks_of_apply happly
  have hreplays : Replays sm.replica.refs := by
    intro n
    rw [htracks.get, (deletesFound_of_none (by simp [hwal])).get_openTree htracks.valid]
  have hmove : ∀ e ∈ moveLocked, e.payload.action =
      some (.ref (.update .headsA (.fill 2) (some (.fill 1)) 3)) := by decide +kernel
  have hbatch : Batch sm lockedLog moveLocked := by
    refine ⟨by decide +kernel, fun e he a ha => ?_, by simp [lockedLog, moveLocked, Increasing]⟩
    cases (hmove e he).symm.trans ha
    exact hslot.trans hget.symm
  refine ⟨sm, resps, happly, (crash_in_apply_iff happly hreplays hbatch hcrash).1 fun e he a ha =>
    ?_⟩
  cases (hmove e he).symm.trans ha
  rw [Inert, hafter]
  decide

end Ledge.Raft
