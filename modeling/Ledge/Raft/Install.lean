import Ledge.Raft.Snapshot

/-!
# Ledge.Raft.Install

**The directory of a state machine that has installed a snapshot.**

`restore` builds its stores in a temporary directory. From then on entries are applied to
these stores, while the applied-meta file of the original directory goes on recording the
position. Reopening the original directory finds the logs as they were before the
installation. It shows the right state only while that is the state of the old logs.
-/

namespace Ledge.Raft

open Ledge.Core Ledge.RefStore Ledge.Workspace Ledge.Lib List Option StateMachine

/-! ### Commands that change no ref and no lease -/

/-- The command changes neither a visible ref nor a lease: a write is refused, a commit does
not find its lock, a lease is already as written. -/
def Quiet (r : Replica) : Action → Prop
  | .ref (.update n _ expected _) => (r.refs.tree.slot n).map (·.committed.target) ≠ expected
  | .ref (.delete n expected _) => (r.refs.tree.get n).map RefEntry.target ≠ some expected
  | .ref (.commitPrepared t n) => (r.refs.tree.lock n).map PreparedIntent.txnId ≠ some t
  | .batch ops => ops = [] ∨ ∃ op ∈ ops, r.refs.tree.lock op.name ≠ none ∨
      (r.refs.tree.get op.name).map RefEntry.target ≠ op.expected
  | .leasePut lease => r.leases.index.lookup lease.id = some lease
  | .leaseTombstone id _ => r.leases.index.lookup id = none
  | .noop | .ref (.prepare ..) | .ref (.abortPrepared ..) | .txnBegin .. | .txnDecide ..
  | .txnEnd _ => True

section Quiet

variable {r : Replica}

theorem visible_succ_ne {s : RefSlot} {e : RefEntry} (h : e.version = s.committed.version + 1) :
    (RefSlot.ofCommitted e).visible ≠ s.visible := by
  intro heq
  have hvisible : (RefSlot.ofCommitted e).visible = some e := by
    simp [RefSlot.visible, RefSlot.ofCommitted, h]
  rw [hvisible, RefSlot.visible] at heq
  split_ifs at heq
  rw [some.inj heq] at h
  exact absurd h.symm (Nat.succ_ne_self _)

/-- A ref command changes what is visible of its own slot or nothing. -/
theorem stored_perform_ref_iff (op : AppliedOp) :
    (r.perform true (.ref op)).1.stored = r.stored ↔
      ((op.decide (r.refs.tree.slot op.name)).after (r.refs.tree.slot op.name)).bind
        RefSlot.visible = (r.refs.tree.slot op.name).bind RefSlot.visible := by
  have hslot := (op.decide_sound (r.refs.tree.slot op.name)).slot_tree
  simp only [Replica.stored, Replica.perform, run_applyOp, Prod.mk.injEq, and_true]
  constructor
  · intro h
    have hname := congrFun h op.name
    rw [RefTree.get, hslot, if_pos rfl] at hname
    exact hname
  · intro h
    funext n
    rw [RefTree.get, hslot]
    split_ifs with hn
    · rw [h, hn]
      rfl
    · rfl

theorem stored_update_iff (n : RefName) (target : ObjectId) (expected : Option ObjectId)
    (hlc : Nat) :
    (r.perform true (.ref (.update n target expected hlc))).1.stored = r.stored ↔
      (r.refs.tree.slot n).map (·.committed.target) ≠ expected := by
  rw [stored_perform_ref_iff]
  simp only [AppliedOp.decide, AppliedOp.name]
  generalize r.refs.tree.slot n = slot
  have hmap : slot.map (·.committed.target) = (slot.map (·.committed)).map RefEntry.target := by
    cases slot <;> rfl
  rw [applyUpdate, hmap]
  rcases precondition_cases (slot.map (·.committed)) expected with
    ⟨hpre, htarget⟩ | ⟨e, hpre, hcurrent, hne⟩ | ⟨x, hpre, hcurrent, hexp⟩
  · rw [hpre]
    refine iff_of_false ?_ (not_not.mpr htarget)
    cases slot with
    | none => exact fun h => by cases h
    | some s => exact visible_succ_ne rfl
  · rw [hpre, hcurrent]
    exact iff_of_true rfl hne
  · rw [hcurrent, hexp]
    exact iff_of_true rfl (by simp)

theorem stored_delete_iff (n : RefName) (expected : ObjectId) (hlc : Nat) :
    (r.perform true (.ref (.delete n expected hlc))).1.stored = r.stored ↔
      (r.refs.tree.get n).map RefEntry.target ≠ some expected := by
  rw [stored_perform_ref_iff, RefTree.get]
  simp only [AppliedOp.decide, AppliedOp.name]
  cases r.refs.tree.slot n with
  | none => exact iff_of_true rfl (by simp)
  | some s =>
    by_cases hv : s.committed.version = 0
    · -- a placeholder is not visible before or after
      have hnone : s.visible = none := by simp [RefSlot.visible, hv]
      rw [bind_some, hnone, applyDelete]
      refine iff_of_true ?_ (by simp)
      split_ifs
      · exact hnone
      · rfl
    · have hsome : s.visible = some s.committed := by simp [RefSlot.visible, hv]
      rw [bind_some, hsome, applyDelete]
      by_cases htarget : s.committed.target = expected
      · rw [if_neg (not_not.mpr htarget)]
        exact iff_of_false (fun h => by cases h) (not_not.mpr (congrArg some htarget))
      · rw [if_pos htarget]
        exact iff_of_true hsome fun h => htarget (some.inj h)

theorem stored_commitPrepared_iff (t : TxnId) (n : RefName) :
    (r.perform true (.ref (.commitPrepared t n))).1.stored = r.stored ↔
      (r.refs.tree.lock n).map PreparedIntent.txnId ≠ some t := by
  rw [stored_perform_ref_iff, RefTree.lock]
  simp only [AppliedOp.decide, AppliedOp.name]
  rcases r.refs.tree.slot n with _ | ⟨committed, _ | p⟩
  · exact iff_of_true rfl (by simp)
  · exact iff_of_true rfl (by simp)
  · simp only [applyCommitPrepared, bind_some, map_some, ne_eq, some.injEq]
    by_cases ht : p.txnId = t
    · rw [if_pos ht]
      exact iff_of_false (visible_succ_ne rfl) (not_not.mpr ht)
    · rw [if_neg ht]
      exact iff_of_true rfl ht

theorem stored_batch_iff (ops : List RefStore.BatchOp) :
    (r.perform true (.batch ops)).1.stored = r.stored ↔
      ops = [] ∨ ∃ op ∈ ops, r.refs.tree.lock op.name ≠ none ∨
        (r.refs.tree.get op.name).map RefEntry.target ≠ op.expected := by
  simp only [Replica.stored, Replica.perform, Store.run_commitBatch]
  by_cases hnone : batchConflicts r.refs.tree ops = []
  · rw [if_neg (not_not.mpr hnone)]
    have hfree := batchConflicts_eq_nil_iff.mp hnone
    have hlogged := logged_batch r.refs.tree ops
    simp only [Prod.mk.injEq, and_true]
    constructor
    · intro h
      refine Or.inl (eq_nil_iff_forall_not_mem.mpr fun op hop => ?_)
      -- the last write of the batch to this ref raises its version
      obtain ⟨e, he⟩ := exists_lastFor_batchPlanned hnone hop
      obtain ⟨op', -, -, rfl⟩ := lastFor_batchPlanned hnone he
      have hget := hlogged.get op.name
      rw [WalEntry.effect, he, congrFun h op.name] at hget
      exact some_nextVersion_ne _ _ _ hget.symm
    · rintro (rfl | ⟨op, hop, hlock | htarget⟩)
      · rfl
      · exact absurd (hfree op hop).1 hlock
      · exact absurd (hfree op hop).2 htarget
  · rw [if_pos hnone]
    refine iff_of_true rfl (Or.inr ?_)
    rw [batchConflicts_eq_nil_iff] at hnone
    simp only [not_forall, not_and_or] at hnone
    obtain ⟨op, hop, hblocked⟩ := hnone
    exact ⟨op, hop, hblocked⟩

theorem stored_leasePut_iff (lease : Lease) :
    (r.perform true (.leasePut lease)).1.stored = r.stored ↔
      r.leases.index.lookup lease.id = some lease := by
  show (r.refs.tree.get, r.leases.index.insert lease) = (r.refs.tree.get, r.leases.index) ↔ _
  rw [Prod.mk.injEq, and_iff_right rfl]
  constructor
  · intro h
    rw [← h, LeaseIndex.lookup_insert, if_pos rfl]
  · intro h
    refine LeaseIndex.ext_lookup fun id => ?_
    rw [LeaseIndex.lookup_insert]
    split_ifs with hid
    · rw [← hid, h]
    · rfl

theorem stored_leaseTombstone_iff (id : WorkspaceId) (hlc : Nat) :
    (r.perform true (.leaseTombstone id hlc)).1.stored = r.stored ↔
      r.leases.index.lookup id = none := by
  show (r.refs.tree.get, r.leases.index.remove id) = (r.refs.tree.get, r.leases.index) ↔ _
  rw [Prod.mk.injEq, and_iff_right rfl]
  constructor
  · intro h
    rw [← h, LeaseIndex.lookup_remove, if_pos rfl]
  · intro h
    refine LeaseIndex.ext_lookup fun id' => ?_
    rw [LeaseIndex.lookup_remove]
    split_ifs with hid
    · rw [← hid, h]
    · rfl

/-- **A command leaves the refs and leases alone exactly when it is quiet.** -/
theorem stored_perform_iff (r : Replica) (a : Action) :
    (r.perform true a).1.stored = r.stored ↔ Quiet r a := by
  cases a with
  | noop | txnBegin | txnDecide | txnEnd => exact iff_of_true rfl trivial
  | batch ops => exact stored_batch_iff ops
  | leasePut lease => exact stored_leasePut_iff lease
  | leaseTombstone id hlc => exact stored_leaseTombstone_iff id hlc
  | ref op =>
    cases op with
    | update n target expected hlc => exact stored_update_iff n target expected hlc
    | delete n expected hlc => exact stored_delete_iff n expected hlc
    | commitPrepared t n => exact stored_commitPrepared_iff t n
    | prepare t shard n target expected hlc =>
      refine iff_of_true ((stored_perform_ref_iff _).mpr ?_) trivial
      refine (AppliedOp.decide_sound _ _).unlogged ?_
      simp only [AppliedOp.decide, applyPrepare]
      split_ifs
      · rfl
      · split
        · rfl
        · rfl
        · split <;> rfl
    | abortPrepared t n =>
      refine iff_of_true ((stored_perform_ref_iff _).mpr ?_) trivial
      refine (AppliedOp.decide_sound _ _).unlogged ?_
      simp only [AppliedOp.decide, applyAbortPrepared]
      split
      · rfl
      · split
        · split_ifs <;> rfl
        · rfl

end Quiet

/-! ### Reopening -/

/-- Reopening shows the refs and leases from before the drop, and reports their position:
it is neither behind nor ahead of the state that it holds. -/
def ReopensTo (sm : StateMachine) : Prop :=
  ∃ sm', sm.reopen = some sm' ∧ sm'.replica.stored = sm.replica.stored ∧
    sm'.lastAppliedLog = sm.lastAppliedLog

/-- The logs in the directory hold exactly the refs and leases of a payload. -/
structure Dir.Holds (dir : Dir) (d : StateDump) : Prop where
  refs : ∀ entries, checkRefs d.refs = .ok entries → ∀ n,
    (openTree dir.refsWal).get n = (lastFor n entries).filter (fun e => e.version != 0)
  leases : ∀ id, (LeaseStore.openOn dir.leasesWal).get id = lastLease id d.leases

theorem get_restoreFrom (entries : List (RefName × RefEntry)) (n : RefName) :
    (Store.restoreFrom entries).tree.get n =
      (lastFor n entries).filter (fun e => e.version != 0) := by
  show (entries.foldl insertCommitted .empty).get n = _
  rw [RefTree.get, slot_foldl_insertCommitted, RefTree.slot_empty]
  cases lastFor n entries with
  | none => rfl
  | some e =>
    rfl

variable {files : Files} {as : List (Action × Bool)}

/-- What `install_snapshot` leaves behind: the new stores, and a directory whose logs are
still those from before. -/
theorem install_cases {sm sm₁ : StateMachine} {snap : PersistedSnapshot}
    (hdurable : sm.durableDir = some files) (hinstall : sm.installSnapshot snap = .ok sm₁) :
    ∃ entries, checkRefs snap.payload.refs = .ok entries ∧
      sm₁.replica = restored entries snap.payload ∧
      sm₁.durableDir = some ⟨snap.lastLogId, some snap,
        some ((sm.dir files).refsWal, (sm.dir files).leasesWal)⟩ := by
  rw [StateMachine.installSnapshot, StateMachine.restore] at hinstall
  cases hcheck : checkRefs snap.payload.refs with
  | error e =>
    rw [hcheck] at hinstall
    cases hinstall
  | ok entries =>
    rw [hcheck] at hinstall
    cases hinstall
    refine ⟨entries, rfl, rfl, ?_⟩
    obtain ⟨appliedMeta, snapshot, _ | logs⟩ := files
    · simp only [hdurable]
      rfl
    · simp only [hdurable]
      rfl

/-- Reopening after an installation always ends in the state of the old logs. -/
theorem reopensTo_appliedTo_iff {sm₁ : StateMachine} (dir : Dir)
    (hdurable : sm₁.durableDir = some files)
    (hlogs : files.abandoned = some (dir.refsWal, dir.leasesWal)) (r : Replica) (E : List Entry) :
    ReopensTo (sm₁.appliedTo r E) ↔ (openDir dir).replica.stored = r.stored := by
  have hreopen : (sm₁.appliedTo r E).reopen = some (openDir
      ⟨dir.refsWal, dir.leasesWal, lastId sm₁.lastAppliedLog E, files.snapshot⟩) := by
    simp [StateMachine.reopen, StateMachine.appliedTo_durableDir, hdurable, StateMachine.dir, hlogs]
  rw [ReopensTo, hreopen]
  constructor
  · rintro ⟨sm', hsm', hstored, -⟩
    cases hsm'
    exact hstored
  · intro hstored
    exact ⟨_, rfl, hstored, rfl⟩

theorem stored_openDir_iff (dir : Dir) {d : StateDump} {entries : List (RefName × RefEntry)}
    (hcheck : checkRefs d.refs = .ok entries) :
    (openDir dir).replica.stored = (restored entries d).stored ↔
      dir.Holds d := by
  have hrefs := get_restoreFrom entries
  have hleases := LeaseStore.get_foldl_put_openOn d.leases
  constructor
  · intro h
    obtain ⟨hget, hindex⟩ := Prod.mk.inj h
    refine ⟨fun entries' hcheck' n => ?_, fun id => ?_⟩
    · cases hcheck.symm.trans hcheck'
      exact (congrFun hget n).trans (hrefs n)
    · exact (congrArg (LeaseIndex.lookup · id) hindex).trans (hleases id)
  · intro h
    refine Prod.ext (funext fun n => ?_) (LeaseIndex.ext_lookup fun id => ?_)
    · exact (h.refs entries hcheck n).trans (hrefs n).symm
    · exact (h.leases id).trans (hleases id).symm

/-! ### Runs after an installation -/

theorem actions_of_prefix {E E' : List Entry} (hpre : E' <+: E)
    (h : actions (durably E) = some as) :
    ∃ as', actions (durably E') = some as' := by
  obtain ⟨E'', rfl⟩ := hpre
  rw [durably, map_append, actions_append] at h
  obtain ⟨as', has', -⟩ := bind_eq_some_iff.mp h
  exact ⟨as', has'⟩

theorem actions_concat {E : List Entry} {e : Entry}
    (h : actions (durably (E ++ [e])) = some as) :
    ∃ as' a, actions (durably E) = some as' ∧ e.payload.action = some a ∧
      as = as' ++ [(a, true)] := by
  rw [durably, map_append, actions_append] at h
  obtain ⟨as', has', hrest⟩ := bind_eq_some_iff.mp h
  obtain ⟨l, hl, rfl⟩ := map_eq_some_iff.mp hrest
  obtain ⟨a, ha, hnil⟩ := bind_eq_some_iff.mp hl
  cases hnil
  exact ⟨as', a, has', ha, rfl⟩

theorem performAll_concat (r : Replica) (l : List (Action × Bool)) (a : Action) :
    (r.performAll (l ++ [(a, true)])).1 = ((r.performAll l).1.perform true a).1 := by
  rw [performAll_append]
  rfl

/-- **Reopening after an installed snapshot.** A durable state machine installs a snapshot
and applies `E`. Reopening its directory is right all along `E` if and only if the logs
in the directory already held the refs and leases of the payload, and every entry of `E` is
quiet where it is applied. -/
theorem reopen_after_install_iff {sm sm₁ sm₂ : StateMachine} {files : Files}
    {snap : PersistedSnapshot} {E : List Entry} {resps : List LedgeResp}
    (hdurable : sm.durableDir = some files) (hinstall : sm.installSnapshot snap = .ok sm₁)
    (happly : sm₁.apply E = some (sm₂, resps)) :
    (∀ E', E' <+: E → ∃ sm' resps', sm₁.apply E' = some (sm', resps') ∧ ReopensTo sm') ↔
      (sm.dir files).Holds snap.payload ∧
        ∀ E' e, E' ++ [e] <+: E → ∃ sm' resps' a, sm₁.apply E' = some (sm', resps') ∧
          e.payload.action = some a ∧ Quiet sm'.replica a := by
  obtain ⟨entries, hcheck, hreplica, hfiles⟩ := install_cases hdurable hinstall
  have hreopens := reopensTo_appliedTo_iff (sm.dir files) hfiles rfl
  have hholds := stored_openDir_iff (sm.dir files) hcheck
  rw [← hreplica] at hholds
  rw [apply_eq, map_eq_some_iff] at happly
  obtain ⟨as, has, -⟩ := happly
  have hrun : ∀ E' as', actions (durably E') = some as' →
      sm₁.apply E' = some (sm₁.appliedTo (sm₁.replica.performAll as').1 E',
        (sm₁.replica.performAll as').2) := by
    intro E' as' has'
    rw [apply_eq, has']
    rfl
  constructor
  · intro h
    -- along `E` the refs and leases are always those of the old logs
    have hstored : ∀ E' as', E' <+: E → actions (durably E') = some as' →
        (openDir (sm.dir files)).replica.stored =
          (sm₁.replica.performAll as').1.stored := by
      intro E' as' hpre has'
      obtain ⟨sm', resps', happly', hreopen⟩ := h E' hpre
      cases (hrun E' as' has').symm.trans happly'
      exact (hreopens _ E').mp hreopen
    refine ⟨hholds.mp (hstored [] [] List.nil_prefix rfl), fun E' e hpre => ?_⟩
    obtain ⟨as'', has''⟩ := actions_of_prefix hpre has
    obtain ⟨as', a, has', ha, rfl⟩ := actions_concat has''
    refine ⟨_, _, a, hrun E' as' has', ha, (stored_perform_iff _ a).mp ?_⟩
    have hnext := hstored _ _ hpre has''
    rw [performAll_concat] at hnext
    exact hnext.symm.trans (hstored E' as' ((prefix_append _ _).trans hpre) has')
  · rintro ⟨hdir, hquiet⟩ E' hpre
    obtain ⟨as', has'⟩ := actions_of_prefix hpre has
    refine ⟨_, _, hrun E' as' has', (hreopens _ E').mpr ?_⟩
    induction E' using reverseRecOn generalizing as' with
    | nil =>
      cases has'
      exact hholds.mpr hdir
    | append_singleton E' e ih =>
      obtain ⟨as'', a, has'', ha, rfl⟩ := actions_concat has'
      obtain ⟨sm', resps', a', happly', ha', hstep⟩ := hquiet E' e hpre
      cases (hrun E' as'' has'').symm.trans happly'
      cases ha.symm.trans ha'
      rw [appliedTo_replica] at hstep
      rw [performAll_concat, (stored_perform_iff _ a).mpr hstep]
      exact ih ((prefix_append _ _).trans hpre) as'' has''

/-- The installed ref is gone after a restart, and the reported position covers it. -/
theorem installed_ref_not_reopened :
    ((openDir .fresh).installSnapshot oneRefSnapshot).toOption.bind (fun sm₁ =>
      sm₁.reopen.map (fun sm' => (sm₁.replica.refs.tree.get .headsA,
        sm'.replica.refs.tree.get .headsA, sm'.lastAppliedLog))) =
      some (some ⟨.fill 1, 1, 1⟩, none, some ⟨1, 2⟩) := by
  decide +kernel

theorem reopen_after_install_oneRef :
    ∃ sm₁, (openDir .fresh).installSnapshot oneRefSnapshot = .ok sm₁ ∧
      ¬ ∀ E', E' <+: [] → ∃ sm' resps', sm₁.apply E' = some (sm', resps') ∧ ReopensTo sm' := by
  obtain ⟨sm₁, hinstall⟩ :
      ∃ sm₁, (openDir .fresh).installSnapshot oneRefSnapshot = .ok sm₁ := ⟨_, rfl⟩
  refine ⟨sm₁, hinstall, fun h => ?_⟩
  have hdurable : (openDir .fresh).durableDir = some ⟨none, none, none⟩ := rfl
  have happly : sm₁.apply [] = some (sm₁.appliedTo sm₁.replica [], []) := rfl
  have hholds := ((reopen_after_install_iff hdurable hinstall happly).mp h).1
  have hlost := hholds.refs [(.headsA, ⟨.fill 1, 1, 1⟩)] rfl .headsA
  cases hlost

end Ledge.Raft
