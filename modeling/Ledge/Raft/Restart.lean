import Ledge.Raft.StateMachine
import Ledge.RefStore.Aborted

/-!
# Ledge.Raft.Restart

**Restarts of a durable state machine.**

`open` rebuilds the refs and the leases from their logs and takes the position from the
applied-meta file. Everything else that later commands read starts empty: locks are
never logged and transaction records are kept in memory only. `restart_transparent_iff`
says for which states a restart is not noticed.
-/

namespace Ledge.Raft

open Ledge.Core Ledge.RefStore Ledge.Workspace Ledge.Lib List Option StateMachine

/-! ### What a log knows about its store -/

/-- The visible refs of the store are the last writes of its log. -/
structure Tracks (s : Store) : Prop where
  tidy : s.tree.Tidy
  valid : ∀ f ∈ s.wal, f.Valid
  get : ∀ n, s.tree.get n = settled n none s.wal

theorem tracks_empty : Tracks ⟨.empty, []⟩ := ⟨tidy_empty, by simp, fun _ => rfl⟩

theorem Tracks.advance {s s' : Store} (h : Tracks s) (hadv : Store.Advance true s s')
    (htidy : s'.tree.Tidy) : Tracks s' := by
  cases hadv with
  | quiet hget hwal => exact ⟨htidy, hwal ▸ h.valid, fun n => by rw [hget, hwal, h.get]⟩
  | frame f hlogged hwal =>
    refine ⟨htidy, fun g hg => ?_, fun n => ?_⟩
    · rw [hwal] at hg
      rcases mem_append.mp hg with hg | hg
      · exact h.valid g hg
      · rw [mem_singleton.mp hg]
        exact hlogged.valid
    · rw [hlogged.get, hwal, h.get]
      exact (settle_concat f).symm

variable {r r' : Replica} {P L S : List Entry} {as : List (Action × Bool)}

theorem Tracks.perform (h : Tracks r.refs) (a : Action) : Tracks (r.perform true a).1.refs :=
  h.advance (advance_perform r true a) (tidy_perform h.tidy)

theorem mem_of_actions {L : List (Entry × Bool)} (h : actions L = some as) {a : Action}
    {ok : Bool} : (a, ok) ∈ as ↔ ∃ e, (e, ok) ∈ L ∧ e.payload.action = some a := by
  induction L generalizing as with
  | nil =>
    cases h
    simp
  | cons x L ih =>
    obtain ⟨e, durable⟩ := x
    obtain ⟨b, hb, hrest⟩ := bind_eq_some_iff.mp h
    obtain ⟨as', has', rfl⟩ := map_eq_some_iff.mp hrest
    grind

theorem durable_of_actions (h : actions (durably P) = some as) :
    ∀ x ∈ as, x.2 = true := by
  intro x hx
  obtain ⟨e, he, -⟩ := (mem_of_actions h).mp hx
  obtain ⟨e', -, heq⟩ := mem_map.mp he
  exact (congrArg Prod.snd heq).symm

theorem tracks_performAll (h : Tracks r.refs) (has : ∀ x ∈ as, x.2 = true) :
    Tracks (r.performAll as).1.refs := by
  refine performAll_induct (p := fun r => Tracks r.refs) h fun r x hx hr => ?_
  rw [has x hx]
  exact hr.perform x.1

theorem tracks_of_apply {sm : StateMachine} {resps : List LedgeResp}
    (h : (openDir .fresh).apply P = some (sm, resps)) : Tracks sm.replica.refs := by
  rw [apply_eq, map_eq_some_iff] at h
  obtain ⟨as, has, heq⟩ := h
  cases heq
  exact tracks_performAll (r := (openDir .fresh).replica) tracks_empty
    (durable_of_actions has)

/-! ### What is compared across a restart -/

/-- The refs, locks, leases and transaction records of a replica. -/
structure Observed where
  refs : RefName → Option RefEntry
  locks : RefName → Option PreparedIntent
  leases : LeaseIndex
  txnRecords : TxnRecords

def Replica.observed (r : Replica) : Observed :=
  ⟨r.refs.tree.get, r.refs.tree.lock, r.leases.index, r.txnRecords⟩

theorem Replica.Same.observed (h : r.Same r') : r.observed = r'.observed := by
  have hget : r.refs.tree.get = r'.refs.tree.get := funext fun n => RefTree.get_congr (h.slot n)
  have hlock : r.refs.tree.lock = r'.refs.tree.lock := by
    funext n
    rw [RefTree.lock, RefTree.lock, h.slot]
  rw [Replica.observed, Replica.observed, hget, hlock, h.leases, h.txnRecords]

/-- The responses from the `k`-th on and the state at the end. -/
def resultsFrom (k : Nat) (x : StateMachine × List LedgeResp) : List LedgeResp × Observed :=
  (x.2.drop k, x.1.replica.observed)

/-- Applying `P ++ S` is applying `S` to what `P` left. -/
theorem apply_append_results {sm₀ : StateMachine} (hP : actions (durably P) = some as)
    (S : List Entry) :
    (sm₀.apply (P ++ S)).map (resultsFrom P.length) =
      (actions (durably S)).map (fun bs =>
        (((sm₀.replica.performAll as).1.performAll bs).2,
          ((sm₀.replica.performAll as).1.performAll bs).1.observed)) := by
  have hdurably : durably (P ++ S) =
      durably P ++ durably S := map_append
  have hlength : (sm₀.replica.performAll as).2.length = P.length := by
    rw [length_performAll, length_actions hP, durably, length_map]
  rw [apply_eq, hdurably, actions_append, hP]
  cases actions (durably S) with
  | none => rfl
  | some bs =>
    simp only [bind_some, map_some, performAll_append,
      resultsFrom, appliedTo_replica]
    rw [drop_left' hlength]

/-! ### Transparent restarts -/

/-- Reopening and applying the entries after the reported position gives for `S` what
applying `P ++ S` without the restart gives. -/
def RestartTransparent (sm₀ sm : StateMachine) (P S : List Entry) : Prop :=
  ∃ sm', sm.reopen = some sm' ∧
    (sm'.apply (resume sm'.lastAppliedLog (P ++ S))).map (resultsFrom 0) =
      (sm₀.apply (P ++ S)).map (resultsFrom P.length)

/-- The replica that `open` builds from the logs of a replica. -/
def Replica.reopened (r : Replica) : Replica := ⟨.openOn r.refs.wal, .openOn r.leases.wal, ∅⟩

/-- Reopening after `L` and resuming applies what follows `L` to the reopened replica. -/
theorem reopen_resume (r : Replica) (hinc : Increasing (L ++ S)) :
    ∃ sm', ((openDir .fresh).appliedTo r L).reopen = some sm' ∧
      sm'.apply (resume sm'.lastAppliedLog (L ++ S)) =
        (actions (durably S)).map (fun bs =>
          (sm'.appliedTo (r.reopened.performAll bs).1 S, (r.reopened.performAll bs).2)) := by
  refine ⟨.openDir ⟨r.refs.wal, r.leases.wal, lastId none L, none⟩, rfl, ?_⟩
  show StateMachine.apply _ (resume (lastId none L) (L ++ S)) = _
  rw [resume_lastId hinc, apply_eq]
  rfl

theorem restartTransparent_iff (has : actions (durably P) = some as)
    (hinc : Increasing (P ++ S)) :
    let sm₀ := openDir .fresh
    let r := (sm₀.replica.performAll as).1
    RestartTransparent sm₀ (sm₀.appliedTo r P) P S ↔
      ∀ bs, actions (durably S) = some bs →
        (r.reopened.performAll bs).2 = (r.performAll bs).2 ∧
          (r.reopened.performAll bs).1.observed = (r.performAll bs).1.observed := by
  intro sm₀ r
  obtain ⟨sm', hreopen, hresume⟩ := reopen_resume r hinc
  simp only [RestartTransparent, sm₀, hreopen, some.injEq, exists_eq_left', hresume,
    apply_append_results has, Option.map_map]
  cases actions (durably S) with
  | none => simp
  | some bs =>
    simp only [map_some, some.injEq, forall_eq']
    exact Prod.mk.injEq .. ▸ Iff.rfl

/-- The reopened replica is the same when nothing volatile is left and no ref is lost. -/
theorem Tracks.same_reopened (h : Tracks r.refs) (hlock : ∀ n, r.refs.tree.lock n = none)
    (htxn : r.txnRecords = ∅)
    (hkept : ∀ n e, r.refs.tree.get n = some e → ¬ LosesName .empty n r.refs.wal) :
    r.Same r.reopened := by
  have hplain : r.refs.tree.Plain := by
    refine h.tidy.plain fun n s hs => ?_
    have hn := hlock n
    rw [RefTree.lock, hs] at hn
    exact hn
  refine ⟨fun n => ?_, ?_, htxn⟩
  · have hget : r.refs.tree.get n = (openTree r.refs.wal).get n := by
      apply Option.ext
      intro e
      rw [get_openTree_eq_some_iff h.valid, ← h.get]
      exact ⟨fun he => ⟨he, hkept n e he⟩, And.left⟩
    show r.refs.tree.slot n = (openTree r.refs.wal).slot n
    rw [hplain n, plain_openTree h.valid n, hget]
  · exact (congrArg LeaseStore.index r.leases.openOn_wal).symm

/-- **When a restart is transparent.** For a log `P` applied to a state machine on a fresh
directory, restarting after `P` is transparent for every continuation if and only if no
ref is locked, no transaction record exists, and no ref is among those that replaying the
ref log loses. -/
theorem restart_transparent_iff {P : List Entry} {sm : StateMachine} {resps : List LedgeResp}
    (hinc : Increasing P) (happly : (openDir .fresh).apply P = some (sm, resps)) :
    (∀ S, Increasing (P ++ S) → RestartTransparent (.openDir .fresh) sm P S) ↔
      (∀ n, sm.replica.refs.tree.lock n = none) ∧ sm.replica.txnRecords = ∅ ∧
        ∀ n e, sm.replica.refs.tree.get n = some e →
          ¬ LosesName .empty n sm.replica.refs.wal := by
  have htracks := tracks_of_apply happly
  rw [apply_eq, map_eq_some_iff] at happly
  obtain ⟨as, has, heq⟩ := happly
  cases heq
  have htransparent := fun S hinc' => restartTransparent_iff (S := S) has hinc'
  simp only [appliedTo_replica] at htracks htransparent ⊢
  generalize ((openDir .fresh).replica.performAll as).1 = r at htracks htransparent ⊢
  constructor
  · intro h
    -- restart and do nothing more
    have hobserved : r.reopened.observed = r.observed :=
      ((htransparent [] (by simpa using hinc)).mp (h [] (by simpa using hinc)) [] rfl).2
    refine ⟨fun n => ?_, (congrArg Observed.txnRecords hobserved).symm, fun n e he => ?_⟩
    · have hlocks := congrFun (congrArg Observed.locks hobserved) n
      exact hlocks.symm.trans ((plain_openTree htracks.valid).lock_eq_none n)
    · have hrefs : (openTree r.refs.wal).get n = r.refs.tree.get n :=
        congrFun (congrArg Observed.refs hobserved) n
      rw [he] at hrefs
      exact ((get_openTree_eq_some_iff htracks.valid).mp hrefs).2
  · rintro ⟨hlock, htxn, hkept⟩ S hinc'
    have hsame := htracks.same_reopened hlock htxn hkept
    refine (htransparent S hinc').mpr fun bs _ => ?_
    obtain ⟨hresps, hsames⟩ := hsame.performAll (rfl : bs.map Prod.fst = bs.map Prod.fst)
    exact ⟨hresps.symm, hsames.observed.symm⟩

/-- A ref is created and then locked by a transaction. -/
def lockedLog : List Entry :=
  [⟨⟨1, 1⟩, .normal (.refUpdate "refs/heads/a" (.fill 1) none 1)⟩,
    ⟨⟨1, 2⟩, .normal (.refPrepare (.fill 7) 0 "refs/heads/a" (.fill 2) (some (.fill 1)) 2)⟩]

/-- The transaction commits. -/
def rollForward : List Entry := [⟨⟨1, 3⟩, .normal (.refCommitPrepared (.fill 7) "refs/heads/a")⟩]

/-- After a restart the lock is gone, and the commit leaves the ref where it was. -/
theorem restart_forgets_lock :
    (((openDir .fresh).apply lockedLog).bind (fun x => x.1.reopen.bind (fun sm' =>
        (sm'.apply (resume sm'.lastAppliedLog (lockedLog ++ rollForward))).map Prod.snd))) =
      some [.committedPrepared ⟨.fill 1, 1, 1⟩] ∧
    ((openDir .fresh).apply (lockedLog ++ rollForward)).map (·.2.drop 2) =
      some [.committedPrepared ⟨.fill 2, 2, 2⟩] := by
  decide +kernel

theorem restart_not_transparent_locked :
    ∃ sm resps, (openDir .fresh).apply lockedLog = some (sm, resps) ∧
      ¬ ∀ S, Increasing (lockedLog ++ S) →
        RestartTransparent (.openDir .fresh) sm lockedLog S := by
  have hlocked : ((openDir .fresh).apply lockedLog).map
      (fun x => (x.1.replica.refs.tree.lock .headsA).isSome) = some true := by decide +kernel
  obtain ⟨⟨sm, resps⟩, happly, hlock⟩ := map_eq_some_iff.mp hlocked
  refine ⟨sm, resps, happly, fun h => ?_⟩
  have hinc : Increasing lockedLog := by simp [lockedLog, Increasing]
  have hfree := ((restart_transparent_iff hinc happly).mp h).1 .headsA
  rw [hfree] at hlock
  cases hlock

/-! ### Appends that fail -/

/-- The frame that a command logs. -/
def Replica.frame (r : Replica) : Action → List WalEntry
  | .ref op => (op.decide (r.refs.tree.slot op.name)).log.toList
  | .batch ops =>
    if batchConflicts r.refs.tree ops ≠ [] then [] else [.batch (batchPlanned r.refs.tree ops)]
  | _ => []

theorem wal_perform (r : Replica) (durable : Bool) (a : Action) :
    (r.perform durable a).1.refs.wal = r.refs.wal ++ if durable then r.frame a else [] := by
  cases a with
  | ref op => simp only [Replica.perform, run_applyOp, Replica.frame]
  | batch ops =>
    simp only [Replica.perform, Store.run_commitBatch, Replica.frame]
    split_ifs <;> simp
  | noop | leasePut | leaseTombstone | txnBegin | txnDecide | txnEnd =>
    simp [Replica.perform, Replica.frame]

theorem Replica.Same.frame (h : r.Same r') (a : Action) : r.frame a = r'.frame a := by
  cases a with
  | ref op => simp only [Replica.frame, h.slot]
  | batch ops => simp only [Replica.frame, batchConflicts_congr h.slot, batchPlanned_congr h.slot]
  | noop | leasePut | leaseTombstone | txnBegin | txnDecide | txnEnd => rfl

/-- A command shows nothing new and logs nothing, or shows what its frame says. -/
theorem frame_cases (r : Replica) (durable : Bool) (a : Action) :
    (r.frame a = [] ∧ ∀ n, (r.perform durable a).1.refs.tree.get n = r.refs.tree.get n) ∨
    ∃ f, r.frame a = [f] ∧ ∀ n, (r.perform durable a).1.refs.tree.get n =
      (f.effect n).getD (r.refs.tree.get n) := by
  have hwal := wal_perform r true a
  have hget := fun n => RefTree.get_congr
    (((Replica.Same.refl r).perform durable true a).2.slot n)
  cases advance_perform r true a with
  | quiet hquiet hsame =>
    refine Or.inl ⟨List.self_eq_append_right.mp (hsame.symm.trans hwal), fun n => ?_⟩
    rw [hget, hquiet]
  | frame f hlogged hframe =>
    refine Or.inr ⟨f, append_cancel_left (hwal.symm.trans hframe), fun n => ?_⟩
    rw [hget, hlogged.get]

theorem get_perform (r : Replica) (durable : Bool) (a : Action) (n : RefName) :
    (r.perform durable a).1.refs.tree.get n = settled n (r.refs.tree.get n) (r.frame a) := by
  rcases frame_cases r durable a with ⟨hnone, hget⟩ | ⟨f, hf, hget⟩
  · rw [hget, hnone]
    rfl
  · rw [hget, hf]
    rfl

/-- The frames of a run, with the outcome of their appends. -/
def Replica.frames (r : Replica) : List (Action × Bool) → List (WalEntry × Bool)
  | [] => []
  | (a, durable) :: l =>
    (r.frame a).map (fun f => (f, durable)) ++ (r.perform durable a).1.frames l

theorem performAll_cons (r : Replica) (a : Action) (durable : Bool) (l : List (Action × Bool)) :
    (r.performAll ((a, durable) :: l)).1 = ((r.perform durable a).1.performAll l).1 := rfl

theorem get_performAll (r : Replica) (l : List (Action × Bool)) (n : RefName) :
    (r.performAll l).1.refs.tree.get n =
      settled n (r.refs.tree.get n) ((r.frames l).map Prod.fst) := by
  induction l generalizing r with
  | nil => rfl
  | cons x l ih =>
    obtain ⟨a, durable⟩ := x
    rw [performAll_cons, ih, get_perform, Replica.frames]
    simp [settled, settle_append, Function.comp_def]

/-- The refs of a result. -/
def refsOf (x : StateMachine × List LedgeResp) : RefName → Option RefEntry :=
  x.1.replica.refs.tree.get

/-- The command deletes a ref. -/
def Action.isDelete : Action → Bool
  | .ref (.delete ..) => true
  | _ => false

/-- The version of a ref, 0 when it is absent. -/
def versionOf (v : Option RefEntry) : Nat := v.elim 0 RefEntry.version

theorem nextVersion_eq (v : Option RefEntry) : nextVersion v = versionOf v + 1 := by
  cases v <;> rfl

/-- The slot of a ref that is only prepared counts as version 0. -/
theorem versionOf_committed (slot : Option RefSlot) :
    versionOf (slot.map RefSlot.committed) = versionOf (slot.bind RefSlot.visible) := by
  cases slot with
  | none => rfl
  | some s =>
    by_cases hv : s.committed.version = 0
    · simp [versionOf, RefSlot.visible, hv]
    · simp [versionOf, RefSlot.visible, hv]

/-- Only deletions, updates and commits of prepared updates log a frame. -/
theorem log_of_not_isDelete {op : AppliedOp} {slot : Option RefSlot} {f : WalEntry}
    (hdel : ¬ (Action.ref op).isDelete) (h : (op.decide slot).log = some f) :
    ∃ e, f = .update op.name e ∧ e.version = versionOf (slot.map RefSlot.committed) + 1 := by
  cases op with
  | update name target expected hlc =>
    simp only [AppliedOp.decide, applyUpdate] at h
    split at h
    · cases h
    · cases h
    · cases h
      exact ⟨_, rfl, nextVersion_eq _⟩
  | delete => exact absurd rfl hdel
  | prepare t shard name target expected hlc =>
    rw [AppliedOp.decide, log_applyPrepare] at h
    cases h
  | commitPrepared t name =>
    rcases slot with _ | ⟨committed, _ | p⟩
    · cases h
    · cases h
    · simp only [AppliedOp.decide, applyCommitPrepared] at h
      split_ifs at h
      · cases h
        exact ⟨_, rfl, rfl⟩
      · cases h
  | abortPrepared t name =>
    rw [AppliedOp.decide, log_applyAbortPrepared] at h
    cases h

/-- The frame of a command that is not a deletion raises the versions it writes by one. -/
theorem frame_version {a : Action} {f : WalEntry} {n : RefName} {v : Option RefEntry}
    (hdel : ¬ a.isDelete) (hf : f ∈ r.frame a) (heff : f.effect n = some v) :
    ∃ e, v = some e ∧ e.version = versionOf (r.refs.tree.get n) + 1 := by
  cases a with
  | noop | leasePut | leaseTombstone | txnBegin | txnDecide | txnEnd => cases hf
  | batch ops =>
    simp only [Replica.frame] at hf
    split_ifs at hf with hblocked
    · cases hf
    · obtain rfl := mem_singleton.mp hf
      obtain ⟨e, he, rfl⟩ := map_eq_some_iff.mp heff
      obtain ⟨op, -, -, rfl⟩ := lastFor_batchPlanned (not_not.mp hblocked) he
      exact ⟨_, rfl, nextVersion_eq _⟩
  | ref op =>
    obtain ⟨e, rfl, he⟩ := log_of_not_isDelete hdel (Option.mem_toList.mp hf)
    simp only [WalEntry.effect] at heff
    split_ifs at heff with hn
    subst hn
    exact ⟨e, (some.inj heff).symm, he.trans (congrArg (· + 1) (versionOf_committed _))⟩

theorem rising_frames {l : List (Action × Bool)} (hdel : ∀ x ∈ l, ¬ x.1.isDelete) (r : Replica)
    (n : RefName) : Rising (WalEntry.effect n) versionOf (r.refs.tree.get n)
      ((r.frames l).map Prod.fst) := by
  induction l generalizing r with
  | nil => trivial
  | cons x l ih =>
    obtain ⟨a, durable⟩ := x
    obtain ⟨hda, hdel'⟩ := forall_mem_cons.mp hdel
    have hrest := ih hdel' (r.perform durable a).1
    rcases frame_cases r durable a with ⟨hnone, hget⟩ | ⟨f, hf, hget⟩
    · rw [Replica.frames, hnone]
      rwa [hget] at hrest
    · rw [Replica.frames, hf]
      rw [hget] at hrest
      refine ⟨fun v heff => ?_, hrest⟩
      obtain ⟨e, rfl, he⟩ := frame_version hda (hf ▸ mem_cons_self) heff
      exact Nat.lt_of_lt_of_eq (Nat.lt_succ_self _) he.symm

/-- The frames of the entries of `L`, with the outcome of their appends. -/
def StateMachine.frames (sm : StateMachine) (L : List (Entry × Bool)) : List (WalEntry × Bool) :=
  ((actions L).map sm.replica.frames).getD []

/-- A ref is created. -/
def createEntry : Entry := ⟨⟨1, 1⟩, .normal (.refUpdate "refs/heads/a" (.fill 1) none 1)⟩

/-- The ref is moved. -/
def moveEntry : Entry :=
  ⟨⟨1, 2⟩, .normal (.refUpdate "refs/heads/a" (.fill 2) (some (.fill 1)) 2)⟩

end Ledge.Raft
