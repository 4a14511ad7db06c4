import Ledge.Cluster.Simulation

/-!
# Ledge.Cluster.Atomic

Cross-shard atomicity, and what the results of `commit_atomic` mean.

Atomicity and "aborted means never applied" are the protocol's, carried over by the
simulation. "Committed means installed" also says from where to where a ref moves, which the
protocol does not know: in a careful run a locked ref keeps the entry that its transaction
expects (`Staged`). The last section has the runs in which the source does what a careful
run does not.
-/

namespace Ledge.Cluster

open Ledge.Core Ledge.RefStore Ledge.Raft Ledge.Lib Option

section Properties

variable {route : RefName → ShardId} {c c' : Fleet} {m : Move} {t : TxnId}

/-! ### Calls go on -/

theorem Effect.callsKept (h : Effect route c m c') : CallsKept c c' := by
  -- a step of a call that has not returned
  have hcalled : ∀ {c'' : Fleet} {t call phase}, c''.calls = c.calls → c.calls t = some call →
      phase ≠ .begin → (∀ r, call.phase ≠ .returned r) →
      CallsKept c (c''.setCall t { call with phase := phase }) := by
    intro c'' t call phase hcalls hcall hphase hreturned
    refine callsKept_setCall hcalls fun call' hcall' => ?_
    cases hcall.symm.trans hcall'
    exact Call.continues_phase hphase hreturned
  cases h with
  | single hquiet hrecords hmoved | presume hpass hquiet hrecords hverdict
  | collect hpass hquiet hrecords => exact callsKept_of_calls hquiet.calls
  | submit hnew hrouted hphase =>
    refine callsKept_setCall rfl fun call' hcall' => ?_
    rw [hnew] at hcall'
    cases hcall'
  | begin hcall hphase hquiet hrecords =>
    exact hcalled hquiet.calls hcall (afterYes_ne_begin _) fun r hr => by
      rw [hphase] at hr
      cases hr
  | yes hcall hphase hrecords htakes =>
    exact hcalled htakes.calls hcall (afterYes_ne_begin _) fun r hr => by
      rw [hphase] at hr
      cases hr
  | no hcall hphase hrecords hquiet | decide hcall hphase hquiet hrecords hverdict
  | finish hcall hphase hquiet hrecords =>
    exact hcalled hquiet.calls hcall nofun fun r hr => by
      rw [hphase] at hr
      cases hr
  | sweep hcall hphase hrecords hresolves =>
    exact hcalled hresolves.sameControl.calls hcall nofun fun r hr => by
      rw [hphase] at hr
      cases hr
  | crash hcall hphase => exact hcalled rfl hcall nofun hphase
  | plan hitems htoGc hacting | read hpass hdecision => exact callsKept_of_calls rfl
  | act hpass hrecords hresolves => exact callsKept_of_calls hresolves.sameControl.calls
  | write hwritten hrecords hwrites =>
    exact callsKept_of_calls (hwrites.elim (·.calls) (·.calls))

variable {moves : List Move}

theorem returned_exec {call : Call} {r : AtomicCommitResult} (hcall : c.calls t = some call)
    (hphase : call.phase = .returned r) (hexec : c.exec route moves = some c') :
    ∃ call', c'.calls t = some call' ∧ call'.phase = .returned r := by
  induction moves generalizing c call with
  | nil =>
    cases hexec
    exact ⟨call, hcall, hphase⟩
  | cons m moves ih =>
    obtain ⟨c₁, hstep, hrest⟩ := bind_eq_some_iff.mp hexec
    obtain ⟨call₁, hcall₁, hcontinues⟩ := (Fleet.step_effect hstep).callsKept t call hcall
    exact ih hcall₁ (hcontinues.returned r hphase) hrest

theorem Run.exec (h : Run route False c) (hexec : c.exec route moves = some c') :
    Run route False c' := by
  induction moves generalizing c with
  | nil =>
    cases hexec
    exact h
  | cons m moves ih =>
    obtain ⟨c₁, hstep, hrest⟩ := bind_eq_some_iff.mp hexec
    exact ih (h.step False.elim hstep) hrest

/-! ### The three properties -/

/-- **Atomicity**: in a careful run no transaction has one ref rolled forward while the lock of
another was released without its staged target. -/
theorem commit_atomic_all_or_nothing (h : Run route True c) (t : TxnId) :
    ¬ ((∃ k, c.Forwarded t k) ∧ ∃ k, c.Released t k) := by
  obtain ⟨s, hrel, -, hinv⟩ := h.simulates t
  intro hboth
  obtain ⟨⟨k, hk⟩, ⟨k', hk'⟩⟩ := hboth
  exact (hinv trivial).atomic ⟨⟨k, (hrel.forwarded k).mpr hk⟩, ⟨k', hrel.released k' hk'⟩⟩

/-- **Aborted means never applied**: once a multi-shard call has returned `Aborted`, no step,
before or after, installs a staged target on behalf of its transaction. -/
theorem aborted_never_applied {call : Call} {reason : String} {conflicts : List RefName}
    {moves : List Move} (h : Run route False c) (hcall : c.calls t = some call)
    (hphase : call.phase = .returned (.aborted reason conflicts))
    (hafter : c.exec route moves = some c') (k : Key) : ¬ c'.Forwarded t k := by
  obtain ⟨call', hcall', hphase'⟩ := returned_exec hcall hphase hafter
  obtain ⟨s, hrel, hhonest, -⟩ := (h.exec hafter).simulates t
  have hstage : s.stage = .finished false := by
    rw [hrel.stage, Fleet.stage_of_calls hcall', Call.stage, hphase']
    rfl
  intro hk
  have hmem := (hrel.forwarded k).mpr hk
  rw [hhonest.finished_abort hstage] at hmem
  exact hmem

/-! ### Committed means installed -/

/-- The mapping that a call has for a key. -/
def Fleet.Maps (c : Fleet) (t : TxnId) (k : Key) (m : Mapping) : Prop :=
  ∃ call, c.calls t = some call ∧ (k.1, m) ∈ call.refs ∧ m.name = k.2

theorem Fleet.Maps.kept {k : Key} {m : Mapping} (h : c.Maps t k m) (hkept : CallsKept c c') :
    c'.Maps t k m := by
  obtain ⟨call, hcall, hmem, hname⟩ := h
  obtain ⟨call', hcall', hcontinues⟩ := hkept t call hcall
  exact ⟨call', hcall', hcontinues.refs ▸ hmem, hname⟩

/-- A locked ref has the entry that its transaction expects, and refs that were rolled forward
have moved as their calls asked. -/
structure Staged (c : Fleet) : Prop where
  intents : ∀ k p, c.lockAt k = some p → ∃ m, c.Maps p.txnId k m ∧ m.target = p.stagedTarget ∧
    (c.visibleAt k).map RefEntry.target = m.expected
  moved : ∀ t k, c.Forwarded t k → ∃ m, c.Maps t k m ∧ c.Moved k.1 m

theorem staged_of_fresh (h : c.Fresh) : Staged c where
  intents k p hp := by
    rw [Fleet.lockAt, h.unlocked] at hp
    cases hp
  moved t k hk := by
    rw [Fleet.Forwarded, h.trace] at hk
    obtain ⟨x, hx, -⟩ := hk
    cases hx

theorem Staged.next (h : Staged c) (hkept : CallsKept c c')
    (hmoved : ∀ shard m, c.Moved shard m → c'.Moved shard m)
    (hlocks : ∀ k p, c'.lockAt k = some p →
      (c.lockAt k = some p ∧ c'.visibleAt k = c.visibleAt k) ∨
      ∃ m, c'.Maps p.txnId k m ∧ m.target = p.stagedTarget ∧
        (c'.visibleAt k).map RefEntry.target = m.expected)
    (hforwarded : ∀ t k, c'.Forwarded t k → c.Forwarded t k ∨
      ∃ m, c.Maps t k m ∧ c'.Moved k.1 m) : Staged c' where
  intents k p hp := by
    rcases hlocks k p hp with ⟨hold, hvisible⟩ | hnew
    · obtain ⟨m, hmaps, htarget, hexpected⟩ := h.intents k p hold
      exact ⟨m, hmaps.kept hkept, htarget, by rw [hvisible, hexpected]⟩
    · exact hnew
  moved t k hk := by
    rcases hforwarded t k hk with hold | ⟨m, hmaps, hnew⟩
    · obtain ⟨m, hmaps, hm⟩ := h.moved t k hold
      exact ⟨m, hmaps.kept hkept, hmoved _ _ hm⟩
    · exact ⟨m, hmaps.kept hkept, hnew⟩

theorem Staged.quiet {c'' : Fleet} (h : Staged c) (hquiet : Quiet c c') (hkept : CallsKept c c'')
    (hshards : c''.shards = c'.shards) (htrace : c''.trace = c'.trace) : Staged c'' := by
  have hlockAt : ∀ k, c''.lockAt k = c'.lockAt k := fun k => by
    rw [Fleet.lockAt, Fleet.lockAt, hshards]
  have hvisibleAt : ∀ k, c''.visibleAt k = c'.visibleAt k := fun k => by
    rw [Fleet.visibleAt, Fleet.visibleAt, hshards]
  refine h.next hkept (fun shard m hm => ?_) (fun k p hp => Or.inl ?_) (fun t k hk => Or.inl ?_)
  · rw [Fleet.Moved, htrace]
    exact hquiet.keepsMoved shard m hm
  · rw [hlockAt, hquiet.lockAt] at hp
    refine ⟨hp, ?_⟩
    rw [hvisibleAt, hquiet.visibleAt k (by simp [hp])]
  · rw [Fleet.Forwarded, htrace] at hk
    exact (hquiet.forwarded t k).mp hk

theorem Staged.resolves {c'' : Fleet} {k : Key} {commit : Bool} (h : Staged c)
    (hresolves : Resolves c c' k t commit) (hkept : CallsKept c c'')
    (hshards : c''.shards = c'.shards) (htrace : c''.trace = c'.trace) : Staged c'' := by
  cases hresolves with
  | skips _ hstill => exact h.quiet hstill.toQuiet hkept hshards htrace
  | ends p hends =>
    refine h.next hkept (fun shard m hm => ?_) (fun k' q hq => Or.inl ?_) (fun u k' hk' => ?_)
    · rw [Fleet.Moved, htrace]
      exact hends.keepsMoved shard m hm
    · rw [Fleet.lockAt, hshards] at hq
      have hq' : c'.lockAt k' = some q := hq
      rw [hends.lockAt] at hq'
      split_ifs at hq' with hne
      refine ⟨hq', ?_⟩
      rw [Fleet.visibleAt, hshards]
      exact hends.visibleAt k' hne
    · rw [Fleet.Forwarded, htrace] at hk'
      rcases (hends.forwarded u k').mp hk' with hold | ⟨hcommit, rfl, rfl⟩
      · exact Or.inl hold
      · -- the ref had the entry that the transaction expected
        obtain ⟨m, hmaps, htarget, hexpected⟩ := h.intents k' p hends.held
        rw [hends.owner] at hmaps
        obtain ⟨call, hcall, hmem, hname⟩ := hmaps
        refine Or.inr ⟨m, ⟨call, hcall, hmem, hname⟩, ?_⟩
        rw [Fleet.Moved, htrace]
        exact hends.moved hcommit m hname htarget hexpected

/-- Every careful step keeps `Staged`. -/
theorem Staged.effect (h : Staged c) (hwf : Wf route c) (hcareful : c.Careful route m)
    (heffect : Effect route c m c') : Staged c' := by
  have hkept := heffect.callsKept
  cases heffect with
  | single hquiet hrecords hmoved | begin hcall hphase hquiet hrecords
  | no hcall hphase hrecords hquiet | decide hcall hphase hquiet hrecords hverdict
  | finish hcall hphase hquiet hrecords | presume hpass hquiet hrecords hverdict
  | collect hpass hquiet hrecords => exact h.quiet hquiet hkept rfl rfl
  | submit hnew hrouted hphase | crash hcall hphase | plan hitems htoGc hacting
  | read hpass hdecision => exact h.quiet (quiet_refl c) hkept rfl rfl
  | @yes t hlc call c' shard m rest hcall hphase hrecords htakes =>
    have hmem : (shard, m) ∈ call.refs :=
      hwf.pending t call _ hcall (by rw [hphase]; rfl) (shard, m) List.mem_cons_self
    refine h.next hkept htakes.keepsMoved (fun k p hp => ?_)
      (fun u k hk => Or.inl ((htakes.forwarded u k).mp hk))
    have hp' : c'.lockAt k = some p := hp
    rw [htakes.lockAt] at hp'
    split_ifs at hp' with heq
    · -- the new lock
      cases hp'
      subst heq
      have hmaps : c.Maps t (shard, m.name) m := ⟨call, hcall, hmem, rfl⟩
      refine Or.inr ⟨m, hmaps.kept hkept, rfl, ?_⟩
      exact (congrArg (Option.map RefEntry.target) (htakes.visibleAt _)).trans htakes.expected
    · exact Or.inl ⟨hp', htakes.visibleAt k⟩
  | sweep hcall hphase hrecords hresolves | act hpass hrecords hresolves =>
    exact h.resolves hresolves hkept rfl rfl
  | @write m k c' hwritten hrecords hwrites =>
    rcases hwrites with hquiet | hover
    · exact h.quiet hquiet hkept rfl rfl
    · refine h.next hkept hover.keepsMoved (fun k' p hp => Or.inl ?_)
        (fun u k' hk' => Or.inl ((hover.forwarded u k').mp hk'))
      rw [hover.lockAt] at hp
      split_ifs at hp with hne
      exact ⟨hp, hover.visibleAt k' hne⟩

theorem Run.staged (h : Run route True c) : Staged c := by
  induction h with
  | start h => exact staged_of_fresh h
  | step hrun hcareful hstep ih =>
    exact ih.effect hrun.wf (hcareful trivial) (Fleet.step_effect hstep)

/-- What has been returned comes from one batch that has moved the refs, or from a multi-shard
call that has returned it. -/
def Answered (route : RefName → ShardId) (c : Fleet) : Prop :=
  ∀ x ∈ c.returns,
    (∀ entries, x.2 = .committed entries → (x.1.map Mapping.name).Nodup →
      ∀ m ∈ x.1, c.Moved (route m.name) m) ∨
    ∃ t call, c.calls t = some call ∧ call.phase = .returned x.2 ∧ call.mappings = x.1

theorem Answered.next (h : Answered route c) (hkept : CallsKept c c')
    (hmoved : ∀ shard m, c.Moved shard m → c'.Moved shard m)
    {x : List Mapping × AtomicCommitResult} (hx : x ∈ c.returns) :
    (∀ entries, x.2 = .committed entries → (x.1.map Mapping.name).Nodup →
      ∀ m ∈ x.1, c'.Moved (route m.name) m) ∨
    ∃ t call, c'.calls t = some call ∧ call.phase = .returned x.2 ∧ call.mappings = x.1 := by
  rcases h x hx with hsingle | ⟨t, call, hcall, hphase, hmappings⟩
  · exact Or.inl fun entries hres hnodup m hm => hmoved _ _ (hsingle entries hres hnodup m hm)
  · obtain ⟨call', hcall', hcontinues⟩ := hkept t call hcall
    exact Or.inr ⟨t, call', hcall', hcontinues.returned _ hphase,
      hcontinues.mappings.trans hmappings⟩

theorem Answered.effect (h : Answered route c) (heffect : Effect route c m c') :
    Answered route c' := by
  have hkept := heffect.callsKept
  -- a step that returns nothing
  have hold : ∀ {c'' : Fleet}, SameControl c c'' → CallsKept c c' → c'.returns = c''.returns →
      c'.trace = c''.trace → Answered route c' := by
    intro c'' hsame hkept hreturns htrace x hx
    rw [hreturns, hsame.returns] at hx
    refine h.next hkept (fun shard m hm => ?_) hx
    rw [Fleet.Moved, htrace]
    exact hsame.keepsMoved shard m hm
  cases heffect with
  | @single t mappings hlc c' result hquiet hrecords hmoved =>
    intro x hx
    rcases List.mem_append.mp hx with hx | hx
    · rw [hquiet.returns] at hx
      exact h.next hkept hquiet.keepsMoved hx
    · obtain rfl := List.mem_singleton.mp hx
      exact Or.inl hmoved
  | submit hnew hrouted hphase | crash hcall hphase | plan hitems htoGc hacting
  | read hpass hdecision => exact hold (quiet_refl c).toSameControl hkept rfl rfl
  | begin hcall hphase hquiet hrecords | no hcall hphase hrecords hquiet
  | decide hcall hphase hquiet hrecords hverdict | presume hpass hquiet hrecords hverdict
  | collect hpass hquiet hrecords => exact hold hquiet.toSameControl hkept rfl rfl
  | yes hcall hphase hrecords htakes => exact hold htakes.toSameControl hkept rfl rfl
  | sweep hcall hphase hrecords hresolves | act hpass hrecords hresolves =>
    exact hold hresolves.sameControl hkept rfl rfl
  | @finish t hlc call c' commit allYes conflicts committed hcall hphase hquiet hrecords =>
    intro x hx
    rcases List.mem_append.mp hx with hx | hx
    · have hx' : x ∈ c'.returns := hx
      rw [hquiet.returns] at hx'
      exact h.next hkept hquiet.keepsMoved hx'
    · obtain rfl := List.mem_singleton.mp hx
      exact Or.inr ⟨t, _, (Fleet.calls_setCall ..).trans (if_pos rfl), rfl, rfl⟩
  | write hwritten hrecords hwrites =>
    rcases hwrites with hquiet | hover
    · exact hold hquiet.toSameControl hkept rfl rfl
    · exact hold hover.toSameControl hkept rfl rfl

theorem Run.answered {careful : Prop} (h : Run route careful c) : Answered route c := by
  induction h with
  | start h =>
    intro x hx
    rw [h.returns] at hx
    cases hx
  | step _ _ hstep ih => exact ih.effect (Fleet.step_effect hstep)

/-- **Committed means installed**: in a careful run, for every mapping of a call with distinct
names that returned `Committed`, there is an operation that moved the ref from the expected
target to the mapped one, to the next version. -/
theorem committed_means_installed {mappings : List Mapping} {entries : List (RefName × RefEntry)}
    (h : Run route True c) (hreturn : (mappings, .committed entries) ∈ c.returns)
    (hnodup : (mappings.map Mapping.name).Nodup) :
    ∀ m ∈ mappings, c.Moved (route m.name) m := by
  rcases h.answered _ hreturn with hsingle | ⟨t, call, hcall, hphase, rfl⟩
  · exact hsingle entries rfl hnodup
  · obtain ⟨s, hrel, -, hinv⟩ := h.simulates t
    have hstage : s.stage = .finished true := by
      rw [hrel.stage, Fleet.stage_of_calls hcall, Call.stage, hphase]
      rfl
    have hactive : call.phase.Active := by
      rw [hphase]
      exact ⟨fun heq => (by cases heq), by simp⟩
    have hrouted := h.wf.routed t call hcall
    intro m hm
    have hmem : (route m.name, m) ∈ call.refs := (hrouted _).mpr ⟨hm, rfl⟩
    have hkey : (route m.name, m.name) ∈ s.keys :=
      (hrel.keys call hcall hactive _).mpr (List.mem_map_of_mem hmem)
    have hforwarded := (hrel.forwarded _).mp ((hinv trivial).finished_commit hstage hkey)
    obtain ⟨m', ⟨call', hcall', hmem', hname⟩, hmoved⟩ := h.staged.moved t _ hforwarded
    -- the names of the call are distinct, so it is the same mapping
    cases hcall.symm.trans hcall'
    have hm' : m' ∈ call.mappings := ((hrouted _).mp hmem').1
    obtain rfl : m' = m := List.inj_on_of_nodup_map hnodup hm' hm hname
    exact hmoved

end Properties

/-! ### Runs on two shards -/

/-- `refs/heads/b` is on shard 0 and `refs/heads/a` on shard 1. -/
def twoShards : RefName → ShardId := (ShardRouter.mk 2 (by decide)).shardFor

def emptyFleet : Fleet := ⟨fun _ => .empty, fun _ => none, fun _ => .idle, [], []⟩

theorem fresh_emptyFleet : emptyFleet.Fresh :=
  ⟨fun _ _ => rfl, fun _ => rfl, fun _ => rfl, fun _ => rfl, rfl, rfl⟩

/-- Neither a plain write nor a pass that is about to drop a record. -/
def Move.tame (route : RefName → ShardId) (c : Fleet) (m : Move) : Bool :=
  (m.written route).isNone &&
    match m with
    | .pass i _ => !(c.passes i matches .collect (_ :: _))
    | _ => true

/-- Tame moves in order. -/
def Fleet.execTame (route : RefName → ShardId) (c : Fleet) : List Move → Option Fleet
  | [] => some c
  | m :: moves =>
    if m.tame route c then (c.step route m).bind (fun c' => c'.execTame route moves) else none

variable {route : RefName → ShardId}

theorem careful_of_tame {c : Fleet} {m : Move} (h : m.tame route c = true) : c.Careful route m where
  writes k hk := by
    have hnone := (Bool.and_eq_true_iff.mp h).1
    rw [hk] at hnone
    cases hnone
  collects i stale t shard rest hm hpass := by
    subst hm
    rw [Move.tame, hpass] at h
    cases h

theorem Run.execTame {careful : Prop} {c c' : Fleet} {moves : List Move} (h : Run route careful c)
    (hexec : c.execTame route moves = some c') : Run route careful c' := by
  induction moves generalizing c with
  | nil =>
    cases hexec
    exact h
  | cons m moves ih =>
    rw [Fleet.execTame] at hexec
    split_ifs at hexec with htame
    obtain ⟨c₁, hstep, hrest⟩ := bind_eq_some_iff.mp hexec
    exact ih (h.step (fun _ => careful_of_tame htame) hstep) hrest

/-- Create both refs in one transaction. -/
def createBoth : List Mapping := [⟨.headsA, .fill 1, none⟩, ⟨.headsB, .fill 2, none⟩]

/-- The coordinator stops after the commit point. -/
def stopAfterDecide : List Move :=
  [.commitAtomic (.fill 7) createBoth id, .call (.fill 7) 0, .call (.fill 7) 1, .call (.fill 7) 2,
    .call (.fill 7) 0, .crash (.fill 7)]

/-- A pass over some shards, in `n` operations. -/
def passOver (i : Nat) (hosted : List ShardId) (stale : Bool) (n : Nat) : List Move :=
  .startPass i hosted :: List.replicate n (.pass i stale)

/-- A resolver that hosts shard 0 rolls its lock forward and drops the record. A resolver that
hosts shard 1 then finds a lock without a decision, records an abort and releases it. -/
theorem resolver_splits_transaction :
    (emptyFleet.exec twoShards
        (stopAfterDecide ++ passOver 0 [0] true 7 ++ passOver 1 [1] true 5)).any
      (fun c => c.Forwarded (.fill 7) (0, .headsB) ∧ c.Released (.fill 7) (1, .headsA)) := by
  decide +kernel

/-- One resolver that hosts both shards completes the transaction. -/
theorem resolver_completes_transaction : ∃ c, Run twoShards True c ∧
    c.Forwarded (.fill 7) (0, .headsB) ∧ c.Forwarded (.fill 7) (1, .headsA) ∧
    ¬ ((∃ k, c.Forwarded (.fill 7) k) ∧ ∃ k, c.Released (.fill 7) k) := by
  have hexec : (emptyFleet.execTame twoShards
      (stopAfterDecide ++ passOver 0 [0, 1] true 8)).any
        (fun c => c.Forwarded (.fill 7) (0, .headsB) ∧ c.Forwarded (.fill 7) (1, .headsA)) := by
    decide +kernel
  obtain ⟨c, hc, hboth⟩ := (any_eq_true _ _).mp hexec
  have hrun : Run twoShards True c := (Run.start fresh_emptyFleet).execTame hc
  obtain ⟨hb, ha⟩ := of_decide_eq_true hboth
  exact ⟨c, hrun, hb, ha, commit_atomic_all_or_nothing hrun _⟩

/-- A call whose first vote is no, and a resolver that looks for its locks afterwards. -/
def refused : List Move :=
  [.update .headsB (.fill 9) none 0, .commitAtomic (.fill 7) createBoth id, .call (.fill 7) 0,
    .call (.fill 7) 1, .call (.fill 7) 0, .call (.fill 7) 0, .call (.fill 7) 0, .call (.fill 7) 0]

theorem refused_never_applied : ∃ c c' call, Run twoShards False c ∧
    c.calls (.fill 7) = some call ∧
    call.phase = .returned (.aborted "prepare vote NO" [.headsB]) ∧
    c.exec twoShards (passOver 0 [0, 1] true 3) = some c' ∧ ¬ c'.Forwarded (.fill 7)
      (1, .headsA) := by
  have hexec : (emptyFleet.exec twoShards refused).any (fun c =>
      ((c.calls (.fill 7)).map Call.phase = some
        (.returned (.aborted "prepare vote NO" [.headsB]))) ∧
        (c.exec twoShards (passOver 0 [0, 1] true 3)).isSome) := by
    decide +kernel
  obtain ⟨c, hc, hboth⟩ := (any_eq_true _ _).mp hexec
  have hrun : Run twoShards False c := (Run.start fresh_emptyFleet).exec hc
  obtain ⟨hcalls, hafter⟩ := of_decide_eq_true hboth
  obtain ⟨call, hcall, hphase⟩ := map_eq_some_iff.mp hcalls
  obtain ⟨c', hc'⟩ := isSome_iff_exists.mp hafter
  exact ⟨c, c', call, hrun, hcall, hphase, hc', aborted_never_applied hrun hcall hphase hc' _⟩

/-- Move one ref and create the other. -/
def moveBoth : List Mapping := [⟨.headsA, .fill 2, some (.fill 1)⟩, ⟨.headsB, .fill 2, none⟩]

/-- A plain update takes the lock on `refs/heads/a` away between the vote and the decision. -/
def overwritten : List Move :=
  [.update .headsA (.fill 1) none 0, .commitAtomic (.fill 7) moveBoth id, .call (.fill 7) 0,
    .call (.fill 7) 1, .call (.fill 7) 2, .update .headsA (.fill 3) (some (.fill 1)) 3,
    .call (.fill 7) 0, .call (.fill 7) 0, .call (.fill 7) 0, .call (.fill 7) 0]

/-- The call returns `Committed`, with the plain update's entry for `refs/heads/a`, and has not
moved that ref. -/
theorem committed_not_installed :
    (emptyFleet.exec twoShards overwritten).any (fun c =>
      (moveBoth, .committed [(.headsB, ⟨.fill 2, 1, 1⟩), (.headsA, ⟨.fill 3, 3, 2⟩)]) ∈ c.returns ∧
        ¬ c.Moved (twoShards .headsA) ⟨.headsA, .fill 2, some (.fill 1)⟩) := by
  decide +kernel

/-- A call on two shards that nobody disturbs. -/
def undisturbed : List Move :=
  [.commitAtomic (.fill 7) createBoth id, .call (.fill 7) 0, .call (.fill 7) 1, .call (.fill 7) 2,
    .call (.fill 7) 0, .call (.fill 7) 0, .call (.fill 7) 0, .call (.fill 7) 0]

theorem undisturbed_installs : ∃ c, Run twoShards True c ∧
    (createBoth, .committed [(.headsB, ⟨.fill 2, 1, 1⟩), (.headsA, ⟨.fill 1, 2, 1⟩)]) ∈ c.returns ∧
    (createBoth.map Mapping.name).Nodup ∧
    ∀ m ∈ createBoth, c.Moved (twoShards m.name) m := by
  have hexec : (emptyFleet.execTame twoShards undisturbed).any (fun c =>
      (createBoth, .committed [(.headsB, ⟨.fill 2, 1, 1⟩), (.headsA, ⟨.fill 1, 2, 1⟩)]) ∈
        c.returns) := by
    decide +kernel
  obtain ⟨c, hc, hreturn⟩ := (any_eq_true _ _).mp hexec
  have hrun : Run twoShards True c := (Run.start fresh_emptyFleet).execTame hc
  have hreturn' := of_decide_eq_true hreturn
  have hnodup : (createBoth.map Mapping.name).Nodup := by decide
  exact ⟨c, hrun, hreturn', hnodup, committed_means_installed hrun hreturn' hnodup⟩

end Ledge.Cluster
