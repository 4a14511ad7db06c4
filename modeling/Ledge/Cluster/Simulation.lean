import Ledge.Cluster.Run

/-!
# Ledge.Cluster.Simulation

From the point of view of one transaction, the fleet **refines two-phase commit with presumed
abort** (`Ledge.Lib.PresumedAbort`). `Rel` relates the two; `Rel.step` is the simulation: a
step of the fleet is a step of the protocol, or leaves it where it is.
-/

namespace Ledge.Cluster

open Ledge.Core Ledge.RefStore Ledge.Raft Ledge.Lib List Option
open Ledge.Lib.PresumedAbort (Stage State Verdict)

/-! ### What the protocol sees -/

/-- The keys of refs. -/
def keysOf (refs : List (ShardId × Mapping)) : List Key := refs.map (fun x => (x.1, x.2.name))

theorem isCommitted_result (commit allYes : Bool) (conflicts : List RefName)
    (committed : List (RefName × RefEntry)) :
    (Fleet.result commit allYes conflicts committed).isCommitted = commit := by
  cases commit <;> cases allYes <;> rfl

/-- Where the coordinator of a call is. -/
def Call.stage (call : Call) : Stage Key :=
  match call.phase with
  | .begin => .idle
  | .prepare _ | .decide .. => .preparing
  | .sweep commit _ _ rest _ => .sweeping commit (keysOf rest)
  | .returned r => .finished r.isCommitted
  | .failed => .stopped

def Fleet.stage (c : Fleet) (t : TxnId) : Stage Key := (c.calls t).elim .idle Call.stage

/-- The record of a transaction on its coordinator shard. -/
def Fleet.record (c : Fleet) (t : TxnId) : Option Verdict :=
  (c.calls t).bind (fun call => (c.txnDecision call.coordShard t).map toVerdict)

/-- A call works on its keys. -/
def Phase.Active (phase : Phase) : Prop := phase ≠ .begin ∧ phase ≠ .failed

/-- Passes act on what they have learnt. -/
structure Knows (passes : Nat → Pass) (t : TxnId) (mayCommit mayAbort : Prop) : Prop where
  acting : ∀ i item commit, (passes i).acting = some (item, commit) → item.intent.txnId = t →
    if commit then mayCommit else mayAbort
  toGc : ∀ i shard, (t, shard) ∈ (passes i).toGc → mayCommit

/-- The fleet and the protocol agree on the transaction `t`. -/
structure Rel (c : Fleet) (t : TxnId) (s : State Key) : Prop where
  stage : s.stage = c.stage t
  record : s.record = c.record t
  locked : ∀ k, k ∈ s.locked ↔ c.holder k = some t
  keys : ∀ call, c.calls t = some call → call.phase.Active → ∀ k, k ∈ s.keys ↔ k ∈ keysOf call.refs
  voted : ∀ call rest, c.calls t = some call → call.phase.pending = some rest →
    ∀ k ∈ keysOf call.refs, k ∈ s.voted ∨ k ∈ keysOf rest
  forwarded : ∀ k, k ∈ s.forwarded ↔ c.Forwarded t k
  released : ∀ k, c.Released t k → k ∈ s.released
  knows : Knows c.passes t s.mayCommit s.mayAbort

theorem rel_initial {c : Fleet} (h : c.Fresh) (t : TxnId) : Rel c t State.initial where
  stage := by
    rw [Fleet.stage, h.calls]
    rfl
  record := by
    rw [Fleet.record, h.calls]
    rfl
  locked k := by
    rw [Fleet.holder, Fleet.lockAt, h.unlocked]
    exact iff_of_false id (by simp)
  keys call hcall := by
    rw [h.calls] at hcall
    cases hcall
  voted call rest hcall := by
    rw [h.calls] at hcall
    cases hcall
  forwarded k := by
    rw [Fleet.Forwarded, h.trace]
    refine iff_of_false id fun hk => ?_
    obtain ⟨x, hx, -⟩ := hk
    cases hx
  released k hk := by
    rw [Fleet.Released, h.trace] at hk
    obtain ⟨x, hx, -⟩ := hk
    cases hx
  knows := by
    refine ⟨fun i item commit hacting => ?_, fun i shard hmem => ?_⟩
    · rw [h.passes] at hacting
      cases hacting
    · rw [h.passes] at hmem
      cases hmem

/-! ### Frames -/

section Frames

variable {c c' : Fleet} {t : TxnId} {s : State Key}

theorem Fleet.stage_of_calls {call : Call} (h : c.calls t = some call) : c.stage t =
    call.stage := by
  rw [Fleet.stage, h]
  rfl

theorem Fleet.record_of_calls {call : Call} (h : c.calls t = some call) :
    c.record t = (c.txnDecision call.coordShard t).map toVerdict := by
  rw [Fleet.record, h]
  rfl

variable {shard : ShardId} {u : TxnId} {k : Key} {p : PreparedIntent} {commit : Bool}
  {passes : Nat → Pass} {mayCommit mayAbort : Prop}

theorem Fleet.Home.record (h : c.Home t shard) :
    c.record t = (c.txnDecision shard t).map toVerdict := by
  obtain ⟨call, hcall, -, rfl⟩ := h
  exact record_of_calls hcall

theorem Fleet.Home.stage_ne_idle (h : c.Home t shard) : c.stage t ≠ .idle := by
  obtain ⟨call, hcall, hbegun, -⟩ := h
  rw [stage_of_calls hcall, Call.stage]
  split
  next hphase => exact absurd hphase hbegun
  all_goals exact nofun

/-- Nothing changes for the transaction `t` on the shards. -/
structure SameFor (t : TxnId) (c c' : Fleet) : Prop where
  txnDecision : ∀ shard, c'.txnDecision shard t = c.txnDecision shard t
  holder : ∀ k, c'.holder k = some t ↔ c.holder k = some t
  forwarded : ∀ k, c'.Forwarded t k ↔ c.Forwarded t k
  released : ∀ k, c'.Released t k → c.Released t k

theorem SetsRecord.other {d : Option TxnDecision} (h : SetsRecord c c' shard u d) (hne : t ≠ u)
    (shard' : ShardId) : c'.txnDecision shard' t = c.txnDecision shard' t := by
  rw [h, if_neg fun hboth => hne hboth.2]

theorem Quiet.holder (h : Quiet c c') (k : Key) : c'.holder k = c.holder k := by
  rw [Fleet.holder, Fleet.holder, h.lockAt]

theorem Quiet.sameFor (h : Quiet c c')
    (hrecords : ∀ shard, c'.txnDecision shard t = c.txnDecision shard t) : SameFor t c c' where
  txnDecision := hrecords
  holder k := by rw [h.holder]
  forwarded := h.forwarded t
  released k := (h.released t k).mp

theorem Takes.sameFor {expected : Option ObjectId} (h : Takes c c' k p expected)
    (hrecords : SameRecords c c') (hne : t ≠ p.txnId) : SameFor t c c' where
  txnDecision shard := hrecords shard t
  holder k' := by
    rw [Fleet.holder, h.lockAt]
    split_ifs with hk
    · -- the lock was free or the other transaction's
      refine iff_of_false (fun heq => hne (some.inj heq).symm) fun heq => ?_
      rw [hk] at heq
      rcases h.free with hnone | hown
      · rw [hnone] at heq
        cases heq
      · rw [hown] at heq
        exact hne (some.inj heq).symm
    · exact Iff.rfl
  forwarded := h.forwarded t
  released k' := (h.released t k').mp

theorem Ends.holder (h : Ends c c' k u commit p) : c.holder k = some u := by
  rw [Fleet.holder, h.held, map_some, h.owner]

theorem Resolves.sameFor (h : Resolves c c' k u commit) (hrecords : SameRecords c c')
    (hne : t ≠ u) : SameFor t c c' := by
  cases h with
  | skips _ h => exact h.toQuiet.sameFor fun shard => hrecords shard t
  | ends p h =>
    exact {
      txnDecision := fun shard => hrecords shard t
      holder := by
        intro k'
        rw [Fleet.holder, h.lockAt]
        split_ifs with hk
        · refine iff_of_false nofun fun heq => ?_
          rw [hk, h.holder] at heq
          exact hne (some.inj heq).symm
        · exact Iff.rfl
      forwarded := fun k' => (h.forwarded t k').trans (or_iff_left fun hboth => hne hboth.2.1)
      released := fun k' hk' =>
        ((h.released t k').mp hk').resolve_right fun hboth => hne hboth.2.1 }

theorem Rel.frame (h : Rel c t s) (hsame : SameFor t c c') (hcalls : c'.calls t = c.calls t)
    (hknows : Knows c'.passes t s.mayCommit s.mayAbort) : Rel c' t s where
  stage := by
    rw [h.stage, Fleet.stage, Fleet.stage, hcalls]
  record := by
    rw [h.record, Fleet.record, Fleet.record, hcalls]
    simp only [hsame.txnDecision]
  locked k := (h.locked k).trans (hsame.holder k).symm
  keys call hcall := h.keys call (hcalls ▸ hcall)
  voted call rest hcall := h.voted call rest (hcalls ▸ hcall)
  forwarded k := (h.forwarded k).trans (hsame.forwarded k).symm
  released k hk := h.released k (hsame.released k hk)
  knows := hknows

theorem Knows.setPass (h : Knows passes t mayCommit mayAbort) {i : Nat} {p : Pass}
    (hacting : ∀ item commit, p.acting = some (item, commit) → item.intent.txnId = t →
      if commit then mayCommit else mayAbort) (htoGc : ∀ shard, (t, shard) ∈ p.toGc → mayCommit) :
    Knows (Function.update passes i p) t mayCommit mayAbort where
  acting j item commit hj := by
    rw [Function.update_apply] at hj
    split_ifs at hj
    · exact hacting item commit hj
    · exact h.acting j item commit hj
  toGc j shard hj := by
    rw [Function.update_apply] at hj
    split_ifs at hj
    · exact htoGc shard hj
    · exact h.toGc j shard hj

theorem Knows.mono {mayCommit' mayAbort' : Prop} (h : Knows passes t mayCommit mayAbort)
    (hcommit : mayCommit → mayCommit') (habort : mayAbort → mayAbort') :
    Knows passes t mayCommit' mayAbort' where
  acting i item commit hacting howner := by
    have hmay := h.acting i item commit hacting howner
    cases commit with
    | true => exact hcommit hmay
    | false => exact habort hmay
  toGc i shard hmem := hcommit (h.toGc i shard hmem)

end Frames

/-! ### The simulation -/

section Simulation

variable {route : RefName → ShardId} {careful : Prop} {c c' : Fleet} {m : Move} {t : TxnId}
  {s : State Key}

variable {s' : State Key} {call : Call} {i : Nat} {shard : ShardId} {d : Option TxnDecision}
  {k : Key} {commit allYes : Bool} {rest : List (ShardId × Mapping)} {conflicts : List RefName}
  {committed : List (RefName × RefEntry)} {item : LockItem} {toGc : List (TxnId × ShardId)}

/-- The sets of keys that the protocol has for `t`. -/
structure Tracks (c : Fleet) (t : TxnId) (locked forwarded released : Set Key) : Prop where
  locked : ∀ k, k ∈ locked ↔ c.holder k = some t
  forwarded : ∀ k, k ∈ forwarded ↔ c.Forwarded t k
  released : ∀ k, c.Released t k → k ∈ released

theorem Rel.tracks (h : Rel c t s) : Tracks c t s.locked s.forwarded s.released :=
  ⟨h.locked, h.forwarded, h.released⟩

/-- The fleet after a step of the call of `t`. -/
theorem rel_setCall (htracks : Tracks c' t s'.locked s'.forwarded s'.released)
    (hknows : Knows c'.passes t s'.mayCommit s'.mayAbort) (hstage : s'.stage = call.stage)
    (hrecord : s'.record = (c'.txnDecision call.coordShard t).map toVerdict)
    (hkeys : call.phase.Active → ∀ k, k ∈ s'.keys ↔ k ∈ keysOf call.refs)
    (hvoted : ∀ rest, call.phase.pending = some rest →
      ∀ k ∈ keysOf call.refs, k ∈ s'.voted ∨ k ∈ keysOf rest) : Rel (c'.setCall t call) t s' := by
  have hcall : (c'.setCall t call).calls t = some call :=
    (Fleet.calls_setCall ..).trans (if_pos rfl)
  exact {
    stage := hstage.trans (Fleet.stage_of_calls hcall).symm
    record := hrecord.trans (Fleet.record_of_calls hcall).symm
    locked := htracks.locked
    keys := by
      intro call' hcall'
      cases hcall.symm.trans hcall'
      exact hkeys
    voted := by
      intro call' rest hcall'
      cases hcall.symm.trans hcall'
      exact hvoted rest
    forwarded := htracks.forwarded
    released := htracks.released
    knows := hknows }

theorem rel_setPass {p : Pass} (h : Rel c t s) (hsame : SameControl c c')
    (hstage : s'.stage = s.stage) (hkeys : s'.keys = s.keys) (hvoted : s'.voted = s.voted)
    (hrecord : s'.record = c'.record t)
    (htracks : Tracks c' t s'.locked s'.forwarded s'.released)
    (hknows : Knows (Function.update c.passes i p) t s'.mayCommit s'.mayAbort) :
    Rel (c'.setPass i p) t s' where
  stage := by
    show s'.stage = (c'.calls t).elim _ _
    rw [hsame.calls, hstage]
    exact h.stage
  record := hrecord
  locked := htracks.locked
  keys call hcall := by
    rw [hkeys]
    exact h.keys call (hsame.calls ▸ hcall)
  voted call rest hcall := by
    rw [hvoted]
    exact h.voted call rest (hsame.calls ▸ hcall)
  forwarded := htracks.forwarded
  released := htracks.released
  knows := by
    show Knows (Function.update c'.passes i p) t _ _
    rw [hsame.passes]
    exact hknows

theorem SameRecords.record (h : SameRecords c c') (hcalls : c'.calls = c.calls) :
    c'.record t = c.record t := by
  rw [Fleet.record, hcalls]
  simp only [h _ _]
  rfl

theorem SetsRecord.record (h : SetsRecord c c' shard t d) (hcalls : c'.calls = c.calls)
    (hhome : c.Home t shard) : c'.record t = d.map toVerdict := by
  obtain ⟨call, hcall, -, rfl⟩ := hhome
  rw [← hcalls] at hcall
  rw [Fleet.record_of_calls hcall, h, if_pos ⟨rfl, rfl⟩]

theorem Rel.quiet (h : Rel c t s) (hquiet : Quiet c c') :
    Tracks c' t s.locked s.forwarded s.released where
  locked k := by rw [h.locked, hquiet.holder]
  forwarded k := (h.forwarded k).trans (hquiet.forwarded t k).symm
  released k hk := h.released k ((hquiet.released t k).mp hk)

theorem Rel.knows_same (h : Rel c t s) (hsame : SameControl c c') :
    Knows c'.passes t s.mayCommit s.mayAbort := by
  rw [hsame.passes]
  exact h.knows

theorem SetsRecord.self (h : SetsRecord c c' shard t d) : c'.txnDecision shard t = d := by
  rw [h, if_pos ⟨rfl, rfl⟩]

theorem Rel.resolve (h : Rel c t s) (hres : Resolves c c' k t commit) :
    Tracks c' t (s.resolve k commit).locked (s.resolve k commit).forwarded
      (s.resolve k commit).released := by
  cases hres with
  | ends p hends =>
    have hk : k ∈ s.locked := (h.locked k).mpr hends.holder
    refine ⟨fun k' => ?_, fun k' => ?_, fun k' hk' => ?_⟩
    · rw [Fleet.holder, hends.lockAt]
      split_ifs with heq
      · exact iff_of_false (fun hmem => hmem.2 heq) nofun
      · exact (and_iff_left heq).trans (h.locked k')
    · rw [hends.forwarded]
      refine or_congr (h.forwarded k') ⟨fun hx => ⟨hx.1, rfl, hx.2.1⟩, fun hx => ?_⟩
      exact ⟨hx.1, hx.2.2, hk⟩
    · rcases (hends.released t k').mp hk' with hold | hnew
      · exact Or.inl (h.released k' hold)
      · exact Or.inr ⟨hnew.1, hnew.2.2, hk⟩
  | skips hother hstill =>
    have hquiet := h.quiet hstill.toQuiet
    have hk : k ∉ s.locked := fun hk => hother ((h.locked k).mp hk)
    refine ⟨fun k' => ?_, fun k' => ?_, fun k' hk' => Or.inl (hquiet.released k' hk')⟩
    · rw [← hquiet.locked]
      exact and_iff_left_of_imp fun hk' heq => hk (heq ▸ hk')
    · rw [← hquiet.forwarded]
      exact or_iff_left fun hx => hk hx.2.2

/-- `TxnBegin` -/
theorem Rel.begin (h : Rel c t s) (hcall : c.calls t = some call) (hphase : call.phase = .begin)
    (hquiet : Quiet c c') (hrecords : SetsRecord c c' call.coordShard t (some .pending)) :
    ∃ s', PresumedAbort.Step careful s s' ∧
      Rel (c'.setCall t { call with phase := Fleet.afterYes call.refs }) t s' := by
  have hidle : s.stage = .idle := by
    rw [h.stage, Fleet.stage_of_calls hcall, Call.stage, hphase]
  refine ⟨_, .begin {k | k ∈ keysOf call.refs} hidle, ?_⟩
  refine rel_setCall (h.quiet hquiet) (h.knows_same hquiet.toSameControl) ?_ ?_
    (fun _ _ => Iff.rfl) (fun rest hrest k hk => Or.inr ?_)
  · cases hrefs : call.refs <;> rfl
  · rw [hrecords.self]
    rfl
  · rw [pending_afterYes] at hrest
    rw [← some.inj hrest]
    exact hk

theorem Rel.preparing (h : Rel c t s) (hcall : c.calls t = some call)
    (hphase : (∃ rest, call.phase = .prepare rest) ∨ ∃ b l, call.phase = .decide b l) :
    s.stage = .preparing ∧ call.phase.Active := by
  rw [h.stage, Fleet.stage_of_calls hcall, Call.stage]
  rcases hphase with ⟨rest, hphase⟩ | ⟨b, l, hphase⟩
  · rw [hphase]
    exact ⟨rfl, nofun, nofun⟩
  · rw [hphase]
    exact ⟨rfl, nofun, nofun⟩

theorem Rel.yes {m : Mapping} {hlc : Nat} (h : Rel c t s) (hwf : Wf route c)
    (hcall : c.calls t = some call) (hphase : call.phase = .prepare ((shard, m) :: rest))
    (hrecords : SameRecords c c')
    (htakes : Takes c c' (shard, m.name) ⟨t, call.coordShard, m.target, hlc⟩ m.expected) :
    ∃ s', PresumedAbort.Step careful s s' ∧
      Rel (c'.setCall t { call with phase := Fleet.afterYes rest }) t s' := by
  obtain ⟨hstage, hactive⟩ := h.preparing hcall (Or.inl ⟨_, hphase⟩)
  have hpending : call.phase.pending = some ((shard, m) :: rest) := by
    rw [hphase]
    rfl
  have hmem : (shard, m) ∈ call.refs :=
    hwf.pending t call _ hcall hpending (shard, m) mem_cons_self
  have hkey : (shard, m.name) ∈ s.keys :=
    (h.keys call hcall hactive _).mpr (List.mem_map_of_mem hmem)
  refine ⟨_, .lock hstage hkey, ?_⟩
  refine rel_setCall ⟨fun k => ?_, fun k => (h.forwarded k).trans (htakes.forwarded t k).symm,
    fun k hk => h.released k ((htakes.released t k).mp hk)⟩ (h.knows_same htakes.toSameControl) ?_
      ?_ (fun _ => h.keys call hcall hactive) (fun rest' hrest k hk => ?_)
  · rw [Fleet.holder, htakes.lockAt]
    split_ifs with hk
    · exact iff_of_true (Or.inl hk) rfl
    · exact (or_iff_right hk).trans (h.locked k)
  · rw [hstage]
    cases rest <;> rfl
  · rw [h.record, Fleet.record_of_calls hcall, hrecords]
  · rw [pending_afterYes] at hrest
    rw [← some.inj hrest]
    rcases h.voted call _ hcall hpending k hk with hvoted | hwaiting
    · exact Or.inl (Or.inr hvoted)
    · exact (mem_cons.mp hwaiting).imp Or.inl id

theorem Rel.no (h : Rel c t s) (hcall : c.calls t = some call) (hphase : call.phase = .prepare rest)
    (hrecords : SameRecords c c') (hquiet : Quiet c c') :
    Rel (c'.setCall t { call with phase := .decide false conflicts }) t s := by
  obtain ⟨hstage, hactive⟩ := h.preparing hcall (Or.inl ⟨_, hphase⟩)
  refine rel_setCall (h.quiet hquiet) (h.knows_same hquiet.toSameControl) hstage ?_
    (fun _ => h.keys call hcall hactive) nofun
  rw [h.record, Fleet.record_of_calls hcall, hrecords]

/-- `TxnDecide`, the commit point -/
theorem Rel.decide {d : TxnDecision} (h : Rel c t s) (hcall : c.calls t = some call)
    (hphase : call.phase = .decide allYes conflicts) (hquiet : Quiet c c')
    (hrecords : SetsRecord c c' call.coordShard t (some d))
    (hverdict : toVerdict d = PresumedAbort.verdict
      ((c.txnDecision call.coordShard t).map toVerdict) allYes) :
    ∃ s', PresumedAbort.Step careful s s' ∧ Rel (c'.setCall t { call with
      phase := .sweep (d = .commit) allYes conflicts call.refs [] }) t s' := by
  obtain ⟨hstage, hactive⟩ := h.preparing hcall (Or.inr ⟨_, _, hphase⟩)
  have hkeys := h.keys call hcall hactive
  rw [← Fleet.record_of_calls hcall, ← h.record] at hverdict
  have hvoted : allYes = true → s.keys ⊆ s.voted := by
    intro hyes k hk
    have hpending : call.phase.pending = some [] := by
      rw [hphase, hyes]
      rfl
    exact (h.voted call [] hcall hpending k ((hkeys k).mp hk)).resolve_right fun hmem => by
      cases hmem
  refine ⟨_, .decide allYes (keysOf call.refs) hstage hvoted fun k hk => (hkeys k).mp hk, ?_⟩
  refine rel_setCall (h.quiet hquiet) (h.knows_same hquiet.toSameControl) ?_ ?_ (fun _ => hkeys)
    nofun
  · show Stage.sweeping _ _ = Stage.sweeping _ _
    rw [← hverdict]
    simp only [toVerdict_eq_commit]
  · rw [hrecords.self, ← hverdict]
    rfl

theorem Rel.sweeping (h : Rel c t s) (hcall : c.calls t = some call)
    (hphase : call.phase = .sweep commit allYes conflicts rest committed) :
    s.stage = .sweeping commit (keysOf rest) ∧ call.phase.Active := by
  rw [h.stage, Fleet.stage_of_calls hcall, Call.stage, hphase]
  exact ⟨rfl, nofun, nofun⟩

theorem Rel.sweep {m : Mapping} {committed' : List (RefName × RefEntry)} (h : Rel c t s)
    (hcall : c.calls t = some call)
    (hphase : call.phase = .sweep commit allYes conflicts ((shard, m) :: rest) committed)
    (hrecords : SameRecords c c') (hresolves : Resolves c c' (shard, m.name) t commit) :
    ∃ s', PresumedAbort.Step careful s s' ∧ Rel (c'.setCall t { call with
      phase := .sweep commit allYes conflicts rest committed' }) t s' := by
  obtain ⟨hstage, hactive⟩ := h.sweeping hcall hphase
  refine ⟨_, .sweep hstage, ?_⟩
  refine rel_setCall (h.resolve hresolves) (h.knows_same hresolves.sameControl) rfl ?_
    (fun _ => h.keys call hcall hactive) nofun
  rw [hrecords, ← Fleet.record_of_calls hcall]
  exact h.record

/-- `TxnEnd` of the coordinator -/
theorem Rel.finish (h : Rel c t s) (hcall : c.calls t = some call)
    (hphase : call.phase = .sweep commit allYes conflicts [] committed) (hquiet : Quiet c c')
    (hrecords : SetsRecord c c' call.coordShard t none) :
    ∃ s', PresumedAbort.Step careful s s' ∧ Rel (c'.setCall t { call with
      phase := .returned (Fleet.result commit allYes conflicts committed) }) t s' := by
  obtain ⟨hstage, hactive⟩ := h.sweeping hcall hphase
  refine ⟨_, .finish hstage, ?_⟩
  refine rel_setCall (h.quiet hquiet) (h.knows_same hquiet.toSameControl) ?_ ?_
    (fun _ => h.keys call hcall hactive) nofun
  · show Stage.finished commit = Stage.finished _
    rw [isCommitted_result]
  · rw [hrecords.self]
    rfl

theorem Rel.crash (h : Rel c t s) (hcall : c.calls t = some call) :
    ∃ s', PresumedAbort.Step careful s s' ∧ Rel (c.setCall t { call with phase := .failed }) t
      s' := by
  refine ⟨_, .stop, ?_⟩
  refine rel_setCall h.tracks h.knows rfl ?_
    (fun hactive => absurd rfl hactive.2) nofun
  rw [← Fleet.record_of_calls hcall]
  exact h.record

theorem Rel.submit (h : Rel c t s) (hwf : Wf route c) (hnew : c.calls t = none)
    (hphase : call.phase = .begin) : Rel (c.setCall t call) t s := by
  refine rel_setCall h.tracks h.knows ?_ ?_
    (fun hactive => absurd hphase hactive.1) (fun rest hrest => ?_)
  · rw [h.stage, Fleet.stage, hnew, Call.stage, hphase]
    rfl
  · -- nobody has written a record for a call that has not been made
    have hnone : c.txnDecision call.coordShard t = none := by
      by_contra hsome
      obtain ⟨_, call', hcall', -⟩ := hwf.records _ _ hsome
      rw [hnew] at hcall'
      cases hcall'
    rw [h.record, Fleet.record, hnew, hnone]
    rfl
  · rw [hphase] at hrest
    cases hrest

theorem Rel.read {rest : List LockItem} (h : Rel c t s) (hwf : Wf route c)
    (hpass : c.passes i = .resolve (item :: rest) toGc) (hitem : item.intent.txnId = t)
    (hdecision : c.txnDecision item.intent.coordShard t =
      some (if commit then .commit else .abort)) :
    ∃ s', PresumedAbort.Step careful s s' ∧
      Rel (c.setPass i (.act item commit rest toGc)) t s' := by
  have hhome := hwf.items i item (by rw [hpass]; exact mem_cons_self)
  rw [hitem] at hhome
  have hrecord : s.record = some (if commit then .commit else .abort) := by
    rw [h.record, hhome.record, hdecision]
    cases commit <;> rfl
  refine ⟨_, .read, { h with knows := ?_ }⟩
  refine (h.knows.mono Or.inl Or.inl).setPass (fun item' commit' hacting _ => ?_)
    (fun shard hmem => Or.inl (h.knows.toGc i shard (by rw [hpass]; exact hmem)))
  cases hacting
  cases commit with
  | true | false => exact Or.inr hrecord

theorem Rel.presume {rest : List LockItem} {d : TxnDecision} (h : Rel c t s) (hwf : Wf route c)
    (hpass : c.passes i = .presume item rest toGc) (hitem : item.intent.txnId = t)
    (hquiet : Quiet c c') (hrecords : SetsRecord c c' item.intent.coordShard t (some d))
    (hverdict : toVerdict d = PresumedAbort.verdict
      ((c.txnDecision item.intent.coordShard t).map toVerdict) false) :
    ∃ s', PresumedAbort.Step careful s s' ∧
      Rel (c'.setPass i (.act item (d = .commit) rest toGc)) t s' := by
  have hhome := hwf.items i item (by rw [hpass]; exact mem_cons_self)
  rw [hitem] at hhome
  have hidle : s.stage ≠ .idle := h.stage ▸ hhome.stage_ne_idle
  rw [← hhome.record, ← h.record] at hverdict
  refine ⟨_, .presume hidle, ?_⟩
  refine rel_setPass h hquiet.toSameControl rfl rfl rfl ?_ (h.quiet hquiet) ?_
  · rw [hrecords.record hquiet.calls hhome]
    exact congrArg some hverdict.symm
  · refine (h.knows.mono Or.inl Or.inl).setPass (fun item' commit' hacting _ => ?_)
      (fun shard hmem => Or.inl (h.knows.toGc i shard (by rw [hpass]; exact hmem)))
    cases hacting
    rw [← hverdict]
    cases d with
    | commit | abort => exact Or.inr rfl
    | pending => exact absurd hverdict.symm (PresumedAbort.verdict_ne_pending _ _)

theorem Rel.act {rest : List LockItem} (h : Rel c t s)
    (hpass : c.passes i = .act item commit rest toGc) (hitem : item.intent.txnId = t)
    (hrecords : SameRecords c c') (hresolves : Resolves c c' k t commit) :
    ∃ s', PresumedAbort.Step careful s s' ∧ Rel (c'.setPass i (.resolve rest
      (if commit then gcInsert (item.intent.txnId, item.intent.coordShard) toGc else toGc))) t
        s' := by
  have hsame := hresolves.sameControl
  have hmay := h.knows.acting i item commit (by rw [hpass]; rfl) hitem
  refine ⟨s.resolve k commit, .resolve hmay, ?_⟩
  refine rel_setPass h hsame rfl rfl rfl ?_ (h.resolve hresolves) ?_
  · rw [hrecords.record hsame.calls]
    exact h.record
  · refine h.knows.setPass nofun (fun shard hmem => ?_)
    have hold : (t, shard) ∈ toGc → s.mayCommit := fun hmem =>
      h.knows.toGc i shard (by rw [hpass]; exact hmem)
    cases commit with
    | false => exact hold hmem
    | true => exact (mem_gcInsert.mp hmem).elim (fun _ => hmay) hold

theorem Rel.collect {rest : List (TxnId × ShardId)} (h : Rel c t s) (hwf : Wf route c)
    (hpass : c.passes i = .collect ((t, shard) :: rest))
    (hfree : careful → ∀ k, c.holder k ≠ some t) (hquiet : Quiet c c')
    (hrecords : SetsRecord c c' shard t none) :
    ∃ s', PresumedAbort.Step careful s s' ∧ Rel (c'.setPass i (.collect rest)) t s' := by
  have hmem : (t, shard) ∈ (c.passes i).toGc := by
    rw [hpass]
    exact mem_cons_self
  have hempty : careful → s.locked = ∅ := fun hcareful =>
    Set.eq_empty_iff_forall_notMem.mpr fun k hk => hfree hcareful k ((h.locked k).mp hk)
  refine ⟨_, .collect (h.knows.toGc i shard hmem) hempty, ?_⟩
  refine rel_setPass h hquiet.toSameControl rfl rfl rfl ?_ (h.quiet hquiet) ?_
  · rw [hrecords.record hquiet.calls (hwf.toGc i _ hmem)]
    rfl
  · refine h.knows.setPass nofun
      (fun shard' hmem' => h.knows.toGc i shard' ?_)
    rw [hpass]
    exact mem_cons_of_mem _ hmem'

theorem Rel.overwrite (h : Rel c t s) (hfree : careful → c.holder k = none)
    (hrecords : SameRecords c c') (hover : Overwrites c c' k) :
    ∃ s', (s' = s ∨ PresumedAbort.Step careful s s') ∧ Rel c' t s' := by
  have hholder : ∀ k', c'.holder k' = some t ↔ c.holder k' = some t ∧ k' ≠ k := by
    intro k'
    rw [Fleet.holder, hover.lockAt]
    split_ifs with heq
    · exact iff_of_false nofun fun hboth => hboth.2 heq
    · exact (and_iff_left heq).symm
  by_cases hk : c.holder k = some t
  · have hcareless : ¬ careful := by
      intro hcareful
      rw [hfree hcareful] at hk
      cases hk
    refine ⟨_, Or.inr (.seize k hcareless), ?_⟩
    exact {
      stage := by
        rw [Fleet.stage, hover.calls]
        exact h.stage
      record := by
        rw [hrecords.record hover.calls]
        exact h.record
      locked := fun k' => (and_congr_left' (h.locked k')).trans (hholder k').symm
      keys := fun call hcall => h.keys call (hover.calls ▸ hcall)
      voted := fun call rest hcall => h.voted call rest (hover.calls ▸ hcall)
      forwarded := fun k' => (h.forwarded k').trans (hover.forwarded t k').symm
      released := fun k' hk' => (hover.released t k' hk').elim
        (fun hold => Or.inr (h.released k' hold)) (fun hnew => Or.inl hnew.1)
      knows := h.knows_same hover.toSameControl }
  · refine ⟨s, Or.inl rfl, h.frame ?_ (by rw [hover.calls]) (h.knows_same hover.toSameControl)⟩
    exact {
      txnDecision := fun shard => hrecords shard t
      holder := fun k' => (hholder k').trans (and_iff_left_of_imp fun hk' heq => hk (heq ▸ hk'))
      forwarded := hover.forwarded t
      released := fun k' hk' =>
        (hover.released t k' hk').resolve_right fun hnew => hk hnew.2 }

theorem Rel.other_call {u : TxnId} (h : Rel c t s) (hne : t ≠ u) (hcontrol : SameControl c c')
    (hsame : SameFor t c c') : Rel (c'.setCall u call) t s := by
  have hcalls : (c'.setCall u call).calls t = c.calls t := by
    rw [Fleet.calls_setCall, if_neg hne, hcontrol.calls]
  have hknows : Knows c'.passes t s.mayCommit s.mayAbort := h.knows_same hcontrol
  exact h.frame ⟨hsame.txnDecision, hsame.holder, hsame.forwarded, hsame.released⟩ hcalls hknows

theorem Rel.other_pass {p : Pass} (h : Rel c t s) (hcontrol : SameControl c c')
    (hsame : SameFor t c c')
    (hacting : ∀ item commit, p.acting = some (item, commit) → item.intent.txnId ≠ t)
    (htoGc : ∀ shard, (t, shard) ∈ p.toGc → (t, shard) ∈ (c.passes i).toGc) :
    Rel (c'.setPass i p) t s := by
  refine h.frame ⟨hsame.txnDecision, hsame.holder, hsame.forwarded, hsame.released⟩
    (by rw [← hcontrol.calls]; rfl) ?_
  exact (h.knows_same hcontrol).setPass
    (fun item commit hact howner => absurd howner (hacting item commit hact))
    (fun shard hmem => h.knows.toGc i shard (htoGc shard hmem))

theorem Rel.addReturn (h : Rel c t s) (mappings : List Mapping) (result : AtomicCommitResult) :
    Rel (c.addReturn mappings result) t s :=
  ⟨h.stage, h.record, h.locked, h.keys, h.voted, h.forwarded, h.released, h.knows⟩

theorem sameFor_refl (t : TxnId) (c : Fleet) : SameFor t c c :=
  ⟨fun _ => rfl, fun _ => Iff.rfl, fun _ => Iff.rfl, fun _ => id⟩

/-- **Simulation**: a step of the fleet is a step of the protocol, or none. -/
theorem Rel.effect (h : Rel c t s) (hwf : Wf route c) (hcareful : careful → c.Careful route m)
    (heffect : Effect route c m c') :
    ∃ s', (s' = s ∨ PresumedAbort.Step careful s s') ∧ Rel c' t s' := by
  -- a step of the protocol, or a step that does not concern `t`
  have hstep : ∀ {c'}, (∃ s', PresumedAbort.Step careful s s' ∧ Rel c' t s') →
      ∃ s', (s' = s ∨ PresumedAbort.Step careful s s') ∧ Rel c' t s' :=
    fun ⟨s', hs', hrel⟩ => ⟨s', Or.inr hs', hrel⟩
  have hstutter : ∀ {c'}, Rel c' t s →
      ∃ s', (s' = s ∨ PresumedAbort.Step careful s s') ∧ Rel c' t s' :=
    fun hrel => ⟨s, Or.inl rfl, hrel⟩
  have hsame : ∀ {c'}, Quiet c c' → SameRecords c c' → SameFor t c c' := fun hquiet hrecords =>
    hquiet.sameFor fun shard => hrecords shard t
  have hcontrol := (quiet_refl c).toSameControl
  cases heffect with
  | single hquiet hrecords hmoved =>
    refine hstutter (Rel.addReturn ?_ _ _)
    exact h.frame (hsame hquiet hrecords) (by rw [hquiet.calls]) (h.knows_same hquiet.toSameControl)
  | @submit u _ _ call hnew hrouted hphase =>
    by_cases hut : t = u
    · subst hut
      exact hstutter (h.submit hwf hnew hphase)
    · exact hstutter (h.other_call hut hcontrol (sameFor_refl t c))
  | @begin u _ call _ hcall hphase hquiet hrecords =>
    by_cases hut : t = u
    · subst hut
      exact hstep (h.begin hcall hphase hquiet hrecords)
    · exact hstutter (h.other_call hut hquiet.toSameControl (hquiet.sameFor (hrecords.other hut)))
  | @yes u _ call _ shard m rest hcall hphase hrecords htakes =>
    by_cases hut : t = u
    · subst hut
      exact hstep (h.yes hwf hcall hphase hrecords htakes)
    · exact hstutter (h.other_call hut htakes.toSameControl (htakes.sameFor hrecords hut))
  | @no u _ call _ shard m rest hcall hphase hrecords hquiet =>
    by_cases hut : t = u
    · subst hut
      exact hstutter (h.no hcall hphase hrecords hquiet)
    · exact hstutter (h.other_call hut hquiet.toSameControl (hsame hquiet hrecords))
  | @decide u _ call _ allYes conflicts d hcall hphase hquiet hrecords hverdict =>
    by_cases hut : t = u
    · subst hut
      exact hstep (h.decide hcall hphase hquiet hrecords hverdict)
    · exact hstutter (h.other_call hut hquiet.toSameControl (hquiet.sameFor (hrecords.other hut)))
  | @sweep u _ call _ _ _ _ _ _ _ _ _ hcall hphase hrecords hresolves =>
    by_cases hut : t = u
    · subst hut
      exact hstep (h.sweep hcall hphase hrecords hresolves)
    · exact hstutter (h.other_call hut hresolves.sameControl (hresolves.sameFor hrecords hut))
  | @finish u _ call _ _ _ _ _ hcall hphase hquiet hrecords =>
    by_cases hut : t = u
    · subst hut
      obtain ⟨s', hs', hrel⟩ := h.finish hcall hphase hquiet hrecords
      exact hstep ⟨s', hs', hrel.addReturn _ _⟩
    · refine hstutter (Rel.addReturn ?_ _ _)
      exact h.other_call hut hquiet.toSameControl (hquiet.sameFor (hrecords.other hut))
  | @crash u call hcall hphase =>
    by_cases hut : t = u
    · subst hut
      exact hstep (h.crash hcall)
    · exact hstutter (h.other_call hut hcontrol (sameFor_refl t c))
  | plan hitems htoGc hacting =>
    refine hstutter (h.other_pass hcontrol (sameFor_refl t c) (fun item commit hact => ?_)
      (fun shard hmem => htoGc _ hmem))
    rw [hacting] at hact
    cases hact
  | @read i _ item commit rest toGc hpass hdecision =>
    by_cases hitem : item.intent.txnId = t
    · rw [hitem] at hdecision
      exact hstep (h.read hwf hpass hitem hdecision)
    · refine hstutter (h.other_pass hcontrol (sameFor_refl t c) (fun item' commit' hact => ?_)
        (fun shard hmem => by rw [hpass]; exact hmem))
      cases hact
      exact hitem
  | @presume i _ item rest toGc _ d hpass hquiet hrecords hverdict =>
    by_cases hitem : item.intent.txnId = t
    · rw [hitem] at hrecords hverdict
      exact hstep (h.presume hwf hpass hitem hquiet hrecords hverdict)
    · refine hstutter (h.other_pass hquiet.toSameControl
        (hquiet.sameFor (hrecords.other (Ne.symm hitem))) (fun item' commit' hact => ?_)
        (fun shard hmem => by rw [hpass]; exact hmem))
      cases hact
      exact hitem
  | @act i _ item commit rest toGc _ n hpass hrecords hresolves =>
    by_cases hitem : item.intent.txnId = t
    · rw [hitem] at hresolves
      exact hstep (h.act hpass hitem hrecords hresolves)
    · refine hstutter (h.other_pass hresolves.sameControl
        (hresolves.sameFor hrecords (Ne.symm hitem)) nofun
        (fun shard hmem => ?_))
      rw [hpass]
      cases commit with
      | false => exact hmem
      | true =>
        refine (mem_gcInsert.mp hmem).resolve_left fun heq => ?_
        exact hitem (Prod.mk.inj heq).1.symm
  | @collect i stale u shard rest _ hpass hquiet hrecords =>
    by_cases hut : t = u
    · subst hut
      refine hstep (h.collect hwf hpass (fun hc => ?_) hquiet hrecords)
      exact (hcareful hc).collects i stale t shard rest rfl hpass
    · refine hstutter (h.other_pass hquiet.toSameControl (hquiet.sameFor (hrecords.other hut))
        nofun (fun shard' hmem => ?_))
      rw [hpass]
      exact mem_cons_of_mem _ hmem
  | write hwritten hrecords hwrites =>
    rcases hwrites with hquiet | hover
    · exact hstutter (h.frame (hsame hquiet hrecords) (by rw [hquiet.calls])
        (h.knows_same hquiet.toSameControl))
    · exact h.overwrite (fun hc => (hcareful hc).writes _ hwritten) hrecords hover

/-- Every state that a run reaches is related to a state of the protocol that keeps the
protocol's invariants. -/
theorem Run.simulates (h : Run route careful c) (t : TxnId) :
    ∃ s, Rel c t s ∧ PresumedAbort.Honest s ∧ (careful → PresumedAbort.Inv s) := by
  induction h with
  | start h =>
    exact ⟨_, rel_initial h t, PresumedAbort.honest_initial, fun _ => PresumedAbort.inv_initial⟩
  | step hrun hcareful hstep ih =>
    obtain ⟨s, hrel, hhonest, hinv⟩ := ih
    obtain ⟨s', rfl | hs', hrel'⟩ := hrel.effect hrun.wf hcareful (Fleet.step_effect hstep)
    · exact ⟨s', hrel', hhonest, hinv⟩
    · exact ⟨s', hrel', PresumedAbort.honest_step hs' hhonest,
        fun hc => PresumedAbort.inv_step hs' hc (hinv hc)⟩

end Simulation

end Ledge.Cluster
