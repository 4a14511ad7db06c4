import Ledge.Cluster.Step

/-!
# Ledge.Cluster.Run

Runs of the fleet, and what holds in all of them: locks, passes and records belong to calls
that have begun, under the shard that coordinates the call (`Wf`).

A run is *careful* if plain writes leave locked refs alone and the resolver drops the record
of a transaction only when none of its locks is left, on any shard. The source does neither:
`RefUpdate` and `RefDelete` do not look at locks, and a pass drops the record of a commit as
soon as it has rolled forward the locks that it has seen itself.
-/

namespace Ledge.Cluster

open Ledge.Core Ledge.RefStore Ledge.Raft Ledge.Lib

/-! ### Runs -/

/-- A plain write does not hit a lock, and a pass does not drop the record of a transaction
that has a lock. -/
structure Fleet.Careful (route : RefName → ShardId) (c : Fleet) (m : Move) : Prop where
  writes : ∀ k, m.written route = some k → c.holder k = none
  collects : ∀ i stale t shard rest, m = .pass i stale →
    c.passes i = .collect ((t, shard) :: rest) → ∀ k, c.holder k ≠ some t

/-- The states that calls, passes and plain writes can reach in any order, `careful` or
not. -/
inductive Run (route : RefName → ShardId) (careful : Prop) : Fleet → Prop
  | start {c : Fleet} (h : c.Fresh) : Run route careful c
  | step {c c' : Fleet} {m : Move} (h : Run route careful c)
      (hcareful : careful → c.Careful route m) (hstep : c.step route m = some c') :
      Run route careful c'

theorem Fleet.calls_setCall (c : Fleet) (t u : TxnId) (call : Call) :
    (c.setCall t call).calls u = if u = t then some call else c.calls u :=
  Function.update_apply c.calls t (some call) u

/-! ### Calls that have begun -/

/-- A call has begun and is coordinated by `shard`. -/
def Fleet.Home (c : Fleet) (t : TxnId) (shard : ShardId) : Prop :=
  ∃ call, c.calls t = some call ∧ call.phase ≠ .begin ∧ call.coordShard = shard

/-- The refs that a call has yet to prepare, all votes so far being yes. -/
def Phase.pending : Phase → Option (List (ShardId × Mapping))
  | .prepare rest => some rest
  | .decide true _ => some []
  | .begin | .decide false _ | .sweep .. | .returned _ | .failed => none

theorem pending_afterYes (rest : List (ShardId × Mapping)) :
    (Fleet.afterYes rest).pending = some rest := by
  cases rest <;> rfl

theorem afterYes_ne_begin (rest : List (ShardId × Mapping)) : Fleet.afterYes rest ≠ .begin := by
  cases rest <;> exact nofun

/-- A call goes on. -/
structure Call.Continues (call call' : Call) : Prop where
  mappings : call'.mappings = call.mappings
  coordShard : call'.coordShard = call.coordShard
  refs : call'.refs = call.refs
  begun : call.phase ≠ .begin → call'.phase ≠ .begin
  returned : ∀ r, call.phase = .returned r → call'.phase = .returned r

theorem Call.Continues.refl (call : Call) : call.Continues call :=
  ⟨rfl, rfl, rfl, id, fun _ => id⟩

theorem Call.continues_phase {call : Call} {phase : Phase} (hphase : phase ≠ .begin)
    (hreturned : ∀ r, call.phase ≠ .returned r) :
    call.Continues { call with phase := phase } :=
  ⟨rfl, rfl, rfl, fun _ => hphase, fun r hr => absurd hr (hreturned r)⟩

/-- No call gets lost. -/
def CallsKept (c c' : Fleet) : Prop :=
  ∀ t call, c.calls t = some call → ∃ call', c'.calls t = some call' ∧ call.Continues call'

variable {c c' : Fleet}

theorem callsKept_of_calls (h : c'.calls = c.calls) : CallsKept c c' :=
  fun _ call hcall => ⟨call, by rw [h, hcall], .refl call⟩

theorem callsKept_setCall {t : TxnId} {call' : Call} (h : c'.calls = c.calls)
    (hcall : ∀ call, c.calls t = some call → call.Continues call') :
    CallsKept c (c'.setCall t call') := by
  intro u call hu
  rw [Fleet.calls_setCall]
  split_ifs with hut
  · exact ⟨call', rfl, hcall call (hut ▸ hu)⟩
  · exact ⟨call, by rw [h, hu], .refl call⟩

theorem Fleet.Home.kept {t : TxnId} {shard : ShardId} (h : c.Home t shard)
    (hkept : CallsKept c c') : c'.Home t shard := by
  obtain ⟨call, hcall, hbegun, rfl⟩ := h
  obtain ⟨call', hcall', hcontinues⟩ := hkept t call hcall
  exact ⟨call', hcall', hcontinues.begun hbegun, hcontinues.coordShard⟩

/-- Locks, passes and records belong to calls that have begun. -/
structure Wf (route : RefName → ShardId) (c : Fleet) : Prop where
  locks : ∀ k p, c.lockAt k = some p → c.Home p.txnId p.coordShard
  items : ∀ i, ∀ x ∈ (c.passes i).items, c.Home x.intent.txnId x.intent.coordShard
  toGc : ∀ i, ∀ x ∈ (c.passes i).toGc, c.Home x.1 x.2
  records : ∀ shard t, c.txnDecision shard t ≠ none → ∃ home, c.Home t home
  routed : ∀ t call, c.calls t = some call → call.Routed route
  pending : ∀ t call rest, c.calls t = some call → call.phase.pending = some rest →
    ∀ x ∈ rest, x ∈ call.refs

section Wf

variable {route : RefName → ShardId} {c c' : Fleet} {m : Move}

theorem wf_of_fresh (h : c.Fresh) : Wf route c where
  locks k p hp := by
    rw [Fleet.lockAt, h.unlocked] at hp
    cases hp
  items i x hx := by
    rw [h.passes] at hx
    cases hx
  toGc i x hx := by
    rw [h.passes] at hx
    cases hx
  records shard t ht := by
    rw [Fleet.txnDecision, h.records] at ht
    exact absurd rfl ht
  routed t call hcall := by
    rw [h.calls] at hcall
    cases hcall
  pending t call rest hcall := by
    rw [h.calls] at hcall
    cases hcall

/-- What a step may add: locks and records of calls that have begun. -/
theorem Wf.next (h : Wf route c) (hkept : CallsKept c c')
    (hlocks : ∀ k p, c'.lockAt k = some p →
      (∃ k', c.lockAt k' = some p) ∨ c'.Home p.txnId p.coordShard)
    (hitems : ∀ i, ∀ x ∈ (c'.passes i).items,
      (∃ j, x ∈ (c.passes j).items) ∨ ∃ k, c.lockAt k = some x.intent)
    (htoGc : ∀ i, ∀ x ∈ (c'.passes i).toGc, (∃ j, x ∈ (c.passes j).toGc) ∨
      ∃ j, ∃ y ∈ (c.passes j).items, x = (y.intent.txnId, y.intent.coordShard))
    (hrecords : ∀ shard t, c'.txnDecision shard t ≠ none →
      c.txnDecision shard t ≠ none ∨ ∃ home, c'.Home t home)
    (hcalls : ∀ t call, c'.calls t = some call → call.Routed route ∧
      ∀ rest, call.phase.pending = some rest → ∀ x ∈ rest, x ∈ call.refs) : Wf route c' where
  locks k p hp := by
    rcases hlocks k p hp with ⟨k', hk'⟩ | hhome
    · exact (h.locks k' p hk').kept hkept
    · exact hhome
  items i x hx := by
    rcases hitems i x hx with ⟨j, hj⟩ | ⟨k, hk⟩
    · exact (h.items j x hj).kept hkept
    · exact (h.locks k _ hk).kept hkept
  toGc i x hx := by
    rcases htoGc i x hx with ⟨j, hj⟩ | ⟨j, y, hy, rfl⟩
    · exact (h.toGc j x hj).kept hkept
    · exact (h.items j y hy).kept hkept
  records shard t ht := by
    rcases hrecords shard t ht with hold | hhome
    · obtain ⟨home, hhome⟩ := h.records shard t hold
      exact ⟨home, hhome.kept hkept⟩
    · exact hhome
  routed t call hcall := (hcalls t call hcall).1
  pending t call rest hcall := (hcalls t call hcall).2 rest

variable {t : TxnId} {commit : Bool}

/-- A step of the call of `t`. -/
theorem Wf.setCall {call : Call} {phase : Phase} (h : Wf route c) (hsame : SameControl c c')
    (hcall : c.calls t = some call) (hphase : phase ≠ .begin)
    (hreturned : ∀ r, call.phase ≠ .returned r)
    (hpending : ∀ rest, phase.pending = some rest → ∀ x ∈ rest, x ∈ call.refs)
    (hlocks : ∀ k p, c'.lockAt k = some p →
      (∃ k', c.lockAt k' = some p) ∨ p.txnId = t ∧ p.coordShard = call.coordShard)
    (hrecords : ∀ shard u, c'.txnDecision shard u ≠ none → c.txnDecision shard u ≠ none ∨ u = t) :
    Wf route (c'.setCall t { call with phase := phase }) := by
  have hhome : (c'.setCall t { call with phase := phase }).Home t call.coordShard :=
    ⟨{ call with phase := phase }, (Fleet.calls_setCall ..).trans (if_pos rfl), hphase, rfl⟩
  refine h.next (callsKept_setCall hsame.calls fun call' hcall' => ?_) (fun k p hp => ?_)
    (fun i x hx => Or.inl ⟨i, ?_⟩) (fun i x hx => Or.inl ⟨i, ?_⟩) (fun shard u hu => ?_)
    (fun u call' hcall' => ?_)
  · rw [hcall] at hcall'
    cases hcall'
    exact Call.continues_phase hphase hreturned
  · refine (hlocks k p hp).imp id fun hown => ?_
    rw [hown.1, hown.2]
    exact hhome
  · rw [← hsame.passes]
    exact hx
  · rw [← hsame.passes]
    exact hx
  · refine (hrecords shard u hu).imp id fun hut => ?_
    rw [hut]
    exact ⟨call.coordShard, hhome⟩
  · rw [Fleet.calls_setCall] at hcall'
    split_ifs at hcall' with hut
    · cases hcall'
      exact ⟨h.routed t call hcall, hpending⟩
    · rw [hsame.calls] at hcall'
      exact ⟨h.routed u call' hcall', fun rest => h.pending u call' rest hcall'⟩

theorem Wf.setPass {i : Nat} {p : Pass} (h : Wf route c) (hsame : SameControl c c')
    (hlocks : ∀ k p, c'.lockAt k = some p → ∃ k', c.lockAt k' = some p)
    (hitems : ∀ x ∈ p.items, (∃ j, x ∈ (c.passes j).items) ∨ ∃ k, c.lockAt k = some x.intent)
    (htoGc : ∀ x ∈ p.toGc, (∃ j, x ∈ (c.passes j).toGc) ∨
      ∃ j, ∃ y ∈ (c.passes j).items, x = (y.intent.txnId, y.intent.coordShard))
    (hrecords : ∀ shard t, c'.txnDecision shard t ≠ none →
      c.txnDecision shard t ≠ none ∨ ∃ home, c.Home t home) : Wf route (c'.setPass i p) := by
  have hkept : CallsKept c (c'.setPass i p) := callsKept_of_calls hsame.calls
  have hpasses : ∀ j, (c'.setPass i p).passes j = if j = i then p else c.passes j := by
    intro j
    rw [← hsame.passes]
    exact Function.update_apply ..
  refine h.next hkept (fun k q hq => Or.inl (hlocks k q hq)) (fun j x hx => ?_)
    (fun j x hx => ?_) (fun shard t ht => ?_) (fun t call hcall => ?_)
  · rw [hpasses] at hx
    split_ifs at hx
    · exact hitems x hx
    · exact Or.inl ⟨j, hx⟩
  · rw [hpasses] at hx
    split_ifs at hx
    · exact htoGc x hx
    · exact Or.inl ⟨j, hx⟩
  · exact (hrecords shard t ht).imp id fun ⟨home, hhome⟩ => ⟨home, hhome.kept hkept⟩
  · have hold : c.calls t = some call := by
      rw [← hsame.calls]
      exact hcall
    exact ⟨h.routed t call hold, fun rest => h.pending t call rest hold⟩

theorem Wf.same (h : Wf route c) (hsame : SameControl c c')
    (hlocks : ∀ k p, c'.lockAt k = some p → ∃ k', c.lockAt k' = some p)
    (hrecords : SameRecords c c') : Wf route c' := by
  refine h.next (callsKept_of_calls hsame.calls) (fun k p hp => Or.inl (hlocks k p hp))
    (fun i x hx => Or.inl ⟨i, hsame.passes ▸ hx⟩) (fun i x hx => Or.inl ⟨i, hsame.passes ▸ hx⟩)
    (fun shard t ht => Or.inl (hrecords shard t ▸ ht)) (fun t call hcall => ?_)
  rw [hsame.calls] at hcall
  exact ⟨h.routed t call hcall, fun rest => h.pending t call rest hcall⟩

theorem Wf.addReturn (h : Wf route c) (mappings : List Mapping) (result : AtomicCommitResult) :
    Wf route (c.addReturn mappings result) :=
  ⟨h.locks, h.items, h.toGc, h.records, h.routed, h.pending⟩

theorem Quiet.locks (h : Quiet c c') (k : Key) (p : PreparedIntent) (hp : c'.lockAt k = some p) :
    ∃ k', c.lockAt k' = some p :=
  ⟨k, h.lockAt k ▸ hp⟩

theorem Resolves.sameControl {k : Key} (h : Resolves c c' k t commit) : SameControl c c' := by
  cases h with
  | ends p h | skips _ h => exact h.toSameControl

theorem Resolves.locks {k : Key} (h : Resolves c c' k t commit) (k' : Key) (p : PreparedIntent)
    (hp : c'.lockAt k' = some p) : ∃ k', c.lockAt k' = some p := by
  cases h with
  | ends q h =>
    rw [h.lockAt] at hp
    split_ifs at hp
    exact ⟨k', hp⟩
  | skips _ h => exact h.toQuiet.locks k' p hp

theorem SetsRecord.of_ne {shard : ShardId} {d : Option TxnDecision} (h : SetsRecord c c' shard t d)
    {shard' : ShardId} {u : TxnId} (hu : c'.txnDecision shard' u ≠ none) :
    c.txnDecision shard' u ≠ none ∨ u = t := by
  rw [h] at hu
  split_ifs at hu with hboth
  · exact Or.inr hboth.2
  · exact Or.inl hu

/-- Every step keeps `Wf`. -/
theorem Wf.effect (h : Wf route c) (heffect : Effect route c m c') : Wf route c' := by
  cases heffect with
  | single hquiet hrecords hmoved =>
    exact (h.same hquiet.toSameControl hquiet.locks hrecords).addReturn _ _
  | @submit t _ _ call hnew hrouted hphase =>
    refine h.next (callsKept_setCall rfl fun call' hcall' => ?_)
      (fun k p hp => Or.inl ⟨k, hp⟩) (fun i x hx => Or.inl ⟨i, hx⟩)
      (fun i x hx => Or.inl ⟨i, hx⟩) (fun shard t ht => Or.inl ht) (fun u call' hcall' => ?_)
    · rw [hnew] at hcall'
      cases hcall'
    · rw [Fleet.calls_setCall] at hcall'
      split_ifs at hcall'
      · cases hcall'
        refine ⟨hrouted, fun rest hrest => ?_⟩
        rw [hphase] at hrest
        cases hrest
      · exact ⟨h.routed u call' hcall', fun rest => h.pending u call' rest hcall'⟩
  | @begin t hlc call c' hcall hphase hquiet hrecords =>
    refine h.setCall hquiet.toSameControl hcall (afterYes_ne_begin _)
      (fun r hr => by rw [hphase] at hr; cases hr) (fun rest hrest x hx => ?_)
      (fun k p hp => Or.inl (hquiet.locks k p hp)) (fun shard u hu => hrecords.of_ne hu)
    rw [pending_afterYes] at hrest
    rw [Option.some.inj hrest]
    exact hx
  | @yes t hlc call c' shard m rest hcall hphase hrecords htakes =>
    have hpending := h.pending t call ((shard, m) :: rest) hcall (by rw [hphase]; rfl)
    refine h.setCall htakes.toSameControl hcall (afterYes_ne_begin _)
      (fun r hr => by rw [hphase] at hr; cases hr) (fun rest' hrest x hx => ?_)
      (fun k p hp => ?_) (fun shard u hu => Or.inl (hrecords shard u ▸ hu))
    · rw [pending_afterYes] at hrest
      rw [← Option.some.inj hrest] at hx
      exact hpending x (List.mem_cons_of_mem _ hx)
    · rw [htakes.lockAt] at hp
      split_ifs at hp
      · rw [← Option.some.inj hp]
        exact Or.inr ⟨rfl, rfl⟩
      · exact Or.inl ⟨k, hp⟩
  | no hcall hphase hrecords hquiet =>
    exact h.setCall hquiet.toSameControl hcall nofun
      (fun r hr => by rw [hphase] at hr; cases hr) nofun
      (fun k p hp => Or.inl (hquiet.locks k p hp))
      (fun shard u hu => Or.inl (hrecords shard u ▸ hu))
  | decide hcall hphase hquiet hrecords hverdict =>
    exact h.setCall hquiet.toSameControl hcall nofun
      (fun r hr => by rw [hphase] at hr; cases hr) nofun
      (fun k p hp => Or.inl (hquiet.locks k p hp)) (fun shard u hu => hrecords.of_ne hu)
  | sweep hcall hphase hrecords hresolves =>
    exact h.setCall hresolves.sameControl hcall nofun
      (fun r hr => by rw [hphase] at hr; cases hr) nofun
      (fun k p hp => Or.inl (hresolves.locks k p hp))
      (fun shard u hu => Or.inl (hrecords shard u ▸ hu))
  | finish hcall hphase hquiet hrecords =>
    refine Wf.addReturn ?_ _ _
    exact h.setCall hquiet.toSameControl hcall nofun
      (fun r hr => by rw [hphase] at hr; cases hr) nofun
      (fun k p hp => Or.inl (hquiet.locks k p hp)) (fun shard u hu => hrecords.of_ne hu)
  | crash hcall hphase =>
    exact h.setCall (quiet_refl c).toSameControl hcall nofun hphase
      nofun (fun k p hp => Or.inl ⟨k, hp⟩)
      (fun shard u hu => Or.inl hu)
  | plan hitems htoGc hacting =>
    exact h.setPass (quiet_refl c).toSameControl (fun k p hp => ⟨k, hp⟩)
      (fun x hx => (hitems x hx).imp (fun hold => ⟨_, hold⟩) id)
      (fun x hx => Or.inl ⟨_, htoGc x hx⟩) (fun shard t ht => Or.inl ht)
  | @read i _ _ _ _ _ hpass hdecision =>
    exact h.setPass (quiet_refl c).toSameControl (fun k p hp => ⟨k, hp⟩)
      (fun x hx => Or.inl ⟨i, by rw [hpass]; exact hx⟩)
      (fun x hx => Or.inl ⟨i, by rw [hpass]; exact hx⟩) (fun shard t ht => Or.inl ht)
  | @presume i _ item rest toGc _ _ hpass hquiet hrecords hverdict =>
    have hitem : item ∈ (c.passes i).items := by
      rw [hpass]
      exact List.mem_cons_self
    refine h.setPass hquiet.toSameControl hquiet.locks
      (fun x hx => Or.inl ⟨i, by rw [hpass]; exact hx⟩)
      (fun x hx => Or.inl ⟨i, by rw [hpass]; exact hx⟩) (fun shard t ht => ?_)
    exact (hrecords.of_ne ht).imp id fun heq => ⟨_, heq ▸ h.items i item hitem⟩
  | @act i _ item commit rest toGc _ _ hpass hrecords hresolves =>
    refine h.setPass hresolves.sameControl hresolves.locks
      (fun x hx => Or.inl ⟨i, by rw [hpass]; exact List.mem_cons_of_mem _ hx⟩)
      (fun x hx => ?_) (fun shard t ht => Or.inl (hrecords shard t ▸ ht))
    have hx' : x ∈ if commit then gcInsert (item.intent.txnId, item.intent.coordShard) toGc
        else toGc := hx
    have hold : x ∈ toGc → ∃ j, x ∈ (c.passes j).toGc := fun hmem => ⟨i, by rw [hpass]; exact hmem⟩
    split_ifs at hx'
    · rcases mem_gcInsert.mp hx' with heq | hmem
      · exact Or.inr ⟨i, item, by rw [hpass]; exact List.mem_cons_self, heq⟩
      · exact Or.inl (hold hmem)
    · exact Or.inl (hold hx')
  | @collect i _ t shard rest _ hpass hquiet hrecords =>
    refine h.setPass hquiet.toSameControl hquiet.locks nofun
      (fun x hx => Or.inl ⟨i, by rw [hpass]; exact List.mem_cons_of_mem _ hx⟩)
      (fun shard' u hu => ?_)
    rw [hrecords] at hu
    split_ifs at hu
    · exact absurd rfl hu
    · exact Or.inl hu
  | write hwritten hrecords hwrites =>
    rcases hwrites with hquiet | hover
    · exact h.same hquiet.toSameControl hquiet.locks hrecords
    · refine h.same hover.toSameControl (fun k p hp => ?_) hrecords
      rw [hover.lockAt] at hp
      split_ifs at hp
      exact ⟨k, hp⟩

end Wf

theorem Run.wf {route : RefName → ShardId} {careful : Prop} (h : Run route careful c) :
    Wf route c := by
  induction h with
  | start h => exact wf_of_fresh h
  | step _ _ hstep ih => exact ih.effect (Fleet.step_effect hstep)

end Ledge.Cluster
