import Ledge.Cluster.Atomic

/-!
# Ledge.Cluster.Conflicts

The refs that an aborted `commit_atomic` names as conflicts: on one node, in one batch on one
shard, and in two phases over several shards.

A conflict is **real** if, when the ref was examined, another transaction had it locked or it
did not have the expected target. A single node names the refs that phase 1 of the batch has
found so. The state machine of a shard reports a conflict for every operation of a refused
batch, so `commit_single_shard` names all refs of the call. In two phases the ref with the
vote no is named, and no ref if all votes were yes and a resolver had already recorded an
abort (`Overruled`).
-/

namespace Ledge.Cluster

open Ledge.Core Ledge.RefStore Ledge.Raft Ledge.Lib List Option

/-! ### Real conflicts -/

/-- A transaction other than `who` has the ref of a mapping locked, or the ref does not have
the expected target. -/
def Blocked (t : RefTree) (who : Option TxnId) (m : Mapping) : Prop :=
  (t.holder m.name ≠ none ∧ t.holder m.name ≠ who) ∨
    (t.get m.name).map RefEntry.target ≠ m.expected

instance (t : RefTree) (who : Option TxnId) (m : Mapping) : Decidable (Blocked t who m) :=
  inferInstanceAs (Decidable (_ ∨ _))

/-- Some ref is named, and every named ref is that of a blocked mapping. -/
def RealConflicts (blocked : Mapping → Prop) (mappings : List Mapping)
    (conflicts : List RefName) : Prop :=
  conflicts ≠ [] ∧ ∀ n ∈ conflicts, ∃ m ∈ mappings, m.name = n ∧ blocked m

instance (blocked : Mapping → Prop) [DecidablePred blocked] (mappings : List Mapping)
    (conflicts : List RefName) : Decidable (RealConflicts blocked mappings conflicts) :=
  inferInstanceAs (Decidable (_ ∧ _))

/-- `Prepare` of a mapping for `t` on a shard where it is blocked. -/
def ShardStep.Refuses (x : ShardStep) (t : TxnId) (m : Mapping) : Prop :=
  (∃ coordShard hlc, x.op = .refPrepare t coordShard m.name.asStr m.target m.expected hlc) ∧
    Blocked x.before.refs.tree (some t) m

/-- `TxnDecide` asks for a commit of `t` and finds an abort on record. -/
def ShardStep.Overrules (x : ShardStep) (t : TxnId) : Prop :=
  x.op = .txnDecide t true ∧
    (x.before.txnRecords.lookup t).map TxnRecord.decision = some .abort

instance (x : ShardStep) (t : TxnId) : Decidable (x.Overrules t) :=
  inferInstanceAs (Decidable (_ ∧ _))

namespace Fleet

/-- The shard of a mapping has refused it to `t`. -/
def Refused (c : Fleet) (route : RefName → ShardId) (t : TxnId) (m : Mapping) : Prop :=
  ∃ x ∈ c.trace, x.shard = route m.name ∧ x.Refuses t m

/-- The commit of `t` has met a recorded abort. -/
def Overruled (c : Fleet) (t : TxnId) : Prop := ∃ x ∈ c.trace, x.Overrules t

instance (c : Fleet) (t : TxnId) : Decidable (c.Overruled t) :=
  inferInstanceAs (Decidable (∃ x ∈ _, _))

/-- The call of `t` has asked for a commit. -/
def Asked (c : Fleet) (t : TxnId) : Prop := ∃ x ∈ c.trace, x.op = .txnDecide t true

end Fleet

/-! ### One batch -/

section Batch

variable {t : RefTree} {mappings refs : List Mapping} {hlc : Nat → Nat}

theorem blocked_none {m : Mapping} :
    Blocked t none m ↔
      t.lock m.name ≠ none ∨ (t.get m.name).map RefEntry.target ≠ m.expected := by
  rw [Blocked, RefTree.holder]
  cases t.lock m.name <;> simp

theorem mem_batchConflicts {n : RefName} :
    n ∈ (batchConflicts t (batchInput mappings hlc)).map Prod.fst ↔
      ∃ m ∈ mappings, m.name = n ∧ Blocked t none m := by
  rw [batchConflicts, map_filterMap, mem_filterMap]
  constructor
  · intro h
    obtain ⟨op, hop, hplan⟩ := h
    obtain ⟨m, hm, hname, hexpected⟩ := mem_batchInput hop
    rcases planOp_cases t op with ⟨hfree, -⟩ | ⟨e, hconflict, hblocked⟩
    · rw [hfree] at hplan
      cases hplan
    · rw [hconflict] at hplan
      cases hplan
      refine ⟨m, hm, hname.symm, blocked_none.mpr ?_⟩
      rw [← hname, ← hexpected]
      exact hblocked
  · intro h
    obtain ⟨m, hm, rfl, hblocked⟩ := h
    obtain ⟨op, hop, hname, hexpected⟩ := exists_batchInput hlc hm
    rw [blocked_none, ← hname, ← hexpected] at hblocked
    refine ⟨op, hop, ?_⟩
    rcases planOp_cases t op with ⟨-, hfree⟩ | ⟨e, hconflict, -⟩
    · exact absurd hfree fun hboth => hblocked.elim (· hboth.1) (· hboth.2)
    · rw [hconflict]
      exact congrArg some hname

/-- The list of all refs of a call is real if each of them is blocked. -/
theorem realConflicts_map_name (hne : mappings ≠ []) (hmem : ∀ m, m ∈ refs ↔ m ∈ mappings) :
    RealConflicts (Blocked t none) mappings (refs.map Mapping.name) ↔
      ∀ m ∈ mappings, ∃ m' ∈ mappings, m'.name = m.name ∧ Blocked t none m' := by
  have hrefs : refs.map Mapping.name ≠ [] := by
    obtain ⟨m, hm⟩ := exists_mem_of_ne_nil _ hne
    exact ne_nil_of_mem (List.mem_map_of_mem ((hmem m).mpr hm))
  rw [RealConflicts, and_iff_right hrefs]
  constructor
  · intro h m hm
    exact h m.name (List.mem_map_of_mem ((hmem m).mpr hm))
  · intro h n hn
    obtain ⟨m, hm, rfl⟩ := List.mem_map.mp hn
    exact h m ((hmem m).mp hm)

end Batch

/-! ### What the trace tells -/

section Trace

variable {route : RefName → ShardId} {c : Fleet} {shard : ShardId} {op : LedgeOp} {r : Replica}
  {t : TxnId}

theorem Fleet.Refused.setShard {m : Mapping} (h : c.Refused route t m) :
    (c.setShard shard op r).Refused route t m := by
  obtain ⟨x, hx, hrefuses⟩ := h
  exact ⟨x, mem_append_left _ hx, hrefuses⟩

theorem Fleet.asked_setShard :
    (c.setShard shard op r).Asked t ↔ c.Asked t ∨ op = .txnDecide t true := by
  simp [Fleet.Asked, Fleet.setShard, or_and_right, exists_or]

theorem Fleet.overruled_setShard :
    (c.setShard shard op r).Overruled t ↔
      c.Overruled t ∨ op = .txnDecide t true ∧ c.txnDecision shard t = some .abort := by
  simp [Fleet.Overruled, Fleet.setShard, ShardStep.Overrules, Fleet.txnDecision, or_and_right,
    exists_or]

theorem Fleet.Overruled.asked (h : c.Overruled t) : c.Asked t := by
  obtain ⟨x, hx, hop, -⟩ := h
  exact ⟨x, hx, hop⟩

end Trace

/-! ### Votes and names -/

/-- What a call of `t` names: nothing if all votes were yes, else the ref that was refused. -/
def Names (route : RefName → ShardId) (c : Fleet) (t : TxnId) (mappings : List Mapping)
    (allYes : Bool) (conflicts : List RefName) : Prop :=
  if allYes then conflicts = [] else ∃ m ∈ mappings, conflicts = [m.name] ∧ c.Refused route t m

/-- What the trace says of a call in a phase. -/
def Tells (route : RefName → ShardId) (c : Fleet) (t : TxnId) (mappings : List Mapping) :
    Phase → Prop
  | .begin | .prepare _ => ¬ c.Asked t
  | .decide allYes conflicts => ¬ c.Asked t ∧ Names route c t mappings allYes conflicts
  | .sweep commit allYes conflicts _ _ =>
    Names route c t mappings allYes conflicts ∧
      (commit = false → (c.Overruled t ↔ allYes = true))
  | .returned (.aborted _ conflicts) => ∃ allYes,
      Names route c t mappings allYes conflicts ∧ (c.Overruled t ↔ allYes = true)
  | .returned (.committed _) | .failed => True

/-- The trace tells of every call. -/
structure Told (route : RefName → ShardId) (c : Fleet) : Prop where
  calls : ∀ t call, c.calls t = some call → Tells route c t call.mappings call.phase
  unknown : ∀ t, c.calls t = none → ¬ c.Asked t

section Told

variable {route : RefName → ShardId} {c c' : Fleet} {shard : ShardId} {op : LedgeOp}
  {r : Replica} {t : TxnId} {mappings : List Mapping}

theorem Names.setShard {allYes : Bool} {conflicts : List RefName}
    (h : Names route c t mappings allYes conflicts) :
    Names route (c.setShard shard op r) t mappings allYes conflicts := by
  cases allYes with
  | true => exact h
  | false =>
    obtain ⟨m, hm, hconflicts, hrefused⟩ := h
    exact ⟨m, hm, hconflicts, hrefused.setShard⟩

/-- Only the commit that its own call asks for changes what is told of it. -/
theorem Tells.setShard {phase : Phase} (h : Tells route c t mappings phase)
    (hop : op ≠ .txnDecide t true) : Tells route (c.setShard shard op r) t mappings phase := by
  have hasked : (c.setShard shard op r).Asked t ↔ c.Asked t := by
    rw [Fleet.asked_setShard, or_iff_left hop]
  have hoverruled : (c.setShard shard op r).Overruled t ↔ c.Overruled t := by
    rw [Fleet.overruled_setShard, or_iff_left fun hboth => hop hboth.1]
  cases phase with
  | begin | prepare rest => exact hasked.not.mpr h
  | decide allYes conflicts => exact ⟨hasked.not.mpr h.1, h.2.setShard⟩
  | sweep commit allYes conflicts rest committed =>
    exact ⟨h.1.setShard, fun hcommit => hoverruled.trans (h.2 hcommit)⟩
  | returned result =>
    cases result with
    | committed entries => trivial
    | aborted reason conflicts =>
      obtain ⟨allYes, hnames, hiff⟩ := h
      exact ⟨allYes, hnames.setShard, hoverruled.trans hiff⟩
  | failed => trivial

theorem Told.setShard (h : Told route c) (hop : ∀ t, op ≠ .txnDecide t true) :
    Told route (c.setShard shard op r) where
  calls t call hcall := (h.calls t call hcall).setShard (hop t)
  unknown t hnone := by
    rw [Fleet.asked_setShard, or_iff_left (hop t)]
    exact h.unknown t hnone

theorem Told.shardOp {resp : LedgeResp} (h : Told route c) (hop : ∀ t, op ≠ .txnDecide t true)
    (hshard : c.shardOp shard op = some (c', resp)) : Told route c' := by
  obtain ⟨a, -, rfl, -⟩ := Fleet.shardOp_cases hshard
  exact h.setShard hop

theorem Told.setPass {i : Nat} {p : Pass} (h : Told route c) : Told route (c.setPass i p) :=
  ⟨h.calls, h.unknown⟩

theorem Told.addReturn {result : AtomicCommitResult} (h : Told route c) :
    Told route (c.addReturn mappings result) :=
  ⟨h.calls, h.unknown⟩

/-- The call of `t` goes on. -/
theorem Told.setCall {call : Call} (h : Told route c)
    (htells : Tells route c t call.mappings call.phase) : Told route (c.setCall t call) where
  calls u call' hcall' := by
    rw [Fleet.calls_setCall] at hcall'
    split_ifs at hcall' with hu
    · cases hcall'
      rw [hu]
      exact htells
    · exact h.calls u call' hcall'
  unknown u hnone := by
    rw [Fleet.calls_setCall] at hnone
    split_ifs at hnone with hu
    exact h.unknown u hnone

/-- The call of `t` goes on with an operation on a shard. -/
theorem Told.call {call : Call} (h : Told route c) (hop : ∀ u, op = .txnDecide u true → u = t)
    (htells : Tells route (c.setShard shard op r) t call.mappings call.phase) :
    Told route ((c.setShard shard op r).setCall t call) where
  calls u call' hcall' := by
    rw [Fleet.calls_setCall] at hcall'
    split_ifs at hcall' with hu
    · cases hcall'
      rw [hu]
      exact htells
    · exact (h.calls u call' hcall').setShard fun heq => hu (hop u heq)
  unknown u hnone := by
    rw [Fleet.calls_setCall] at hnone
    split_ifs at hnone with hu
    show ¬ (c.setShard shard op r).Asked u
    rw [Fleet.asked_setShard, or_iff_left fun heq => hu (hop u heq)]
    exact h.unknown u hnone

theorem tells_afterYes {rest : List (ShardId × Mapping)} (h : ¬ c.Asked t) :
    Tells route c t mappings (Fleet.afterYes rest) := by
  cases rest with
  | nil => exact ⟨h, rfl⟩
  | cons x rest => exact h

theorem blocked_of_refPrepare {m : Mapping}
    (h : (∃ u, u ≠ t ∧ c.holder (shard, m.name) = some u) ∨
      (c.visibleAt (shard, m.name)).map RefEntry.target ≠ m.expected) :
    Blocked (c.shards shard).refs.tree (some t) m := by
  rcases h with ⟨u, hu, hholder⟩ | htarget
  · have hholder' : (c.shards shard).refs.tree.holder m.name = some u := hholder
    refine Or.inl ⟨?_, ?_⟩
    · simp [hholder']
    · rw [hholder']
      exact fun heq => hu (some.inj heq)
  · exact Or.inr htarget

theorem Told.stepCall {hlc : Nat} {call : Call} (h : Told route c) (hwf : Wf route c)
    (hcall : c.calls t = some call) (hstep : c.stepCall t hlc call = some c') :
    Told route c' := by
  have htells := h.calls t call hcall
  rw [Fleet.stepCall] at hstep
  split at hstep
  next hphase =>
    obtain ⟨⟨c'', resp⟩, hop, rfl⟩ := map_eq_some_iff.mp hstep
    obtain ⟨a, -, rfl, -⟩ := Fleet.shardOp_cases hop
    rw [hphase] at htells
    refine h.call (by simp) (tells_afterYes ?_)
    rw [Fleet.asked_setShard, or_iff_left (by simp)]
    exact htells
  next => cases hstep
  next shard m rest hphase =>
    obtain ⟨⟨c'', resp⟩, hop, rfl⟩ := map_eq_some_iff.mp hstep
    obtain ⟨-, hvote⟩ := Fleet.shardOp_refPrepare hop
    obtain ⟨a, -, rfl, -⟩ := Fleet.shardOp_cases hop
    rw [hphase] at htells
    refine h.call (by simp) ?_
    have hasked : ¬ (c.setShard shard
        (.refPrepare t call.coordShard m.name.asStr m.target m.expected hlc)
        ((c.shards shard).perform true a).1).Asked t := by
      rw [Fleet.asked_setShard, or_iff_left (by simp)]
      exact htells
    rcases hvote with ⟨rfl, -⟩ | ⟨rfl, -, hwhy⟩
    · exact tells_afterYes hasked
    · -- the ref is one of the call's own, on its shard
      have hmem : (shard, m) ∈ call.refs :=
        hwf.pending t call _ hcall (by rw [hphase]; rfl) _ (mem_cons_self ..)
      obtain ⟨hm, hshard⟩ := (hwf.routed t call hcall _).mp hmem
      refine ⟨hasked, m, hm, rfl, _, mem_append_right _ (mem_singleton_self _), hshard,
        ⟨_, _, rfl⟩, blocked_of_refPrepare hwhy⟩
  next allYes conflicts hphase =>
    obtain ⟨⟨c'', resp⟩, hop, rfl⟩ := map_eq_some_iff.mp hstep
    obtain ⟨d, rfl, hverdict, -⟩ := Fleet.shardOp_txnDecide hop
    obtain ⟨a, -, rfl, -⟩ := Fleet.shardOp_cases hop
    rw [hphase] at htells
    obtain ⟨hasked, hnames⟩ := htells
    refine h.call ?_ ⟨hnames.setShard, fun hcommit => ?_⟩
    · intro u heq
      cases heq
      rfl
    · have hno : ¬ c.Overruled t := fun hoverruled => hasked hoverruled.asked
      rw [Fleet.overruled_setShard, or_iff_right hno]
      have hd : d ≠ .commit := by simpa using hcommit
      cases allYes with
      | false => simp
      | true =>
        -- a commit that is not granted has met an abort
        have hrefused := mt toVerdict_eq_commit.mp hd
        rw [hverdict] at hrefused
        rcases hrecord : c.txnDecision call.coordShard t with _ | _ | _ | _
        all_goals simp [hrecord, PresumedAbort.verdict, toVerdict] at hrefused ⊢
  next commit allYes conflicts shard m rest committed hphase =>
    obtain ⟨⟨c'', resp⟩, hop, rfl⟩ := map_eq_some_iff.mp hstep
    obtain ⟨a, -, rfl, -⟩ := Fleet.shardOp_cases hop
    rw [hphase] at htells
    have hne : ∀ u, Fleet.phaseTwoOp commit t m.name.asStr ≠ .txnDecide u true := by
      cases commit <;> simp [Fleet.phaseTwoOp]
    exact h.call (fun u heq => absurd heq (hne u)) (Tells.setShard htells (hne t))
  next commit allYes conflicts committed hphase =>
    obtain ⟨⟨c'', resp⟩, hop, rfl⟩ := map_eq_some_iff.mp hstep
    obtain ⟨a, -, rfl, -⟩ := Fleet.shardOp_cases hop
    rw [hphase] at htells
    refine (h.call (fun _ heq => by cases heq) ?_).addReturn
    obtain ⟨hnames, hiff⟩ := htells
    cases commit with
    | true => trivial
    | false =>
      have hoverruled : (c.setShard call.coordShard (.txnEnd t)
          ((c.shards call.coordShard).perform true a).1).Overruled t ↔ allYes = true := by
        rw [Fleet.overruled_setShard, or_iff_left (by simp)]
        exact hiff rfl
      cases allYes <;> exact ⟨_, hnames.setShard, hoverruled⟩
  next => cases hstep
  next => cases hstep

theorem Told.stepPass {i : Nat} {stale : Bool} (h : Told route c)
    (hstep : c.stepPass i stale = some c') : Told route c' := by
  rw [Fleet.stepPass] at hstep
  split at hstep
  next => cases hstep
  next => cases hstep
  next =>
    cases hstep
    exact h.setPass
  next =>
    cases hstep
    exact h.setPass
  next =>
    cases hstep
    exact h.setPass
  next =>
    split at hstep
    all_goals
      cases hstep
      exact h.setPass
  next =>
    obtain ⟨⟨c'', resp⟩, hop, rfl⟩ := map_eq_some_iff.mp hstep
    -- a resolver asks for an abort
    exact (h.shardOp (fun _ heq => by cases heq) hop).setPass
  next item commit rest toGc hpass =>
    obtain ⟨⟨c'', resp⟩, hop, rfl⟩ := map_eq_some_iff.mp hstep
    refine (h.shardOp (fun _ => ?_) hop).setPass
    cases commit <;> simp [Fleet.phaseTwoOp]
  next =>
    cases hstep
    exact h.setPass
  next =>
    obtain ⟨⟨c'', resp⟩, hop, rfl⟩ := map_eq_some_iff.mp hstep
    exact (h.shardOp (fun _ heq => by cases heq) hop).setPass

theorem Told.commitAtomic {hlc : Nat → Nat} (h : Told route c)
    (hstep : c.commitAtomic route t mappings hlc = some c') : Told route c' := by
  rw [Fleet.commitAtomic] at hstep
  split at hstep
  next =>
    cases hstep
    exact h.addReturn
  next =>
    obtain ⟨⟨c'', resp⟩, hop, rfl⟩ := map_eq_some_iff.mp hstep
    have htold := h.shardOp (fun _ heq => by cases heq) hop
    dsimp only
    split
    · exact htold.addReturn
    · exact htold
  next =>
    split at hstep
    next hnew =>
      cases hstep
      exact h.setCall (h.unknown t hnew)
    next => cases hstep

theorem Told.step {m : Move} (h : Told route c) (hwf : Wf route c)
    (hstep : c.step route m = some c') : Told route c' := by
  cases m with
  | commitAtomic t mappings hlc => exact h.commitAtomic hstep
  | call t hlc =>
    obtain ⟨call, hcall, hnext⟩ := bind_eq_some_iff.mp hstep
    exact h.stepCall hwf hcall hnext
  | crash t =>
    rw [Fleet.step] at hstep
    split at hstep
    next => cases hstep
    next => cases hstep
    next =>
      cases hstep
      exact h.setCall trivial
  | startPass i hosted =>
    rw [Fleet.step] at hstep
    split at hstep
    next =>
      cases hstep
      exact h.setPass
    next => cases hstep
  | pass i stale => exact h.stepPass hstep
  | stopPass i =>
    cases hstep
    exact h.setPass
  | update name target expected hlc | delete name expected hlc =>
    obtain ⟨⟨c'', resp⟩, hop, rfl⟩ := map_eq_some_iff.mp hstep
    exact h.shardOp (fun _ heq => by cases heq) hop

theorem Run.told {careful : Prop} (h : Run route careful c) : Told route c := by
  induction h with
  | start hfresh =>
    refine ⟨fun t call hcall => ?_, fun t _ hasked => ?_⟩
    · rw [hfresh.calls] at hcall
      cases hcall
    · obtain ⟨x, hx, -⟩ := hasked
      rw [hfresh.trace] at hx
      cases hx
  | step hrun _ hstep ih => exact ih.step hrun.wf hstep

end Told

/-! ### The three implementations -/

variable {hlc : Nat → Nat} {reason : String} {conflicts : List RefName}

/-- `LocalAtomicCommit` names the refs that are blocked. -/
theorem realConflicts_commitAtomic {s s' : Store} {durable : Bool} {mappings : List Mapping}
    (h : s.commitAtomic durable mappings hlc = (s', .ok (.aborted reason conflicts))) :
    RealConflicts (Blocked s.tree none) mappings conflicts := by
  rw [Store.commitAtomic] at h
  split_ifs at h
  · cases h
  · rw [Store.run_commitBatch] at h
    by_cases hnone : batchConflicts s.tree (batchInput mappings hlc) = []
    · rw [if_neg (not_not.mpr hnone)] at h
      cases durable <;> cases h
    · rw [if_pos hnone] at h
      cases h
      exact ⟨fun hnil => hnone (map_eq_nil_iff.mp hnil), fun n => mem_batchConflicts.mp⟩

/-- `commit_single_shard` that aborts names all refs of the call. -/
theorem conflicts_commitSingleShard {c c' : Fleet} {mappings refs : List Mapping} {shard : ShardId}
    (h : c.commitSingleShard mappings shard refs hlc = some c')
    (hreturns : c'.returns = c.returns ++ [(mappings, .aborted reason conflicts)]) :
    conflicts = refs.map Mapping.name := by
  obtain ⟨⟨c'', resp⟩, hop, rfl⟩ := map_eq_some_iff.mp h
  obtain ⟨a, ha, rfl, rfl⟩ := Fleet.shardOp_cases hop
  rw [LedgeOp.action, mapM_toInput_batchOps] at ha
  cases ha
  have hlast : ∀ result, c.returns ++ [(mappings, result)] =
      c.returns ++ [(mappings, .aborted reason conflicts)] → result =
        .aborted reason conflicts := by
    intro result heq
    exact (Prod.mk.inj (singleton_inj.mp (append_cancel_left heq))).2
  rcases batch_cases (c.shards shard) true (batchInput refs hlc) with
    ⟨hnone, hresp, -⟩ | ⟨hblocked, hresp, -⟩
  · simp only [hresp, Fleet.addReturn, Fleet.singleResult, if_pos (batchRefused_ok ..)] at hreturns
    cases hlast _ hreturns
  · simp only [hresp, Fleet.addReturn, Fleet.singleResult, if_neg (batchRefused_ne_nil hblocked)]
      at hreturns
    have hresult := hlast _ hreturns
    rw [batchRefused_eq] at hresult
    cases hresult
    rfl

/-- **When the reported conflicts are real.** On a single node they always are. One batch on
one shard has to be blocked on each of its refs. In two phases, the commit that the call asks
for must not find an abort on record. -/
theorem reported_conflicts_real_iff (route : RefName → ShardId) :
    (∀ (s s' : Store) (durable : Bool) (mappings : List Mapping) (hlc : Nat → Nat)
        (reason : String) (conflicts : List RefName),
      s.commitAtomic durable mappings hlc = (s', .ok (.aborted reason conflicts)) →
        RealConflicts (Blocked s.tree none) mappings conflicts) ∧
    (∀ (c c' : Fleet) (t : TxnId) (mappings : List Mapping) (hlc : Nat → Nat) (shard : ShardId)
        (refs : List Mapping) (reason : String) (conflicts : List RefName),
      groupByShard route mappings = [(shard, refs)] →
      c.step route (.commitAtomic t mappings hlc) = some c' →
      c'.returns = c.returns ++ [(mappings, .aborted reason conflicts)] →
        (RealConflicts (Blocked (c.shards shard).refs.tree none) mappings conflicts ↔
          ∀ m ∈ mappings, ∃ m' ∈ mappings, m'.name = m.name ∧
            Blocked (c.shards shard).refs.tree none m')) ∧
    (∀ (c : Fleet) (t : TxnId) (call : Call) (reason : String) (conflicts : List RefName),
      Run route False c → c.calls t = some call →
      call.phase = .returned (.aborted reason conflicts) →
        (RealConflicts (c.Refused route t) call.mappings conflicts ↔ ¬ c.Overruled t)) := by
  refine ⟨fun s s' durable mappings hlc reason conflicts h => realConflicts_commitAtomic h, ?_, ?_⟩
  · intro c c' t mappings hlc shard refs reason conflicts hgroups hstep hreturns
    have hsingle : c.commitSingleShard mappings shard refs hlc = some c' := by
      rw [Fleet.step, Fleet.commitAtomic, hgroups] at hstep
      exact hstep
    obtain ⟨-, hrefs, hroute⟩ := only_group hgroups
    have hne : mappings ≠ [] := by
      intro hnil
      rw [hnil] at hgroups
      cases hgroups
    rw [conflicts_commitSingleShard hsingle hreturns]
    exact realConflicts_map_name hne fun m => ⟨hrefs m, fun hm => (hroute m hm).1⟩
  · intro c t call reason conflicts hrun hcall hphase
    have htells := hrun.told.calls t call hcall
    rw [hphase] at htells
    obtain ⟨allYes, hnames, hoverruled⟩ := htells
    rw [hoverruled]
    cases allYes with
    | true =>
      rw [RealConflicts, show conflicts = [] from hnames]
      simp
    | false =>
      obtain ⟨m, hm, rfl, hrefused⟩ := hnames
      refine iff_of_true ⟨cons_ne_nil _ _, fun n hn => ?_⟩ (by simp)
      exact ⟨m, hm, (mem_singleton.mp hn).symm, hrefused⟩

/-! ### Runs -/

/-- A resolver records an abort between the last vote and the commit point. -/
def presumedAbort : List Move :=
  [.commitAtomic (.fill 7) createBoth id, .call (.fill 7) 0, .call (.fill 7) 1,
      .call (.fill 7) 2] ++ passOver 0 [0, 1] true 5 ++ replicate 4 (.call (.fill 7) 0)

/-- One of two refs on one shard has another target, and both are named. All votes are yes, the
call is aborted, and no ref is named. -/
theorem abort_names_other_refs :
    (emptyFleet.exec (fun _ => 0) [.update .headsB (.fill 9) none 0]).any (fun c =>
      (c.step (fun _ => 0) (.commitAtomic (.fill 7) createBoth id)).any (fun c' =>
        c'.returns = c.returns ++ [(createBoth,
          .aborted "single-shard batch precondition failed" [.headsA, .headsB])]) ∧
      ¬ RealConflicts (Blocked (c.shards 0).refs.tree none) createBoth [.headsA, .headsB]) ∧
    ∃ c call, Run twoShards False c ∧ c.calls (.fill 7) = some call ∧
      call.phase = .returned
        (.aborted "presumed-abort by recovery (coordinator was in-doubt)" []) ∧
      ¬ RealConflicts (c.Refused twoShards (.fill 7)) call.mappings [] := by
  refine ⟨by decide +kernel, ?_⟩
  have hexec : (emptyFleet.exec twoShards presumedAbort).any (fun c =>
      (c.calls (.fill 7)).map Call.phase = some (.returned
        (.aborted "presumed-abort by recovery (coordinator was in-doubt)" []))) := by
    decide +kernel
  obtain ⟨c, hc, hcalls⟩ := (Option.any_eq_true _ _).mp hexec
  obtain ⟨call, hcall, hphase⟩ := map_eq_some_iff.mp (of_decide_eq_true hcalls)
  exact ⟨c, call, (Run.start fresh_emptyFleet).exec hc, hcall, hphase, fun hreal => hreal.1 rfl⟩

/-- A vote no names its ref. -/
theorem refused_names_ref : ∃ c, Run twoShards False c ∧ ¬ c.Overruled (.fill 7) ∧
    RealConflicts (c.Refused twoShards (.fill 7)) createBoth [.headsB] := by
  have hexec : (emptyFleet.exec twoShards refused).any (fun c =>
      ((c.calls (.fill 7)).map (fun call => (call.mappings, call.phase)) =
        some (createBoth, .returned (.aborted "prepare vote NO" [.headsB]))) ∧
        ¬ c.Overruled (.fill 7)) := by
    decide +kernel
  obtain ⟨c, hc, hboth⟩ := (Option.any_eq_true _ _).mp hexec
  obtain ⟨hcalls, hoverruled⟩ := of_decide_eq_true hboth
  obtain ⟨call, hcall, heq⟩ := map_eq_some_iff.mp hcalls
  obtain ⟨hmappings, hphase⟩ := Prod.mk.inj heq
  have hrun : Run twoShards False c := (Run.start fresh_emptyFleet).exec hc
  have hreal := ((reported_conflicts_real_iff twoShards).2.2 c _ call _ _ hrun hcall hphase).mpr
    hoverruled
  rw [hmappings] at hreal
  exact ⟨c, hrun, hoverruled, hreal⟩

end Ledge.Cluster
