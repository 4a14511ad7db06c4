import Ledge.Cluster.Atomic

/-!
# Ledge.Cluster.Alone

A call of `commit_atomic` that nobody disturbs **meets the specification of a commit**
(`Ledge.RefStore.Meets`), whichever of its paths it takes: no shard for an empty list, one
batch on one shard, or two-phase commit on several. As the single-node commit meets it too,
the verdict and the refs do not depend on the path.

`Fleet.Becomes` is total correctness of the steps of one call: they end, for all ticks of the
clocks. The two loops of the call, over the votes and over the resolutions, are the
inductions here.
-/

namespace Ledge.Cluster

open Ledge.Core Ledge.RefStore Ledge.Raft Ledge.Lib List Option

/-! ### Grouping keeps the order of each ref's mappings -/

theorem filter_name_insertionSort (l : List Mapping) (n : RefName) :
    (l.insertionSort (fun x y => ¬ y.name.bytes < x.name.bytes)).filter (fun m => m.name = n) =
      l.filter (fun m => m.name = n) := by
  have hsorted : (l.filter (fun m => m.name = n)).Pairwise
      (fun x y => ¬ y.name.bytes < x.name.bytes) := by
    refine pairwise_of_forall_mem_list fun x hx y hy => ?_
    rw [of_decide_eq_true (mem_filter.mp hx).2, of_decide_eq_true (mem_filter.mp hy).2]
    exact List.lt_irrefl _
  have hsub := (sublist_insertionSort hsorted filter_sublist).filter
    (fun m => m.name = n)
  rw [List.filter_filter] at hsub
  simp only [Bool.and_self] at hsub
  refine (hsub.eq_of_length ?_).symm
  exact (((perm_insertionSort _ l).filter _).length_eq).symm

/-- The last ref of a key. -/
def lastRef (refs : List (ShardId × Mapping)) (k : Key) : Option Mapping :=
  ((refs.filter (fun x => (x.1, x.2.name) = k)).map Prod.snd).getLast?

theorem lastRef_concat (refs : List (ShardId × Mapping)) (shard : ShardId) (m : Mapping) (k : Key) :
    lastRef (refs ++ [(shard, m)]) k = if (shard, m.name) = k then some m else lastRef refs k := by
  rw [lastRef, lastRef, filter_append]
  split_ifs with hk
  · simp [hk]
  · simp [hk]

theorem flatMap_ite_eq {α β : Type} [DecidableEq α] {l : List α} (h : l.Nodup) (a : α)
    (L : List β) : l.flatMap (fun x => if a = x then L else []) = if a ∈ l then L else [] := by
  induction l with
  | nil => rfl
  | cons x l ih =>
    obtain ⟨hx, hl⟩ := nodup_cons.mp h
    rw [flatMap_cons, ih hl]
    by_cases hax : a = x
    · subst hax
      simp [hx]
    · simp [hax]

section Grouping

variable {route : RefName → ShardId} {mappings : List Mapping}

theorem filter_name_group (shard : ShardId) (n : RefName) :
    ((mappings.filter (fun m => route m.name = shard)).insertionSort
      (fun x y => ¬ y.name.bytes < x.name.bytes)).filter (fun m => m.name = n) =
      if route n = shard then mappings.filter (fun m => m.name = n) else [] := by
  rw [filter_name_insertionSort, List.filter_filter]
  split_ifs with hshard
  · refine filter_congr fun m _ => ?_
    by_cases hn : m.name = n
    · simp [hn, hshard]
    · simp [hn]
  · refine filter_eq_nil_iff.mpr fun m _ => ?_
    by_cases hn : m.name = n
    · simp [hn, hshard]
    · simp [hn]

theorem lastMapping_group {shard : ShardId} {refs : List Mapping}
    (h : groupByShard route mappings = [(shard, refs)]) {n : RefName} (hn : route n = shard) :
    lastMapping refs n = lastMapping mappings n := by
  rw [(only_group h).1, lastMapping, filter_name_group, if_pos hn, lastMapping]

theorem lastRef_new (n : RefName) :
    lastRef (Call.new mappings (groupByShard route mappings)).refs (route n, n) =
      lastMapping mappings n := by
  let shards := (mappings.map (fun m => route m.name)).dedup.insertionSort (· ≤ ·)
  have hgroup : ∀ shard (refs : List Mapping),
      ((refs.map (fun m => (shard, m))).filter (fun x => (x.1, x.2.name) = (route n, n))).map
        Prod.snd = if route n = shard then refs.filter (fun m => m.name = n) else [] := by
    intro shard refs
    rw [List.filter_map, List.map_map]
    split_ifs with hshard
    · rw [show (Prod.snd ∘ fun m : Mapping => (shard, m)) = id from rfl, List.map_id]
      refine filter_congr fun m _ => ?_
      simp [hshard]
    · rw [map_eq_nil_iff, filter_eq_nil_iff]
      intro m _
      simp [Ne.symm hshard]
  have hrefs : ((Call.new mappings (groupByShard route mappings)).refs.filter
      (fun x => (x.1, x.2.name) = (route n, n))).map Prod.snd =
        shards.flatMap (fun shard =>
          if route n = shard then mappings.filter (fun m => m.name = n) else []) := by
    show (List.filter _ (flatMap _ (List.map _ shards))).map Prod.snd = _
    rw [filter_flatMap, map_flatMap, flatMap_map]
    refine flatMap_congr fun shard _ => ?_
    rw [hgroup, filter_name_group]
    split_ifs <;> rfl
  have hnodup : shards.Nodup :=
    (perm_insertionSort _ _).nodup_iff.mpr (nodup_dedup _)
  rw [lastRef, hrefs, flatMap_ite_eq hnodup, lastMapping]
  split_ifs with hmem
  · rfl
  · -- a ref without a shard in the call has no mapping
    rw [filter_eq_nil_iff.mpr fun m hm hname => hmem ?_]
    rw [(perm_insertionSort _ _).mem_iff, mem_dedup, ← of_decide_eq_true hname]
    exact List.mem_map_of_mem hm

end Grouping

/-! ### Total correctness of one call -/

/-- Whatever the clocks say, the steps of the call lead to a state with `p`. -/
def Fleet.Becomes (route : RefName → ShardId) (t : TxnId) (c : Fleet) (p : Fleet → Prop) : Prop :=
  ∀ ticks : Nat → Nat, ∃ n c',
    c.exec route ((List.range n).map (fun i => .call t (ticks i))) = some c' ∧ p c'

section Becomes

variable {route : RefName → ShardId} {t : TxnId} {c : Fleet} {p q : Fleet → Prop}

theorem Fleet.exec_append {moves₁ moves₂ : List Move} {c₁ : Fleet}
    (h : c.exec route moves₁ = some c₁) :
    c.exec route (moves₁ ++ moves₂) = c₁.exec route moves₂ := by
  induction moves₁ generalizing c with
  | nil =>
    cases h
    rfl
  | cons m moves₁ ih =>
    obtain ⟨c₂, hstep, hrest⟩ := bind_eq_some_iff.mp h
    rw [cons_append, Fleet.exec, hstep]
    exact ih hrest

theorem Fleet.Becomes.now (h : p c) : c.Becomes route t p := fun _ => ⟨0, c, rfl, h⟩

theorem Fleet.Becomes.bind (h : c.Becomes route t p)
    (hnext : ∀ c', p c' → c'.Becomes route t q) : c.Becomes route t q := by
  intro ticks
  obtain ⟨n₁, c₁, hexec₁, hp⟩ := h ticks
  obtain ⟨n₂, c₂, hexec₂, hq⟩ := hnext c₁ hp (fun i => ticks (n₁ + i))
  refine ⟨n₁ + n₂, c₂, ?_, hq⟩
  rw [range_add, map_append, Fleet.exec_append hexec₁, List.map_map]
  exact hexec₂

theorem Fleet.Becomes.step
    (h : ∀ hlc, ∃ c', c.step route (.call t hlc) = some c' ∧ c'.Becomes route t p) :
    c.Becomes route t p := by
  intro ticks
  obtain ⟨c', hstep, hrest⟩ := h (ticks 0)
  obtain ⟨n, c'', hexec, hp⟩ := hrest (fun i => ticks (i + 1))
  refine ⟨n + 1, c'', ?_, hp⟩
  rw [range_succ_eq_map, map_cons, List.map_map, Fleet.exec, hstep]
  exact hexec

end Becomes

/-! ### The steps of a call that runs alone -/

section Phases

variable {route : RefName → ShardId} {t : TxnId} {c₀ c : Fleet} {call : Call}

theorem Fleet.shardOp_of_action (c : Fleet) (shard : ShardId) (op : LedgeOp) {a : Action}
    (h : op.action = some a) : ∃ c' resp, c.shardOp shard op = some (c', resp) := by
  rw [Fleet.shardOp, applyOne_eq, h]
  exact ⟨_, _, rfl⟩

theorem Fleet.shardOp_phaseTwo_isSome (c : Fleet) (shard : ShardId) (t : TxnId) (commit : Bool)
    (n : RefName) : ∃ c' resp, c.shardOp shard (phaseTwoOp commit t n.asStr) = some (c', resp) := by
  cases commit with
  | true =>
    refine shardOp_of_action c shard _ (a := .ref (.commitPrepared t n)) ?_
    simp [phaseTwoOp, LedgeOp.action, LedgeOp.toApplied, RefName.new_asStr, Except.map,
      Except.toOption]
  | false =>
    refine shardOp_of_action c shard _ (a := .ref (.abortPrepared t n)) ?_
    simp [phaseTwoOp, LedgeOp.action, LedgeOp.toApplied, RefName.new_asStr, Except.map,
      Except.toOption]

/-- The refs `done` are locked for the call, and no ref shows it. -/
structure Prepared (c₀ : Fleet) (t : TxnId) (done : List (ShardId × Mapping)) (c : Fleet) :
    Prop where
  locks : ∀ k, (c.lockAt k).map (fun p => (p.txnId, p.stagedTarget)) =
    (lastRef done k).map (fun m => (t, m.target))
  visible : ∀ k, c.visibleAt k = c₀.visibleAt k
  returns : c.returns = c₀.returns

/-- There is no record but that of the call. -/
def Recorded (c : Fleet) (shard : ShardId) (t : TxnId) (d : Option TxnDecision) : Prop :=
  ∀ shard' u, c.txnDecision shard' u = if shard' = shard ∧ u = t then d else none

variable {c' : Fleet} {shard : ShardId} {d : Option TxnDecision} {done : List (ShardId × Mapping)}

theorem Recorded.set {d' : Option TxnDecision} (h : Recorded c shard t d)
    (hset : SetsRecord c c' shard t d') : Recorded c' shard t d' := by
  intro shard' u
  rw [hset]
  split_ifs with hboth
  · rfl
  · rw [h, if_neg hboth]

theorem Recorded.same (h : Recorded c shard t d) (hsame : SameRecords c c') :
    Recorded c' shard t d :=
  fun shard' u => (hsame shard' u).trans (h shard' u)

theorem Prepared.still (h : Prepared c₀ t done c) (hstill : Still c c') :
    Prepared c₀ t done c' where
  locks k := by rw [hstill.lockAt, h.locks]
  visible k := by rw [hstill.unchanged, h.visible]
  returns := by rw [hstill.returns, h.returns]

theorem Prepared.takes {coordShard : ShardId} {m : Mapping} {hlc : Nat} (h : Prepared c₀ t done c)
    (htakes : Takes c c' (shard, m.name) ⟨t, coordShard, m.target, hlc⟩ m.expected) :
    Prepared c₀ t (done ++ [(shard, m)]) c' where
  locks k := by
    rw [htakes.lockAt, lastRef_concat]
    by_cases hk : k = (shard, m.name)
    · rw [if_pos hk, if_pos hk.symm]
      rfl
    · rw [if_neg hk, if_neg (Ne.symm hk), h.locks]
  visible k := by rw [htakes.visibleAt, h.visible]
  returns := by rw [htakes.returns, h.returns]

theorem Prepared.setCall (h : Prepared c₀ t done c) (u : TxnId) (call : Call) :
    Prepared c₀ t done (c.setCall u call) :=
  ⟨h.locks, h.visible, h.returns⟩

/-- The expectation of one ref is met. -/
def Fleet.Expects (c : Fleet) (x : ShardId × Mapping) : Prop :=
  (c.visibleAt (x.1, x.2.name)).map RefEntry.target = x.2.expected

theorem vote_step (route : RefName → ShardId) {rest : List (ShardId × Mapping)} {m : Mapping}
    (hcall : c.calls t = some call) (hphase : call.phase = .prepare ((shard, m) :: rest))
    (h : Prepared c₀ t done c) (hrecorded : Recorded c call.coordShard t d) (hlc : Nat) :
    ∃ c' phase done', c.step route (.call t hlc) = some c' ∧
      c'.calls t = some { call with phase := phase } ∧ Prepared c₀ t done' c' ∧
      Recorded c' call.coordShard t d ∧
      ((c₀.Expects (shard, m) ∧ phase = Fleet.afterYes rest ∧ done' = done ++ [(shard, m)]) ∨
        (¬ c₀.Expects (shard, m) ∧ phase = .decide false [m.name] ∧ done' = done)) := by
  have haction : (LedgeOp.refPrepare t call.coordShard m.name.asStr m.target m.expected
      hlc).action = some (.ref (.prepare t call.coordShard m.name m.target m.expected hlc)) := by
    simp [LedgeOp.action, LedgeOp.toApplied, RefName.new_asStr, Except.map, Except.toOption]
  obtain ⟨c', resp, hop⟩ := Fleet.shardOp_of_action c shard _ haction
  have hstep : c.step route (.call t hlc) =
      some (c'.setCall t { call with phase := Fleet.afterVote m.name rest resp }) := by
    rw [Fleet.step, hcall, bind_some, Fleet.stepCall, hphase]
    simp [hop]
  obtain ⟨hrecords, ⟨rfl, htakes⟩ | ⟨rfl, hstill, hwhy⟩⟩ := Fleet.shardOp_refPrepare hop
  · refine ⟨_, _, done ++ [(shard, m)], hstep, (Fleet.calls_setCall ..).trans (if_pos rfl),
      (h.takes htakes).setCall _ _, hrecorded.same hrecords, Or.inl ⟨?_, rfl, rfl⟩⟩
    rw [Fleet.Expects, ← h.visible]
    exact htakes.expected
  · refine ⟨_, _, done, hstep, (Fleet.calls_setCall ..).trans (if_pos rfl),
      (h.still hstill).setCall _ _, hrecorded.same hrecords, Or.inr ⟨?_, rfl, rfl⟩⟩
    rcases hwhy with ⟨u, hu, hholder⟩ | hne
    · -- nobody else has a lock
      have hlocks := h.locks (shard, m.name)
      obtain ⟨p, hp, rfl⟩ := map_eq_some_iff.mp hholder
      rw [hp] at hlocks
      obtain ⟨m', -, heq⟩ := map_eq_some_iff.mp hlocks.symm
      exact absurd (Prod.mk.inj heq).1.symm hu
    · rw [Fleet.Expects, ← h.visible]
      exact hne

theorem votes (call : Call) (rest : List (ShardId × Mapping)) :
    ∀ (done : List (ShardId × Mapping)) (c : Fleet),
      c.calls t = some { call with phase := Fleet.afterYes rest } → Prepared c₀ t done c →
      Recorded c call.coordShard t d →
      c.Becomes route t (fun c' => ∃ phase done', c'.calls t = some { call with phase := phase } ∧
        Prepared c₀ t done' c' ∧ Recorded c' call.coordShard t d ∧
        (((∀ x ∈ rest, c₀.Expects x) ∧ phase = .decide true [] ∧ done' = done ++ rest) ∨
          (¬ (∀ x ∈ rest, c₀.Expects x) ∧ (∃ n, phase = .decide false [n]) ∧
            done' ⊆ done ++ rest))) := by
  induction rest with
  | nil =>
    intro done c hcall h hrecorded
    refine .now ⟨_, done, hcall, h, hrecorded, Or.inl ⟨nofun, rfl, ?_⟩⟩
    rw [append_nil]
  | cons x rest ih =>
    intro done c hcall h hrecorded
    refine .step fun hlc => ?_
    obtain ⟨c', phase, done', hstep, hcall', h', hrecorded', hyes | hno⟩ :=
      vote_step route hcall rfl h hrecorded hlc
    · obtain ⟨hexpects, rfl, rfl⟩ := hyes
      refine ⟨c', hstep, (ih _ c' hcall' h' hrecorded').bind fun c'' hc'' => .now ?_⟩
      obtain ⟨phase, done'', hcall'', h'', hrecorded'', hall | hsome⟩ := hc''
      · obtain ⟨hall, rfl, rfl⟩ := hall
        refine ⟨_, _, hcall'', h'', hrecorded'', Or.inl ⟨?_, rfl, ?_⟩⟩
        · exact forall_mem_cons.mpr ⟨hexpects, hall⟩
        · rw [append_assoc]
          rfl
      · obtain ⟨hsome, hphase, hsub⟩ := hsome
        refine ⟨_, _, hcall'', h'', hrecorded'', Or.inr ⟨fun hall => hsome ?_, hphase, ?_⟩⟩
        · exact (forall_mem_cons.mp hall).2
        · rw [append_assoc] at hsub
          exact hsub
    · obtain ⟨hexpects, rfl, rfl⟩ := hno
      refine ⟨c', hstep, .now ⟨_, _, hcall', h', hrecorded',
        Or.inr ⟨fun hall => hexpects ?_, ⟨_, rfl⟩, subset_append_left _ _⟩⟩⟩
      exact (forall_mem_cons.mp hall).1

/-- What the end of a lock leaves of a ref. -/
def settled (commit : Bool) (lock : Option PreparedIntent) (visible : Option RefEntry) :
    Option RefEntry :=
  match commit, lock with
  | true, some p => some ⟨p.stagedTarget, p.stagedHlc, nextVersion visible⟩
  | _, _ => visible

theorem settled_none (commit : Bool) (visible : Option RefEntry) :
    settled commit none visible = visible := by
  cases commit <;> rfl

/-- Resolving one key of a call that has all the locks there are. -/
theorem settled_resolves {k : Key} {commit : Bool} (hown : ∀ k p, c.lockAt k = some p → p.txnId = t)
    (h : Resolves c c' k t commit) :
    (∀ k', c'.lockAt k' = if k' = k then none else c.lockAt k') ∧
      ∀ k', c'.visibleAt k' =
        if k' = k then settled commit (c.lockAt k) (c.visibleAt k) else c.visibleAt k' := by
  cases h with
  | ends p h =>
    refine ⟨h.lockAt, fun k' => ?_⟩
    split_ifs with hk
    · rw [hk, h.resolved, h.held]
      cases commit <;> rfl
    · exact h.visibleAt k' hk
  | skips hother h =>
    have hfree : c.lockAt k = none := by
      by_contra hlocked
      obtain ⟨p, hp⟩ := ne_none_iff_exists'.mp hlocked
      refine hother ?_
      rw [Fleet.holder, hp, map_some, hown k p hp]
    refine ⟨fun k' => ?_, fun k' => ?_⟩
    · rw [h.lockAt]
      split_ifs with hk
      · rw [hk, hfree]
      · rfl
    · rw [h.unchanged]
      split_ifs with hk
      · rw [hk, hfree, settled_none]
      · rfl

theorem sweeps {commit allYes : Bool} {conflicts : List RefName} (call : Call)
    (rest : List (ShardId × Mapping)) :
    ∀ (c : Fleet) (committed : List (RefName × RefEntry)),
      c.calls t = some { call with phase := .sweep commit allYes conflicts rest committed } →
      (∀ k p, c.lockAt k = some p → p.txnId = t ∧ k ∈ keysOf rest) →
      Recorded c call.coordShard t d →
      c.Becomes route t (fun c' => ∃ committed',
        c'.calls t = some { call with phase := .sweep commit allYes conflicts [] committed' } ∧
        (∀ k, c'.lockAt k = none) ∧
        (∀ k, c'.visibleAt k = settled commit (c.lockAt k) (c.visibleAt k)) ∧
        Recorded c' call.coordShard t d ∧ c'.returns = c.returns) := by
  induction rest with
  | nil =>
    intro c committed hcall hown hrecorded
    have hfree : ∀ k, c.lockAt k = none := by
      intro k
      by_contra hlocked
      obtain ⟨p, hp⟩ := ne_none_iff_exists'.mp hlocked
      cases (hown k p hp).2
    refine .now ⟨committed, hcall, hfree, fun k => ?_, hrecorded, rfl⟩
    rw [hfree, settled_none]
  | cons x rest ih =>
    obtain ⟨shard, m⟩ := x
    intro c committed hcall hown hrecorded
    refine .step fun hlc => ?_
    obtain ⟨c', resp, hop⟩ := Fleet.shardOp_phaseTwo_isSome c shard t commit m.name
    obtain ⟨n, hn, hrecords, hresolves⟩ := Fleet.shardOp_phaseTwo hop
    rw [RefName.new_asStr] at hn
    cases hn
    obtain ⟨hlock, hvisible⟩ := settled_resolves (fun k p hp => (hown k p hp).1) hresolves
    refine ⟨_, by rw [Fleet.step, hcall, bind_some, Fleet.stepCall]; simp only [hop]; rfl,
      ?_⟩
    refine (ih _ _ ((Fleet.calls_setCall ..).trans (if_pos rfl)) (fun k p hp => ?_)
      (hrecorded.same hrecords)).bind fun c'' hc'' => .now ?_
    · have hp' : c'.lockAt k = some p := hp
      rw [hlock] at hp'
      split_ifs at hp' with hk
      exact ⟨(hown k p hp').1, (mem_cons.mp (hown k p hp').2).resolve_left hk⟩
    · obtain ⟨committed', hcall', hfree, hsettled, hrecorded', hreturns⟩ := hc''
      refine ⟨committed', hcall', hfree, fun k => (hsettled k).trans ?_, hrecorded',
        hreturns.trans hresolves.sameControl.returns⟩
      show settled commit (c'.lockAt k) (c'.visibleAt k) = _
      rw [hlock, hvisible]
      split_ifs with hk
      · rw [hk, settled_none]
      · rfl

end Phases

/-! ### The three paths -/

/-- The refs as the cluster's readers see them. -/
def Fleet.refs (route : RefName → ShardId) (c : Fleet) (n : RefName) : Option RefEntry :=
  c.visibleAt (route n, n)

/-- A call has returned as it should, and leaves neither lock nor record. -/
structure Done (route : RefName → ShardId) (c₀ : Fleet) (mappings : List Mapping) (c : Fleet) :
    Prop where
  returned : ∃ result, c.returns = c₀.returns ++ [(mappings, result)] ∧
    Meets (c₀.refs route) mappings result.isCommitted (c.refs route)
  unlocked : ∀ k, c.lockAt k = none
  records : ∀ shard u, c.txnDecision shard u = none

section Paths

variable {route : RefName → ShardId} {t : TxnId} {c₀ c : Fleet} {mappings : List Mapping}

theorem expects_new : (∀ x ∈ (Call.new mappings (groupByShard route mappings)).refs,
    c₀.Expects x) ↔ Accepts (c₀.refs route) mappings := by
  constructor
  · intro h m hm
    exact h (route m.name, m) ((routed_new _).mpr ⟨hm, rfl⟩)
  · intro h x hx
    obtain ⟨hm, hshard⟩ := (routed_new x).mp hx
    rw [Fleet.Expects, hshard]
    exact h x.2 hm

/-- What is locked for a call that has prepared all its refs, or only some. -/
theorem meets_settled {commit : Bool} {done : List (ShardId × Mapping)} {c' : Fleet}
    (h : Prepared c₀ t done c) (hverdict : commit = true ↔ Accepts (c₀.refs route) mappings)
    (hdone : commit = true → done = (Call.new mappings (groupByShard route mappings)).refs)
    (hsettled : ∀ k, c'.visibleAt k = settled commit (c.lockAt k) (c.visibleAt k)) :
    Meets (c₀.refs route) mappings commit (c'.refs route) := by
  have hlocks : commit = true → ∀ n, (c.lockAt (route n, n)).map
      (fun p => (p.txnId, p.stagedTarget)) =
        (lastMapping mappings n).map (fun m => (t, m.target)) := by
    intro hcommit n
    rw [h.locks, hdone hcommit, lastRef_new]
  refine ⟨hverdict, fun hcommit n m hlast => ?_, fun n hkept => ?_⟩
  · have hlock := hlocks hcommit n
    rw [hlast] at hlock
    obtain ⟨p, hp, heq⟩ := map_eq_some_iff.mp hlock
    rw [Fleet.refs, hsettled, hp, hcommit, ← (Prod.mk.inj heq).2, h.visible]
    rfl
  · rw [Fleet.refs, hsettled, h.visible]
    cases commit with
    | false => rfl
    | true =>
      have hlock := hlocks rfl n
      rw [hkept.resolve_left nofun, map_none,
        map_eq_none_iff] at hlock
      rw [hlock]
      rfl

theorem twoPhase (hfree : ∀ k, c₀.lockAt k = none)
    (hrecords : ∀ shard u, c₀.txnDecision shard u = none)
    (hcall : c₀.calls t = some (Call.new mappings (groupByShard route mappings))) :
    c₀.Becomes route t (Done route c₀ mappings) := by
  set call := Call.new mappings (groupByShard route mappings) with hnew
  -- `TxnBegin`
  refine .step fun _ => ?_
  obtain ⟨c₁, resp₁, hop₁⟩ := Fleet.shardOp_of_action c₀ call.coordShard
    (.txnBegin t call.participants) rfl
  obtain ⟨hstill₁, hset₁⟩ := Fleet.shardOp_txnBegin hop₁
  have hprepared₁ : Prepared c₀ t [] c₁ := by
    refine Prepared.still ⟨fun k => ?_, fun _ => rfl, rfl⟩ hstill₁
    rw [hfree]
    rfl
  have hrecorded₁ : Recorded c₁ call.coordShard t (some .pending) := by
    refine Recorded.set (d := none) (fun shard u => ?_) hset₁
    rw [hrecords, ite_self]
  refine ⟨_, by rw [Fleet.step, hcall, bind_some, Fleet.stepCall]; simp only [hop₁]; rfl, ?_⟩
  refine (votes call call.refs [] _ ((Fleet.calls_setCall ..).trans (if_pos rfl))
    (hprepared₁.setCall _ _) hrecorded₁).bind fun c₂ hc₂ => ?_
  obtain ⟨phase, done, hcall₂, hprepared₂, hrecorded₂, hvotes⟩ := hc₂
  have hdecide : ∃ commit conflicts, phase = .decide commit conflicts ∧
      (commit = true ↔ Accepts (c₀.refs route) mappings) ∧
      (commit = true → done = call.refs) ∧ done ⊆ call.refs := by
    rcases hvotes with ⟨hall, rfl, rfl⟩ | ⟨hsome, ⟨n, rfl⟩, hsub⟩
    · exact ⟨true, [], rfl, iff_of_true rfl (expects_new.mp hall), fun _ => rfl,
        List.Subset.refl _⟩
    · exact ⟨false, [n], rfl, iff_of_false Bool.false_ne_true fun h => hsome (expects_new.mpr h),
        by simp, hsub⟩
  obtain ⟨commit, conflicts, rfl, hverdict, hdone, hsub⟩ := hdecide
  -- `TxnDecide`
  refine .step fun _ => ?_
  obtain ⟨c₃, resp₃, hop₃⟩ := Fleet.shardOp_of_action c₂ call.coordShard
    (.txnDecide t commit) rfl
  obtain ⟨d, rfl, hd, hstill₃, hset₃⟩ := Fleet.shardOp_txnDecide hop₃
  have hdecision : decide (LedgeResp.txnState (some d) = .txnState (some .commit)) = commit := by
    rw [hrecorded₂, if_pos ⟨rfl, rfl⟩] at hd
    cases commit <;> cases d <;> first | rfl | cases hd
  refine ⟨_, by
    rw [Fleet.step, hcall₂, bind_some, Fleet.stepCall]
    simp only [hop₃, map_some, hdecision]
    rfl, ?_⟩
  have hprepared₃ := hprepared₂.still hstill₃
  refine (sweeps call call.refs _ [] ((Fleet.calls_setCall ..).trans (if_pos rfl))
    (fun k p hp => ?_) (hrecorded₂.set hset₃)).bind fun c₄ hc₄ => ?_
  · have hlock := hprepared₃.locks k
    have hp' : c₃.lockAt k = some p := hp
    rw [hp'] at hlock
    obtain ⟨m, hm, heq⟩ := map_eq_some_iff.mp hlock.symm
    obtain ⟨x, hx, -⟩ := List.mem_map.mp (mem_of_getLast? hm)
    obtain ⟨hmem, hkey⟩ := mem_filter.mp hx
    refine ⟨(Prod.mk.inj heq).1.symm, ?_⟩
    rw [← of_decide_eq_true hkey]
    exact List.mem_map_of_mem (hsub hmem)
  obtain ⟨committed, hcall₄, hfree₄, hsettled, hrecorded₄, hreturns₄⟩ := hc₄
  -- `TxnEnd`
  refine .step fun _ => ?_
  obtain ⟨c₅, resp₅, hop₅⟩ := Fleet.shardOp_of_action c₄ call.coordShard (.txnEnd t) rfl
  obtain ⟨hstill₅, hset₅⟩ := Fleet.shardOp_txnEnd hop₅
  refine ⟨_, by rw [Fleet.step, hcall₄, bind_some, Fleet.stepCall]; simp only [hop₅]; rfl,
    .now ⟨⟨Fleet.result commit commit conflicts committed, ?_, ?_⟩, fun k => ?_,
      fun shard u => ?_⟩⟩
  · show c₅.returns ++ _ = _
    rw [hstill₅.returns, hreturns₄]
    show c₃.returns ++ _ = _
    rw [hprepared₃.returns]
    rfl
  · rw [isCommitted_result]
    refine meets_settled hprepared₃ hverdict hdone fun k => ?_
    exact (hstill₅.unchanged k).trans (hsettled k)
  · exact (hstill₅.lockAt k).trans (hfree₄ k)
  · exact ((hrecorded₄.set hset₅) shard u).trans (ite_self _)

variable {shard : ShardId} {refs : List Mapping}

theorem meets_of_only_group {committed : Bool} (op : LedgeOp) {r : Replica}
    (hgroups : groupByShard route mappings = [(shard, refs)])
    (h : Meets (c₀.shards shard).refs.tree.get refs committed r.refs.tree.get) :
    Meets (c₀.refs route) mappings committed ((c₀.setShard shard op r).refs route) := by
  obtain ⟨-, hrefs, hroute⟩ := only_group hgroups
  refine ⟨h.verdict.trans ⟨fun hall m hm => ?_, fun hall m hm => ?_⟩, fun hc n m hlast => ?_,
    fun n hkept => ?_⟩
  · rw [Fleet.refs, (hroute m hm).2]
    exact hall m (hroute m hm).1
  · have hmem := hrefs m hm
    have hexpected := hall m hmem
    rw [Fleet.refs, (hroute m hmem).2] at hexpected
    exact hexpected
  · obtain ⟨hm, hname⟩ := mem_filter.mp (mem_of_getLast? hlast)
    have hshard : route n = shard := by
      rw [← of_decide_eq_true hname]
      exact (hroute m hm).2
    rw [← lastMapping_group hgroups hshard] at hlast
    rw [Fleet.refs, Fleet.visibleAt_setShard, if_pos hshard, Fleet.refs, hshard]
    exact h.moved hc n m hlast
  · rw [Fleet.refs, Fleet.visibleAt_setShard]
    by_cases hshard : route n = shard
    · rw [← lastMapping_group hgroups hshard] at hkept
      rw [if_pos hshard, Fleet.refs, hshard]
      exact h.kept n hkept
    · rw [if_neg hshard]
      rfl

theorem singleShard (hfree : ∀ k, c₀.lockAt k = none)
    (hrecords : ∀ shard u, c₀.txnDecision shard u = none)
    (hgroups : groupByShard route mappings = [(shard, refs)]) (hlc : Nat → Nat) :
    ∃ c, c₀.commitSingleShard mappings shard refs hlc = some c ∧ Done route c₀ mappings c := by
  have hfree' : ∀ n, (c₀.shards shard).refs.tree.lock n = none := fun n => hfree (shard, n)
  have haction : (LedgeOp.refBatch (Fleet.batchOps refs hlc)).action =
      some (.batch (batchInput refs hlc)) := by
    rw [LedgeOp.action, mapM_toInput_batchOps]
    rfl
  obtain ⟨c, resp, hop⟩ := Fleet.shardOp_of_action c₀ shard _ haction
  obtain ⟨hsame, hquiet, outcomes, rfl, -⟩ := Fleet.shardOp_refBatch hop
  obtain ⟨a, ha, rfl, hresp⟩ := Fleet.shardOp_cases hop
  cases haction.symm.trans ha
  refine ⟨_, by rw [Fleet.commitSingleShard, hop]; rfl,
    ⟨Fleet.singleResult refs outcomes, ?_, ?_⟩, fun k => ?_, fun shard' u => ?_⟩
  · show (Fleet.setShard ..).returns ++ _ = _
    rw [hquiet.returns]
  · refine meets_of_only_group (.refBatch (Fleet.batchOps refs hlc)) hgroups ?_
    rcases batch_cases (c₀.shards shard) true (batchInput refs hlc) with
      ⟨hnone, hok, hslot⟩ | ⟨hblocked, hconflict, htree⟩
    · cases hresp.trans hok
      rw [Fleet.singleResult, if_pos (batchRefused_ok ..)]
      exact meets_of_batch hfree' (fun _ => ⟨hnone, hslot⟩)
        (fun h => by cases h)
    · cases hresp.trans hconflict
      rw [Fleet.singleResult, if_neg (batchRefused_ne_nil hblocked)]
      exact meets_of_batch hfree' (fun h => by cases h)
        (fun _ => ⟨hblocked, htree⟩)
  · exact (hquiet.lockAt k).trans (hfree k)
  · exact (hsame shard' u).trans (hrecords shard' u)

/-- **A call that runs alone** returns, whatever the clocks say, and is done. -/
theorem Fleet.commitAtomic_done (route : RefName → ShardId) (hfresh : c₀.Fresh) (t : TxnId)
    (mappings : List Mapping) (hlc ticks : Nat → Nat) : ∃ n c, c₀.exec route
        (.commitAtomic t mappings hlc :: (List.range n).map (fun i => .call t (ticks i))) = some c ∧
      Done route c₀ mappings c := by
  have hfree : ∀ k, c₀.lockAt k = none := fun k => hfresh.unlocked k.1 k.2
  have hrecords : ∀ shard u, c₀.txnDecision shard u = none := by
    intro shard u
    rw [Fleet.txnDecision, hfresh.records]
    rfl
  cases hgroups : groupByShard route mappings with
  | nil =>
    have hnil : mappings = [] := by
      refine eq_nil_iff_forall_not_mem.mpr fun m hm => ?_
      obtain ⟨refs, hgroup, -⟩ := exists_groupByShard route hm
      rw [hgroups] at hgroup
      cases hgroup
    subst hnil
    refine ⟨0, _, rfl, ⟨.committed [], rfl, ⟨?_, by simp [lastMapping], fun _ _ => rfl⟩⟩,
      hfree, hrecords⟩
    exact iff_of_true rfl (forall_mem_nil _)
  | cons group groups =>
    cases groups with
    | nil =>
      obtain ⟨c, hc, hdone⟩ := singleShard hfree hrecords hgroups hlc
      refine ⟨0, c, ?_, hdone⟩
      rw [Fleet.exec, Fleet.step, Fleet.commitAtomic, hgroups]
      simp only [hc]
      rfl
    | cons group' groups =>
      have hcalls : (c₀.setCall t (Call.new mappings (groupByShard route mappings))).calls t =
          some (Call.new mappings (groupByShard route mappings)) :=
        (Fleet.calls_setCall ..).trans (if_pos rfl)
      have hfree' : ∀ k, (c₀.setCall t (Call.new mappings
          (groupByShard route mappings))).lockAt k = none := hfree
      obtain ⟨n, c, hexec, hdone⟩ := twoPhase hfree' hrecords hcalls ticks
      refine ⟨n, c, ?_, hdone.returned, hdone.unlocked, hdone.records⟩
      rw [Fleet.exec, Fleet.step, Fleet.commitAtomic, hgroups]
      simp only [hfresh.calls]
      rw [← hgroups]
      exact hexec

/-- **Atomic commit is path independent**: on a single node, as one batch on one shard and by
two-phase commit on several, a call that runs alone on the same unlocked refs has the same
verdict and leaves the same target and version of every ref, and no lock or record. -/
theorem commit_atomic_path_independent {s : Store} {c : Fleet}
    (hfree : ∀ n, s.tree.lock n = none) (hfresh : c.Fresh)
    (hagree : ∀ n, c.refs route n = s.tree.get n) (t : TxnId) (mappings : List Mapping)
    (hlc hlc' ticks : Nat → Nat) :
    ∃ s' result n c' result', s.commitAtomic true mappings hlc = (s', .ok result) ∧
      c.exec route
        (.commitAtomic t mappings hlc' :: (List.range n).map (fun i => .call t (ticks i))) =
          some c' ∧
      c'.returns = [(mappings, result')] ∧ result'.isCommitted = result.isCommitted ∧
      (∀ n, shown (c'.refs route n) = shown (s'.tree.get n)) ∧
      (∀ n, s'.tree.lock n = none) ∧ (∀ k, c'.lockAt k = none) ∧
      ∀ shard u, c'.txnDecision shard u = none := by
  obtain ⟨s', result, hlocal, hmeets, hfree'⟩ :=
    Store.commitAtomic_meets hlc mappings hfree
  obtain ⟨n, c', hexec, ⟨result', hreturns, hmeets'⟩, hunlocked, hrecords⟩ :=
    Fleet.commitAtomic_done route hfresh t mappings hlc' ticks
  have hrefs : c.refs route = s.tree.get := funext hagree
  rw [hrefs] at hmeets'
  rw [hfresh.returns] at hreturns
  obtain ⟨hverdict, hshown⟩ := hmeets'.agree hmeets
  exact ⟨s', result, n, c', result', hlocal, hexec, hreturns, hverdict, hshown, hfree', hunlocked,
    hrecords⟩

end Paths

/-- One ref is named twice. -/
def createTwice : List Mapping :=
  [⟨.headsA, .fill 1, none⟩, ⟨.headsB, .fill 2, none⟩, ⟨.headsA, .fill 3, none⟩]

/-- On two shards and on one node, `refs/heads/a` moves once, to its last target. -/
theorem createTwice_path_independent : ∃ s' result n c' result',
    Store.commitAtomic ⟨.empty, []⟩ true createTwice id = (s', .ok result) ∧
    emptyFleet.exec twoShards
      (.commitAtomic (.fill 7) createTwice id ::
        (List.range n).map (fun i => .call (.fill 7) (id i))) = some c' ∧
    c'.returns = [(createTwice, result')] ∧ result'.isCommitted = result.isCommitted ∧
    (∀ n, shown (c'.refs twoShards n) = shown (s'.tree.get n)) ∧
    (∀ n, s'.tree.lock n = none) ∧ (∀ k, c'.lockAt k = none) ∧
    ∀ shard u, c'.txnDecision shard u = none :=
  commit_atomic_path_independent (fun _ => rfl) fresh_emptyFleet (fun _ => rfl) (.fill 7)
    createTwice id id id

end Ledge.Cluster
