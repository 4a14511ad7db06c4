import Ledge.Cluster.Txn
import Ledge.Lib.PresumedAbort
import Ledge.Raft.Lock

/-!
# Ledge.Cluster.Step

What one step can do to the **locks**, the **records** and the **refs** of all shards.

An operation on a shard is quiet (`Quiet`: locks and locked refs stay), takes a lock
(`Takes`), ends a lock for its transaction (`Ends`), or overwrites a ref without regard to
its lock (`Overwrites`); a quiet one may set a record. `Effect` lists the steps of calls and
passes by these classes, and `Fleet.step_effect` is the only place that looks at the
definition of `Fleet.step`.
-/

namespace Ledge.Cluster

open Ledge.Core Ledge.RefStore Ledge.Raft Ledge.Lib List Option

/-- A ref on its shard. -/
abbrev Key := ShardId × RefName

/-! ### Reading the trace -/

namespace ShardStep

/-- The entry that rolling `p` forward installs. -/
def staged (x : ShardStep) (n : RefName) (p : PreparedIntent) : RefEntry :=
  ⟨p.stagedTarget, p.stagedHlc, nextVersion (x.before.refs.tree.get n)⟩

/-- The staged entry of `t` on a ref is installed on behalf of `t`. -/
def Forwards (x : ShardStep) (t : TxnId) (k : Key) : Prop :=
  x.shard = k.1 ∧ x.op = .refCommitPrepared t k.2.asStr ∧
    ∃ p ∈ x.before.refs.tree.lock k.2, p.txnId = t ∧
      x.after.refs.tree.get k.2 = some (x.staged k.2 p)

/-- The lock of `t` on a ref ends and its staged entry is not installed. -/
def Releases (x : ShardStep) (t : TxnId) (k : Key) : Prop :=
  x.shard = k.1 ∧ x.after.refs.tree.holder k.2 ≠ some t ∧
    ∃ p ∈ x.before.refs.tree.lock k.2, p.txnId = t ∧
      x.after.refs.tree.get k.2 ≠ some (x.staged k.2 p)

/-- The ref of a mapping moves from the expected target to the mapped one, to the next
version. -/
def Moves (x : ShardStep) (shard : ShardId) (m : Mapping) : Prop :=
  x.shard = shard ∧ (x.before.refs.tree.get m.name).map RefEntry.target = m.expected ∧
    (x.after.refs.tree.get m.name).map (fun e => (e.target, e.version)) =
      some (m.target, nextVersion (x.before.refs.tree.get m.name))

instance (x : ShardStep) (t : TxnId) (k : Key) : Decidable (x.Forwards t k) :=
  inferInstanceAs (Decidable (_ ∧ _ ∧ ∃ p ∈ _, _))

instance (x : ShardStep) (t : TxnId) (k : Key) : Decidable (x.Releases t k) :=
  inferInstanceAs (Decidable (_ ∧ _ ∧ ∃ p ∈ _, _))

instance (x : ShardStep) (shard : ShardId) (m : Mapping) : Decidable (x.Moves shard m) :=
  inferInstanceAs (Decidable (_ ∧ _ ∧ _))

end ShardStep

namespace Fleet

/-- The lock on a key. -/
def lockAt (c : Fleet) (k : Key) : Option PreparedIntent := (c.shards k.1).refs.tree.lock k.2

/-- The transaction that has the lock on a key. -/
def holder (c : Fleet) (k : Key) : Option TxnId := (c.lockAt k).map PreparedIntent.txnId

/-- The visible entry of a key. -/
def visibleAt (c : Fleet) (k : Key) : Option RefEntry := (c.shards k.1).refs.tree.get k.2

/-- Some operation has rolled the lock of `t` forward. -/
def Forwarded (c : Fleet) (t : TxnId) (k : Key) : Prop := ∃ x ∈ c.trace, x.Forwards t k

/-- Some operation has released the lock of `t`. -/
def Released (c : Fleet) (t : TxnId) (k : Key) : Prop := ∃ x ∈ c.trace, x.Releases t k

/-- Some operation has moved the ref of a mapping. -/
def Moved (c : Fleet) (shard : ShardId) (m : Mapping) : Prop := ∃ x ∈ c.trace, x.Moves shard m

instance (c : Fleet) (t : TxnId) (k : Key) : Decidable (c.Forwarded t k) :=
  inferInstanceAs (Decidable (∃ x ∈ _, _))

instance (c : Fleet) (t : TxnId) (k : Key) : Decidable (c.Released t k) :=
  inferInstanceAs (Decidable (∃ x ∈ _, _))

instance (c : Fleet) (shard : ShardId) (m : Mapping) : Decidable (c.Moved shard m) :=
  inferInstanceAs (Decidable (∃ x ∈ _, _))

end Fleet

/-! ### Classes of operations -/

/-- An operation adds to the trace and leaves the calls, the passes and what has been
returned alone. -/
structure SameControl (c c' : Fleet) : Prop where
  calls : c'.calls = c.calls
  passes : c'.passes = c.passes
  returns : c'.returns = c.returns
  keepsMoved : ∀ shard m, c.Moved shard m → c'.Moved shard m

/-- Locks and locked refs stay, and nothing is rolled forward or released. -/
structure Quiet (c c' : Fleet) : Prop extends SameControl c c' where
  lockAt : ∀ k, c'.lockAt k = c.lockAt k
  visibleAt : ∀ k, c.lockAt k ≠ none → c'.visibleAt k = c.visibleAt k
  forwarded : ∀ t k, c'.Forwarded t k ↔ c.Forwarded t k
  released : ∀ t k, c'.Released t k ↔ c.Released t k

/-- Nothing changes on any ref. -/
structure Still (c c' : Fleet) : Prop extends Quiet c c' where
  unchanged : ∀ k, c'.visibleAt k = c.visibleAt k

/-- The lock on a key is taken with the intent `p`. -/
structure Takes (c c' : Fleet) (k : Key) (p : PreparedIntent) (expected : Option ObjectId) : Prop
    extends SameControl c c' where
  free : c.holder k = none ∨ c.holder k = some p.txnId
  expected : (c.visibleAt k).map RefEntry.target = expected
  lockAt : ∀ k', c'.lockAt k' = if k' = k then some p else c.lockAt k'
  visibleAt : ∀ k', c'.visibleAt k' = c.visibleAt k'
  forwarded : ∀ t k', c'.Forwarded t k' ↔ c.Forwarded t k'
  released : ∀ t k', c'.Released t k' ↔ c.Released t k'

/-- The lock of `t` on a key ends: its intent `p` is installed or not. -/
structure Ends (c c' : Fleet) (k : Key) (t : TxnId) (commit : Bool) (p : PreparedIntent) : Prop
    extends SameControl c c' where
  held : c.lockAt k = some p
  owner : p.txnId = t
  lockAt : ∀ k', c'.lockAt k' = if k' = k then none else c.lockAt k'
  visibleAt : ∀ k', k' ≠ k → c'.visibleAt k' = c.visibleAt k'
  forwarded : ∀ u k', c'.Forwarded u k' ↔ c.Forwarded u k' ∨ commit = true ∧ u = t ∧ k' = k
  released : ∀ u k', c'.Released u k' ↔ c.Released u k' ∨ commit = false ∧ u = t ∧ k' = k
  resolved : c'.visibleAt k = if commit then
    some ⟨p.stagedTarget, p.stagedHlc, nextVersion (c.visibleAt k)⟩ else c.visibleAt k
  moved : commit = true → ∀ m : Mapping, m.name = k.2 → m.target = p.stagedTarget →
    (c.visibleAt k).map RefEntry.target = m.expected → c'.Moved k.1 m

/-- A plain write to a key. -/
structure Overwrites (c c' : Fleet) (k : Key) : Prop extends SameControl c c' where
  lockAt : ∀ k', c'.lockAt k' = if k' = k then none else c.lockAt k'
  visibleAt : ∀ k', k' ≠ k → c'.visibleAt k' = c.visibleAt k'
  forwarded : ∀ t k', c'.Forwarded t k' ↔ c.Forwarded t k'
  released : ∀ t k', c'.Released t k' → c.Released t k' ∨ k' = k ∧ c.holder k = some t

/-- The decisions on all shards stay. -/
def SameRecords (c c' : Fleet) : Prop :=
  ∀ shard t, c'.txnDecision shard t = c.txnDecision shard t

/-- One decision changes. -/
def SetsRecord (c c' : Fleet) (shard : ShardId) (t : TxnId) (d : Option TxnDecision) : Prop :=
  ∀ shard' t', c'.txnDecision shard' t' =
    if shard' = shard ∧ t' = t then d else c.txnDecision shard' t'

/-- What becomes of a key that a commit or an abort of `t` is sent to. -/
inductive Resolves (c c' : Fleet) (k : Key) (t : TxnId) (commit : Bool) : Prop
  | ends (p : PreparedIntent) (h : Ends c c' k t commit p)
  | skips (hholder : c.holder k ≠ some t) (h : Still c c')

/-! ### Operations on one shard -/

section SetShard

variable (c : Fleet) (shard : ShardId) (op : LedgeOp) (r : Replica)

theorem Fleet.lockAt_setShard (k : Key) :
    (c.setShard shard op r).lockAt k =
      if k.1 = shard then r.refs.tree.lock k.2 else c.lockAt k := by
  simp only [Fleet.lockAt, Fleet.setShard, Function.update_apply]
  split_ifs <;> rfl

theorem Fleet.visibleAt_setShard (k : Key) :
    (c.setShard shard op r).visibleAt k =
      if k.1 = shard then r.refs.tree.get k.2 else c.visibleAt k := by
  simp only [Fleet.visibleAt, Fleet.setShard, Function.update_apply]
  split_ifs <;> rfl

theorem Fleet.txnDecision_setShard (shard' : ShardId) (t : TxnId) :
    (c.setShard shard op r).txnDecision shard' t =
      if shard' = shard then (r.txnRecords.lookup t).map TxnRecord.decision
      else c.txnDecision shard' t := by
  simp only [Fleet.txnDecision, Fleet.setShard, Function.update_apply]
  split_ifs <;> rfl

theorem Fleet.forwarded_setShard (t : TxnId) (k : Key) :
    (c.setShard shard op r).Forwarded t k ↔
      c.Forwarded t k ∨ ShardStep.Forwards ⟨shard, op, c.shards shard, r⟩ t k := by
  simp [Fleet.Forwarded, Fleet.setShard, or_and_right, exists_or]

theorem Fleet.released_setShard (t : TxnId) (k : Key) :
    (c.setShard shard op r).Released t k ↔
      c.Released t k ∨ ShardStep.Releases ⟨shard, op, c.shards shard, r⟩ t k := by
  simp [Fleet.Released, Fleet.setShard, or_and_right, exists_or]

theorem Fleet.moved_setShard {shard' : ShardId} {m : Mapping}
    (h : ShardStep.Moves ⟨shard, op, c.shards shard, r⟩ shard' m) :
    (c.setShard shard op r).Moved shard' m :=
  ⟨_, mem_append_right _ (mem_singleton_self _), h⟩

theorem sameControl_setShard : SameControl c (c.setShard shard op r) :=
  ⟨rfl, rfl, rfl, fun _ _ ⟨x, hx, hmoves⟩ => ⟨x, mem_append_left _ hx, hmoves⟩⟩

variable {c shard op r}

variable {t : TxnId} {n : RefName} {p : PreparedIntent}

/-- An operation that leaves the entry of a ref alone installs nothing on it. -/
theorem not_forwards_of_get {k : Key} (h : (c.shards shard).refs.tree.lock k.2 ≠ none →
      r.refs.tree.get k.2 = (c.shards shard).refs.tree.get k.2) :
    ¬ ShardStep.Forwards ⟨shard, op, c.shards shard, r⟩ t k := by
  intro hforwards
  obtain ⟨-, -, p, hp, -, hget⟩ := hforwards
  have hlock : (c.shards shard).refs.tree.lock k.2 = some p := hp
  rw [h (by rw [hlock]; simp)] at hget
  exact some_nextVersion_ne _ _ _ hget.symm

/-- An operation that leaves a lock with its transaction does not release it. -/
theorem not_releases_of_holder {k : Key}
    (h : (c.shards shard).refs.tree.holder k.2 = some t → r.refs.tree.holder k.2 = some t) :
    ¬ ShardStep.Releases ⟨shard, op, c.shards shard, r⟩ t k := by
  intro hreleases
  obtain ⟨-, hholder, p, hp, hown, -⟩ := hreleases
  have hlock : (c.shards shard).refs.tree.lock k.2 = some p := hp
  refine hholder (h ?_)
  rw [RefTree.holder, hlock, map_some, hown]

theorem quiet_setShard
    (hlock : ∀ n, r.refs.tree.lock n = (c.shards shard).refs.tree.lock n)
    (hget : ∀ n, (c.shards shard).refs.tree.lock n ≠ none →
      r.refs.tree.get n = (c.shards shard).refs.tree.get n) :
    Quiet c (c.setShard shard op r) where
  toSameControl := sameControl_setShard c shard op r
  lockAt k := by
    rw [Fleet.lockAt_setShard]
    split_ifs with hk
    · rw [hlock, Fleet.lockAt, hk]
    · rfl
  visibleAt k hk' := by
    rw [Fleet.visibleAt_setShard]
    split_ifs with hk
    · rw [Fleet.lockAt, hk] at hk'
      rw [hget k.2 hk', Fleet.visibleAt, hk]
    · rfl
  forwarded t k := by
    rw [Fleet.forwarded_setShard]
    exact or_iff_left (not_forwards_of_get (hget k.2))
  released t k := by
    rw [Fleet.released_setShard]
    refine or_iff_left (not_releases_of_holder fun hholder => ?_)
    rw [RefTree.holder, hlock]
    exact hholder

theorem still_of_tree (h : r.refs.tree = (c.shards shard).refs.tree) :
    Still c (c.setShard shard op r) where
  toQuiet := quiet_setShard (fun _ => by rw [h]) (fun _ _ => by rw [h])
  unchanged k := by
    rw [Fleet.visibleAt_setShard]
    split_ifs with hk
    · rw [h, Fleet.visibleAt, hk]
    · rfl

theorem sameRecords_setShard (h : r.txnRecords = (c.shards shard).txnRecords) :
    SameRecords c (c.setShard shard op r) := by
  intro shard' t
  rw [Fleet.txnDecision_setShard]
  split_ifs with hs
  · rw [h, hs]
    rfl
  · rfl

theorem setsRecord_setShard {d : Option TxnDecision}
    (h : ∀ t', (r.txnRecords.lookup t').map TxnRecord.decision =
      if t' = t then d else ((c.shards shard).txnRecords.lookup t').map TxnRecord.decision) :
    SetsRecord c (c.setShard shard op r) shard t d := by
  intro shard' t'
  rw [Fleet.txnDecision_setShard]
  by_cases hs : shard' = shard
  · rw [h, hs]
    simp only [true_and]
    rfl
  · rw [if_neg hs, if_neg fun hboth => hs hboth.1]

theorem lockAt_setShard_of {v : Option PreparedIntent}
    (h : ∀ m, r.refs.tree.lock m = if m = n then v else (c.shards shard).refs.tree.lock m)
    (k : Key) :
    (c.setShard shard op r).lockAt k = if k = (shard, n) then v else c.lockAt k := by
  rw [Fleet.lockAt_setShard]
  obtain ⟨shard', m⟩ := k
  by_cases hs : shard' = shard
  · subst hs
    rw [h]
    simp only [Prod.mk.injEq, true_and]
    rfl
  · rw [if_neg hs, if_neg fun heq => hs (Prod.mk.inj heq).1]

theorem visibleAt_setShard_of
    (h : ∀ m, m ≠ n → r.refs.tree.get m = (c.shards shard).refs.tree.get m) (k : Key)
    (hk : k ≠ (shard, n)) : (c.setShard shard op r).visibleAt k = c.visibleAt k := by
  rw [Fleet.visibleAt_setShard]
  obtain ⟨shard', m⟩ := k
  by_cases hs : shard' = shard
  · subst hs
    rw [if_pos rfl, h m fun heq => hk (by rw [heq])]
    rfl
  · rw [if_neg hs]

theorem takes_setShard {expected : Option ObjectId}
    (hfree : (c.shards shard).refs.tree.holder n = none ∨
      (c.shards shard).refs.tree.holder n = some p.txnId)
    (hexpected : ((c.shards shard).refs.tree.get n).map RefEntry.target = expected)
    (hlock : ∀ m, r.refs.tree.lock m =
      if m = n then some p else (c.shards shard).refs.tree.lock m)
    (hget : ∀ m, r.refs.tree.get m = (c.shards shard).refs.tree.get m) :
    Takes c (c.setShard shard op r) (shard, n) p expected where
  toSameControl := sameControl_setShard c shard op r
  free := hfree
  expected := hexpected
  lockAt := lockAt_setShard_of hlock
  visibleAt k := by
    rw [Fleet.visibleAt_setShard]
    split_ifs with hk
    · rw [hget, Fleet.visibleAt, hk]
    · rfl
  forwarded t k := by
    rw [Fleet.forwarded_setShard]
    exact or_iff_left (not_forwards_of_get fun _ => hget k.2)
  released t k := by
    rw [Fleet.released_setShard]
    refine or_iff_left (not_releases_of_holder fun hholder => ?_)
    rw [RefTree.holder, hlock]
    split_ifs with hn
    · -- the lock was free or the transaction's own
      rw [hn] at hholder
      rcases hfree with hnone | hown
      · rw [hnone] at hholder
        cases hholder
      · rw [← hholder, hown]
        rfl
    · exact hholder

theorem ends_setShard {commit : Bool} (hheld : (c.shards shard).refs.tree.lock n = some p)
    (howner : p.txnId = t)
    (hlock : ∀ m, r.refs.tree.lock m = if m = n then none else (c.shards shard).refs.tree.lock m)
    (hget : ∀ m, m ≠ n → r.refs.tree.get m = (c.shards shard).refs.tree.get m)
    (hcommit : commit = true → op = .refCommitPrepared t n.asStr ∧ r.refs.tree.get n =
      some ⟨p.stagedTarget, p.stagedHlc, nextVersion ((c.shards shard).refs.tree.get n)⟩)
    (habort : commit = false → r.refs.tree.get n = (c.shards shard).refs.tree.get n) :
    Ends c (c.setShard shard op r) (shard, n) t commit p where
  toSameControl := sameControl_setShard c shard op r
  held := hheld
  owner := howner
  lockAt := lockAt_setShard_of hlock
  visibleAt := visibleAt_setShard_of hget
  forwarded u k := by
    rw [Fleet.forwarded_setShard]
    refine or_congr_right ⟨fun hforwards => ?_, fun h => ?_⟩
    · by_cases hn : k.2 = n
      · cases commit with
        | true =>
          obtain ⟨hs, -, p', hp', hown, -⟩ := hforwards
          have heq : some p' = some p := by
            rw [← hheld, ← hn]
            exact hp'.symm
          rw [some.inj heq, howner] at hown
          exact ⟨rfl, hown.symm, Prod.ext hs.symm hn⟩
        | false =>
          refine absurd hforwards (not_forwards_of_get fun _ => ?_)
          rw [hn]
          exact habort rfl
      · exact absurd hforwards (not_forwards_of_get fun _ => hget k.2 hn)
    · obtain ⟨hc, rfl, rfl⟩ := h
      obtain ⟨hop, hinstalled⟩ := hcommit hc
      exact ⟨rfl, hop, p, hheld, howner, hinstalled⟩
  released u k := by
    rw [Fleet.released_setShard]
    refine or_congr_right ⟨fun hreleases => ?_, fun h => ?_⟩
    · by_cases hn : k.2 = n
      · obtain ⟨hs, -, p', hp', hown, hne⟩ := hreleases
        have heq : some p' = some p := by
          rw [← hheld, ← hn]
          exact hp'.symm
        cases heq
        cases commit with
        | true =>
          refine absurd ?_ hne
          rw [hn]
          exact (hcommit rfl).2
        | false => exact ⟨rfl, hown.symm.trans howner, Prod.ext hs.symm hn⟩
      · refine absurd hreleases (not_releases_of_holder fun hholder => ?_)
        rw [RefTree.holder, hlock, if_neg hn]
        exact hholder
    · obtain ⟨hc, rfl, rfl⟩ := h
      refine ⟨rfl, ?_, p, hheld, howner, ?_⟩
      · rw [RefTree.holder, hlock]
        simp
      · show r.refs.tree.get n ≠ _
        rw [habort hc]
        exact fun heq => some_nextVersion_ne _ _ _ heq.symm
  resolved := by
    rw [Fleet.visibleAt_setShard, if_pos rfl]
    cases commit with
    | true => exact (hcommit rfl).2
    | false => exact habort rfl
  moved hc m hname htarget hexpected := by
    obtain ⟨-, hinstalled⟩ := hcommit hc
    have hn : m.name = n := hname
    refine Fleet.moved_setShard c shard op r ⟨rfl, ?_, ?_⟩
    · rw [hn]
      exact hexpected
    · show (r.refs.tree.get m.name).map _ = _
      rw [hn, hinstalled, htarget]
      rfl

theorem overwrites_setShard (hop : ∀ t s, op ≠ .refCommitPrepared t s)
    (hlock : ∀ m, r.refs.tree.lock m = if m = n then none else (c.shards shard).refs.tree.lock m)
    (hget : ∀ m, m ≠ n → r.refs.tree.get m = (c.shards shard).refs.tree.get m) :
    Overwrites c (c.setShard shard op r) (shard, n) where
  toSameControl := sameControl_setShard c shard op r
  lockAt := lockAt_setShard_of hlock
  visibleAt := visibleAt_setShard_of hget
  forwarded t k := by
    rw [Fleet.forwarded_setShard]
    exact or_iff_left fun hforwards => hop _ _ hforwards.2.1
  released t k h := by
    rw [Fleet.released_setShard] at h
    refine h.imp id fun hreleases => ?_
    by_cases hn : k.2 = n
    · obtain ⟨hs, -, p, hp, hown, -⟩ := hreleases
      have hheld : (c.shards shard).refs.tree.lock n = some p := hn ▸ hp
      refine ⟨Prod.ext hs.symm hn, ?_⟩
      show ((c.shards shard).refs.tree.lock n).map _ = _
      rw [hheld, map_some, hown]
    · refine absurd hreleases (not_releases_of_holder fun hholder => ?_)
      rw [RefTree.holder, hlock, if_neg hn]
      exact hholder

end SetShard

/-! ### The commands -/

section Commands

variable {c c' : Fleet} {shard : ShardId} {resp : LedgeResp}

variable {op : LedgeOp} {name : String} {t : TxnId} {commit : Bool}

theorem Fleet.shardOp_cases (h : c.shardOp shard op = some (c', resp)) :
    ∃ a, op.action = some a ∧
      c' = c.setShard shard op ((c.shards shard).perform true a).1 ∧
      resp = ((c.shards shard).perform true a).2 := by
  rw [Fleet.shardOp, applyOne_eq, Option.map_map, map_eq_some_iff] at h
  obtain ⟨a, ha, heq⟩ := h
  obtain ⟨h₁, h₂⟩ := Prod.mk.inj heq
  exact ⟨a, ha, h₁.symm, h₂.symm⟩

theorem action_ref {a : Action} {g : RefName → AppliedOp}
    (hop : op.action = ((RefName.new name).map g).toOption.map Action.ref)
    (h : op.action = some a) :
    ∃ n, RefName.new name = .ok n ∧ a = .ref (g n) := by
  rw [hop] at h
  cases hname : RefName.new name with
  | error e =>
    rw [hname] at h
    cases h
  | ok n =>
    rw [hname] at h
    exact ⟨n, rfl, (some.inj h).symm⟩

/-- What a decision means to the protocol. -/
def toVerdict : TxnDecision → PresumedAbort.Verdict
  | .pending => .pending
  | .commit => .commit
  | .abort => .abort

theorem toVerdict_eq_commit {d : TxnDecision} : toVerdict d = .commit ↔ d = .commit := by
  cases d <;> simp [toVerdict]

/-- `TxnDecide` is the protocol's request for a verdict. -/
theorem toVerdict_decideTxn (m : TxnRecords) (t : TxnId) (commit : Bool) :
    toVerdict (decideTxn m t commit).2 =
      PresumedAbort.verdict (((m.lookup t).map TxnRecord.decision).map toVerdict) commit := by
  rw [decideTxn]
  rcases m.lookup t with _ | ⟨_ | _ | _, participants⟩ <;> cases commit <;> rfl

theorem Fleet.shardOp_txnBegin {participants : List ShardId}
    (h : c.shardOp shard (.txnBegin t participants) = some (c', resp)) :
    Still c c' ∧ SetsRecord c c' shard t (some .pending) := by
  obtain ⟨a, ha, rfl, -⟩ := shardOp_cases h
  cases ha
  refine ⟨still_of_tree rfl, setsRecord_setShard fun t' => ?_⟩
  simp only [Replica.perform]
  split_ifs with ht
  · rw [ht, Finmap.lookup_insert]
    rfl
  · rw [Finmap.lookup_insert_of_ne _ ht]

theorem Fleet.shardOp_txnDecide (h : c.shardOp shard (.txnDecide t commit) = some (c', resp)) :
    ∃ d, resp = .txnState (some d) ∧
      toVerdict d = PresumedAbort.verdict ((c.txnDecision shard t).map toVerdict) commit ∧
      Still c c' ∧ SetsRecord c c' shard t (some d) := by
  obtain ⟨a, ha, rfl, rfl⟩ := shardOp_cases h
  cases ha
  refine ⟨(decideTxn (c.shards shard).txnRecords t commit).2, rfl, toVerdict_decideTxn _ _ _,
    still_of_tree rfl, setsRecord_setShard fun t' => ?_⟩
  simp only [Replica.perform, decideTxn]
  by_cases ht : t' = t
  · rw [if_pos ht, ht, Finmap.lookup_insert]
    rfl
  · rw [if_neg ht, Finmap.lookup_insert_of_ne _ ht]

theorem Fleet.shardOp_txnEnd (h : c.shardOp shard (.txnEnd t) = some (c', resp)) :
    Still c c' ∧ SetsRecord c c' shard t none := by
  obtain ⟨a, ha, rfl, -⟩ := shardOp_cases h
  cases ha
  refine ⟨still_of_tree rfl, setsRecord_setShard fun t' => ?_⟩
  simp only [Replica.perform]
  split_ifs with ht
  · rw [ht, Finmap.lookup_erase]
    rfl
  · rw [Finmap.lookup_erase_ne ht]

theorem Fleet.shardOp_refPrepare {coordShard : Nat} {n : RefName} {target : ObjectId}
    {expected : Option ObjectId} {hlc : Nat}
    (h : c.shardOp shard (.refPrepare t coordShard n.asStr target expected hlc) =
      some (c', resp)) :
    SameRecords c c' ∧
      ((resp = .vote true ∧
          Takes c c' (shard, n) ⟨t, coordShard, target, hlc⟩ expected) ∨
        (resp = .vote false ∧ Still c c' ∧ ((∃ u, u ≠ t ∧ c.holder (shard, n) = some u) ∨
          (c.visibleAt (shard, n)).map RefEntry.target ≠ expected))) := by
  obtain ⟨a, ha, rfl, rfl⟩ := shardOp_cases h
  obtain ⟨n', hn', rfl⟩ := action_ref rfl ha
  rw [RefName.new_asStr] at hn'
  cases hn'
  refine ⟨sameRecords_setShard rfl, ?_⟩
  rcases prepare_cases (c.shards shard) true t coordShard n target expected hlc with
    ⟨hvote, hfree, hexpected, hlock, hget⟩ | ⟨hvote, hwhy, htree⟩
  · exact Or.inl ⟨hvote, takes_setShard hfree hexpected hlock hget⟩
  · exact Or.inr ⟨hvote, still_of_tree htree, hwhy⟩

theorem Fleet.shardOp_phaseTwo (h : c.shardOp shard (phaseTwoOp commit t name) = some (c', resp)) :
    ∃ n, RefName.new name = .ok n ∧ SameRecords c c' ∧ Resolves c c' (shard, n) t commit := by
  obtain ⟨a, ha, rfl, -⟩ := shardOp_cases h
  cases commit with
  | true =>
    have ha' : LedgeOp.action (.refCommitPrepared t name) = some a := ha
    obtain ⟨n, hn, rfl⟩ := action_ref rfl ha'
    refine ⟨n, hn, sameRecords_setShard rfl, ?_⟩
    rcases commitPrepared_cases (c.shards shard) true t n with
      ⟨p, hheld, howner, hlock, hget, hinstalled⟩ | ⟨hother, htree⟩
    · refine .ends p (ends_setShard hheld howner hlock hget (fun _ => ⟨?_, hinstalled⟩)
        nofun)
      rw [RefName.asStr_of_new hn]
      rfl
    · exact .skips hother (still_of_tree htree)
  | false =>
    have ha' : LedgeOp.action (.refAbortPrepared t name) = some a := ha
    obtain ⟨n, hn, rfl⟩ := action_ref rfl ha'
    refine ⟨n, hn, sameRecords_setShard rfl, ?_⟩
    rcases abortPrepared_cases (c.shards shard) true t n with
      ⟨p, hheld, howner, hlock, hget⟩ | ⟨hother, htree⟩
    · exact .ends p (ends_setShard hheld howner hlock (fun m _ => hget m)
        nofun (fun _ => hget n))
    · exact .skips hother (still_of_tree htree)

theorem Fleet.shardOp_plain {n : RefName}
    (hop : (∃ target expected hlc, op = .refUpdate n.asStr target expected hlc) ∨
      ∃ expected hlc, op = .refDelete n.asStr expected hlc)
    (h : c.shardOp shard op = some (c', resp)) :
    SameRecords c c' ∧ (Quiet c c' ∨ Overwrites c c' (shard, n)) := by
  obtain ⟨a, ha, rfl, -⟩ := shardOp_cases h
  have hplain : ∃ op' : AppliedOp, a = .ref op' ∧ op'.name = n ∧
      ((∃ n target expected hlc, op' = .update n target expected hlc) ∨
        ∃ n expected hlc, op' = .delete n expected hlc) := by
    rcases hop with ⟨target, expected, hlc, rfl⟩ | ⟨expected, hlc, rfl⟩
    · obtain ⟨n', hn', rfl⟩ := action_ref rfl ha
      rw [RefName.new_asStr] at hn'
      cases hn'
      exact ⟨_, rfl, rfl, Or.inl ⟨n, target, expected, hlc, rfl⟩⟩
    · obtain ⟨n', hn', rfl⟩ := action_ref rfl ha
      rw [RefName.new_asStr] at hn'
      cases hn'
      exact ⟨_, rfl, rfl, Or.inr ⟨n, expected, hlc, rfl⟩⟩
  have hcommit : ∀ t s, op ≠ .refCommitPrepared t s := by
    intro t s heq
    rcases hop with ⟨_, _, _, hop⟩ | ⟨_, _, hop⟩
    · rw [hop] at heq
      cases heq
    · rw [hop] at heq
      cases heq
  obtain ⟨op', rfl, rfl, hkind⟩ := hplain
  refine ⟨sameRecords_setShard rfl, ?_⟩
  rcases plain_cases (c.shards shard) true op' hkind with htree | ⟨hlock, hget⟩
  · exact Or.inl (still_of_tree htree).toQuiet
  · exact Or.inr (overwrites_setShard hcommit hlock hget)

end Commands

/-! ### Grouping -/

section Grouping

variable {route : RefName → ShardId} {mappings : List Mapping}

theorem mem_groupByShard {shard : ShardId} {refs : List Mapping}
    (h : (shard, refs) ∈ groupByShard route mappings) (m : Mapping) :
    m ∈ refs ↔ m ∈ mappings ∧ route m.name = shard := by
  obtain ⟨shard', -, heq⟩ := List.mem_map.mp h
  cases heq
  rw [(perm_insertionSort _ _).mem_iff, mem_filter, decide_eq_true_iff]

theorem exists_groupByShard (route : RefName → ShardId) {m : Mapping} (h : m ∈ mappings) :
    ∃ refs, (route m.name, refs) ∈ groupByShard route mappings ∧ m ∈ refs := by
  have hshard : route m.name ∈
      (mappings.map (fun m => route m.name)).dedup.insertionSort (· ≤ ·) := by
    rw [(perm_insertionSort _ _).mem_iff, mem_dedup]
    exact List.mem_map_of_mem h
  have hgroup := List.mem_map_of_mem (f := fun shard =>
    (shard, (mappings.filter (fun m => route m.name = shard)).insertionSort
      (fun x y => ¬ y.name.bytes < x.name.bytes))) hshard
  exact ⟨_, hgroup, (mem_groupByShard hgroup m).mpr ⟨h, rfl⟩⟩

/-- An only group has all the mappings, in the order of their names. -/
theorem only_group {shard : ShardId} {refs : List Mapping}
    (h : groupByShard route mappings = [(shard, refs)]) :
    refs = (mappings.filter (fun m => route m.name = shard)).insertionSort
        (fun x y => ¬ y.name.bytes < x.name.bytes) ∧
      (∀ m ∈ refs, m ∈ mappings) ∧ ∀ m ∈ mappings, m ∈ refs ∧ route m.name = shard := by
  have hgroup : (shard, refs) ∈ groupByShard route mappings := h ▸ mem_singleton_self _
  refine ⟨?_, fun m hm => ((mem_groupByShard hgroup m).mp hm).1, fun m hm => ?_⟩
  · obtain ⟨shard', -, heq⟩ := List.mem_map.mp hgroup
    cases heq
    rfl
  · obtain ⟨refs', hgroup', hmem⟩ := exists_groupByShard route hm
    rw [h] at hgroup'
    obtain ⟨hshard, rfl⟩ := Prod.mk.inj (mem_singleton.mp hgroup')
    exact ⟨hmem, hshard⟩

/-- The refs of a call are its mappings, each on its shard. -/
def Call.Routed (route : RefName → ShardId) (call : Call) : Prop :=
  ∀ x, x ∈ call.refs ↔ x.2 ∈ call.mappings ∧ x.1 = route x.2.name

theorem routed_new : (Call.new mappings (groupByShard route mappings)).Routed route := by
  intro x
  obtain ⟨shard, m⟩ := x
  show (shard, m) ∈ flatMap _ _ ↔ _
  rw [mem_flatMap]
  constructor
  · intro h
    obtain ⟨⟨shard', refs⟩, hgroup, hmem⟩ := h
    obtain ⟨m', hm', heq⟩ := List.mem_map.mp hmem
    obtain ⟨rfl, rfl⟩ := Prod.mk.inj heq
    have hboth := (mem_groupByShard hgroup m').mp hm'
    exact ⟨hboth.1, hboth.2.symm⟩
  · intro h
    obtain ⟨hm, hshard⟩ := h
    have hshard' : shard = route m.name := hshard
    subst hshard'
    obtain ⟨refs, hgroup, hmem⟩ := exists_groupByShard route hm
    exact ⟨_, hgroup, List.mem_map_of_mem hmem⟩

end Grouping

/-! ### The single-shard path -/

section SingleShard

variable {c c' : Fleet} {shard : ShardId} {resp : LedgeResp} {refs : List Mapping}
  {hlc : Nat → Nat}

theorem mapM_toInput_batchOps : (Fleet.batchOps refs hlc).mapM Raft.BatchOp.toInput =
    some (batchInput refs hlc) := by
  rw [Fleet.batchOps, batchInput]
  induction refs generalizing hlc with
  | nil => rfl
  | cons m refs ih =>
    rw [mapIdx_cons, mapIdx_cons, mapM_cons, ih, Raft.BatchOp.toInput,
      RefName.new_asStr]
    rfl

/-- With distinct names, the last entry planned for a ref is that of its mapping. -/
theorem moves_of_planned {t : RefTree} {m : Mapping}
    (hnone : batchConflicts t (batchInput refs hlc) = [])
    (hnodup : (refs.map Mapping.name).Nodup) (hm : m ∈ refs) :
    (t.get m.name).map RefEntry.target = m.expected ∧
      ∃ h, lastFor m.name (batchPlanned t (batchInput refs hlc)) =
        some ⟨m.target, h, nextVersion (t.get m.name)⟩ := by
  have hinput : ∀ op ∈ batchInput refs hlc, ∃ m' ∈ refs,
      op.name = m'.name ∧ op.target = m'.target ∧ op.expected = m'.expected := by
    intro op hop
    obtain ⟨i, hi, heq⟩ := mem_mapIdx.mp hop
    exact ⟨refs[i], getElem_mem hi, by rw [← heq], by rw [← heq], by rw [← heq]⟩
  obtain ⟨op, hop, hname, hexpected⟩ := exists_batchInput hlc hm
  refine ⟨?_, ?_⟩
  · rw [← hname, ← hexpected]
    exact (batchConflicts_eq_nil_iff.mp hnone op hop).2
  · obtain ⟨e, he⟩ := exists_lastFor_batchPlanned hnone hop
    rw [hname] at he
    obtain ⟨op', hop', hname', rfl⟩ := lastFor_batchPlanned hnone he
    obtain ⟨m', hm', hn', ht', -⟩ := hinput op' hop'
    obtain rfl : m' = m := inj_on_of_nodup_map hnodup hm' hm (hn'.symm.trans hname')
    exact ⟨op'.hlc, by rw [he, ht']⟩

theorem batchRefused_ok (refs : List Mapping) (planned : List (RefName × RefEntry)) :
    Fleet.batchRefused refs (planned.map (fun x => .ok x.2)) = [] := by
  refine filterMap_eq_nil_iff.mpr fun x hx => ?_
  obtain ⟨m, outcome⟩ := x
  obtain ⟨y, -, rfl⟩ := List.mem_map.mp (of_mem_zip hx).2
  rfl

theorem exists_batchConflict (t : RefTree) (conflicts : List (RefName × RefEntry))
    (op : RefStore.BatchOp) : ∃ e, batchConflict t conflicts op = .conflict e := by
  rw [batchConflict]
  split
  · exact ⟨_, rfl⟩
  · exact ⟨_, rfl⟩

theorem batchRefused_eq (t : RefTree) (conflicts : List (RefName × RefEntry)) :
    Fleet.batchRefused refs ((batchInput refs hlc).map (batchConflict t conflicts)) =
      refs.map Mapping.name := by
  induction refs generalizing hlc with
  | nil => rfl
  | cons m refs ih =>
    obtain ⟨e, he⟩ := exists_batchConflict t conflicts ⟨m.name, m.target, m.expected, hlc 0⟩
    rw [batchInput, mapIdx_cons, map_cons, Fleet.batchRefused, zip_cons_cons, he]
    exact congrArg (m.name :: ·) (@ih fun i => hlc (i + 1))

theorem batchRefused_ne_nil {t : RefTree}
    (hblocked : batchConflicts t (batchInput refs hlc) ≠ []) :
    Fleet.batchRefused refs ((batchInput refs hlc).map
      (batchConflict t (batchConflicts t (batchInput refs hlc)))) ≠ [] := by
  rw [batchRefused_eq]
  cases refs with
  | nil => exact absurd rfl hblocked
  | cons m refs => exact cons_ne_nil _ _

/-- One batch on one shard: it is quiet, and if it is reported as committed it has moved its
refs. -/
theorem Fleet.shardOp_refBatch (h : c.shardOp shard (.refBatch (batchOps refs hlc)) =
      some (c', resp)) :
    SameRecords c c' ∧ Quiet c c' ∧ ∃ outcomes, resp = .batchResult outcomes ∧
      ∀ entries, singleResult refs outcomes = .committed entries →
        (refs.map Mapping.name).Nodup → ∀ m ∈ refs, c'.Moved shard m := by
  obtain ⟨a, ha, rfl, rfl⟩ := shardOp_cases h
  rw [LedgeOp.action, mapM_toInput_batchOps] at ha
  cases ha
  refine ⟨sameRecords_setShard rfl, ?_, ?_⟩
  · refine quiet_setShard (lock_perform_batch _ _ _) fun n hn => ?_
    exact RefTree.get_congr (slot_perform_batch _ _ _ hn)
  · rcases batch_cases (c.shards shard) true (batchInput refs hlc) with
      ⟨hnone, hresp, hslot⟩ | ⟨hblocked, hresp, -⟩
    · refine ⟨_, hresp, fun entries _ hnodup m hm => ?_⟩
      obtain ⟨hexpected, hlc', hlast⟩ := moves_of_planned hnone hnodup hm
      refine moved_setShard c shard _ _ ⟨rfl, hexpected, ?_⟩
      show (RefTree.get _ m.name).map _ = _
      rw [RefTree.get, hslot, hlast]
      simp [RefSlot.visible, RefSlot.ofCommitted, nextVersion]
      cases (c.shards shard).refs.tree.get m.name <;> simp
    · refine ⟨_, hresp, fun entries hresult => ?_⟩
      rw [singleResult, if_neg (batchRefused_ne_nil hblocked)] at hresult
      cases hresult

end SingleShard

/-! ### Steps -/

/-- The locks that a pass still has in hand. -/
def Pass.items : Pass → List LockItem
  | .scan _ found => found
  | .resolve rest _ => rest
  | .presume item rest _ | .act item _ rest _ => item :: rest
  | .idle | .collect _ | .done => []

/-- The records that a pass is going to drop. -/
def Pass.toGc : Pass → List (TxnId × ShardId)
  | .resolve _ toGc | .presume _ _ toGc | .act _ _ _ toGc | .collect toGc => toGc
  | .idle | .scan .. | .done => []

/-- The lock that a pass is about to resolve, and how. -/
def Pass.acting : Pass → Option (LockItem × Bool)
  | .act item commit _ _ => some (item, commit)
  | .idle | .scan .. | .resolve .. | .presume .. | .collect _ | .done => none

/-- The key of a plain write. -/
def Move.written (route : RefName → ShardId) : Move → Option Key
  | .update name .. | .delete name .. => some (route name, name)
  | .commitAtomic .. | .call .. | .crash _ | .startPass .. | .pass .. | .stopPass _ => none

theorem mem_gcInsert {x y : TxnId × ShardId} {l : List (TxnId × ShardId)} :
    x ∈ gcInsert y l ↔ x = y ∨ x ∈ l := by
  induction l with
  | nil => simp [gcInsert]
  | cons z l ih =>
    rw [gcInsert]
    split_ifs with heq hlt
    · rw [heq]
      simp
    · simp
    · rw [mem_cons, mem_cons]
      tauto

/-- What a step is, by the classes of its operation. -/
inductive Effect (route : RefName → ShardId) (c : Fleet) : Move → Fleet → Prop
  | single {t mappings hlc c' result} (hquiet : Quiet c c') (hrecords : SameRecords c c')
      (hmoved : ∀ entries, result = .committed entries → (mappings.map Mapping.name).Nodup →
        ∀ m ∈ mappings, c'.Moved (route m.name) m) :
      Effect route c (.commitAtomic t mappings hlc) (c'.addReturn mappings result)
  | submit {t mappings hlc call} (hnew : c.calls t = none) (hrouted : call.Routed route)
      (hphase : call.phase = .begin) :
      Effect route c (.commitAtomic t mappings hlc) (c.setCall t call)
  | begin {t hlc call c'} (hcall : c.calls t = some call) (hphase : call.phase = .begin)
      (hquiet : Quiet c c') (hrecords : SetsRecord c c' call.coordShard t (some .pending)) :
      Effect route c (.call t hlc) (c'.setCall t { call with phase := Fleet.afterYes call.refs })
  | yes {t hlc call c' shard m rest} (hcall : c.calls t = some call)
      (hphase : call.phase = .prepare ((shard, m) :: rest)) (hrecords : SameRecords c c')
      (htakes : Takes c c' (shard, m.name) ⟨t, call.coordShard, m.target, hlc⟩ m.expected) :
      Effect route c (.call t hlc) (c'.setCall t { call with phase := Fleet.afterYes rest })
  | no {t hlc call c' shard m rest} (hcall : c.calls t = some call)
      (hphase : call.phase = .prepare ((shard, m) :: rest)) (hrecords : SameRecords c c')
      (hquiet : Quiet c c') :
      Effect route c (.call t hlc) (c'.setCall t { call with phase := .decide false [m.name] })
  | decide {t hlc call c' allYes conflicts d} (hcall : c.calls t = some call)
      (hphase : call.phase = .decide allYes conflicts) (hquiet : Quiet c c')
      (hrecords : SetsRecord c c' call.coordShard t (some d))
      (hverdict : toVerdict d = PresumedAbort.verdict
        ((c.txnDecision call.coordShard t).map toVerdict) allYes) :
      Effect route c (.call t hlc) (c'.setCall t { call with
        phase := .sweep (d = .commit) allYes conflicts call.refs [] })
  | sweep {t hlc call c' commit allYes conflicts shard m rest committed committed'}
      (hcall : c.calls t = some call)
      (hphase : call.phase = .sweep commit allYes conflicts ((shard, m) :: rest) committed)
      (hrecords : SameRecords c c') (hresolves : Resolves c c' (shard, m.name) t commit) :
      Effect route c (.call t hlc) (c'.setCall t { call with
        phase := .sweep commit allYes conflicts rest committed' })
  | finish {t hlc call c' commit allYes conflicts committed} (hcall : c.calls t = some call)
      (hphase : call.phase = .sweep commit allYes conflicts [] committed) (hquiet : Quiet c c')
      (hrecords : SetsRecord c c' call.coordShard t none) :
      Effect route c (.call t hlc)
        ((c'.setCall t { call with
          phase := .returned (Fleet.result commit allYes conflicts committed) }).addReturn
            call.mappings (Fleet.result commit allYes conflicts committed))
  | crash {t call} (hcall : c.calls t = some call) (hphase : ∀ r, call.phase ≠ .returned r) :
      Effect route c (.crash t) (c.setCall t { call with phase := .failed })
  /-- A pass goes on without an operation, or with one that reads. -/
  | plan {m i p} (hitems : ∀ x ∈ p.items,
        x ∈ (c.passes i).items ∨ ∃ k, c.lockAt k = some x.intent)
      (htoGc : ∀ x ∈ p.toGc, x ∈ (c.passes i).toGc) (hacting : p.acting = none) :
      Effect route c m (c.setPass i p)
  | read {i stale item commit rest toGc} (hpass : c.passes i = .resolve (item :: rest) toGc)
      (hdecision : c.txnDecision item.intent.coordShard item.intent.txnId =
        some (if commit then .commit else .abort)) :
      Effect route c (.pass i stale) (c.setPass i (.act item commit rest toGc))
  | presume {i stale item rest toGc c' d} (hpass : c.passes i = .presume item rest toGc)
      (hquiet : Quiet c c')
      (hrecords : SetsRecord c c' item.intent.coordShard item.intent.txnId (some d))
      (hverdict : toVerdict d = PresumedAbort.verdict
        ((c.txnDecision item.intent.coordShard item.intent.txnId).map toVerdict) false) :
      Effect route c (.pass i stale) (c'.setPass i (.act item (d = .commit) rest toGc))
  | act {i stale item commit rest toGc c' n} (hpass : c.passes i = .act item commit rest toGc)
      (hrecords : SameRecords c c')
      (hresolves : Resolves c c' (item.shard, n) item.intent.txnId commit) :
      Effect route c (.pass i stale) (c'.setPass i (.resolve rest
        (if commit then gcInsert (item.intent.txnId, item.intent.coordShard) toGc else toGc)))
  | collect {i stale t shard rest c'} (hpass : c.passes i = .collect ((t, shard) :: rest))
      (hquiet : Quiet c c') (hrecords : SetsRecord c c' shard t none) :
      Effect route c (.pass i stale) (c'.setPass i (.collect rest))
  | write {m k c'} (hwritten : m.written route = some k) (hrecords : SameRecords c c')
      (hwrites : Quiet c c' ∨ Overwrites c c' k) : Effect route c m c'

section StepEffect

variable {route : RefName → ShardId} {c c' : Fleet}

theorem quiet_refl (c : Fleet) : Quiet c c where
  calls := rfl
  passes := rfl
  returns := rfl
  keepsMoved _ _ := id
  lockAt _ := rfl
  visibleAt _ _ := rfl
  forwarded _ _ := Iff.rfl
  released _ _ := Iff.rfl

theorem Fleet.commitAtomic_effect {t : TxnId} {mappings : List Mapping} {hlc : Nat → Nat}
    (h : c.commitAtomic route t mappings hlc = some c') :
    Effect route c (.commitAtomic t mappings hlc) c' := by
  rw [commitAtomic] at h
  split at h
  next hgroups =>
    cases h
    refine .single (quiet_refl c) (fun _ _ => rfl) fun _ _ _ m hm => ?_
    obtain ⟨refs, hgroup, -⟩ := exists_groupByShard route hm
    rw [hgroups] at hgroup
    cases hgroup
  next shard refs hgroups =>
    obtain ⟨hrefs, -, hroute⟩ := only_group hgroups
    obtain ⟨⟨c'', resp⟩, hop, rfl⟩ := map_eq_some_iff.mp h
    obtain ⟨hrecords, hquiet, outcomes, rfl, hmoved⟩ := shardOp_refBatch hop
    refine .single hquiet hrecords fun entries hresult hnodup m hm => ?_
    rw [(hroute m hm).2]
    refine hmoved entries hresult ?_ m (hroute m hm).1
    rw [hrefs]
    refine ((perm_insertionSort _ _).map _).nodup_iff.mpr ?_
    exact hnodup.sublist (filter_sublist.map _)
  next =>
    split at h
    next hnew =>
      cases h
      exact .submit hnew routed_new rfl
    next => cases h

theorem Fleet.stepCall_effect {t : TxnId} {hlc : Nat} {call : Call} (hcall : c.calls t = some call)
    (h : c.stepCall t hlc call = some c') : Effect route c (.call t hlc) c' := by
  rw [stepCall] at h
  split at h
  next hphase =>
    obtain ⟨⟨c'', resp⟩, hop, rfl⟩ := map_eq_some_iff.mp h
    obtain ⟨hstill, hrecords⟩ := shardOp_txnBegin hop
    exact .begin hcall hphase hstill.toQuiet hrecords
  next => cases h
  next shard m rest hphase =>
    obtain ⟨⟨c'', resp⟩, hop, rfl⟩ := map_eq_some_iff.mp h
    obtain ⟨hrecords, ⟨rfl, htakes⟩ | ⟨rfl, hstill, -⟩⟩ := shardOp_refPrepare hop
    · exact .yes hcall hphase hrecords htakes
    · exact .no hcall hphase hrecords hstill.toQuiet
  next allYes conflicts hphase =>
    obtain ⟨⟨c'', resp⟩, hop, rfl⟩ := map_eq_some_iff.mp h
    obtain ⟨d, rfl, hverdict, hstill, hrecords⟩ := shardOp_txnDecide hop
    have heq : decide (LedgeResp.txnState (some d) = .txnState (some .commit)) =
        decide (d = .commit) := by simp
    simp only [heq]
    exact .decide hcall hphase hstill.toQuiet hrecords hverdict
  next commit allYes conflicts shard m rest committed hphase =>
    obtain ⟨⟨c'', resp⟩, hop, rfl⟩ := map_eq_some_iff.mp h
    obtain ⟨n, hn, hrecords, hresolves⟩ := shardOp_phaseTwo hop
    rw [RefName.new_asStr] at hn
    cases hn
    exact .sweep hcall hphase hrecords hresolves
  next commit allYes conflicts committed hphase =>
    obtain ⟨⟨c'', resp⟩, hop, rfl⟩ := map_eq_some_iff.mp h
    obtain ⟨hstill, hrecords⟩ := shardOp_txnEnd hop
    exact .finish hcall hphase hstill.toQuiet hrecords
  next => cases h
  next => cases h

theorem Fleet.stepPass_effect {i : Nat} {stale : Bool} (h : c.stepPass i stale = some c') :
    Effect route c (.pass i stale) c' := by
  rw [stepPass] at h
  split at h
  next => cases h
  next => cases h
  next found hpass =>
    cases h
    exact .plan (fun x hx => Or.inl (by rw [hpass]; exact hx)) (by simp [Pass.toGc]) rfl
  next shard rest found hpass =>
    cases h
    refine .plan (fun x hx => ?_) (by simp [Pass.toGc]) rfl
    rcases mem_append.mp hx with hold | hnew
    · exact Or.inl (by rw [hpass]; exact hold)
    · obtain ⟨⟨str, p⟩, hmem, rfl⟩ := List.mem_map.mp hnew
      obtain ⟨n, slot, -, hslot, hp⟩ := RefTree.mem_preparedLocks.mp hmem
      refine Or.inr ⟨(shard, n), ?_⟩
      rw [Fleet.lockAt, RefTree.lock, hslot]
      exact hp
  next toGc hpass =>
    cases h
    exact .plan (by simp [Pass.items]) (fun x hx => by rw [hpass]; exact hx) rfl
  next item rest toGc hpass =>
    split at h
    next hdecision =>
      cases h
      exact .read hpass hdecision
    next hdecision =>
      cases h
      exact .read hpass hdecision
    all_goals
      cases h
      refine .plan (fun x hx => Or.inl ?_) (fun x hx => ?_) (by cases stale <;> rfl)
      · rw [hpass]
        cases stale with
        | true => exact hx
        | false => exact mem_cons_of_mem item hx
      · rw [hpass]
        cases stale <;> exact hx
  next item rest toGc hpass =>
    obtain ⟨⟨c'', resp⟩, hop, rfl⟩ := map_eq_some_iff.mp h
    obtain ⟨d, rfl, hverdict, hstill, hrecords⟩ := shardOp_txnDecide hop
    have heq : decide (LedgeResp.txnState (some d) = .txnState (some .commit)) =
        decide (d = .commit) := by simp
    simp only [heq]
    exact .presume hpass hstill.toQuiet hrecords hverdict
  next item commit rest toGc hpass =>
    obtain ⟨⟨c'', resp⟩, hop, rfl⟩ := map_eq_some_iff.mp h
    obtain ⟨n, -, hrecords, hresolves⟩ := shardOp_phaseTwo hop
    exact .act hpass hrecords hresolves
  next hpass =>
    cases h
    exact .plan (by simp [Pass.items]) (by simp [Pass.toGc]) rfl
  next t shard rest hpass =>
    obtain ⟨⟨c'', resp⟩, hop, rfl⟩ := map_eq_some_iff.mp h
    obtain ⟨hstill, hrecords⟩ := shardOp_txnEnd hop
    exact .collect hpass hstill.toQuiet hrecords

/-- **What one step can do.** -/
theorem Fleet.step_effect {m : Move} (h : c.step route m = some c') : Effect route c m c' := by
  cases m with
  | commitAtomic t mappings hlc => exact commitAtomic_effect h
  | call t hlc =>
    obtain ⟨call, hcall, hstep⟩ := bind_eq_some_iff.mp h
    exact stepCall_effect hcall hstep
  | crash t =>
    rw [step] at h
    split at h
    next => cases h
    next => cases h
    next call hreturned hcall =>
      cases h
      exact .crash hcall fun r hr => hreturned _ _ _ _ r (by rw [← hr])
  | startPass i hosted =>
    rw [step] at h
    split at h
    next =>
      cases h
      exact .plan nofun nofun rfl
    next => cases h
  | pass i stale => exact stepPass_effect h
  | stopPass i =>
    cases h
    exact .plan nofun nofun rfl
  | update name target expected hlc =>
    obtain ⟨⟨c'', resp⟩, hop, rfl⟩ := map_eq_some_iff.mp h
    obtain ⟨hrecords, hwrites⟩ := shardOp_plain (Or.inl ⟨target, expected, hlc, rfl⟩) hop
    exact .write rfl hrecords hwrites
  | delete name expected hlc =>
    obtain ⟨⟨c'', resp⟩, hop, rfl⟩ := map_eq_some_iff.mp h
    obtain ⟨hrecords, hwrites⟩ := shardOp_plain (Or.inr ⟨expected, hlc, rfl⟩) hop
    exact .write rfl hrecords hwrites

end StepEffect

end Ledge.Cluster
