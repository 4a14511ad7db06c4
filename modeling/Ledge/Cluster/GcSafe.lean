import Ledge.Cluster.Gc

/-!
# Ledge.Cluster.GcSafe

When a pass keeps an object that a durable ref or a lock holds **at every moment**.

`ClusterGc` reads the committed targets of all shards first and the locks afterwards, so a
`CommitPrepared` between the two reads of a shard carries its target past both. The scheduled pass
reads no locks at all. `Careful` excludes these steps, and in the runs that are left the object is a
root of the pass (`protected_object_survives`).
-/

namespace Ledge.Cluster

open Ledge.Core Ledge.RefStore Ledge.Raft Ledge.Objects Ledge.Workspace List

/-! ### What one operation does to the holders of an object -/

/-- The transaction `t` has a lock on `n` that stages `x`. -/
def Owns (r : Replica) (t : TxnId) (n : RefName) (x : ObjectId) : Prop :=
  ∃ p ∈ r.refs.tree.lock n, p.txnId = t ∧ p.stagedTarget = x

instance (r : Replica) (t : TxnId) (n : RefName) (x : ObjectId) : Decidable (Owns r t n x) :=
  inferInstanceAs (Decidable (∃ p ∈ _, _))

namespace TxnOp

/-- The operation turns a lock that stages `x` into a durable ref with the target `x`. -/
def Publishes (r : Replica) (x : ObjectId) : TxnOp → Prop
  | .commitPrepared t n => Durable n ∧ Owns r t n x
  | .prepare .. | .abortPrepared .. => False

/-- The operation ends a lock that stages `x`. A transaction may prepare its own ref again. -/
def Ends (r : Replica) (x : ObjectId) : TxnOp → Prop
  | .prepare t _ n target _ _ => target ≠ x ∧ Owns r t n x
  | .commitPrepared t n | .abortPrepared t n => Owns r t n x

instance (r : Replica) (x : ObjectId) : ∀ op : TxnOp, Decidable (op.Publishes r x)
  | .commitPrepared .. => inferInstanceAs (Decidable (_ ∧ _))
  | .prepare .. | .abortPrepared .. => inferInstanceAs (Decidable False)

instance (r : Replica) (x : ObjectId) : ∀ op : TxnOp, Decidable (op.Ends r x)
  | .prepare .. => inferInstanceAs (Decidable (_ ∧ _))
  | .commitPrepared t n | .abortPrepared t n => inferInstanceAs (Decidable (Owns r t n x))

variable {r : Replica} {durable : Bool} {x : ObjectId} {op : TxnOp}

variable {r' : Replica} {p : PreparedIntent}

theorem shows_of_tree (h : ∀ n, r'.refs.tree.get n = r.refs.tree.get n) (hshows : Shows r' x) :
    Shows r x := by
  obtain ⟨n, e, hdurable, hget, htarget⟩ := hshows
  exact ⟨n, e, hdurable, h n ▸ hget, htarget⟩

theorem shows_run (h : Shows (op.run durable r) x) : Shows r x ∨ op.Publishes r x := by
  cases op with
  | prepare t coordShard n target expected hlc =>
    refine Or.inl (shows_of_tree (fun m => ?_) h)
    rcases prepare_cases r durable t coordShard n target expected hlc with
      ⟨-, -, -, -, hget⟩ | ⟨-, -, htree⟩
    · exact hget m
    · exact congrArg (RefTree.get · m) htree
  | commitPrepared t n =>
    rcases commitPrepared_cases r durable t n with ⟨p, hlock, ht, -, hother, hget⟩ | ⟨-, htree⟩
    · obtain ⟨m, e, hdurable, hm, htarget⟩ := h
      by_cases hmn : m = n
      · subst hmn
        refine Or.inr ⟨hdurable, p, hlock, ht, ?_⟩
        rw [← htarget, Option.some.inj (hm.symm.trans hget)]
      · exact Or.inl ⟨m, e, hdurable, (hother m hmn).symm.trans hm, htarget⟩
    · exact Or.inl (shows_of_tree (fun m => congrArg (RefTree.get · m) htree) h)
  | abortPrepared t n =>
    refine Or.inl (shows_of_tree (fun m => ?_) h)
    rcases abortPrepared_cases r durable t n with ⟨-, -, -, -, hget⟩ | ⟨-, htree⟩
    · exact hget m
    · exact congrArg (RefTree.get · m) htree

/-- What becomes of a lock that stages `x` when the lock on `n` is taken or removed. -/
theorem lock_of_update {n m : RefName} {lock : Option PreparedIntent}
    (h : ∀ m, r'.refs.tree.lock m = if m = n then lock else r.refs.tree.lock m)
    (hlock : r.refs.tree.lock m = some p) : r'.refs.tree.lock m = some p ∨ m = n := by
  by_cases hmn : m = n
  · exact Or.inr hmn
  · rw [h, if_neg hmn]
    exact Or.inl hlock

/-- A lock that stages `x` stays, or the operation ends it. -/
theorem lock_run (op : TxnOp) (durable : Bool) {n : RefName} (hlock : r.refs.tree.lock n = some p)
    (htarget : p.stagedTarget = x) :
    (∃ p', (op.run durable r).refs.tree.lock n = some p' ∧ p'.stagedTarget = x) ∨
      (n = op.name ∧ op.Ends r x) := by
  cases op with
  | prepare t coordShard m target expected hlc =>
    rcases prepare_cases r durable t coordShard m target expected hlc with
      ⟨-, hholder, -, hafter, -⟩ | ⟨-, -, htree⟩
    · rcases lock_of_update hafter hlock with hstays | rfl
      · exact Or.inl ⟨p, hstays, htarget⟩
      · by_cases hsame : target = x
        · exact Or.inl ⟨_, (hafter n).trans (if_pos rfl), hsame⟩
        · have ht : p.txnId = t := by
            rw [RefTree.holder, hlock] at hholder
            rcases hholder with hnone | hsome
            · cases hnone
            · exact Option.some.inj hsome
          exact Or.inr ⟨rfl, hsame, p, hlock, ht, htarget⟩
    · exact Or.inl ⟨p, (congrArg (RefTree.lock · n) htree).trans hlock, htarget⟩
  | commitPrepared t m =>
    rcases commitPrepared_cases r durable t m with ⟨q, hq, ht, hafter, -⟩ | ⟨-, htree⟩
    · rcases lock_of_update hafter hlock with hstays | rfl
      · exact Or.inl ⟨p, hstays, htarget⟩
      · obtain rfl := Option.some.inj (hq.symm.trans hlock)
        exact Or.inr ⟨rfl, q, hlock, ht, htarget⟩
    · exact Or.inl ⟨p, (congrArg (RefTree.lock · n) htree).trans hlock, htarget⟩
  | abortPrepared t m =>
    rcases abortPrepared_cases r durable t m with ⟨q, hq, ht, hafter, -⟩ | ⟨-, htree⟩
    · rcases lock_of_update hafter hlock with hstays | rfl
      · exact Or.inl ⟨p, hstays, htarget⟩
      · obtain rfl := Option.some.inj (hq.symm.trans hlock)
        exact Or.inr ⟨rfl, q, hlock, ht, htarget⟩
    · exact Or.inl ⟨p, (congrArg (RefTree.lock · n) htree).trans hlock, htarget⟩

end TxnOp

/-! ### Runs -/

namespace Collector

variable (c : Collector) (x : ObjectId)

/-- A durable ref or a lock of a hosted shard holds the object. -/
def Protected (s : GcState c.router) : Prop :=
  ∃ shard ∈ c.hosted, Shows (s.shards.replica shard) x ∨ Stages (s.shards.replica shard) x

instance (s : GcState c.router) : Decidable (c.Protected x s) :=
  inferInstanceAs (Decidable (∃ shard ∈ c.hosted, _))

/-- Some lock on another name than `n`, on a shard that is still to be read, stages the object. -/
def StagedElsewhere (s : GcState c.router) (rest : List ShardId) (n : RefName) : Prop :=
  ∃ shard ∈ rest, ∃ y ∈ (s.shards.replica shard).refs.tree.preparedLocks,
    y.1 ≠ n.asStr ∧ y.2.stagedTarget = x

/-- The operation does not move the object past the reads of the pass:
* where the committed targets have been read, no lock that stages it becomes a durable ref;
* while the locks are read, the last lock that stages it does not end unread;
unless the object is a root already. -/
def CarefulTxn (s : GcState c.router) (op : TxnOp) : Prop :=
  let shard := c.router.shardFor op.name
  let r := s.shards.replica shard
  match s.pass with
  | .committed _ rest roots => op.Publishes r x → shard ∈ c.hosted → shard ∈ rest ∨ x ∈ roots
  | .listing _ rest out =>
    op.Publishes r x → shard ∈ c.hosted → shard ∈ rest ∨ x ∈ durableTargets out
  | .locks _ rest roots =>
    op.Ends r x → shard ∈ rest → x ∈ roots ∨ c.StagedElsewhere x s rest op.name
  | _ => True

/-- When the scheduled pass has read the shards, the object is not left to a lock. -/
def CarefulTurn (s : GcState c.router) : Prop :=
  match s.pass with
  | .listing _ [] out =>
    x ∈ durableTargets out ∨ ∃ shard ∈ c.hosted, Shows (s.shards.replica shard) x
  | _ => True

def Careful (s : GcState c.router) : GcEvent → Prop
  | .txn op _ => c.CarefulTxn x s op
  | .turn => c.CarefulTurn x s
  | .fail => True

/-- The runs in which the object is protected in every state and every step is careful. -/
inductive SafeRun (s₀ : GcState c.router) : GcState c.router → Prop
  | start (hprotected : c.Protected x s₀) : SafeRun s₀ s₀
  | step {s : GcState c.router} (h : SafeRun s₀ s) (e : GcEvent) (hcareful : c.Careful x s e)
      (hprotected : c.Protected x (c.step s e)) : SafeRun s₀ (c.step s e)

/-! ### The invariant -/

/-- Every read shard whose durable refs have the object as a target has given it to `found`. -/
def Covers (s : GcState c.router) (rest : List ShardId) (found : List ObjectId) : Prop :=
  ∀ shard ∈ c.hosted, shard ∉ rest → Shows (s.shards.replica shard) x → x ∈ found

/-- The listing names no ref twice, and none of a shard that is still to be read. -/
structure Distinct (rest : List ShardId) (out : List (RefName × RefEntry)) : Prop where
  shards : rest.Nodup
  names : (out.map Prod.fst).Nodup
  apart : ∀ y ∈ out, c.router.shardFor y.1 ∉ rest

/-- What the pass knows of the object. -/
def Knows (s : GcState c.router) : Prop :=
  match s.pass with
  | .idle => True
  | .committed _ rest roots => c.Covers x s rest roots
  | .listing _ rest out => c.Covers x s rest (durableTargets out) ∧ c.Distinct rest out
  | .locks _ rest roots => x ∈ roots ∨ ∃ shard ∈ rest, Stages (s.shards.replica shard) x
  | .leases _ roots => x ∈ roots
  | .workspaces _ _ roots => x ∈ roots
  | .sweep _ keep => x ∈ keep
  | .ended => True

variable {c} {x} {s : GcState c.router}

theorem replica_apply (op : TxnOp) (durable : Bool) (shard : ShardId) :
    (s.shards.apply op durable).replica shard =
      if shard = c.router.shardFor op.name then op.run durable (s.shards.replica shard)
      else s.shards.replica shard := by
  show Function.update _ _ _ shard = _
  split_ifs with hshard
  · rw [hshard, Function.update_self]
  · exact Function.update_of_ne hshard _ _

variable {rest : List ShardId} {found roots : List ObjectId} {shard : ShardId}
  {out : List (RefName × RefEntry)} {s₀ : GcState c.router}

theorem Covers.txn (h : c.Covers x s rest found) (op : TxnOp) (durable : Bool)
    (hcareful : op.Publishes (s.shards.replica (c.router.shardFor op.name)) x →
      c.router.shardFor op.name ∈ c.hosted → c.router.shardFor op.name ∈ rest ∨ x ∈ found) :
    c.Covers x { s with shards := s.shards.apply op durable } rest found := by
  intro shard hhosted hread hshows
  rw [replica_apply] at hshows
  split_ifs at hshows with hshard
  · rcases TxnOp.shows_run hshows with hshows | hpublishes
    · exact h shard hhosted hread hshows
    · subst hshard
      exact (hcareful hpublishes hhosted).resolve_left hread
  · exact h shard hhosted hread hshows

theorem staged_txn (op : TxnOp) (durable : Bool)
    (h : x ∈ roots ∨ ∃ shard ∈ rest, Stages (s.shards.replica shard) x)
    (hcareful : op.Ends (s.shards.replica (c.router.shardFor op.name)) x →
      c.router.shardFor op.name ∈ rest → x ∈ roots ∨ c.StagedElsewhere x s rest op.name) :
    x ∈ roots ∨ ∃ shard ∈ rest, Stages ((s.shards.apply op durable).replica shard) x := by
  rcases h with hroot | ⟨shard, hrest, n, p, hlock, htarget⟩
  · exact Or.inl hroot
  · -- a lock of another name, or on another shard, is not touched
    have hstays : ∀ shard ∈ rest, ∀ n p, (s.shards.replica shard).refs.tree.lock n = some p →
        p.stagedTarget = x → n ≠ op.name →
        ∃ shard ∈ rest, Stages ((s.shards.apply op durable).replica shard) x := by
      intro shard hrest n p hlock htarget hn
      refine ⟨shard, hrest, n, p, ?_, htarget⟩
      rw [replica_apply]
      split_ifs
      · rw [RefTree.lock, op.slot_run_of_ne durable _ hn]
        exact hlock
      · exact hlock
    by_cases hshard : shard = c.router.shardFor op.name
    · rcases op.lock_run durable hlock htarget with
        ⟨p', hlock', htarget'⟩ | ⟨hn, hends⟩
      · refine Or.inr ⟨shard, hrest, n, p', ?_, htarget'⟩
        rw [replica_apply, if_pos hshard]
        exact hlock'
      · subst hshard
        rcases hcareful hends hrest with hroot | ⟨shard', hrest', y, hy, hname, htarget'⟩
        · exact Or.inl hroot
        · obtain ⟨m, slot, hm, hslot, hp⟩ := RefTree.mem_preparedLocks.mp hy
          refine Or.inr (hstays shard' hrest' m y.2 ?_ htarget' fun heq => ?_)
          · rw [RefTree.lock, hslot, Option.bind_some, hp]
          · exact hname (hm ▸ congrArg RefName.asStr heq)
    · refine Or.inr ⟨shard, hrest, n, p, ?_, htarget⟩
      rw [replica_apply, if_neg hshard]
      exact hlock

theorem Knows.txn (h : c.Knows x s) {op : TxnOp} {durable : Bool} (hcareful : c.CarefulTxn x s op) :
    c.Knows x { s with shards := s.shards.apply op durable } := by
  unfold Knows CarefulTxn at *
  cases hpass : s.pass with
  | idle | ended => trivial
  | committed candidates rest roots =>
    simp only [hpass] at h hcareful ⊢
    exact Covers.txn h op durable hcareful
  | listing candidates rest out =>
    simp only [hpass] at h hcareful ⊢
    exact ⟨Covers.txn h.1 op durable hcareful, h.2⟩
  | locks candidates rest roots =>
    simp only [hpass] at h hcareful ⊢
    exact staged_txn op durable h hcareful
  | leases candidates roots | workspaces candidates rest roots | sweep rest keep =>
    simpa only [hpass] using h

theorem Covers.read {targets : List ObjectId} (h : c.Covers x s (shard :: rest) found)
    (htargets : Shows (s.shards.replica shard) x → x ∈ targets) :
    c.Covers x s rest (found ++ targets) := by
  intro shard' hhosted hread hshows
  by_cases hshard : shard' = shard
  · subst hshard
    exact mem_append_right _ (htargets hshows)
  · have hnot : shard' ∉ shard :: rest := not_mem_cons_of_ne_of_not_mem hshard hread
    exact mem_append_left _ (h shard' hhosted hnot hshows)

theorem shardFor_of_mem_list (s : GcState c.router) {search : String} {y : RefName × RefEntry}
    (h : y ∈ (s.shards.replica shard).refs.tree.list search) : c.router.shardFor y.1 = shard := by
  have hget : (s.shards.replica shard).refs.tree.get y.1 = some y.2 := (RefTree.mem_list.mp h).2
  refine s.shards.placed shard y.1 fun hslot => ?_
  rw [RefTree.get, hslot] at hget
  cases hget

theorem Distinct.read (h : c.Distinct (shard :: rest) out) (search : String) :
    c.Distinct rest (out ++ (s.shards.replica shard).refs.tree.list search) := by
  obtain ⟨hnot, hrest⟩ := nodup_cons.mp h.shards
  refine ⟨hrest, ?_, fun y hy => ?_⟩
  · rw [map_append]
    refine h.names.append (RefTree.list_names_nodup _ search) fun n hout hlist => ?_
    obtain ⟨y, hy, rfl⟩ := mem_map.mp hout
    obtain ⟨z, hz, hname⟩ := mem_map.mp hlist
    have hshard := shardFor_of_mem_list s hz
    rw [hname] at hshard
    exact h.apart y hy (hshard ▸ mem_cons_self)
  · rcases mem_append.mp hy with hy | hy
    · exact fun hmem => h.apart y hy (mem_cons_of_mem shard hmem)
    · rw [shardFor_of_mem_list s hy]
      exact hnot

theorem mem_mergeRefs_of_listed (hcovers : c.Covers x s [] (durableTargets out))
    (hdistinct : c.Distinct [] out)
    (hcareful : x ∈ durableTargets out ∨ ∃ shard ∈ c.hosted, Shows (s.shards.replica shard) x) :
    x ∈ durableTargets (mergeRefs out) := by
  have hfound : x ∈ durableTargets out := by
    rcases hcareful with hfound | ⟨shard, hhosted, hshows⟩
    · exact hfound
    · exact hcovers shard hhosted not_mem_nil hshows
  obtain ⟨n, e, hmem, hdurable, htarget⟩ := mem_durableTargets.mp hfound
  exact mem_durableTargets.mpr
    ⟨n, e, (mem_mergeRefs hdistinct.names).mpr hmem, hdurable, htarget⟩

theorem Knows.turn (h : c.Knows x s) (hprotected : c.Protected x s)
    (hcareful : c.CarefulTurn x s) : c.Knows x (c.turn s) := by
  unfold Knows at h
  unfold CarefulTurn at hcareful
  unfold Collector.turn
  rcases hpass : s.pass with _ | ⟨candidates, _ | ⟨shard, rest⟩, roots⟩ |
    ⟨candidates, _ | ⟨shard, rest⟩, roots⟩ | ⟨candidates, _ | ⟨shard, rest⟩, out⟩ |
    ⟨candidates, roots⟩ | ⟨candidates, _ | ⟨lease, rest⟩, roots⟩ | ⟨_ | ⟨id, rest⟩, keep⟩ | _ <;>
    simp only [hpass] at h hcareful ⊢
  · -- no shard has been read yet
    cases c.kind with
    | cluster => exact fun shard hhosted hnot => absurd hhosted hnot
    | scheduled =>
      refine ⟨fun shard hhosted hnot => absurd (c.mem_spanned_refs hhosted) hnot, ?_⟩
      exact ⟨c.nodup_spanned_refs, nodup_nil, nofun⟩
  · obtain ⟨shard, hhosted, hshows | hstages⟩ := hprotected
    · exact Or.inl (h shard hhosted not_mem_nil hshows)
    · exact Or.inr ⟨shard, hhosted, hstages⟩
  · exact Covers.read h mem_committedTargets.mpr
  · refine h.resolve_right fun hstaged => ?_
    obtain ⟨shard, hmem, -⟩ := hstaged
    cases hmem
  · rcases h with hroot | ⟨shard', hmem, hstages⟩
    · exact Or.inl (mem_append_left _ hroot)
    · rcases mem_cons.mp hmem with rfl | hmem
      · exact Or.inl (mem_append_right _ (mem_stagedTargets.mpr hstages))
      · exact Or.inr ⟨shard', hmem, hstages⟩
  · exact mem_mergeRefs_of_listed h.1 h.2 hcareful
  · split_ifs
    · refine ⟨?_, h.2.read "refs/"⟩
      rw [durableTargets, filter_append, map_append]
      exact h.1.read (mem_durableTargets_list refs_bytes).mpr
    · trivial
  · exact h
  · split
    · trivial
    · rename_i keep hmark
      exact (StoreView.mem_mark hmark).mpr ⟨_, h, _, .refl, .refl⟩
  · split
    · trivial
    · exact mem_append_left _ h
  · trivial
  · exact h
  · simp only [Knows, hpass]

theorem Knows.loose {e : GcEvent} {mtime : Nat} (h : c.Knows x s)
    (hloose : (x, mtime) ∈ s.disk.loose) : (x, mtime) ∈ (c.step s e).disk.loose := by
  cases e with
  | txn op durable | fail => exact hloose
  | turn =>
    rcases c.disk_turn s with hsame | ⟨id, rest, keep, hpass, hsweep⟩
    · exact hsame ▸ hloose
    · unfold Knows at h
      rw [hpass] at h
      show _ ∈ (c.turn s).disk.loose
      rw [hsweep]
      exact Disk.mem_loose_sweepOne h hloose

theorem Knows.step {e : GcEvent} (h : c.Knows x s) (hprotected : c.Protected x s)
    (hcareful : c.Careful x s e) : c.Knows x (c.step s e) := by
  cases e with
  | txn op durable => exact h.txn hcareful
  | turn => exact h.turn hprotected hcareful
  | fail => trivial

theorem SafeRun.protected_last (h : c.SafeRun x s₀ s) : c.Protected x s := by
  cases h with
  | start hprotected | step _ _ _ hprotected => exact hprotected

theorem SafeRun.knows {mtime : Nat} (hidle : s₀.pass = .idle) (hloose : (x, mtime) ∈ s₀.disk.loose)
    (h : c.SafeRun x s₀ s) : c.Knows x s ∧ (x, mtime) ∈ s.disk.loose := by
  induction h with
  | start _ =>
    unfold Knows
    rw [hidle]
    exact ⟨trivial, hloose⟩
  | step hrun e hcareful _ ih => exact ⟨ih.1.step hrun.protected_last hcareful, ih.1.loose ih.2⟩

end Collector

/-- **An object that a durable ref or a lock holds throughout survives the pass**, whatever its age,
in every run of careful steps. -/
theorem protected_object_survives {c : Collector} {x : ObjectId} {mtime : Nat}
    {s₀ s : GcState c.router} (hidle : s₀.pass = .idle) (hloose : (x, mtime) ∈ s₀.disk.loose)
    (h : c.SafeRun x s₀ s) : (x, mtime) ∈ s.disk.loose :=
  (h.knows hidle hloose).2

/-! ### Runs on one shard -/

theorem lone_numShards : 1 ≤ 1 := le_refl 1

theorem lone_nodup : ([0] : List ShardId).Nodup := nodup_singleton 0

theorem lone_hosted_lt : ∀ shard ∈ ([0] : List ShardId), shard < 1 := by decide

/-- A node with one shard and no leases, whose objects are blobs. -/
def loneCollector (kind : GcKind) : Collector where
  kind := kind
  router := ⟨1, lone_numShards⟩
  hosted := [0]
  nodup := lone_nodup
  hosted_lt := lone_hosted_lt
  nowUnixSecs := 10000
  grace := 3600
  leases := .empty
  live := []
  isLive := ⟨nodup_nil, fun l => by simp⟩
  view := fun _ => ⟨.ok [], fun _ => .ok [], fun _ => .ok 3, fun _ => .ok none, [],
    StoreView.no_deltas⟩

/-- One object file, from the beginning of time. -/
def oldObject : Disk := ⟨[(.fill 1, 0)], by decide, []⟩

/-- The object is staged for `refs/heads/a`. -/
def stagedState (kind : GcKind) : GcState (loneCollector kind).router where
  shards := (Shards.empty _).apply (.prepare (.fill 7) 0 .headsA (.fill 1) none 1) true
  disk := oldObject
  pass := .idle

/-- The lock becomes a ref between the two reads of the shard; a scheduled pass does not see the
lock at all. The object is held throughout, and deleted. -/
theorem held_object_deleted :
    (let c := loneCollector .cluster
     let events := [.turn, .turn, .txn (.commitPrepared (.fill 7) .headsA) true, .turn, .turn,
       .turn, .turn, .turn, .turn]
     let run := c.states (stagedState .cluster) events
     (∀ s ∈ run, c.Protected (.fill 1) s) ∧ run.getLast?.map (fun s => s.disk.loose) = some []) ∧
    (let c := loneCollector .scheduled
     let run := c.states (stagedState .scheduled) (replicate 6 .turn)
     (∀ s ∈ run, c.Protected (.fill 1) s) ∧ run.getLast?.map (fun s => s.disk.loose) =
       some []) := by
  decide +kernel

section Checks

variable {c : Collector} {x : ObjectId} {s s' s₀ : GcState c.router}

instance (s : GcState c.router) (rest : List ShardId) (n : RefName) :
    Decidable (c.StagedElsewhere x s rest n) :=
  inferInstanceAs (Decidable (∃ shard ∈ rest, ∃ y ∈ _, _))

instance (s : GcState c.router) (e : GcEvent) : Decidable (c.Careful x s e) := by
  unfold Collector.Careful Collector.CarefulTxn Collector.CarefulTurn
  split
  · dsimp only
    split <;> infer_instance
  · split <;> infer_instance
  · infer_instance

/-- The events, as long as the steps are careful and the object is protected. -/
def Collector.execSafe (c : Collector) (x : ObjectId) (s : GcState c.router) :
    List GcEvent → Option (GcState c.router)
  | [] => some s
  | e :: events =>
    if c.Careful x s e ∧ c.Protected x (c.step s e) then c.execSafe x (c.step s e) events
    else none

theorem Collector.SafeRun.execSafe {events : List GcEvent} (h : c.SafeRun x s₀ s)
    (hexec : c.execSafe x s events = some s') : c.SafeRun x s₀ s' := by
  induction events generalizing s with
  | nil =>
    cases hexec
    exact h
  | cons e events ih =>
    rw [Collector.execSafe] at hexec
    split_ifs at hexec with hchecks
    exact ih (h.step e hchecks.1 hchecks.2) hexec

end Checks

/-- The lock becomes a ref before the shard is read, and the pass runs to its end. -/
theorem staged_object_survives : ∃ s, (loneCollector .cluster).SafeRun (.fill 1)
    (stagedState .cluster) s ∧ s.pass = .ended ∧ (.fill 1, 0) ∈ s.disk.loose := by
  have hexec : ((loneCollector .cluster).execSafe (.fill 1) (stagedState .cluster)
      (.turn :: .txn (.commitPrepared (.fill 7) .headsA) true :: replicate 8 .turn)).any
      (fun s => match s.pass with | .ended => true | _ => false) := by
    decide +kernel
  obtain ⟨s, hs, hended⟩ := (Option.any_eq_true _ _).mp hexec
  have hrun : (loneCollector .cluster).SafeRun (.fill 1) (stagedState .cluster) s :=
    (Collector.SafeRun.start (by decide +kernel)).execSafe hs
  refine ⟨s, hrun, ?_, protected_object_survives rfl (by decide) hrun⟩
  cases hpass : s.pass with
  | ended => rfl
  | _ =>
    rw [hpass] at hended
    cases hended

end Ledge.Cluster
