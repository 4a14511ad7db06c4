import Ledge.Cluster.LastCopy
import Mathlib.Data.List.DropRight

/-!
# Ledge.Cluster.WorkspaceLeases

**Collections on all nodes and the leases of one.**

The refs of a workspace are no durable refs: a pass takes them for roots only while the workspace is
live in the lease store of its own node. `fork` and `renew` put the lease into the store of the node
that handles them, and into no other. So a pass on a second node that hosts the shard of the refs
deletes what they lead to (`live_workspace_swept`).

`Watchful` asks for the lease on every node whose pass could do so. In the runs that are left no
access of a pass deletes an object of a live workspace (`live_workspace_kept`).
-/

namespace Ledge.Cluster

open Ledge.Core Ledge.RefStore Ledge.Raft Ledge.Objects Ledge.Workspace Ledge.Git Function List

/-! ### The shard of a workspace -/

section Routing

variable {id : WorkspaceId} {n : RefName}

/-- The segments of a name under `refs/workspaces/`. -/
theorem splitOn_workspaces (bytes : List UInt8) :
    (strBytes "refs/workspaces/" ++ bytes).splitOn slash =
      strBytes "refs" :: strBytes "workspaces" :: bytes.splitOn slash := by
  have hsplit : strBytes "refs/workspaces/" ++ bytes =
      strBytes "refs" ++ slash :: (strBytes "workspaces" ++ slash :: bytes) := by
    have hbytes : strBytes "refs/workspaces/" =
        strBytes "refs" ++ slash :: (strBytes "workspaces" ++ [slash]) := by decide
    rw [hbytes]
    simp
  rw [hsplit, splitOn_append_cons_self_of_not_mem (by decide),
    splitOn_append_cons_self_of_not_mem (by decide)]

theorem namespaceKey_workspaces {bytes : List UInt8} {more : List (List UInt8)}
    (h : bytes.splitOn slash = strBytes id.toHex :: more) :
    namespaceKey (strBytes "refs/workspaces/" ++ bytes) =
      strBytes "workspaces/" ++ strBytes id.toHex := by
  unfold namespaceKey
  rw [splitOn_workspaces, h]
  rfl

theorem namespaceKey_of_inWorkspace (h : InWorkspace id n) :
    namespaceKey n.bytes = strBytes "workspaces/" ++ strBytes id.toHex := by
  obtain ⟨tail, htail⟩ := h
  have hslash : strBytes "/" = [slash] := by decide
  rw [strBytes_wsPrefix, hslash, append_assoc] at htail
  rw [← htail]
  exact namespaceKey_workspaces
    (splitOn_append_cons_self_of_not_mem (notMem_strBytes_toHex id) tail)

theorem strBytes_toHex_ne_nil (id : WorkspaceId) : strBytes id.toHex ≠ [] := by
  intro hnil
  have hlength := length_strBytes_toHex id
  rw [hnil] at hlength
  cases hlength

/-- The prefix of a workspace without its last `/`. -/
theorem trimmed_wsPrefix (id : WorkspaceId) :
    ((strBytes (wsPrefix id)).reverse.dropWhile (· = slash)).reverse =
      strBytes "refs/workspaces/" ++ strBytes id.toHex := by
  have hslash : strBytes "/" = [slash] := by decide
  have hbytes : strBytes (wsPrefix id) = strBytes "refs/workspaces/" ++ strBytes id.toHex ++
      [slash] :=
    hslash ▸ strBytes_wsPrefix id
  have hne := strBytes_toHex_ne_nil id
  rw [hbytes]
  refine (rdropWhile_concat_pos (fun b => decide (b = slash)) _ slash (by simp)).trans ?_
  refine rdropWhile_eq_self_iff.mpr fun hl hlast => ?_
  rw [getLast_append_of_ne_nil _ hne] at hlast
  have hmem : (strBytes id.toHex).getLast hne ∈ strBytes id.toHex := getLast_mem hne
  rw [of_decide_eq_true hlast] at hmem
  exact notMem_strBytes_toHex id hmem

theorem shardsForPrefix_wsPrefix (router : ShardRouter) (id : WorkspaceId) :
    router.shardsForPrefix (strBytes (wsPrefix id)) =
      .one ((fnv1a64 (strBytes "workspaces/" ++ strBytes id.toHex)).toNat % router.numShards) := by
  have hsegs : (strBytes id.toHex).splitOn slash = [strBytes id.toHex] :=
    splitOn_eq_singleton (notMem_strBytes_toHex id)
  have hfilter : ((strBytes "refs/workspaces/" ++ strBytes id.toHex).splitOn slash).filter
      (· ≠ []) = [strBytes "refs", strBytes "workspaces", strBytes id.toHex] := by
    rw [splitOn_workspaces, hsegs]
    refine filter_eq_self.mpr fun seg hseg => decide_eq_true ?_
    simp only [mem_cons, not_mem_nil, or_false] at hseg
    rcases hseg with rfl | rfl | rfl
    · decide
    · decide
    · exact strBytes_toHex_ne_nil id
  unfold ShardRouter.shardsForPrefix
  split_ifs with hone
  · rw [hone, Nat.mod_one]
  · dsimp only
    rw [trimmed_wsPrefix, hfilter, namespaceKey_workspaces hsegs]
    exact if_pos rfl

/-- The listing of a workspace reads the shard of its refs, and no other. -/
theorem Collector.spanned_wsPrefix (c : Collector) (h : InWorkspace id n) :
    c.spanned (wsPrefix id) = [c.router.shardFor n] := by
  unfold spanned ShardRouter.shardFor
  rw [shardsForPrefix_wsPrefix, namespaceKey_of_inWorkspace h]

theorem Collector.mem_listWorkspace (c : Collector) {shards : Shards c.router}
    {refs : List (RefName × RefEntry)} {e : RefEntry}
    (hlist : c.listWorkspace shards id = some refs)
    (h : InWorkspace id n) (hget : shards.get n = some e) : (n, e) ∈ refs := by
  unfold listWorkspace at hlist
  rw [c.spanned_wsPrefix h] at hlist
  dsimp only at hlist
  split_ifs at hlist
  cases hlist
  rw [flatMap_singleton, mem_mergeRefs (RefTree.list_names_nodup _ _)]
  exact RefTree.mem_list.mpr ⟨h, hget⟩

end Routing

/-! ### Watchful steps -/

/-- The clock of a pass in milliseconds. -/
def PassArgs.nowMs (args : PassArgs) : Nat := min (args.nowUnixSecs * 1000) (2 ^ 64 - 1)

/-- The pass will keep the candidates that `x` leads to, where `x` is the target of a ref of the
workspace: it has still to read the leases, or to list the workspace, or `x` is among its roots, or
the mark has found them. -/
def PassSpares (t : ObjectTable) (id : WorkspaceId) (x : ObjectId) : GcPhase → Prop
  | .idle | .committed .. | .locks .. | .listing .. | .leases .. | .ended => True
  | .workspaces _ rest roots => (∃ lease ∈ rest, lease.id = id) ∨ x ∈ roots
  | .sweep rest keep => ∀ y ∈ rest, t.Leads x y → y ∈ keep

namespace ClusterSys

variable {pl : Placement} (P : Primitives) (t : ObjectTable)

/-- A workspace is live in the lease store of a node. -/
def LiveOn (s : ClusterSys pl) (node : NodeId) (nowMs : Nat) (id : WorkspaceId) : Prop :=
  ∃ lease, (s.leases node).lookup id = some lease ∧ nowMs < lease.expiresAtMs

/-- A workspace that is live on some node, by the clock of the pass, has a ref at `x`, and the node
of the pass hosts the shard of the ref. -/
structure Leased (s : ClusterSys pl) (pass : NodePass) (id : WorkspaceId) (x : ObjectId) :
    Prop where
  live : ∃ forker, s.LiveOn forker pass.args.nowMs id
  ref : ∃ n e, InWorkspace id n ∧ pl.router.shardFor n ∈ pl.map.shardsHostedBy pass.node ∧
    s.shards.get n = some e ∧ e.target = x

/-- A pass reads the leases of its own node. -/
def ReadsOwn (s : ClusterSys pl) : ClusterEvent → Prop
  | .turn k _ => ∀ pass candidates roots, s.passes k = some pass →
      pass.phase = .leases candidates roots → pass.args.leases = s.leases pass.node
  | _ => True

/-- What an access of a pass needs: when the leases are read, the workspace is live on the node of
the pass, and when the mark begins, no candidate hides behind an object that the node does not
have. -/
def Ready (s : ClusterSys pl) (pass : NodePass) (id : WorkspaceId) (x : ObjectId) : Prop :=
  match pass.phase with
  | .leases .. => s.LiveOn pass.node pass.args.nowMs id
  | .workspaces candidates [] _ =>
    ∀ y ∈ candidates, t.Leads x y → t.LeadsWithin (s.disk pass.node) x y
  | _ => True

/-- A pass goes on only where it is ready for every workspace that is live somewhere, and a
workspace gets live, or its ref moves, only where no pass has passed it by. -/
def Watchful (s : ClusterSys pl) (e : ClusterEvent) : Prop :=
  ∀ k pass id x, s.passes k = some pass →
    (s.Leased pass id x → ∀ view, e = .turn k view → s.Ready t pass id x) ∧
    ((s.step P e).Leased pass id x → ¬ s.Leased pass id x → PassSpares t id x pass.phase)

/-- The runs of watchful steps. -/
inductive WatchfulRun (pl : Placement) : ClusterSys pl → Prop
  | start : WatchfulRun pl (.init pl)
  | step {s : ClusterSys pl} (h : WatchfulRun pl s) (e : ClusterEvent) (hlegal : s.Legal t e)
      (hown : s.ReadsOwn e) (hwatchful : s.Watchful P t e) : WatchfulRun pl (s.step P e)

/-- No pass has passed a live workspace by. -/
def Watched (s : ClusterSys pl) : Prop :=
  ∀ k pass id x, s.passes k = some pass → s.Leased pass id x → PassSpares t id x pass.phase

end ClusterSys

/-! ### Passes -/

section Passes

variable {pl : Placement} {t : ObjectTable} {s : ClusterSys pl} {pass : NodePass} {id : WorkspaceId}
  {x : ObjectId} {view : StoreView}

theorem PassSpares.turn (hleased : s.Leased pass id x) (hready : s.Ready t pass id x)
    (hspares : PassSpares t id x pass.phase)
    (hown : ∀ candidates roots, pass.phase = .leases candidates roots →
      pass.args.leases = s.leases pass.node)
    (hsees : ∀ candidates roots, pass.phase = .workspaces candidates [] roots →
      t.Sees view (s.disk pass.node)) :
    PassSpares t id x ((pl.collector pass.node pass.args view).turn
      ⟨s.shards, s.disk pass.node, pass.phase⟩).pass := by
  unfold ClusterSys.Ready at hready
  cases hphase : pass.phase with
  | idle | ended => trivial
  | committed candidates rest roots | locks candidates rest roots => cases rest <;> trivial
  | listing candidates rest out =>
    cases rest with
    | nil => trivial
    | cons shard rest =>
      simp only [Collector.turn]
      split_ifs <;> trivial
  | leases candidates roots =>
    rw [hphase] at hready
    obtain ⟨lease, hlookup, hlive⟩ := hready
    have hid : lease.id = id := (s.leases pass.node).keyed id lease hlookup
    refine Or.inl ⟨lease, (pass.args.isLive.mem lease).mpr ⟨?_, hlive⟩, hid⟩
    rw [hown candidates roots hphase, hid]
    exact hlookup
  | workspaces candidates rest roots =>
    rw [hphase] at hready hspares
    cases rest with
    | nil =>
      have hroot : x ∈ roots := hspares.resolve_left fun hrest => by simp at hrest
      simp only [Collector.turn]
      cases hmark : ((pl.collector pass.node pass.args view).view (s.disk pass.node)).mark
        roots with
      | error e => trivial
      | ok keep =>
        intro y hy hleads
        exact (hsees candidates roots hphase).mem_mark_within hmark hroot (hready y hy hleads)
    | cons lease rest =>
      simp only [Collector.turn]
      cases hlist : (pl.collector pass.node pass.args view).listWorkspace s.shards lease.id with
      | none => trivial
      | some refs =>
        rcases hspares with hrest | hroot
        · obtain ⟨lease', hmem, hid⟩ := hrest
          rcases mem_cons.mp hmem with rfl | hmem
          · -- the workspace is listed now, and its ref is at `x`
            obtain ⟨n, e, hin, -, hget, rfl⟩ := hleased.ref
            subst hid
            have hn := Collector.mem_listWorkspace _ hlist hin hget
            exact Or.inr (mem_append_right _ (mem_map.mpr ⟨(n, e), hn, rfl⟩))
          · exact Or.inl ⟨lease', hmem, hid⟩
        · exact Or.inr (mem_append_left _ hroot)
  | sweep rest keep =>
    rw [hphase] at hspares
    cases rest with
    | nil => trivial
    | cons y rest => exact fun y' hy' => hspares y' (mem_cons_of_mem y hy')

/-- An access of a pass that spares `x` deletes nothing that `x` leads to. -/
theorem PassSpares.present_turn {y : ObjectId} (hspares : PassSpares t id x pass.phase)
    (hleads : t.Leads x y) (h : (s.disk pass.node).Present y) :
    ((pl.collector pass.node pass.args view).turn
      ⟨s.shards, s.disk pass.node, pass.phase⟩).disk.Present y := by
  rcases Collector.disk_turn (pl.collector pass.node pass.args view)
    ⟨s.shards, s.disk pass.node, pass.phase⟩ with hsame | ⟨y', rest, keep, hphase, hswept⟩
  · rw [hsame]
    exact h
  · rw [show pass.phase = .sweep (y' :: rest) keep from hphase] at hspares
    rw [hswept]
    refine present_sweepOne (fun heq => ?_) h
    exact hspares y (heq ▸ mem_cons_self) hleads

end Passes

/-! ### Steps -/

section Steps

variable {pl : Placement} {P : Primitives} {t : ObjectTable} {s s' : ClusterSys pl}

theorem ClusterSys.Leased.congr {pass : NodePass} {id : WorkspaceId} {x : ObjectId}
    (h : s'.Leased pass id x) (hshards : s'.shards = s.shards) (hleases : s'.leases = s.leases) :
    s.Leased pass id x := by
  obtain ⟨⟨forker, lease, hlookup, hlive⟩, n, e, hin, hhosted, hget, htarget⟩ := h
  rw [hleases] at hlookup
  rw [hshards] at hget
  exact ⟨⟨forker, lease, hlookup, hlive⟩, n, e, hin, hhosted, hget, htarget⟩

/-- The passes stay, and what the step puts under a lease is spared. -/
theorem ClusterSys.Watched.stay (h : s.Watched t) (hpasses : s'.passes = s.passes)
    (hnew : ∀ k pass id x, s.passes k = some pass → s'.Leased pass id x → ¬ s.Leased pass id x →
      PassSpares t id x pass.phase) : s'.Watched t := by
  intro k pass id x hpass hleased
  rw [hpasses] at hpass
  by_cases hbefore : s.Leased pass id x
  · exact h k pass id x hpass hbefore
  · exact hnew k pass id x hpass hleased hbefore

theorem ClusterSys.Watched.setPass (h : s.Watched t) {k : Nat} {pass : NodePass}
    (hshards : s'.shards = s.shards) (hleases : s'.leases = s.leases)
    (hpasses : s'.passes = Function.update s.passes k (some pass))
    (hspares : ∀ id x, s.Leased pass id x → PassSpares t id x pass.phase) : s'.Watched t := by
  intro k' pass' id x hpass' hleased
  rw [hpasses, update_apply] at hpass'
  split_ifs at hpass' with hk
  · cases hpass'
    exact hspares id x (hleased.congr hshards hleases)
  · exact h k' pass' id x hpass' (hleased.congr hshards hleases)

/-- **One step.** -/
theorem ClusterSys.Watched.step {e : ClusterEvent} (h : s.Watched t) (hlegal : s.Legal t e)
    (hown : s.ReadsOwn e) (hwatchful : s.Watchful P t e) : (s.step P e).Watched t := by
  have hnew : ∀ k pass id x, s.passes k = some pass → (s.step P e).Leased pass id x →
      ¬ s.Leased pass id x → PassSpares t id x pass.phase :=
    fun k pass id x hpass => (hwatchful k pass id x hpass).2
  cases e with
  | receivePack k node r =>
    simp only [ClusterSys.step] at hnew ⊢
    split_ifs at hnew ⊢
    · exact h.stay rfl hnew
    · exact h
  | push k env =>
    simp only [ClusterSys.step] at hnew ⊢
    cases hcall : s.pushes k with
    | none => exact h
    | some call =>
      rw [hcall] at hnew
      exact h.stay rfl hnew
  | put | update | delete | leasePut | leaseTombstone => exact h.stay rfl hnew
  | startPass k node args =>
    simp only [ClusterSys.step]
    split_ifs
    · exact h.setPass rfl rfl rfl fun _ _ _ => trivial
    · exact h
  | turn k view =>
    simp only [ClusterSys.step]
    cases hpass : s.passes k with
    | none => exact h
    | some pass =>
      refine h.setPass rfl rfl rfl fun id x hleased => ?_
      have hbefore : s.Leased pass id x := ⟨hleased.live, hleased.ref⟩
      exact PassSpares.turn hbefore ((hwatchful k pass id x hpass).1 hbefore view rfl)
        (h k pass id x hpass hbefore) (fun candidates roots => hown pass candidates roots hpass)
        fun candidates roots => hlegal pass candidates roots hpass
  | failPass k =>
    simp only [ClusterSys.step]
    cases s.passes k with
    | none => exact h
    | some pass => exact h.setPass rfl rfl rfl fun _ _ _ => trivial

end Steps

/-- The access reads no leases and does not mark. -/
def GcPhase.quiet : GcPhase → Bool
  | .leases .. | .workspaces _ [] _ => false
  | _ => true

section WatchfulRuns

variable {P : Primitives} {t : ObjectTable} {pl : Placement} {s : ClusterSys pl} {k : Nat}
  {pass : NodePass} {view : StoreView}

theorem ClusterSys.WatchfulRun.turn (h : ClusterSys.WatchfulRun P t pl s)
    (hpass : s.passes k = some pass)
    (hsees : ∀ candidates roots, pass.phase = .workspaces candidates [] roots →
      t.Sees view (s.disk pass.node))
    (hown : ∀ candidates roots, pass.phase = .leases candidates roots →
      pass.args.leases = s.leases pass.node)
    (hready : ∀ id x, s.Leased pass id x → s.Ready t pass id x) :
    ClusterSys.WatchfulRun P t pl (s.step P (.turn k view)) := by
  refine h.step _ ?_ ?_ fun k' pass' id x hpass' =>
    ⟨fun hleased view' heq => ?_, fun hafter hbefore => ?_⟩
  · intro pass' candidates roots hpass'
    cases hpass.symm.trans hpass'
    exact hsees candidates roots
  · intro pass' candidates roots hpass'
    cases hpass.symm.trans hpass'
    exact hown candidates roots
  · cases heq
    cases hpass.symm.trans hpass'
    exact hready id x hleased
  · refine absurd ?_ hbefore
    simp only [ClusterSys.step] at hafter
    split at hafter
    · exact hafter
    · exact hafter.congr rfl rfl

theorem ClusterSys.WatchfulRun.quiet (h : ClusterSys.WatchfulRun P t pl s)
    (hpass : s.passes k = some pass) (hquiet : pass.phase.quiet = true) :
    ClusterSys.WatchfulRun P t pl (s.step P (.turn k view)) := by
  refine h.turn hpass (fun candidates roots hphase => ?_) (fun candidates roots hphase => ?_)
    fun id x _ => ?_
  · rw [hphase] at hquiet
    cases hquiet
  · rw [hphase] at hquiet
    cases hquiet
  · unfold ClusterSys.Ready
    unfold GcPhase.quiet at hquiet
    split at hquiet
    · cases hquiet
    · cases hquiet
    · trivial

end WatchfulRuns

/-- The next access marks. -/
def GcPhase.marks : GcPhase → Bool
  | .workspaces _ [] _ => true
  | _ => false

end Ledge.Cluster
