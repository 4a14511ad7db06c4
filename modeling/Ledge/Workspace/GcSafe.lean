import Ledge.Workspace.Gc

/-!
# Ledge.Workspace.GcSafe

A collection **while workspaces are forked, committed and released**.

The pass lists the durable refs before the refs of the workspaces. A commit and a release between
the two move an object from a ref that is not read yet to one that was read before, and a fork that
has read its source before the pass may put its lease after the leases were listed. `Careful`
excludes these steps. In the runs that are left, whatever a durable ref or a ref of a live
workspace leads to survives (`held_object_survives`).
-/

namespace Ledge.Workspace

open Ledge.Core Ledge.RefStore Ledge.Objects List

/-- The calls with their stores, the object files and the pass. -/
structure GcSys (I : Type) where
  managers : ManagerState I
  disk : Disk
  pass : GcPass

inductive PassEvent (I : Type)
  | call (i : I) (env : Env)
  | turn (order : List Lease)
  /-- A read or a deletion fails, and the pass with it. -/
  | fail

namespace GcPass

/-- The durable refs have been listed, and the pass goes on. -/
def watching : GcPass → Bool
  | .idle | .frozen _ | .ended => false
  | .listed .. | .workspaces .. | .sweep .. | .doomed .. => true

end GcPass

namespace GcSys

variable {I : Type} [DecidableEq I] (g : Gc) (quotas : QuotaLimits) (reads : StoreView)

def step (s : GcSys I) : PassEvent I → GcSys I
  | .call i env => { s with managers := s.managers.step quotas i env }
  | .turn order =>
    let (disk, pass) := g.turn order s.managers.node s.disk s.pass
    { s with disk := disk, pass := pass }
  | .fail => { s with pass := .ended }

/-- The pass has still to list the refs of a workspace. -/
def ToBeListed (s : GcSys I) (id : WorkspaceId) : Prop :=
  match s.pass with
  | .listed _ _ => s.managers.node.Live g.nowMs id
  | .workspaces _ todo _ => ∃ l ∈ todo, l.id = id
  | _ => False

/-- A ref that is still to be listed points at an object. -/
def Waiting (s : GcSys I) (x : ObjectId) : Prop :=
  ∃ id n, s.ToBeListed g id ∧ InWorkspace id n ∧ s.managers.node.PointsAt n x

/-- The pass knows of an object, or will find it; after the mark, it keeps what the object leads to.
`reads` is what reads of the store return before the sweep. -/
def Secured (s : GcSys I) (x : ObjectId) : Prop :=
  match s.pass with
  | .idle | .frozen _ | .ended => True
  | .listed _ roots | .workspaces _ _ roots => x ∈ roots ∨ s.Waiting g x
  | .sweep _ keep | .doomed _ _ keep => ∀ o, reads.Needs x o → o ∈ keep

/-- What a call must not do once the durable refs have been listed:
* a commit moves durable refs only, and to objects that are secured;
* a fork puts its lease after the listing of the leases only if its refs point at such objects;
* a release leaves a workspace alone as long as it is to be listed. -/
def CarefulCall (s : GcSys I) : ManagerPc → Prop
  | .gathering _ [] promotions _ => s.pass.watching = true →
      ∀ m ∈ promotions, Durable m.name ∧ s.Secured g reads m.target
  | .forking _ _ id [] _ => s.pass.watching = true →
      (∃ candidates roots, s.pass = .listed candidates roots) ∨
        ∀ n x, InWorkspace id n → s.managers.node.PointsAt n x → s.Secured g reads x
  | .deleting id _ => ¬ s.ToBeListed g id
  | _ => True

def Careful (s : GcSys I) : PassEvent I → Prop
  | .call i _ => s.CarefulCall g reads (s.managers.pc i)
  | .turn _ | .fail => True

/-- A fork gets an id that no lease and no other fork has, and the leases are listed as they are. -/
def Legal (s : GcSys I) : PassEvent I → Prop
  | .call i env => ∀ source ttlMs tenant, s.managers.pc i = .start (.fork source ttlMs tenant) →
      s.managers.node.leases.get env.newId = none ∧
        ∀ j, (s.managers.pc j).forkId ≠ some env.newId
  | .turn order => s.managers.node.leases.index.Lists order
  | .fail => True

/-- The runs of careful steps up to the end of the pass. -/
inductive CarefulRun (s₀ : GcSys I) : GcSys I → Prop
  | start : CarefulRun s₀ s₀
  | step {s : GcSys I} (h : CarefulRun s₀ s) (e : PassEvent I) (hrunning : s.pass ≠ .ended)
      (hlegal : s.Legal e) (hcareful : s.Careful g reads e) : CarefulRun s₀ (s.step g quotas e)

end GcSys

/-! ### The calls -/

namespace ManagerPc

/-- The refs that a call writes belong to its workspace, and it is not a renewal. -/
def WellNamed : ManagerPc → Prop
  | .start (.renew ..) | .renewing .. => False
  | .copying _ _ id _ ws _ _ _ => InWorkspace id ws
  | .deleting id todo => ∀ x ∈ todo, InWorkspace id x.1
  | _ => True

variable {node node' : Node}

theorem Moves.wellNamed {quotas : QuotaLimits} {env : Env} {pc pc' : ManagerPc}
    (h : Moves quotas env node pc node' pc') (hnamed : pc.WellNamed) : pc'.WellNamed := by
  cases h with
  | renew | renewed => exact hnamed.elim
  | read _ _ hws => exact inWorkspace_of_workspaceRef hws
  | promote _ hnext => rcases hnext with ⟨_, rfl⟩ | ⟨_, rfl⟩ <;> trivial
  | list => exact fun x hx => (RefTree.mem_list.mp hx).1
  | delete | pass => exact fun y hy => hnamed y (mem_cons_of_mem _ hy)
  | releaseUnknown => exact nofun
  | _ => trivial

theorem Effect.unleased {pc : ManagerPc} (h : Effect node node' pc) (hnamed : pc.WellNamed)
    {id : WorkspaceId} (hnone : node.leases.get id = none) :
    node'.leases.get id = none ∨
      ∃ ttlMs tenant refs, pc = .forking ttlMs tenant id [] refs := by
  cases h with
  | quiet h => exact Or.inl (h ▸ hnone)
  | copy hleases _ _ _ | promote hleases _ | delete hleases _ => exact Or.inl (hleases ▸ hnone)
  | grant hrefs hid hleases =>
    rename_i ttlMs tenant id' refs lease
    by_cases heq : id' = id
    · subst heq
      exact Or.inr ⟨_, _, _, rfl⟩
    · refine Or.inl ?_
      rw [hleases, LeaseStore.get_put, hid, if_neg heq]
      exact hnone
  | renew => exact hnamed.elim
  | revoke hrefs hleases =>
    rename_i id' hlc
    refine Or.inl ?_
    rw [hleases, LeaseStore.get_tombstoneWithHlc]
    split_ifs
    · rfl
    · exact hnone

end ManagerPc

/-! ### The invariant -/

namespace GcSys

variable {I : Type} {g : Gc} {quotas : QuotaLimits} {s₀ s : GcSys I}

/-- What the pass keeps is in its files still. -/
def FilesKept (s₀ s : GcSys I) : Prop :=
  match s.pass with
  | .idle | .frozen _ | .listed .. | .workspaces .. => s.disk = s₀.disk
  | .sweep _ keep => ∀ o ∈ keep, ∀ mtime, (o, mtime) ∈ s₀.disk.loose → (o, mtime) ∈ s.disk.loose
  | .doomed id _ keep => id ∉ keep ∧
      ∀ o ∈ keep, ∀ mtime, (o, mtime) ∈ s₀.disk.loose → (o, mtime) ∈ s.disk.loose
  | .ended => True

/-- What holds until the pass ends. -/
structure Sheltered (g : Gc) (s₀ s : GcSys I) : Prop where
  named : ∀ i, (s.managers.pc i).WellNamed
  unleased : ∀ i id, (s.managers.pc i).forkId = some id → s.managers.node.leases.get id = none
  alone : ∀ i j id, (s.managers.pc i).forkId = some id → (s.managers.pc j).forkId = some id → i = j
  secured : ∀ x, s.managers.node.Holds g.nowMs x → s.Secured g (g.view s₀.disk) x
  files : FilesKept s₀ s

variable {node node' : Node} {id : WorkspaceId} {x : ObjectId}

theorem live_congr {nowMs : Nat} (h : node'.leases.get id = node.leases.get id) :
    node'.Live nowMs id ↔ node.Live nowMs id := by
  unfold Node.Live
  rw [h]

theorem pointsAt_congr {n : RefName} (h : node'.refs.tree.get n = node.refs.tree.get n) :
    node'.PointsAt n x ↔ node.PointsAt n x := by
  unfold Node.PointsAt
  rw [h]

theorem ToBeListed.mono {s' : GcSys I} (hpass : s'.pass = s.pass)
    (hlive : s.managers.node.Live g.nowMs id → s'.managers.node.Live g.nowMs id)
    (h : s.ToBeListed g id) : s'.ToBeListed g id := by
  unfold ToBeListed at h ⊢
  rw [hpass]
  cases hphase : s.pass with
  | listed candidates roots =>
    rw [hphase] at h
    exact hlive h
  | workspaces candidates todo roots
  | idle | frozen candidates | sweep todo keep | doomed id' todo keep | ended =>
    rw [hphase] at h
    exact h

theorem secured_of_not_watching {reads : StoreView} (h : s.pass.watching ≠ true) :
    s.Secured g reads x := by
  unfold Secured
  cases hphase : s.pass with
  | idle | frozen candidates | ended => trivial
  | listed candidates roots | workspaces candidates todo roots | sweep todo keep
  | doomed id todo keep =>
    rw [hphase] at h
    exact absurd rfl h

/-! ### A step of a call -/

section

variable {s' : GcSys I} {reads : StoreView} {x : ObjectId}

/-- An object stays secured if the refs that are still to be listed stay, and their leases. -/
theorem Secured.mono (hpass : s'.pass = s.pass)
    (hlive : ∀ id, s.ToBeListed g id → s.managers.node.Live g.nowMs id →
      s'.managers.node.Live g.nowMs id)
    (hrefs : ∀ id n, s.ToBeListed g id → InWorkspace id n → s.managers.node.PointsAt n x →
      s'.managers.node.PointsAt n x)
    (h : s.Secured g reads x) : s'.Secured g reads x := by
  have hwaiting : s.Waiting g x → s'.Waiting g x := by
    intro hw
    obtain ⟨id, n, hlisted, hin, hpoints⟩ := hw
    exact ⟨id, n, hlisted.mono hpass (hlive id hlisted), hin, hrefs id n hlisted hin hpoints⟩
  unfold Secured at h ⊢
  rw [hpass]
  cases hphase : s.pass with
  | idle | frozen candidates | ended => trivial
  | listed candidates roots | workspaces candidates todo roots =>
    rw [hphase] at h
    exact h.imp_right hwaiting
  | sweep todo keep | doomed id todo keep =>
    rw [hphase] at h
    exact h

theorem holds_of_pointsAt {node node' : Node} {nowMs : Nat} {n : RefName}
    (hpoints : node.PointsAt n x)
    (hlive : ∀ id, node'.Live nowMs id → InWorkspace id n → node.Live nowMs id)
    (hroot : Durable n ∨ ∃ id, node'.Live nowMs id ∧ InWorkspace id n) : node.Holds nowMs x := by
  refine ⟨n, hpoints, ?_⟩
  rcases hroot with hdurable | ⟨id, h, hin⟩
  · exact Or.inl hdurable
  · exact Or.inr ⟨id, hlive id h hin, hin⟩

variable (hpass : s'.pass = s.pass)
  (hsecured : ∀ y, s.managers.node.Holds g.nowMs y → s.Secured g reads y)
  (hx : s'.managers.node.Holds g.nowMs x)

include hpass hsecured hx

variable {id : WorkspaceId}

/-- The new ref of a fork is no root yet: its workspace has no lease. -/
theorem secured_copy {ws : RefName} {e : RefEntry}
    (hleases : s'.managers.node.leases = s.managers.node.leases)
    (hfree : s.managers.node.leases.get id = none) (hin : InWorkspace id ws)
    (hnone : s.managers.node.refs.tree.get ws = none)
    (hget : ∀ n, s'.managers.node.refs.tree.get n =
      if n = ws then some e else s.managers.node.refs.tree.get n) : s'.Secured g reads x := by
  obtain ⟨n, hpoints, hroot⟩ := hx
  have hlive : ∀ id', s'.managers.node.Live g.nowMs id' ↔ s.managers.node.Live g.nowMs id' :=
    fun id' => live_congr (by rw [hleases])
  have hother : ∀ m, m ≠ ws → (s'.managers.node.PointsAt m x ↔ s.managers.node.PointsAt m x) :=
    fun m hne => pointsAt_congr (by rw [hget, if_neg hne])
  have hne : n ≠ ws := by
    intro heq
    rw [heq] at hroot
    rcases hroot with hdurable | ⟨id', ⟨l, hl, -⟩, hin'⟩
    · exact hin.not_durable hdurable
    · rw [hin'.unique hin, hleases, hfree] at hl
      cases hl
  have hbefore := holds_of_pointsAt ((hother n hne).mp hpoints)
    (fun id' h _ => (hlive id').mp h) hroot
  refine (hsecured x hbefore).mono hpass (fun id' _ => (hlive id').mpr) fun id' m _ _ hm => ?_
  refine (hother m fun heq => ?_).mpr hm
  rw [heq, Node.PointsAt, hnone] at hm
  cases hm

theorem secured_promote {promotions : List Mapping}
    (hleases : s'.managers.node.leases = s.managers.node.leases)
    (hcareful : ∀ m ∈ promotions, Durable m.name ∧ s.Secured g reads m.target)
    (hget : ∀ n, s'.managers.node.refs.tree.get n = s.managers.node.refs.tree.get n ∨
      ∃ m ∈ promotions, m.name = n ∧
        (s'.managers.node.refs.tree.get n).map RefEntry.target = some m.target) :
    s'.Secured g reads x := by
  obtain ⟨n, hpoints, hroot⟩ := hx
  have hlive : ∀ id', s'.managers.node.Live g.nowMs id' ↔ s.managers.node.Live g.nowMs id' :=
    fun id' => live_congr (by rw [hleases])
  have hbefore : s.Secured g reads x := by
    rcases hget n with hsame | ⟨m, hm, -, htarget⟩
    · exact hsecured x (holds_of_pointsAt ((pointsAt_congr hsame).mp hpoints)
        (fun id' h _ => (hlive id').mp h) hroot)
    · obtain rfl : m.target = x := Option.some.inj (htarget.symm.trans hpoints)
      exact (hcareful m hm).2
  refine hbefore.mono hpass (fun id' _ => (hlive id').mpr) fun id' n' _ hin hn' => ?_
  rcases hget n' with hsame | ⟨m, hm, hname, -⟩
  · exact (pointsAt_congr hsame).mpr hn'
  · exact absurd (hname ▸ (hcareful m hm).1) hin.not_durable

/-- A release deletes refs of a workspace that is not to be listed. -/
theorem secured_delete {name : RefName} (hleases : s'.managers.node.leases = s.managers.node.leases)
    (hin : InWorkspace id name) (hcareful : ¬ s.ToBeListed g id)
    (hget : ∀ n, s'.managers.node.refs.tree.get n =
      if n = name then none else s.managers.node.refs.tree.get n) : s'.Secured g reads x := by
  obtain ⟨n, hpoints, hroot⟩ := hx
  have hlive : ∀ id', s'.managers.node.Live g.nowMs id' ↔ s.managers.node.Live g.nowMs id' :=
    fun id' => live_congr (by rw [hleases])
  have hother : ∀ m, m ≠ name → (s'.managers.node.PointsAt m x ↔ s.managers.node.PointsAt m x) :=
    fun m hne => pointsAt_congr (by rw [hget, if_neg hne])
  have hne : n ≠ name := by
    intro heq
    rw [heq, Node.PointsAt, hget, if_pos rfl] at hpoints
    cases hpoints
  have hbefore := holds_of_pointsAt ((hother n hne).mp hpoints)
    (fun id' h _ => (hlive id').mp h) hroot
  refine (hsecured x hbefore).mono hpass (fun id' _ => (hlive id').mpr) fun id' m hlisted hin' hm =>
    ?_
  refine (hother m fun heq => hcareful ?_).mpr hm
  rw [heq] at hin'
  exact hin'.unique hin ▸ hlisted

/-- The lease of a fork is put before the leases are listed, or its refs point at secured
objects. -/
theorem secured_grant {lease : Lease} (hrefs : s'.managers.node.refs = s.managers.node.refs)
    (hleases : s'.managers.node.leases = s.managers.node.leases.put lease)
    (hfree : s.managers.node.leases.get lease.id = none)
    (hcareful : (∃ candidates roots, s.pass = .listed candidates roots) ∨
      ∀ n y, InWorkspace lease.id n → s.managers.node.PointsAt n y → s.Secured g reads y) :
    s'.Secured g reads x := by
  obtain ⟨n, hpoints, hroot⟩ := hx
  have hget : ∀ id, s'.managers.node.leases.get id =
      if lease.id = id then some lease else s.managers.node.leases.get id := by
    intro id
    rw [hleases, LeaseStore.get_put]
  have hother : ∀ id, lease.id ≠ id →
      (s'.managers.node.Live g.nowMs id ↔ s.managers.node.Live g.nowMs id) :=
    fun id hne => live_congr (by rw [hget, if_neg hne])
  have hsame : ∀ m y, s'.managers.node.PointsAt m y ↔ s.managers.node.PointsAt m y :=
    fun m y => pointsAt_congr (by rw [hrefs])
  have hmono : s.Secured g reads x → s'.Secured g reads x := by
    refine Secured.mono hpass (fun id _ hlive => ?_) fun id m _ _ hm => (hsame m x).mpr hm
    refine (hother id fun heq => ?_).mpr hlive
    obtain ⟨l, hl, -⟩ := hlive
    rw [← heq, hfree] at hl
    cases hl
  by_cases hnew : InWorkspace lease.id n
  · rcases hcareful with ⟨candidates, roots, hphase⟩ | hall
    · -- the leases are still to be listed, and the new one is among them
      obtain ⟨id, hlive, hin⟩ := hroot.resolve_left hnew.not_durable
      unfold Secured Waiting ToBeListed
      rw [hpass, hphase]
      exact Or.inr ⟨id, n, hlive, hin, hpoints⟩
    · exact hmono (hall n x hnew ((hsame n x).mp hpoints))
  · refine hmono (hsecured x (holds_of_pointsAt ((hsame n x).mp hpoints)
      (fun id h hin => ?_) hroot))
    exact (hother id fun heq => hnew (heq ▸ hin)).mp h

/-- A release removes the lease of a workspace that is not to be listed. -/
theorem secured_revoke {hlc : Nat} (hrefs : s'.managers.node.refs = s.managers.node.refs)
    (hleases : s'.managers.node.leases = s.managers.node.leases.tombstoneWithHlc id hlc)
    (hcareful : ¬ s.ToBeListed g id) : s'.Secured g reads x := by
  obtain ⟨n, hpoints, hroot⟩ := hx
  have hget : ∀ id', s'.managers.node.leases.get id' =
      if id = id' then none else s.managers.node.leases.get id' := by
    intro id'
    rw [hleases, LeaseStore.get_tombstoneWithHlc]
  have hsame : ∀ m, s'.managers.node.PointsAt m x ↔ s.managers.node.PointsAt m x :=
    fun m => pointsAt_congr (by rw [hrefs])
  have hbefore : s.managers.node.Holds g.nowMs x := by
    refine holds_of_pointsAt ((hsame n).mp hpoints) (fun id' h _ => ?_) hroot
    obtain ⟨l, hl, hlive⟩ := h
    rw [hget] at hl
    split_ifs at hl
    · cases hl
    · exact ⟨l, hl, hlive⟩
  refine (hsecured x hbefore).mono hpass (fun id' hlisted h => ?_) fun id' m _ _ hm =>
    (hsame m).mpr hm
  have hne : id ≠ id' := fun heq => hcareful (heq ▸ hlisted)
  exact (live_congr (by rw [hget, if_neg hne])).mpr h

/-- **A careful access** leaves all that is held secured. -/
theorem secured_call {pc : ManagerPc} (hnamed : pc.WellNamed)
    (hunleased : ∀ id, pc.forkId = some id → s.managers.node.leases.get id = none)
    (hcareful : s.CarefulCall g reads pc)
    (heffect : pc.Effect s.managers.node s'.managers.node) : s'.Secured g reads x := by
  by_cases hwatching : s.pass.watching = true
  · cases heffect with
    | quiet h =>
      rw [h] at hx
      refine (hsecured x hx).mono hpass (fun id _ hlive => ?_) fun id n _ _ hn => ?_
      · rwa [h]
      · rwa [h]
    | copy hleases hnone _ hget =>
      exact secured_copy hpass hsecured hx hleases (hunleased _ rfl) hnamed hnone hget
    | promote hleases hget =>
      exact secured_promote hpass hsecured hx hleases (hcareful hwatching) hget
    | delete hleases hget =>
      exact secured_delete hpass hsecured hx hleases (hnamed _ mem_cons_self) hcareful hget
    | grant hrefs hid hleases =>
      subst hid
      exact secured_grant hpass hsecured hx hrefs hleases (hunleased _ rfl) (hcareful hwatching)
    | renew => exact hnamed.elim
    | revoke hrefs hleases => exact secured_revoke hpass hsecured hx hrefs hleases hcareful
  · rw [← hpass] at hwatching
    exact secured_of_not_watching hwatching

end

section

variable [DecidableEq I]

/-- **A careful call** keeps the invariant. -/
theorem Sheltered.call (h : Sheltered g s₀ s) {i : I} {env : Env} (hlegal : s.Legal (.call i env))
    (hcareful : s.Careful g (g.view s₀.disk) (.call i env)) :
    Sheltered g s₀ (s.step g quotas (.call i env)) := by
  have hmoves := ManagerPc.moves_step quotas env s.managers.node (s.managers.pc i)
  have heffect := hmoves.effect
  set s' := s.step g quotas (.call i env)
  have hpass : s'.pass = s.pass := rfl
  have hself : s'.managers.pc i = ((s.managers.pc i).step quotas env s.managers.node).2 :=
    Function.update_self ..
  have hothers : ∀ j, j ≠ i → s'.managers.pc j = s.managers.pc j :=
    fun j hne => Function.update_of_ne hne _ _
  -- a fork that goes on has the id it had, or one that nobody has
  have hfork : ∀ id, (s'.managers.pc i).forkId = some id →
      (s.managers.pc i).forkId = some id ∨
        s.managers.node.leases.get id = none ∧ ∀ j, (s.managers.pc j).forkId ≠ some id := by
    intro id hid
    rw [hself] at hid
    rcases hmoves.forkId hid with hsame | ⟨source, ttlMs, tenant, hstart, rfl⟩
    · exact Or.inl hsame
    · exact Or.inr (hlegal source ttlMs tenant hstart)
  have halone : ∀ j id, j ≠ i → (s'.managers.pc i).forkId = some id →
      (s'.managers.pc j).forkId ≠ some id := by
    intro j id hne hi hj
    rw [hothers j hne] at hj
    rcases hfork id hi with hsame | ⟨-, hfree⟩
    · exact hne (h.alone j i id hj hsame)
    · exact hfree j hj
  refine ⟨fun j => ?_, fun j id hj => ?_, fun j k id hj hk => ?_, fun x hx => ?_, h.files⟩
  · by_cases hne : j = i
    · rw [hne, hself]
      exact hmoves.wellNamed (h.named i)
    · rw [hothers j hne]
      exact h.named j
  · have hnone : s.managers.node.leases.get id = none := by
      by_cases hne : j = i
      · rw [hne] at hj
        rcases hfork id hj with hsame | ⟨hfree, -⟩
        · exact h.unleased i id hsame
        · exact hfree
      · rw [hothers j hne] at hj
        exact h.unleased j id hj
    rcases heffect.unleased (h.named i) hnone with hfree | ⟨ttlMs, tenant, refs, hlast⟩
    · exact hfree
    · -- the call has put the lease of its fork and returned
      have hreturned : (s'.managers.pc i).forkId = none := by rw [hself, hlast]; rfl
      by_cases hne : j = i
      · rw [hne, hreturned] at hj
        cases hj
      · rw [hothers j hne] at hj
        exact absurd (h.alone j i id hj (by rw [hlast]; rfl)) hne
  · by_cases hji : j = i
    · by_cases hki : k = i
      · rw [hji, hki]
      · exact absurd hk (halone k id hki (hji ▸ hj))
    · by_cases hki : k = i
      · exact absurd hj (halone j id hji (hki ▸ hk))
      · rw [hothers j hji] at hj
        rw [hothers k hki] at hk
        exact h.alone j k id hj hk
  · exact secured_call hpass h.secured hx (h.named i) (h.unleased i) hcareful heffect

/-! ### A step of the pass -/

variable {x : ObjectId} {order : List Lease}

theorem mem_targets_of_pointsAt {node : Node} {search : String} {n : RefName}
    (hin : strBytes search <+: n.bytes) (hpoints : node.PointsAt n x) :
    ∃ e, (n, e) ∈ node.refs.tree.list search ∧ e.target = x := by
  obtain ⟨e, he, htarget⟩ := Option.map_eq_some_iff.mp hpoints
  exact ⟨e, RefTree.mem_list.mpr ⟨hin, he⟩, htarget⟩

/-- The pass finds what it is to know of, and keeps what it has found. -/
theorem secured_turn (hlegal : s.Legal (.turn order)) (hfiles : FilesKept s₀ s)
    (hx : s.managers.node.Holds g.nowMs x) (h : s.Secured g (g.view s₀.disk) x) :
    (s.step g quotas (.turn order)).Secured g (g.view s₀.disk) x := by
  obtain ⟨managers, disk, pass⟩ := s
  cases pass with
  | idle | ended => trivial
  | frozen candidates =>
    obtain ⟨n, hpoints, hdurable | ⟨id, hlive, hin⟩⟩ := hx
    · obtain ⟨e, he, htarget⟩ := mem_targets_of_pointsAt (refs_bytes n) hpoints
      exact Or.inl (mem_durableTargets.mpr ⟨n, e, he, hdurable, htarget⟩)
    · exact Or.inr ⟨id, n, hlive, hin, hpoints⟩
  | listed candidates roots =>
    rcases h with hroot | ⟨id, n, ⟨l, hl, hlive⟩, hin, hpoints⟩
    · exact Or.inl hroot
    · have hid : l.id = id := LeaseIndex.id_of_lookup hl
      have hmem : l ∈ order := (hlegal.mem l).mpr (hid ▸ hl)
      exact Or.inr ⟨id, n, ⟨l, mem_filter.mpr ⟨hmem, decide_eq_true hlive⟩, hid⟩, hin, hpoints⟩
  | workspaces candidates todo roots =>
    cases todo with
    | nil =>
      have hroot : x ∈ roots := by
        rcases h with hroot | ⟨id, n, ⟨l, hl, -⟩, -, -⟩
        · exact hroot
        · cases hl
      obtain rfl : disk = s₀.disk := hfiles
      cases hmark : (g.view s₀.disk).mark roots with
      | error e => simp only [step, Gc.turn, hmark, Secured]
      | ok keep =>
        simp only [step, Gc.turn, hmark, Secured]
        intro o ho
        exact (StoreView.mem_mark hmark).mpr ⟨x, hroot, ho⟩
    | cons lease todo =>
      rcases h with hroot | ⟨id, n, ⟨l, hl, hid⟩, hin, hpoints⟩
      · exact Or.inl (mem_append_left _ hroot)
      · rcases mem_cons.mp hl with rfl | hl
        · rw [← hid] at hin
          obtain ⟨e, he, htarget⟩ := mem_targets_of_pointsAt hin hpoints
          exact Or.inl (mem_append_right _ (mem_map.mpr ⟨(n, e), he, htarget⟩))
        · exact Or.inr ⟨id, n, ⟨l, hl, hid⟩, hin, hpoints⟩
  | sweep todo keep =>
    cases todo with
    | nil => trivial
    | cons id todo =>
      simp only [step, Gc.turn]
      split_ifs
      · exact h
      · split
        · exact h
        · split_ifs
          · exact h
          · exact h
  | doomed id todo keep => exact h

theorem filesKept_turn (h : FilesKept s₀ s) : FilesKept s₀ (s.step g quotas (.turn order)) := by
  obtain ⟨managers, disk, pass⟩ := s
  cases pass with
  | idle | frozen candidates | listed candidates roots => exact h
  | workspaces candidates todo roots =>
    cases todo with
    | cons lease todo => exact h
    | nil =>
      obtain rfl : disk = s₀.disk := h
      cases hmark : (g.view s₀.disk).mark roots with
      | error e => simp only [step, Gc.turn, hmark, FilesKept]
      | ok keep =>
        simp only [step, Gc.turn, hmark, FilesKept]
        exact fun o _ mtime hmem => hmem
  | sweep todo keep =>
    cases todo with
    | nil => trivial
    | cons id todo =>
      simp only [step, Gc.turn]
      split_ifs with hid
      · exact h
      · split
        · exact h
        · split_ifs
          · exact h
          · exact ⟨hid, h⟩
  | doomed id todo keep =>
    intro o ho mtime hmem
    have hne : o ≠ id := fun heq => h.1 (heq ▸ ho)
    exact mem_filter.mpr ⟨h.2 o ho mtime hmem, decide_eq_true hne⟩
  | ended => trivial

/-- **A step of the pass** keeps the invariant. -/
theorem Sheltered.turn (h : Sheltered g s₀ s) (hlegal : s.Legal (.turn order)) :
    Sheltered g s₀ (s.step g quotas (.turn order)) :=
  ⟨h.named, h.unleased, h.alone,
    fun x hx => secured_turn hlegal h.files hx (h.secured x hx), filesKept_turn h.files⟩

/-! ### Whole runs -/

/-- What `x` leads to, or what is needed to read that, is in its file if it was at the start. -/
def Survives (g : Gc) (s₀ s : GcSys I) (x : ObjectId) : Prop :=
  ∀ o, (g.view s₀.disk).Needs x o →
    ∀ mtime, (o, mtime) ∈ s₀.disk.loose → (o, mtime) ∈ s.disk.loose

omit [DecidableEq I] in
theorem Sheltered.survives (h : Sheltered g s₀ s) (hrunning : s.pass ≠ .ended) {x : ObjectId}
    (hx : s.managers.node.Holds g.nowMs x) : Survives g s₀ s x := by
  have hsecured := h.secured x hx
  have hfiles := h.files
  intro o ho mtime hmem
  unfold Secured at hsecured
  unfold FilesKept at hfiles
  cases hphase : s.pass with
  | idle | frozen candidates | listed candidates roots | workspaces candidates todo roots =>
    rw [hphase] at hfiles
    exact hfiles ▸ hmem
  | sweep todo keep =>
    rw [hphase] at hsecured hfiles
    exact hfiles o (hsecured o ho) mtime hmem
  | doomed id todo keep =>
    rw [hphase] at hsecured hfiles
    exact hfiles.2 o (hsecured o ho) mtime hmem
  | ended => exact absurd hphase hrunning

theorem Sheltered.survives_turn (h : Sheltered g s₀ s) (hlegal : s.Legal (.turn order))
    (hx : s.managers.node.Holds g.nowMs x) (hbefore : Survives g s₀ s x) :
    Survives g s₀ (s.step g quotas (.turn order)) x := by
  rcases g.disk_turn order s.managers.node s.disk
    s.pass with hsame | ⟨id, todo, keep, hphase, hdisk⟩
  · have hsame' : (s.step g quotas (.turn order)).disk = s.disk := hsame
    unfold Survives at hbefore ⊢
    rwa [hsame']
  · have hnext : Sheltered g s₀ (s.step g quotas (.turn order)) := h.turn hlegal
    have hpass : (s.step g quotas (.turn order)).pass = .sweep todo keep := by
      show (g.turn order s.managers.node s.disk s.pass).2 = _
      rw [hphase]
      rfl
    exact hnext.survives (by rw [hpass]; exact GcPass.noConfusion) hx

theorem Sheltered.step (h : Sheltered g s₀ s) (hrunning : s.pass ≠ .ended) {e : PassEvent I}
    (hlegal : s.Legal e) (hcareful : s.Careful g (g.view s₀.disk) e) :
    ((s.step g quotas e).pass ≠ .ended → Sheltered g s₀ (s.step g quotas e)) ∧
      ∀ x, (s.step g quotas e).managers.node.Holds g.nowMs x →
        Survives g s₀ (s.step g quotas e) x := by
  cases e with
  | call i env =>
    have hnext : Sheltered g s₀ (s.step g quotas (.call i env)) := h.call hlegal hcareful
    exact ⟨fun _ => hnext, fun x hx => hnext.survives hrunning hx⟩
  | turn order =>
    have hnext : Sheltered g s₀ (s.step g quotas (.turn order)) := h.turn hlegal
    exact ⟨fun _ => hnext, fun x hx => h.survives_turn hlegal hx (h.survives hrunning hx)⟩
  | fail => exact ⟨fun hne => absurd rfl hne, fun x hx => h.survives hrunning hx⟩

end

/-- **What is held survives.** `s₀` is a state before the pass in which no call has begun and none
is a renewal. At every point of a run of careful steps, at the end of the pass too: if a durable
ref or a ref of a workspace that is live at `nowMs` points at `x`, no file of an object that `x`
leads to has been deleted, whatever its age, and no file of a delta base that one of them needs. -/
theorem held_object_survives [DecidableEq I] (hidle : s₀.pass = .idle)
    (hstart : ∀ i, ∃ c, s₀.managers.pc i = .start c ∧ ∀ id ttlMs tenant, c ≠ .renew id ttlMs tenant)
    (hrun : CarefulRun g quotas (g.view s₀.disk) s₀ s) {nowMs : Nat} (hnow : g.nowMs ≤ nowMs)
    {x : ObjectId} (hx : s.managers.node.Holds nowMs x) : Survives g s₀ s x := by
  have hinit : Sheltered g s₀ s₀ := by
    refine ⟨fun i => ?_, fun i id h => ?_, fun i j id h => ?_, fun y _ => ?_, ?_⟩
    · obtain ⟨c, hc, hcall⟩ := hstart i
      rw [hc]
      cases c with
      | renew id ttlMs tenant => exact hcall id ttlMs tenant rfl
      | fork | commit | release => trivial
    · obtain ⟨c, hc, -⟩ := hstart i
      rw [hc] at h
      cases h
    · obtain ⟨c, hc, -⟩ := hstart i
      rw [hc] at h
      cases h
    · exact secured_of_not_watching (by rw [hidle]; exact Bool.false_ne_true)
    · unfold FilesKept
      rw [hidle]
  have hsafe : (s.pass ≠ .ended → Sheltered g s₀ s) ∧
      ∀ y, s.managers.node.Holds g.nowMs y → Survives g s₀ s y := by
    clear hx
    induction hrun with
    | start => exact ⟨fun _ => hinit, fun y _ o _ mtime hmem => hmem⟩
    | step _ e hrunning hlegal hcareful ih =>
      obtain ⟨hsheltered, -⟩ := ih
      exact (hsheltered hrunning).step hrunning hlegal hcareful
  exact hsafe.2 x (hx.earlier hnow)

end GcSys

/-! ### Runs -/

/-- The ref of the workspace with the sample lease. -/
def workspaceA : RefName := ⟨"refs/workspaces/01010101010101010101010101010101/heads/a", by decide⟩

/-- The ref of a fork of `refs/heads/a` that is given the id 2. -/
def forkedA : RefName := ⟨"refs/workspaces/02020202020202020202020202020202/heads/a", by decide⟩

/-- A live workspace has moved its ref to the object 1, and `refs/heads/a` is at the object 2. -/
def movedNode : Node :=
  ⟨.openOn [.update .headsA ⟨.fill 2, 1, 1⟩, .update workspaceA ⟨.fill 1, 2, 2⟩],
    .openOn [.put sampleLease]⟩

/-- A pass at the beginning of time, over blobs, without a grace period. -/
def flatGc : Gc where
  nowUnixSecs := 0
  grace := 0
  view := fun _ => ⟨.ok [], fun _ => .ok [], fun _ => .ok 3, fun _ => .ok none, [],
    StoreView.no_deltas⟩

theorem keyed_twoObjects :
    (([(.fill 1, 0), (.fill 2, 0)] : List (ObjectId × Nat)).map Prod.fst).Nodup := by
  decide

def twoObjects : Disk := ⟨[(.fill 1, 0), (.fill 2, 0)], keyed_twoObjects, []⟩

/-- Before the pass: a commit of the workspace, its release and a fork of `refs/heads/a`. -/
def beforePass : GcSys (Fin 3) where
  managers := .init movedNode (fun i =>
    match i with
    | 0 => .commit (.fill 1) [(workspaceA, .headsA)] "root"
    | 1 => .release (.fill 1) "root"
    | 2 => .fork [.headsA] 500 "root")
  disk := twoObjects
  pass := .idle

def GcSys.exec {I : Type} [DecidableEq I] (g : Gc) (quotas : QuotaLimits) (s : GcSys I)
    (events : List (PassEvent I)) : GcSys I :=
  events.foldl (fun s e => s.step g quotas e) s

def calls (i : Fin 3) (n : Nat) : List (PassEvent (Fin 3)) := replicate n (.call i (envAt 100))

def turns {I : Type} (n : Nat) : List (PassEvent I) := replicate n (.turn [sampleLease])

/-- **Objects that are held are deleted.** In the first run the commit and the release come between
the listing of the durable refs and the listing of the leases. In the second a fork has read its
source before the commit, and puts its lease after the pass has listed them. -/
theorem held_object_swept :
    (let s := beforePass.exec flatGc noQuotas
       (turns 2 ++ calls 0 4 ++ calls 1 4 ++ [.turn []] ++ turns 5)
     s.pass = .ended ∧ s.managers.node.Holds flatGc.nowMs (.fill 1) ∧
       ¬ GcSys.Survives flatGc beforePass s (.fill 1)) ∧
    (let s := beforePass.exec flatGc noQuotas
       (calls 2 2 ++ calls 0 4 ++ turns 5 ++ calls 2 2 ++ turns 4)
     s.pass = .ended ∧ s.managers.node.Holds 100 (.fill 2) ∧
       ¬ GcSys.Survives flatGc beforePass s (.fill 2)) := by
  have hgone : ∀ (s : GcSys (Fin 3)) (x : ObjectId), (x, 0) ∈ twoObjects.loose →
      (x, 0) ∉ s.disk.loose → ¬ GcSys.Survives flatGc beforePass s x :=
    fun s x hx hnot h => hnot (h x ⟨x, .refl, .refl⟩ 0 hx)
  refine ⟨⟨by decide +kernel, ⟨.headsA, by decide +kernel, Or.inl (by decide +kernel)⟩,
    hgone _ _ (by decide +kernel) (by decide +kernel)⟩, by decide +kernel,
    ⟨forkedA, by decide +kernel, Or.inr ⟨.fill 2, ?_, by decide +kernel⟩⟩,
    hgone _ _ (by decide +kernel) (by decide +kernel)⟩
  have hlive : ((beforePass.exec flatGc noQuotas
      (calls 2 2 ++ calls 0 4 ++ turns 5 ++ calls 2 2 ++ turns 4)).managers.node.leases.get
      (.fill 2)).any (fun l => 100 < l.expiresAtMs) = true := by decide +kernel
  obtain ⟨l, hl, hexpires⟩ := (Option.any_eq_true _ _).mp hlive
  exact ⟨l, hl, of_decide_eq_true hexpires⟩

/-- A call that is or was a commit. -/
def ManagerPc.commits : ManagerPc → Bool
  | .start (.commit ..) | .gathering .. | .expecting .. | .reporting .. | .returned _ => true
  | _ => false

theorem ManagerPc.leases_of_commits {pc : ManagerPc} (h : pc.commits = true) (quotas : QuotaLimits)
    (env : Env) (node : Node) : (pc.step quotas env node).1.leases = node.leases := by
  cases (ManagerPc.moves_step quotas env node pc).effect with
  | quiet h => rw [h]
  | promote hleases _ => exact hleases
  | copy | delete | grant | renew | revoke => cases h

namespace GcSys

variable {g : Gc} {quotas : QuotaLimits} {reads : StoreView} {s₀ s s' : GcSys Unit}

/-- The pass goes on, and the call is a commit that steps before the pass. -/
def Early (s : GcSys Unit) : PassEvent Unit → Prop
  | .call i _ => s.pass = .idle ∧ (s.managers.pc i).commits = true
  | .turn order => s.pass ≠ .ended ∧ order = [sampleLease]
  | .fail => False

instance (s : GcSys Unit) (e : PassEvent Unit) : Decidable (s.Early e) := by
  unfold Early
  split <;> infer_instance

theorem careful_of_commits {pc : ManagerPc} (hidle : s.pass = .idle) (h : pc.commits = true) :
    s.CarefulCall g reads pc := by
  have hpass : s.pass.watching ≠ true := by
    rw [hidle]
    exact Bool.false_ne_true
  unfold CarefulCall
  split
  · exact fun hwatching => absurd hwatching hpass
  · cases h
  · cases h
  · trivial

theorem CarefulRun.step_early {e : PassEvent Unit} (h : CarefulRun g quotas reads s₀ s)
    (hleases : s.managers.node.leases.index.Lists [sampleLease]) (hearly : s.Early e) :
    CarefulRun g quotas reads s₀ (s.step g quotas e) ∧
      (s.step g quotas e).managers.node.leases.index.Lists [sampleLease] := by
  cases e with
  | call i env =>
    obtain ⟨hidle, hcommits⟩ := hearly
    have hrunning : s.pass ≠ .ended := by
      rw [hidle]
      exact GcPass.noConfusion
    refine ⟨h.step _ hrunning ?_ (careful_of_commits hidle hcommits), ?_⟩
    · intro source ttlMs tenant hstart
      rw [hstart] at hcommits
      cases hcommits
    · show (ManagerState.step quotas s.managers i env).node.leases.index.Lists _
      rw [ManagerState.step_node, ManagerPc.leases_of_commits hcommits]
      exact hleases
  | turn order =>
    obtain ⟨hrunning, rfl⟩ := hearly
    exact ⟨h.step _ hrunning hleases trivial, hleases⟩
  | fail => exact hearly.elim

/-- The events, as long as they are early. -/
def execEarly (g : Gc) (quotas : QuotaLimits) (s : GcSys Unit) :
    List (PassEvent Unit) → Option (GcSys Unit)
  | [] => some s
  | e :: events => if s.Early e then execEarly g quotas (s.step g quotas e) events else none

theorem CarefulRun.execEarly {events : List (PassEvent Unit)} (h : CarefulRun g quotas reads s₀ s)
    (hleases : s.managers.node.leases.index.Lists [sampleLease])
    (hexec : s.execEarly g quotas events = some s') : CarefulRun g quotas reads s₀ s' := by
  induction events generalizing s with
  | nil =>
    cases hexec
    exact h
  | cons e events ih =>
    rw [GcSys.execEarly] at hexec
    split_ifs at hexec with hearly
    obtain ⟨hnext, hleases'⟩ := h.step_early hleases hearly
    exact ih hnext hleases' hexec

end GcSys

/-- Before the pass: a commit of the workspace. -/
def beforeCommit : GcSys Unit :=
  ⟨.init movedNode (fun _ => .commit (.fill 1) [(workspaceA, .headsA)] "root"), twoObjects, .idle⟩

/-- The workspace is committed before the pass, which then runs to its end: the object that
`refs/heads/a` points at now survives. -/
theorem committed_object_survives :
    ∃ s, GcSys.CarefulRun flatGc noQuotas (flatGc.view twoObjects) beforeCommit s ∧ s.pass =
      .ended ∧ s.managers.node.Holds flatGc.nowMs (.fill 1) ∧
      GcSys.Survives flatGc beforeCommit s (.fill 1) := by
  have hexec : (beforeCommit.execEarly flatGc noQuotas
      (replicate 4 (.call () (envAt 100)) ++ turns 9)).any
      (fun s => s.pass = .ended ∧ s.managers.node.PointsAt .headsA (.fill 1)) = true := by
    decide +kernel
  obtain ⟨s, hs, hend⟩ := (Option.any_eq_true _ _).mp hexec
  obtain ⟨hended, hpoints⟩ := of_decide_eq_true hend
  have hrun : GcSys.CarefulRun flatGc noQuotas (flatGc.view twoObjects) beforeCommit s :=
    GcSys.CarefulRun.start.execEarly lists_sampleLease hs
  have hheld : s.managers.node.Holds flatGc.nowMs (.fill 1) :=
    ⟨.headsA, hpoints, Or.inl (by decide +kernel)⟩
  refine ⟨s, hrun, hended, hheld, ?_⟩
  refine GcSys.held_object_survives rfl (fun i => ⟨_, rfl, ?_⟩) hrun (le_refl _) hheld
  exact fun id ttlMs tenant => ManagerCall.noConfusion

end Ledge.Workspace
