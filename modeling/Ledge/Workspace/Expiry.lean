import Ledge.Objects.Table
import Ledge.Workspace.GcSafe

/-!
# Ledge.Workspace.Expiry

Workspaces whose lease **expires**: calls, moves of workspace refs, the passage of time and
collections, one after the other.

A collection takes the objects of an expired workspace, but not its refs and its lease. `renew` and
`commit` ask for a lease and do not look at its expiry, so they bring refs back whose objects are
gone. `Safe` excludes such steps. In the runs that are left, durable refs and the refs of live
workspaces point at complete objects (`no_dangling_refs`).
-/

namespace Ledge.Workspace

open Ledge.Core Ledge.RefStore Ledge.Objects List Option

/-- The stores of a node, the cached index of the object store, and the clock. -/
structure Server where
  node : Node
  disk : Disk
  cache : Option (List (Sha1 × ObjectId))
  nowMs : Nat

inductive ServerOp
  /-- The accesses of a call, with what each of them finds around it. -/
  | call (c : ManagerCall) (envs : List Env)
  | update (n : RefName) (target : ObjectId) (expected : Option ObjectId) (hlc : Nat)
  | tick (ms : Nat)
  /-- A pass up to its end, or up to the step at which it fails; `indexed` if it has asked for the
  index. -/
  | collect (grace : Nat) (order : List Lease) (turns : Nat) (indexed : Bool)

/-- The accesses of a call, one after the other. -/
def ManagerPc.run (quotas : QuotaLimits) (envs : List Env) (x : Node × ManagerPc) :
    Node × ManagerPc :=
  envs.foldl (fun x env => x.2.step quotas env x.1) x

/-- The first steps of a pass. -/
def Gc.turns (g : Gc) (order : List Lease) (node : Node) (disk : Disk) : Nat → Disk × GcPass
  | 0 => (disk, .idle)
  | n + 1 =>
    let (disk, pass) := g.turns order node disk n
    g.turn order node disk pass

namespace Server

variable (t : ObjectTable) (quotas : QuotaLimits) (s : Server)

/-- The index that `sha1_index` returns. Deletions leave the cache as it is. -/
def index : List (Sha1 × ObjectId) := s.cache.getD (t.buildIndex s.disk)

/-- `run` takes the time of the pass from the clock, in seconds. -/
def gc (grace : Nat) : Gc := ⟨s.nowMs / 1000, grace, t.view (s.index t)⟩

def step : ServerOp → Server
  | .call c envs => { s with node := (ManagerPc.run quotas envs (s.node, .start c)).1 }
  | .update n target expected hlc =>
    { s with node := { s.node with refs := (s.node.refs.update n target expected hlc).1 } }
  | .tick ms => { s with nowMs := s.nowMs + ms }
  | .collect grace order turns indexed =>
    { s with
      disk := ((s.gc t grace).turns order s.node s.disk turns).1
      cache := if indexed then some (s.index t) else s.cache }

/-- The ref is durable or belongs to a live workspace, or what it points at is complete. -/
def Covered (n : RefName) : Prop :=
  Durable n ∨ (∃ id, s.node.Live s.nowMs id ∧ InWorkspace id n) ∨
    ∀ x, s.node.PointsAt n x → t.Complete s.disk x

/-- The refs that an operation brings to life, or copies, are covered: those of a workspace that is
renewed, those that are committed and those that are forked. A ref is moved to a complete object. -/
def Safe : ServerOp → Prop
  | .call (.fork source _ tenant) _ =>
    ∀ src ∈ source, ∀ n, durableRef (tenantNorm tenant) src = .ok n → s.Covered t n
  | .call (.renew id _ _) _ => ∀ n, InWorkspace id n → s.Covered t n
  | .call (.commit _ mappings _) _ => ∀ m ∈ mappings, s.Covered t m.1
  | .call (.release ..) _ => True
  | .update _ target _ _ => t.Complete s.disk target
  | .tick _ => True
  | .collect .. => True

/-- A fork gets an id under which there is no ref, a ref of a workspace is moved to an object that
is present, and the leases are listed as they are. -/
def Legal : ServerOp → Prop
  | .call _ envs => ∀ env ∈ envs.head?, ∀ n, InWorkspace env.newId n → s.node.refs.tree.get n = none
  | .update n target _ _ => (∃ id, InWorkspace id n) ∧ s.disk.Present target
  | .tick _ => True
  | .collect _ order _ _ => s.node.leases.index.Lists order

/-- What durable refs and refs of live workspaces point at is complete. -/
def Intact : Prop := ∀ x, s.node.Holds s.nowMs x → t.Complete s.disk x

/-- The runs of safe operations. -/
inductive SafeRun (s₀ : Server) : Server → Prop
  | start : SafeRun s₀ s₀
  | step {s : Server} (h : SafeRun s₀ s) (op : ServerOp) (hlegal : s.Legal op)
      (hsafe : s.Safe t op) : SafeRun s₀ (s.step t quotas op)

end Server

/-! ### A call -/

section

variable (W : ObjectId → Prop)

/-- What a ref points at is whole. -/
def Node.PointsIn (node : Node) (n : RefName) : Prop := ∀ x, node.PointsAt n x → W x

/-- The refs that a call is to read, or to bring to life, point at whole objects. -/
def ManagerCall.Sound (node : Node) : ManagerCall → Prop
  | .fork source _ tenant =>
    ∀ src ∈ source, ∀ n, durableRef (tenantNorm tenant) src = .ok n → node.PointsIn W n
  | .renew id _ _ => ∀ n, InWorkspace id n → node.PointsIn W n
  | .commit _ mappings _ => ∀ m ∈ mappings, node.PointsIn W m.1
  | .release .. => True

namespace ManagerPc

/-- The objects that a call handles are whole: those it is still to read from refs, those it has
read, and those that the refs of its new or renewed workspace point at. -/
def Sound (node : Node) : ManagerPc → Prop
  | .start _ => False
  | .forking _ tenant id todo _ =>
    (∀ src ∈ todo, ∀ n, durableRef tenant src = .ok n → node.PointsIn W n) ∧
      ∀ n, InWorkspace id n → node.PointsIn W n
  | .copying _ tenant id _ _ entry todo _ =>
    (∀ src ∈ todo, ∀ n, durableRef tenant src = .ok n → node.PointsIn W n) ∧
      (∀ n, InWorkspace id n → node.PointsIn W n) ∧ W entry.target
  | .renewing _ lease => ∀ n, InWorkspace lease.id n → node.PointsIn W n
  | .gathering _ todo promotions _ =>
    (∀ m ∈ todo, node.PointsIn W m.1) ∧ ∀ m ∈ promotions, W m.target
  | .expecting _ _ target todo promotions _ =>
    (∀ m ∈ todo, node.PointsIn W m.1) ∧ (∀ m ∈ promotions, W m.target) ∧ W target
  | _ => True

variable {W} {node node' : Node} {pc : ManagerPc} {nowMs : Nat}

theorem Effect.holds (heffect : pc.Effect node node') (h : pc.Sound W node)
    (hwhole : ∀ x, node.Holds nowMs x → W x) (x : ObjectId) (hx : node'.Holds nowMs x) : W x := by
  obtain ⟨n, hpoints, hroot⟩ := hx
  have hbefore : ∀ (_ : node'.leases = node.leases) (_ : node.PointsAt n x), W x := by
    intro hleases hpoints
    refine hwhole x ⟨n, hpoints, ?_⟩
    unfold Node.Live at hroot ⊢
    rwa [hleases] at hroot
  -- the refs of the workspace that a new lease is for are known to be whole
  have hput : ∀ (lease : Lease) (_ : node'.refs = node.refs)
      (_ : node'.leases = node.leases.put lease)
      (_ : ∀ m, InWorkspace lease.id m → node.PointsIn W m), W x := by
    intro lease hrefs hleases hin
    have hpoints' : node.PointsAt n x := by
      unfold Node.PointsAt at hpoints ⊢
      rwa [hrefs] at hpoints
    rcases hroot with hdurable | ⟨id, hlive, hid⟩
    · exact hwhole x ⟨n, hpoints', Or.inl hdurable⟩
    · by_cases heq : lease.id = id
      · exact hin n (heq ▸ hid) x hpoints'
      · refine hwhole x ⟨n, hpoints', Or.inr ⟨id, ?_, hid⟩⟩
        obtain ⟨l, hl, hexpires⟩ := hlive
        rw [hleases, LeaseStore.get_put, if_neg heq] at hl
        exact ⟨l, hl, hexpires⟩
  cases heffect with
  | quiet h => exact hwhole x ⟨n, h ▸ hpoints, h ▸ hroot⟩
  | copy hleases hnone htarget hget =>
    rename_i ttlMs tenant id src ws entry e todo refs
    by_cases hn : n = ws
    · rw [Node.PointsAt, hget, if_pos hn, map_some, htarget] at hpoints
      exact some.inj hpoints ▸ h.2.2
    · rw [Node.PointsAt, hget, if_neg hn] at hpoints
      exact hbefore hleases hpoints
  | promote hleases hget =>
    rcases hget n with hsame | ⟨m, hm, -, htarget⟩
    · rw [Node.PointsAt, hsame] at hpoints
      exact hbefore hleases hpoints
    · exact some.inj (htarget.symm.trans hpoints) ▸ h.2 m hm
  | delete hleases hget =>
    rw [Node.PointsAt, hget] at hpoints
    split_ifs at hpoints
    · cases hpoints
    · exact hbefore hleases hpoints
  | grant hrefs hid hleases => exact hput _ hrefs hleases (hid ▸ h.2)
  | renew hrefs hid hleases => exact hput _ hrefs hleases (hid ▸ h)
  | revoke hrefs hleases =>
    refine hwhole x ⟨n, ?_, hroot.imp_right fun hlive => ?_⟩
    · unfold Node.PointsAt at hpoints ⊢
      rwa [hrefs] at hpoints
    · obtain ⟨id', ⟨l, hl, hexpires⟩, hin⟩ := hlive
      rw [hleases, LeaseStore.get_tombstoneWithHlc] at hl
      split_ifs at hl
      · cases hl
      · exact ⟨id', ⟨l, hl, hexpires⟩, hin⟩

variable {quotas : QuotaLimits} {env : Env} {pc' : ManagerPc} {c : ManagerCall}

theorem Moves.sound_start (hmoves : Moves quotas env node (.start c) node' pc') (h : c.Sound W node)
    (hfresh : ∀ n, InWorkspace env.newId n → node.refs.tree.get n = none) : pc'.Sound W node' := by
  cases hmoves with
  | fork =>
    refine ⟨h, fun n hn x hx => ?_⟩
    rw [Node.PointsAt, hfresh n hn] at hx
    cases hx
  | renew hget =>
    obtain rfl := LeaseIndex.id_of_lookup hget
    exact h
  | commit => exact ⟨h, by simp⟩
  | refuse | releaseUnknown | release => trivial

theorem Moves.sound (hmoves : Moves quotas env node pc node' pc') (h : pc.Sound W node) :
    pc'.Sound W node' := by
  cases hmoves with
  | fork | renew | commit => exact h.elim
  | read hdurable hentry =>
    refine ⟨fun src' hsrc' => h.1 src' (mem_cons_of_mem _ hsrc'), h.2, ?_⟩
    refine h.1 _ mem_cons_self _ hdurable _ ?_
    rw [Node.PointsAt, hentry, map_some]
  | copy _ htarget hget =>
    obtain ⟨hsources, hrefs, hentry⟩ := h
    have hkept : ∀ n, node.PointsIn W n → (Node.mk ‹Store› node.leases).PointsIn W n := by
      intro n hn x hx
      rw [Node.PointsAt, hget] at hx
      split_ifs at hx
      · rw [map_some, htarget] at hx
        exact some.inj hx ▸ hentry
      · exact hn x hx
    exact ⟨fun src' hsrc' n hn => hkept n (hsources src' hsrc' n hn), fun n hn =>
      hkept n (hrefs n hn)⟩
  | promote _ hnext => rcases hnext with ⟨_, rfl⟩ | ⟨_, rfl⟩ <;> trivial
  | skip => exact ⟨fun m' hm' => h.1 m' (mem_cons_of_mem _ hm'), h.2⟩
  | gather hentry =>
    refine ⟨fun m' hm' => h.1 m' (mem_cons_of_mem _ hm'), h.2, h.1 _ mem_cons_self _ ?_⟩
    rw [Node.PointsAt, hentry, map_some]
  | expect =>
    obtain ⟨hrest, hpromotions, htarget⟩ := h
    refine ⟨hrest, fun m hm => ?_⟩
    rcases mem_append.mp hm with hm | hm
    · exact hpromotions m hm
    · rw [mem_singleton.mp hm]
      exact htarget
  | _ => trivial

theorem holds_run_of_sound (envs : List Env) (h : pc.Sound W node)
    (hwhole : ∀ x, node.Holds nowMs x → W x) :
    ∀ x, (run quotas envs (node, pc)).1.Holds nowMs x → W x := by
  induction envs generalizing node pc with
  | nil => exact hwhole
  | cons env envs ih =>
    have hmoves := moves_step quotas env node pc
    exact ih (hmoves.sound h) (hmoves.effect.holds h hwhole)

/-- **A call** that reads and revives whole objects only leaves what is held whole. -/
theorem holds_run (envs : List Env) (h : c.Sound W node)
    (hfresh : ∀ env ∈ envs.head?, ∀ n, InWorkspace env.newId n → node.refs.tree.get n = none)
    (hwhole : ∀ x, node.Holds nowMs x → W x) :
    ∀ x, (run quotas envs (node, .start c)).1.Holds nowMs x → W x := by
  cases envs with
  | nil => exact hwhole
  | cons env envs =>
    exact holds_run_of_sound envs ((moves_begin quotas env node c).sound_start h (hfresh env rfl))
      hwhole

end ManagerPc

end

/-! ### A pass -/

namespace Gc

variable (g : Gc) (order : List Lease) (node : Node) (disk : Disk)

theorem turns_sub (n : Nat) : (g.turns order node disk n).1.packed = disk.packed ∧
    ∀ id, (g.turns order node disk n).1.IsLoose id → disk.IsLoose id := by
  induction n with
  | zero => exact ⟨rfl, fun id h => h⟩
  | succ n ih =>
    rw [turns]
    rcases g.disk_turn order node (g.turns order node disk n).1 (g.turns order node disk n).2 with
      hsame | ⟨doomed, todo, keep, -, hdelete⟩
    · rw [hsame]
      exact ih
    · rw [hdelete]
      refine ⟨ih.1, fun id hid => ih.2 id ?_⟩
      exact (filter_sublist.map Prod.fst).subset hid

variable {g order node disk}

theorem turns_survives (hlists : node.leases.index.Lists order) {x : ObjectId}
    (hx : node.Holds g.nowMs x) (n : Nat) {id : ObjectId} (hneeds : (g.view disk).Needs x id)
    (h : disk.IsLoose id) : (g.turns order node disk n).1.IsLoose id := by
  -- no call is running
  let sys : Disk × GcPass → GcSys Empty := fun y => ⟨⟨node, Empty.elim⟩, y.1, y.2⟩
  have hrun : GcSys.Sheltered g (sys (disk, .idle)) (sys (g.turns order node disk n)) ∧
      GcSys.Survives g (sys (disk, .idle)) (sys (g.turns order node disk n)) x := by
    induction n with
    | zero =>
      refine ⟨⟨fun i => i.elim, fun i => i.elim, fun i => i.elim, fun y _ => trivial, rfl⟩, ?_⟩
      exact fun o _ mtime hmem => hmem
    | succ n ih =>
      obtain ⟨hsheltered, hsurvives⟩ := ih
      have hstep : sys (g.turns order node disk (n + 1)) =
          (sys (g.turns order node disk n)).step g noQuotas (.turn order) := rfl
      rw [hstep]
      exact ⟨hsheltered.turn hlists, hsheltered.survives_turn hlists hx hsurvives⟩
  obtain ⟨⟨id', mtime⟩, hmem, rfl⟩ := List.mem_map.mp h
  exact List.mem_map_of_mem (hrun.2 id' hneeds mtime hmem)

end Gc

/-! ### Whole runs -/

namespace Server

variable {t : ObjectTable} {quotas : QuotaLimits} {s s₀ : Server}

/-- What holds between the operations. -/
structure Sane (t : ObjectTable) (s : Server) : Prop where
  intact : s.Intact t
  known : ∀ id, s.disk.Present id → id ∈ t.known
  cached : ∀ index ∈ s.cache, t.Indexes index s.disk

theorem Sane.indexes (h : s.Sane t) : t.Indexes (s.index t) s.disk := by
  unfold index
  cases hcache : s.cache with
  | none => exact ObjectTable.Indexes.buildIndex h.known
  | some index => exact h.cached index hcache

theorem Covered.pointsIn {n : RefName} (h : s.Covered t n) (hintact : s.Intact t) :
    s.node.PointsIn (t.Complete s.disk) n := by
  intro x hx
  rcases h with hdurable | hlive | hcomplete
  · exact hintact x ⟨n, hx, Or.inl hdurable⟩
  · exact hintact x ⟨n, hx, Or.inr hlive⟩
  · exact hcomplete x hx

theorem Safe.sound {c : ManagerCall} {envs : List Env} (h : s.Safe t (.call c envs))
    (hintact : s.Intact t) : c.Sound (t.Complete s.disk) s.node := by
  cases c with
  | fork source ttlMs tenant => exact fun src hsrc n hn => (h src hsrc n hn).pointsIn hintact
  | renew id ttlMs tenant => exact fun n hn => (h n hn).pointsIn hintact
  | commit id mappings tenant => exact fun m hm => (h m hm).pointsIn hintact
  | release id tenant => trivial

theorem gc_nowMs_le (grace : Nat) : (s.gc t grace).nowMs ≤ s.nowMs :=
  le_trans (min_le_left _ _) (Nat.div_mul_le_self s.nowMs 1000)

/-- **One operation.** -/
theorem Sane.step {op : ServerOp} (h : s.Sane t) (hlegal : s.Legal op) (hsafe : s.Safe t op) :
    (s.step t quotas op).Sane t := by
  cases op with
  | call c envs =>
    exact ⟨ManagerPc.holds_run envs (hsafe.sound h.intact) hlegal h.intact, h.known, h.cached⟩
  | update n target expected hlc =>
    refine ⟨fun x hx => ?_, h.known, h.cached⟩
    obtain ⟨m, hpoints, hroot⟩ := hx
    rcases s.node.refs.update_cases n hlc target expected with
      ⟨err, hupdate⟩ | ⟨-, store, e, hupdate, htarget, hget⟩
    · simp only [Server.step, hupdate] at hpoints
      exact h.intact x ⟨m, hpoints, hroot⟩
    · simp only [Server.step, hupdate, Node.PointsAt, hget] at hpoints
      split_ifs at hpoints
      · rw [map_some, htarget] at hpoints
        exact some.inj hpoints ▸ hsafe
      · exact h.intact x ⟨m, hpoints, hroot⟩
  | tick ms =>
    exact ⟨fun x hx => h.intact x (hx.earlier (Nat.le_add_right s.nowMs ms)), h.known, h.cached⟩
  | collect grace order turns indexed =>
    obtain ⟨hpacked, hsub⟩ := (s.gc t grace).turns_sub order s.node s.disk turns
    have hpresent : ∀ id, (s.step t quotas (.collect grace order turns indexed)).disk.Present id →
        s.disk.Present id := fun id hid => hid.imp (hsub id) fun hp => hpacked ▸ hp
    refine ⟨fun x hx => ?_, fun id hid => h.known id (hpresent id hid), fun index hindex => ?_⟩
    · -- what is live now was live for the pass, whose clock shows whole seconds
      have hheld : s.node.Holds (s.gc t grace).nowMs x := hx.earlier (gc_nowMs_le grace)
      exact (h.intact x hx).of_kept h.indexes hpacked hsub fun a hneeds ha =>
        Gc.turns_survives hlegal hheld turns hneeds ha
    · refine ObjectTable.Indexes.of_sub ?_ hpacked hsub
      simp only [Server.step] at hindex
      split_ifs at hindex
      · cases hindex
        exact h.indexes
      · exact h.cached index hindex

/-- **No dangling refs.** In every run of safe operations, whatever a durable ref or a ref of a
workspace that is live now points at is in the store, with everything reachable from it, after every
operation. At the start nothing is cached, and all is as it should be. -/
theorem no_dangling_refs (hknown : ∀ id, s₀.disk.Present id → id ∈ t.known)
    (hcache : s₀.cache = none)
    (hintact : s₀.Intact t) (hrun : SafeRun t quotas s₀ s) : s.Intact t := by
  have hsane : s.Sane t := by
    induction hrun with
    | start =>
      refine ⟨hintact, hknown, fun index hindex => ?_⟩
      rw [hcache] at hindex
      cases hindex
    | step _ op hlegal hsafe ih => exact ih.step hlegal hsafe
  exact hsane.intact

end Server

/-! ### Runs -/

/-- Two blobs, whose names are the first bytes of their ids. -/
def twoBlobs : ObjectTable where
  known := [.fill 1, .fill 2]
  content := fun _ => []
  gitType := fun _ => 3
  sha1 := fun id => ⟨id.bytes.take 20, by rw [length_take, id.size]; rfl⟩
  looseBase := fun _ => none
  packBase := fun _ => none
  sha1_inj := by decide

theorem complete_twoBlobs {d : Disk} {x : ObjectId} (h : twoBlobs.readable d maxChain x = true) :
    twoBlobs.Complete d x := by
  intro id hreach
  have hsame : id = x := by
    cases hreach with
    | refl => rfl
    | tail _ hedge => cases hedge.2
  rw [hsame]
  exact ⟨h, nofun⟩

/-- The workspace with the sample lease is live, and all objects are there. -/
def liveServer : Server := ⟨movedNode, twoObjects, none, 0⟩

theorem intact_liveServer : liveServer.Intact twoBlobs := by
  have hrefs : ∀ y ∈ movedNode.refs.tree.list "refs/",
      twoBlobs.readable twoObjects maxChain y.2.target := by
    decide +kernel
  intro x hx
  obtain ⟨n, hpoints, -⟩ := hx
  obtain ⟨e, he, rfl⟩ := GcSys.mem_targets_of_pointsAt (refs_bytes n) hpoints
  exact complete_twoBlobs (hrefs (n, e) he)

def Server.exec (t : ObjectTable) (quotas : QuotaLimits) (s : Server) (ops : List ServerOp) :
    Server :=
  ops.foldl (fun s op => s.step t quotas op) s

/-- The lease expires, and a pass takes the object that only the workspace points at. -/
def expireAndCollect : List ServerOp := [.tick 2000, .collect 0 [sampleLease] 9 true]

/-- **Refs come back without their objects.** After the collection the expired workspace is renewed,
or committed to `refs/heads/a`. -/
theorem expired_workspace_revived :
    liveServer.Intact twoBlobs ∧
    ¬ (liveServer.exec twoBlobs noQuotas (expireAndCollect ++
      [.call (.renew (.fill 1) 500 "root") (replicate 2 (envAt 2000))])).Intact twoBlobs ∧
    ¬ (liveServer.exec twoBlobs noQuotas (expireAndCollect ++
      [.call (.commit (.fill 1) [(workspaceA, .headsA)] "root")
        (replicate 4 (envAt 2000))])).Intact twoBlobs := by
  have hgone : ∀ s : Server, s.node.Holds s.nowMs (.fill 1) →
      twoBlobs.readable s.disk maxChain (.fill 1) = false → ¬ s.Intact twoBlobs := by
    intro s hheld hgone hintact
    have hread := (hintact (.fill 1) hheld (.fill 1) .refl).1
    rw [hgone] at hread
    cases hread
  refine ⟨intact_liveServer, hgone _ ⟨workspaceA, by decide +kernel,
    Or.inr ⟨.fill 1, ?_, by decide +kernel⟩⟩
    (by decide +kernel), hgone _ ⟨.headsA, by decide +kernel, Or.inl (by decide +kernel)⟩
      (by decide +kernel)⟩
  have hlive : ((liveServer.exec twoBlobs noQuotas (expireAndCollect ++
      [.call (.renew (.fill 1) 500 "root") (replicate 2 (envAt 2000))])).node.leases.get
      (.fill 1)).any (fun l => 2000 < l.expiresAtMs) = true := by decide +kernel
  obtain ⟨l, hl, hexpires⟩ := (Option.any_eq_true _ _).mp hlive
  exact ⟨l, hl, of_decide_eq_true hexpires⟩

/-- A pass while the workspace is live, and then a renewal. -/
def renewedServer : Server := liveServer.exec twoBlobs noQuotas
  [.collect 0 [sampleLease] 9 true, .call (.renew (.fill 1) 500 "root") (replicate 2 (envAt 10))]

theorem renewed_workspace_intact :
    Server.SafeRun twoBlobs noQuotas liveServer renewedServer ∧
      renewedServer.node.PointsAt workspaceA (.fill 1) ∧ renewedServer.Intact twoBlobs := by
  have hcollect : Server.SafeRun twoBlobs noQuotas liveServer
      (liveServer.step twoBlobs noQuotas (.collect 0 [sampleLease] 9 true)) :=
    .step .start _ lists_sampleLease trivial
  have hlive : movedNode.Live 0 (.fill 1) := ⟨sampleLease, by decide +kernel, by decide⟩
  have hknown : ∀ id, twoObjects.Present id → id ∈ twoBlobs.known := by
    intro id hid
    rcases hid with hloose | hpacked
    · exact hloose
    · cases hpacked
  have hrun := hcollect.step (.call (.renew (.fill 1) 500 "root") (replicate 2 (envAt 10))) ?_ ?_
  · exact ⟨hrun, by decide +kernel, Server.no_dangling_refs hknown rfl intact_liveServer hrun⟩
  · intro env henv n hin
    cases henv
    cases hget : movedNode.refs.tree.get n with
    | none => exact hget
    | some e =>
      have hmem : (n, e) ∈ movedNode.refs.tree.list (wsPrefix (.fill 2)) :=
        RefTree.mem_list.mpr ⟨hin, hget⟩
      cases hmem
  · exact fun n hn => Or.inr (Or.inl ⟨.fill 1, hlive, hn⟩)

end Ledge.Workspace
