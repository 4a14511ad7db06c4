import Ledge.RefStore.Single
import Ledge.Workspace.LeaseWal

/-!
# Ledge.Workspace.Manager

The workspace manager (`manager.rs`): `fork`, `renew`, `commit` and `release` over a ref store and
a lease store, **one store access at a time**.

Every call is a program whose accesses may interleave with those of other calls. `ManagerPc` is
where a call is, with its local variables, and `ManagerPc.step` is its next access. Both stores do
each access at one point in time and without a failure of the operating system.
-/

namespace Ledge.Workspace

open Ledge.Core Ledge.RefStore String

/-! ### Names and tenants -/

/-- `str::strip_prefix` -/
def stripPrefix (pre s : String) : Option String :=
  if strBytes pre <+: strBytes s then fromUtf8 ((strBytes s).drop (strBytes pre).length) else none

/-- A text that starts with the bytes of another starts with that text. -/
theorem exists_append_of_strBytes {pre s : String} (h : strBytes pre <+: strBytes s) :
    ∃ rest, s = pre ++ rest := by
  obtain ⟨bytes, hbytes⟩ := h
  have hencode : pre.toList.utf8Encode ++ ⟨bytes.toArray⟩ = s.toList.utf8Encode := by
    rw [utf8Encode_toList, utf8Encode_toList]
    refine ByteArray.ext (Array.toList_inj.mp ?_)
    exact hbytes
  obtain ⟨rest, hrest⟩ := List.isPrefix_of_utf8Encode_append_eq_utf8Encode _ hencode
  refine ⟨ofList rest, toList_injective ?_⟩
  rw [toList_append, toList_ofList]
  exact hrest.symm

theorem stripPrefix_append (pre rest : String) : stripPrefix pre (pre ++ rest) = some rest := by
  rw [stripPrefix, strBytes_append, if_pos (List.prefix_append _ _), List.drop_left,
    fromUtf8_strBytes]

/-- `tenant_norm` -/
def tenantNorm (t : String) : String := if t = "" then "root" else t

/-- `ledge_core::tenant_prefix` -/
def tenantPrefix (tenant : String) : String :=
  if tenant = "" ∨ tenant = "root" then "" else "tenants/" ++ tenant ++ "/"

/-- `ws_prefix` -/
def wsPrefix (id : WorkspaceId) : String := "refs/workspaces/" ++ id.toHex ++ "/"

/-- `workspace_ref` -/
def workspaceRef (id : WorkspaceId) (source : RefName) : Except LedgeError RefName :=
  match stripPrefix "refs/" source.asStr with
  | none => .error (.invalidRefName .mustStartWithRefs source.asStr)
  | some suffix => RefName.new (wsPrefix id ++ suffix)

/-- `durable_ref` -/
def durableRef (tenant : String) (client : RefName) : Except LedgeError RefName :=
  if tenantPrefix tenant = "" then .ok client
  else
    match stripPrefix "refs/" client.asStr with
    | none => .error (.invalidRefName .mustStartWithRefs client.asStr)
    | some rest => RefName.new ("refs/" ++ tenantPrefix tenant ++ rest)

/-- `cross_tenant_not_found` -/
def crossTenantNotFound : LedgeError := .notFound (.fill 0)

/-- `u64::saturating_add` -/
def saturatingAdd (a b : Nat) : Nat := min (a + b) (2 ^ 64 - 1)

/-! ### Quotas -/

structure QuotaLimits where
  enabled : Bool
  maxWorkspaces : Option Nat
  maxDurableBytes : Option Nat
  maxObjectCount : Option Nat
  deriving DecidableEq

/-- `enforced_for` -/
def QuotaLimits.enforcedFor (q : QuotaLimits) (tenant : String) : Bool :=
  q.enabled && tenantNorm tenant != "root"

/-- A tenant's footprint as the last collection has measured it. -/
structure TenantUsage where
  bytes : Nat
  objects : Nat
  deriving DecidableEq

/-- The workspace quota of `fork`; `live` is the number of the tenant's live workspaces. -/
def QuotaLimits.checkFork (q : QuotaLimits) (tenant : String) (live : Nat) :
    Except LedgeError Unit :=
  if q.enforcedFor tenant then
    match q.maxWorkspaces with
    | none => .ok ()
    | some max =>
      if max ≤ live then .error (.quotaExceeded
        ("workspaces: " ++ toString max ++ " limit reached"))
      else .ok ()
  else .ok ()

/-- The storage quotas of `commit`. -/
def QuotaLimits.checkCommit (q : QuotaLimits) (tenant : String) (usage : TenantUsage) :
    Except LedgeError Unit :=
  if q.enforcedFor tenant then
    if q.maxDurableBytes.any (fun max => max ≤ usage.bytes) then
      .error (.quotaExceeded ("durable_bytes: " ++ toString (q.maxDurableBytes.getD 0) ++
        " limit reached"))
    else if q.maxObjectCount.any (fun max => max ≤ usage.objects) then
      .error (.quotaExceeded ("object_count: " ++ toString (q.maxObjectCount.getD 0) ++
        " limit reached"))
    else .ok ()
  else .ok ()

/-! ### Calls -/

inductive ManagerCall
  | fork (source : List RefName) (ttlMs : Nat) (tenant : String)
  | renew (id : WorkspaceId) (ttlMs : Nat) (tenant : String)
  /-- Each mapping is a workspace ref and the durable ref to promote it to. -/
  | commit (id : WorkspaceId) (mappings : List (RefName × RefName)) (tenant : String)
  | release (id : WorkspaceId) (tenant : String)
  deriving DecidableEq

/-- `CommitOutcome` -/
inductive CommitOutcome
  | ok (target : RefName) (entry : RefEntry)
  | conflict (target : RefName) (current : RefEntry)
  deriving DecidableEq

inductive Reply
  | forked (id : WorkspaceId) (lease : Lease) (refs : List (RefName × RefEntry))
  | renewed (lease : Lease)
  | committed (outcomes : List CommitOutcome)
  | released
  deriving DecidableEq

/-- Where a call is. -/
inductive ManagerPc
  | start (c : ManagerCall)
  /-- `fork` reads the next source. -/
  | forking (ttlMs : Nat) (tenant : String) (id : WorkspaceId) (todo : List RefName)
      (refs : List (RefName × RefEntry))
  /-- `fork` writes the workspace ref of a source it has read. -/
  | copying (ttlMs : Nat) (tenant : String) (id : WorkspaceId) (src ws : RefName) (entry : RefEntry)
      (todo : List RefName) (refs : List (RefName × RefEntry))
  /-- `renew` has read a lease. -/
  | renewing (ttlMs : Nat) (lease : Lease)
  /-- `commit` reads the next workspace ref; `names` leads back to the names of the client. -/
  | gathering (tenant : String) (todo : List (RefName × RefName)) (promotions : List Mapping)
      (names : List (RefName × RefName))
  /-- `commit` reads what a durable ref shows now. -/
  | expecting (tenant : String) (durable : RefName) (target : ObjectId)
      (todo : List (RefName × RefName)) (promotions : List Mapping)
        (names : List (RefName × RefName))
  /-- `commit` reads the refs that have blocked it. -/
  | reporting (conflicts : List RefName) (names : List (RefName × RefName))
      (outcomes : List CommitOutcome)
  /-- `release` lists the refs of the workspace. -/
  | listing (id : WorkspaceId)
  /-- `release` deletes the refs it has listed, and then the lease. -/
  | deleting (id : WorkspaceId) (todo : List (RefName × RefEntry))
  | returned (result : Except LedgeError Reply)
  deriving DecidableEq

/-- The two stores. -/
structure Node where
  refs : Store
  leases : LeaseStore

/-- What a step finds around it: the wall clock, the ticks of the shared clock, the id that
`generate` returns, the tenant's usage, and the order in which the leases are iterated. -/
structure Env where
  nowMs : Nat
  hlc : Nat → Nat
  newId : WorkspaceId
  usage : TenantUsage
  leases : List Lease

/-- `owned_lease` -/
def LeaseStore.ownedLease (leases : LeaseStore) (id : WorkspaceId) (tenant : String) :
    Except LedgeError (Option Lease) :=
  match leases.get id with
  | none => .ok none
  | some l =>
    if tenantNorm l.tenantId = tenantNorm tenant then .ok (some l) else .error crossTenantNotFound

/-- The length of `live_for_tenant` -/
def Env.liveForTenant (env : Env) (tenant : String) : Nat :=
  (env.leases.filter (fun l =>
    env.nowMs < l.expiresAtMs && tenantNorm l.tenantId == tenantNorm tenant)).length

/-- `to_client`: the name under which a durable ref was asked for. -/
def toClient (names : List (RefName × RefName)) (phys : RefName) : RefName :=
  ((names.reverse.find? (fun x => x.1 = phys)).map Prod.snd).getD phys

namespace ManagerPc

/-- The first access of a call. -/
def begin (quotas : QuotaLimits) (env : Env) (leases : LeaseStore) : ManagerCall → ManagerPc
  | .fork source ttlMs tenantId =>
    let tenant := tenantNorm tenantId
    match quotas.checkFork tenant (env.liveForTenant tenant) with
    | .error e => .returned (.error e)
    | .ok () => .forking ttlMs tenant env.newId source []
  | .renew id ttlMs tenant =>
    match leases.ownedLease id tenant with
    | .error e => .returned (.error e)
    | .ok none => .returned (.error (.corruption ("renew: unknown workspace " ++ id.toHex)))
    | .ok (some lease) => .renewing ttlMs lease
  | .commit id mappings tenantId =>
    let tenant := tenantNorm tenantId
    match leases.ownedLease id tenant with
    | .error e => .returned (.error e)
    | .ok none => .returned (.error (.corruption ("commit: unknown workspace " ++ id.toHex)))
    | .ok (some _) =>
      match quotas.checkCommit tenant env.usage with
      | .error e => .returned (.error e)
      | .ok () =>
        match mappings.find? (fun m => !(strBytes (wsPrefix id)).isPrefixOf m.1.bytes) with
        | some m =>
          .returned (.error (.corruption ("commit: ref " ++ m.1.asStr ++
            " does not belong to workspace " ++ id.toHex)))
        | none => .gathering tenant mappings [] []
  | .release id tenant =>
    match leases.ownedLease id tenant with
    | .error e => .returned (.error e)
    | .ok none => .deleting id []
    | .ok (some _) => .listing id

/-- The next access of a call. -/
def step (quotas : QuotaLimits) (env : Env) (node : Node) : ManagerPc → Node × ManagerPc
  | .start c => (node, begin quotas env node.leases c)
  | .forking ttlMs tenant id [] refs =>
    let lease : Lease :=
      { id := id
        sourceRefs := refs.map (fun x => x.1.asStr)
        createdAtMs := env.nowMs
        expiresAtMs := saturatingAdd env.nowMs ttlMs
        hlc := env.hlc 0
        generation := 1
        tenantId := tenant }
    ({ node with leases := node.leases.put lease }, .returned (.ok (.forked id lease refs)))
  | .forking ttlMs tenant id (src :: todo) refs =>
    match durableRef tenant src with
    | .error e => (node, .returned (.error e))
    | .ok durable =>
      match node.refs.tree.get durable with
      | none =>
        (node, .returned (.error (.corruption
          ("fork: source ref does not exist: " ++ src.asStr))))
      | some entry =>
        match workspaceRef id src with
        | .error e => (node, .returned (.error e))
        | .ok ws => (node, .copying ttlMs tenant id src ws entry todo refs)
  | .copying ttlMs tenant id src ws entry todo refs =>
    match node.refs.update ws entry.target none (env.hlc 0) with
    | (store, .error e) => ({ node with refs := store }, .returned (.error e))
    | (store, .ok _) =>
      ({ node with refs := store }, .forking ttlMs tenant id todo (refs ++ [(src, entry)]))
  | .renewing ttlMs lease =>
    let lease :=
      { lease with
        expiresAtMs := saturatingAdd env.nowMs ttlMs
        generation := lease.generation + 1
        hlc := env.hlc 0 }
    ({ node with leases := node.leases.put lease }, .returned (.ok (.renewed lease)))
  | .gathering _ [] promotions names =>
    if promotions = [] then (node, .returned (.ok (.committed [])))
    else
      match node.refs.commitAtomic true promotions env.hlc with
      | (store, .error e) => ({ node with refs := store }, .returned (.error e))
      | (store, .ok (.committed entries)) =>
        ({ node with refs := store }, .returned (.ok (.committed
          (entries.map (fun x => .ok (toClient names x.1) x.2)))))
      | (store, .ok (.aborted _ conflicts)) =>
        ({ node with refs := store }, .reporting conflicts names [])
  | .gathering tenant ((wsRef, clientDurable) :: todo) promotions names =>
    match node.refs.tree.get wsRef with
    | none => (node, .gathering tenant todo promotions names)
    | some wsEntry =>
      match durableRef tenant clientDurable with
      | .error e => (node, .returned (.error e))
      | .ok durable =>
        (node, .expecting tenant durable wsEntry.target todo promotions
          (names ++ [(durable, clientDurable)]))
  | .expecting tenant durable target todo promotions names =>
    let expected := (node.refs.tree.get durable).map RefEntry.target
    (node, .gathering tenant todo (promotions ++ [⟨durable, target, expected⟩]) names)
  | .reporting [] _ outcomes => (node, .returned (.ok (.committed outcomes)))
  | .reporting (name :: conflicts) names outcomes =>
    let current := (node.refs.tree.get name).getD ⟨.fill 0, 0, 0⟩
    (node, .reporting conflicts names (outcomes ++ [.conflict (toClient names name) current]))
  | .listing id => (node, .deleting id (node.refs.tree.list (wsPrefix id)))
  | .deleting id [] =>
    ({ node with leases := node.leases.tombstoneWithHlc id (env.hlc 0) },
      .returned (.ok .released))
  | .deleting id ((name, entry) :: todo) =>
    match node.refs.delete name entry.target (env.hlc 0) with
    | (store, .ok ()) | (store, .error (.notFound _)) | (store, .error (.conflict _)) =>
      ({ node with refs := store }, .deleting id todo)
    | (store, .error e) => ({ node with refs := store }, .returned (.error e))
  | .returned result => (node, .returned result)

end ManagerPc

/-! ### What an access does -/

namespace ManagerPc

section

variable (quotas : QuotaLimits) (env : Env) (node : Node)

/-- The accesses of a call, with the stores and the place that they lead to. -/
inductive Moves : ManagerPc → Node → ManagerPc → Prop
  /-- An access that is refused has not written. -/
  | refuse (hrenewing : ∀ ttlMs lease, pc ≠ .renewing ttlMs lease)
    (hreturned : ∀ result, pc ≠ .returned result) :
    Moves pc node (.returned (.error err))
  | fork (hquota : quotas.checkFork (tenantNorm tenant) (env.liveForTenant (tenantNorm tenant)) =
    .ok ()) : Moves (.start (.fork source ttlMs tenant)) node
      (.forking ttlMs (tenantNorm tenant) env.newId source [])
  | renew {id} (hget : node.leases.get id = some lease) :
    Moves (.start (.renew id ttlMs tenant)) node (.renewing ttlMs lease)
  | commit {id} : Moves (.start (.commit id mappings tenant)) node
      (.gathering (tenantNorm tenant) mappings [] [])
  | releaseUnknown {id} : Moves (.start (.release id tenant)) node (.deleting id [])
  | release {id} : Moves (.start (.release id tenant)) node (.listing id)
  | grant {id} (hid : lease.id = id) (htenant : lease.tenantId = tenant)
      (hexpires : lease.expiresAtMs = saturatingAdd env.nowMs ttlMs) :
    Moves (.forking ttlMs tenant id [] refs) { node with leases := node.leases.put lease }
      (.returned (.ok (.forked id lease refs)))
  | read {id} (hdurable : durableRef tenant src = .ok durable)
      (hentry : node.refs.tree.get durable = some entry) (hws : workspaceRef id src = .ok ws) :
    Moves (.forking ttlMs tenant id (src :: todo) refs) node
      (.copying ttlMs tenant id src ws entry todo refs)
  | copy {id} (hnone : node.refs.tree.get ws = none) (htarget : e.target = entry.target)
      (hget : ∀ n, store.tree.get n = if n = ws then some e else node.refs.tree.get n) :
    Moves (.copying ttlMs tenant id src ws entry todo refs) { node with refs := store }
      (.forking ttlMs tenant id todo (refs ++ [(src, entry)]))
  | renewed (hid : lease'.id = lease.id) (htenant : lease'.tenantId = lease.tenantId)
      (hgeneration : lease'.generation = lease.generation + 1)
      (hexpires : lease'.expiresAtMs = saturatingAdd env.nowMs ttlMs) :
    Moves (.renewing ttlMs lease) { node with leases := node.leases.put lease' }
      (.returned (.ok (.renewed lease')))
  | nothing : Moves (.gathering tenant [] [] names) node (.returned (.ok (.committed [])))
  | promote (hget : ∀ n, store.tree.get n = node.refs.tree.get n ∨ ∃ m ∈ promotions, m.name = n ∧
        (store.tree.get n).map RefEntry.target = some m.target)
      (hnext : (∃ conflicts, pc = .reporting conflicts names []) ∨ ∃ result, pc =
        .returned result) :
    Moves (.gathering tenant [] promotions names) { node with refs := store } pc
  | skip : Moves (.gathering tenant (m :: todo) promotions names) node
      (.gathering tenant todo promotions names)
  | gather (hentry : node.refs.tree.get m.1 = some entry)
    (hdurable : durableRef tenant m.2 = .ok durable) :
    Moves (.gathering tenant (m :: todo) promotions names) node
      (.expecting tenant durable entry.target todo promotions (names ++ [(durable, m.2)]))
  | expect : Moves (.expecting tenant durable target todo promotions names) node
      (.gathering tenant todo
        (promotions ++ [⟨durable, target, (node.refs.tree.get durable).map RefEntry.target⟩]) names)
  | reported : Moves (.reporting [] names outcomes) node (.returned (.ok (.committed outcomes)))
  | report : Moves (.reporting (n :: conflicts) names outcomes) node
    (.reporting conflicts names outcomes')
  | list {id} : Moves (.listing id) node (.deleting id (node.refs.tree.list (wsPrefix id)))
  | delete {id} (hget : ∀ n, store.tree.get n = if n = x.1 then none else node.refs.tree.get n) :
    Moves (.deleting id (x :: todo)) { node with refs := store } (.deleting id todo)
  /-- The ref is gone, or it has moved. -/
  | pass {id} (hdelete : node.refs.delete x.1 x.2.target (env.hlc 0) = (node.refs, .error err)) :
    Moves (.deleting id (x :: todo)) node (.deleting id todo)
  | revoke {id} : Moves (.deleting id [])
      { node with leases := node.leases.tombstoneWithHlc id (env.hlc 0) }
        (.returned (.ok .released))
  | stay : Moves (.returned result) node (.returned result)

theorem moves_begin (c : ManagerCall) :
    Moves quotas env node (.start c) node (begin quotas env node.leases c) := by
  cases c with
  | fork source ttlMs tenant =>
    simp only [begin]
    split
    · exact .refuse nofun nofun
    · exact .fork (by assumption)
  | renew id ttlMs tenant =>
    simp only [begin, LeaseStore.ownedLease]
    cases hget : node.leases.get id with
    | none => exact .refuse nofun nofun
    | some lease =>
      dsimp only
      split_ifs
      · exact .renew hget
      · exact .refuse nofun nofun
  | commit id mappings tenant =>
    simp only [begin]
    split
    · exact .refuse nofun nofun
    · exact .refuse nofun nofun
    · split
      · exact .refuse nofun nofun
      · split
        · exact .refuse nofun nofun
        · exact .commit
  | release id tenant =>
    simp only [begin]
    split
    · exact .refuse nofun nofun
    · exact .releaseUnknown
    · exact .release

/-- **What an access can do.** -/
theorem moves_step (pc : ManagerPc) :
    Moves quotas env node pc (pc.step quotas env node).1 (pc.step quotas env node).2 := by
  cases pc with
  | start c => exact moves_begin quotas env node c
  | forking ttlMs tenant id todo refs =>
    cases todo with
    | nil =>
      refine .grant ?_ ?_ ?_
      · rfl
      · rfl
      · rfl
    | cons src todo =>
      simp only [step]
      split
      · exact .refuse nofun nofun
      · split
        · exact .refuse nofun nofun
        · split
          · exact .refuse nofun nofun
          · exact .read (by assumption) (by assumption) (by assumption)
  | copying ttlMs tenant id src ws entry todo refs =>
    simp only [step]
    rcases node.refs.update_cases ws (env.hlc 0) entry.target none with
      ⟨err, hupdate⟩ | ⟨hexpected, store, e, hupdate, htarget, hget⟩
    · rw [hupdate]
      exact .refuse nofun nofun
    · rw [hupdate]
      exact .copy (Option.map_eq_none_iff.mp hexpected) htarget hget
  | renewing ttlMs lease =>
    refine .renewed ?_ ?_ ?_ ?_
    · rfl
    · rfl
    · rfl
    · rfl
  | gathering tenant todo promotions names =>
    cases todo with
    | nil =>
      simp only [step]
      split_ifs with hnil
      · subst hnil
        exact .nothing
      · have hget := node.refs.get_commitAtomic promotions env.hlc
        rcases hcommit : node.refs.commitAtomic true promotions env.hlc with
          ⟨store, err | ⟨entries⟩ | ⟨reason, conflicts⟩⟩ <;> rw [hcommit] at hget
        · exact .promote hget (Or.inr ⟨_, rfl⟩)
        · exact .promote hget (Or.inr ⟨_, rfl⟩)
        · exact .promote hget (Or.inl ⟨_, rfl⟩)
    | cons m todo =>
      simp only [step]
      split
      · exact .skip
      · split
        · exact .refuse nofun nofun
        · exact .gather (by assumption) (by assumption)
  | expecting => exact .expect
  | reporting conflicts names outcomes =>
    cases conflicts with
    | nil => exact .reported
    | cons name conflicts => exact .report
  | listing id => exact .list
  | deleting id todo =>
    cases todo with
    | nil => exact .revoke
    | cons x todo =>
      simp only [step]
      rcases node.refs.delete_cases x.1 (env.hlc 0) x.2.target with
        ⟨err, hdelete⟩ | ⟨-, store, hdelete, hget⟩
      · rw [hdelete]
        cases err with
        | notFound | conflict => exact .pass hdelete
        | _ => exact .refuse nofun nofun
      · rw [hdelete]
        exact .delete hget
  | returned result => exact .stay

end

/-- What an access does to the two stores: most of them only read. -/
inductive Effect (node node' : Node) : ManagerPc → Prop
  | quiet {pc : ManagerPc} (h : node' = node) : Effect node node' pc
  /-- `fork` creates a ref that was not there. -/
  | copy {ttlMs : Nat} {tenant : String} {id : WorkspaceId} {src ws : RefName}
      {entry e : RefEntry} {todo : List RefName} {refs : List (RefName × RefEntry)}
      (hleases : node'.leases = node.leases) (hnone : node.refs.tree.get ws = none)
      (htarget : e.target = entry.target)
      (hget : ∀ n, node'.refs.tree.get n = if n = ws then some e else node.refs.tree.get n) :
      Effect node node' (.copying ttlMs tenant id src ws entry todo refs)
  /-- `commit` moves refs to the targets of its promotions. -/
  | promote {tenant : String} {promotions : List Mapping} {names : List (RefName × RefName)}
      (hleases : node'.leases = node.leases)
      (hget : ∀ n, node'.refs.tree.get n = node.refs.tree.get n ∨ ∃ m ∈ promotions, m.name = n ∧
        (node'.refs.tree.get n).map RefEntry.target = some m.target) :
      Effect node node' (.gathering tenant [] promotions names)
  /-- `release` deletes a ref. -/
  | delete {id : WorkspaceId} {x : RefName × RefEntry} {todo : List (RefName × RefEntry)}
      (hleases : node'.leases = node.leases)
      (hget : ∀ n, node'.refs.tree.get n = if n = x.1 then none else node.refs.tree.get n) :
      Effect node node' (.deleting id (x :: todo))
  /-- `fork` puts its lease. -/
  | grant {ttlMs : Nat} {tenant : String} {id : WorkspaceId} {refs : List (RefName × RefEntry)}
      {lease : Lease} (hrefs : node'.refs = node.refs) (hid : lease.id = id)
      (hleases : node'.leases = node.leases.put lease) :
      Effect node node' (.forking ttlMs tenant id [] refs)
  | renew {ttlMs : Nat} {lease lease' : Lease} (hrefs : node'.refs = node.refs)
      (hid : lease'.id = lease.id) (hleases : node'.leases = node.leases.put lease') :
      Effect node node' (.renewing ttlMs lease)
  /-- `release` removes the lease. -/
  | revoke {id : WorkspaceId} {hlc : Nat} (hrefs : node'.refs = node.refs)
      (hleases : node'.leases = node.leases.tombstoneWithHlc id hlc) :
      Effect node node' (.deleting id [])

variable {quotas : QuotaLimits} {env : Env} {node node' : Node} {pc pc' : ManagerPc}

theorem Moves.effect (h : Moves quotas env node pc node' pc') : Effect node node' pc := by
  cases h with
  | grant hid => exact .grant rfl hid rfl
  | copy hnone htarget hget => exact .copy rfl hnone htarget hget
  | renewed hid => exact .renew rfl hid rfl
  | promote hget => exact .promote rfl hget
  | delete hget => exact .delete rfl hget
  | revoke => exact .revoke rfl rfl
  | _ => exact .quiet rfl

/-- The workspace that a fork is making. -/
def forkId : ManagerPc → Option WorkspaceId
  | .forking _ _ id _ _ | .copying _ _ id _ _ _ _ _ => some id
  | _ => none

theorem Moves.forkId {id : WorkspaceId} (h : Moves quotas env node pc node' pc')
    (hid : pc'.forkId = some id) : pc.forkId = some id ∨
      ∃ source ttlMs tenant, pc = .start (.fork source ttlMs tenant) ∧ id = env.newId := by
  cases h with
  | fork => exact Or.inr ⟨_, _, _, rfl, (Option.some.inj hid).symm⟩
  | read | copy => exact Or.inl hid
  | promote _ hnext => rcases hnext with ⟨_, rfl⟩ | ⟨_, rfl⟩ <;> cases hid
  | _ => cases hid

end ManagerPc

/-! ### Many calls -/

/-- The stores, and where each call is. -/
structure ManagerState (I : Type) where
  node : Node
  pc : I → ManagerPc

namespace ManagerState

variable {I : Type} [DecidableEq I]

/-- The next access of the call `i`. -/
def step (quotas : QuotaLimits) (s : ManagerState I) (i : I) (env : Env) : ManagerState I :=
  let (node, pc) := (s.pc i).step quotas env s.node
  ⟨node, Function.update s.pc i pc⟩

/-- The accesses of the calls in some order, with what each of them finds around it. -/
def exec (quotas : QuotaLimits) (s : ManagerState I) (schedule : List (I × Env)) : ManagerState I :=
  schedule.foldl (fun s x => s.step quotas x.1 x.2) s

/-- No call has started. -/
def init (node : Node) (calls : I → ManagerCall) : ManagerState I :=
  ⟨node, fun i => .start (calls i)⟩

variable {quotas : QuotaLimits} (s : ManagerState I) (i : I) (env : Env)

theorem step_pc :
    (s.step quotas i env).pc = Function.update s.pc i ((s.pc i).step quotas env s.node).2 := rfl

theorem step_node : (s.step quotas i env).node = ((s.pc i).step quotas env s.node).1 := rfl

theorem exec_concat (schedule : List (I × Env)) (x : I × Env) :
    s.exec quotas (schedule ++ [x]) = (s.exec quotas schedule).step quotas x.1 x.2 :=
  List.foldl_concat ..

end ManagerState

def noQuotas : QuotaLimits := ⟨false, none, none, none⟩

/-- The surroundings at a time, with the ticks of the clock from there on. -/
def envAt (nowMs : Nat) : Env := ⟨nowMs, fun k => nowMs + k, .fill 2, ⟨0, 0⟩, []⟩

end Ledge.Workspace
