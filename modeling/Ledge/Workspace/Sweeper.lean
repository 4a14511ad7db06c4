import Ledge.Workspace.GcSafe

/-!
# Ledge.Workspace.Sweeper

**One round of the expiry sweeper** (`main.rs`) beside calls of `renew`.

The sweeper reads the clock, collects the leases that have expired by then, and releases their
workspaces one after the other. A release does not look at the expiry again, so a renewal that comes
after the collection does not help (`renewed_workspace_swept`). `Careful` excludes such steps, and
then a renewed workspace keeps its lease and its refs (`SweepState.renewed_workspaces_survive`).
-/

namespace Ledge.Workspace

open Ledge.Core Ledge.RefStore Function List

/-! ### The round -/

/-- Where the sweeper is. `begun` has the leases whose release has begun. -/
inductive SweepPc
  | waiting
  /-- The clock is read. -/
  | scanning (nowMs : Nat)
  /-- No release is under way. -/
  | sweeping (nowMs : Nat) (begun todo : List Lease)
  | releasing (nowMs : Nat) (begun : List Lease) (call : ManagerPc) (todo : List Lease)
  deriving DecidableEq

/-- `expired`, in the order in which the leases are iterated. -/
def Env.expired (env : Env) (nowMs : Nat) : List Lease :=
  env.leases.filter (fun l => l.expiresAtMs ≤ nowMs)

namespace SweepPc

/-- After an access of a release. An error of it is only logged. -/
def resume (nowMs : Nat) (begun todo : List Lease) : Node × ManagerPc → Node × SweepPc
  | (node, .returned _) => (node, .sweeping nowMs begun todo)
  | (node, call) => (node, .releasing nowMs begun call todo)

/-- The next access of the sweeper. -/
def step (quotas : QuotaLimits) (env : Env) (node : Node) : SweepPc → Node × SweepPc
  | .waiting => (node, .scanning env.nowMs)
  | .scanning nowMs => (node, .sweeping nowMs [] (env.expired nowMs))
  | .sweeping nowMs begun [] => (node, .sweeping nowMs begun [])
  | .sweeping nowMs begun (l :: todo) =>
    resume nowMs (l :: begun) todo
      ((ManagerPc.start (.release l.id l.tenantId)).step quotas env node)
  | .releasing nowMs begun call todo => resume nowMs begun todo (call.step quotas env node)

/-- The reading of the clock. -/
def clock : SweepPc → Option Nat
  | .waiting => none
  | .scanning nowMs | .sweeping nowMs _ _ | .releasing nowMs _ _ _ => some nowMs

def begun : SweepPc → List Lease
  | .waiting | .scanning _ => []
  | .sweeping _ begun _ | .releasing _ begun _ _ => begun

/-- The leases that were collected and whose release has not begun. -/
def todo : SweepPc → List Lease
  | .waiting | .scanning _ => []
  | .sweeping _ _ todo | .releasing _ _ _ todo => todo

/-- The release that is under way. -/
def call : SweepPc → Option ManagerPc
  | .releasing _ _ call _ => some call
  | .waiting | .scanning _ | .sweeping _ _ _ => none

section

variable (nowMs : Nat) (begun todo : List Lease) (x : Node × ManagerPc)

theorem resume_cases :
    (∃ result, x.2 = .returned result ∧
      resume nowMs begun todo x = (x.1, .sweeping nowMs begun todo)) ∨
    resume nowMs begun todo x = (x.1, .releasing nowMs begun x.2 todo) := by
  obtain ⟨node, call⟩ := x
  cases call with
  | returned result => exact Or.inl ⟨result, rfl, rfl⟩
  | start | forking | copying | renewing | gathering | expecting | reporting | listing | deleting =>
    exact Or.inr rfl

@[simp] theorem resume_node : (resume nowMs begun todo x).1 = x.1 := by
  rcases resume_cases nowMs begun todo x with ⟨result, -, heq⟩ | heq <;> rw [heq]

@[simp] theorem clock_resume : (resume nowMs begun todo x).2.clock = some nowMs := by
  rcases resume_cases nowMs begun todo x with ⟨result, -, heq⟩ | heq <;> rw [heq] <;> rfl

@[simp] theorem begun_resume : (resume nowMs begun todo x).2.begun = begun := by
  rcases resume_cases nowMs begun todo x with ⟨result, -, heq⟩ | heq <;> rw [heq] <;> rfl

@[simp] theorem todo_resume : (resume nowMs begun todo x).2.todo = todo := by
  rcases resume_cases nowMs begun todo x with ⟨result, -, heq⟩ | heq <;> rw [heq] <;> rfl

theorem call_resume {call : ManagerPc} (h : (resume nowMs begun todo x).2.call = some call) :
    call = x.2 ∧ ∀ result, x.2 ≠ .returned result := by
  obtain ⟨node, pc⟩ := x
  cases pc with
  | returned => cases h
  | start | forking | copying | renewing | gathering | expecting | reporting | listing | deleting =>
    refine ⟨(Option.some.inj h).symm, fun result heq => ?_⟩
    cases heq

end

end SweepPc

/-! ### What the calls do -/

namespace ManagerPc

/-- The call releases the workspace `id`, and deletes no other refs than its own. -/
def Releases (id : WorkspaceId) : ManagerPc → Prop
  | .start (.release id' _) | .listing id' => id' = id
  | .deleting id' todo => id' = id ∧ ∀ x ∈ todo, InWorkspace id x.1
  | _ => False

variable {pc : ManagerPc}

theorem Releases.step {id : WorkspaceId} (h : pc.Releases id) (quotas : QuotaLimits) (env : Env)
    (node : Node) :
    (∀ id', id' ≠ id → (pc.step quotas env node).1.leases.get id' = node.leases.get id') ∧
    (∀ n, ¬ InWorkspace id n →
      (pc.step quotas env node).1.refs.tree.get n = node.refs.tree.get n) ∧
    ((pc.step quotas env node).2.Releases id ∨
      ∃ result, (pc.step quotas env node).2 = .returned result) := by
  have hmoves := moves_step quotas env node pc
  generalize (pc.step quotas env node).1 = node', (pc.step quotas env node).2 = pc' at hmoves ⊢
  cases hmoves with
  | refuse => exact ⟨fun _ _ => rfl, fun _ _ => rfl, Or.inr ⟨_, rfl⟩⟩
  | releaseUnknown => exact ⟨fun _ _ => rfl, fun _ _ => rfl, Or.inl ⟨h, nofun⟩⟩
  | release => exact ⟨fun _ _ => rfl, fun _ _ => rfl, Or.inl h⟩
  | list =>
    obtain rfl := h
    exact ⟨fun _ _ => rfl, fun _ _ => rfl, Or.inl ⟨rfl, fun x hx => (RefTree.mem_list.mp hx).1⟩⟩
  | delete hget =>
    obtain ⟨rfl, htodo⟩ := h
    refine ⟨fun _ _ => rfl, fun n hn => ?_, Or.inl
      ⟨rfl, fun y hy => htodo y (mem_cons_of_mem _ hy)⟩⟩
    refine (hget n).trans (if_neg fun heq => hn ?_)
    rw [heq]
    exact htodo _ mem_cons_self
  | pass =>
    exact ⟨fun _ _ => rfl, fun _ _ => rfl, Or.inl ⟨h.1, fun y hy => h.2 y (mem_cons_of_mem _ hy)⟩⟩
  | revoke =>
    refine ⟨fun id' hne => ?_, fun _ _ => rfl, Or.inr ⟨_, rfl⟩⟩
    rw [h.1, LeaseStore.get_tombstoneWithHlc, if_neg (Ne.symm hne)]
  | _ => exact h.elim

/-- The call is a renewal. -/
def Renews : ManagerPc → Prop
  | .start (.renew _ _ _) | .renewing _ _ | .returned _ => True
  | _ => False

/-- One access of a renewal: it writes its lease and returns it, or it leaves the stores alone. -/
theorem Renews.step (h : pc.Renews) (quotas : QuotaLimits) (env : Env) (node : Node) :
    (pc.step quotas env node).2.Renews ∧ (pc.step quotas env node).1.refs = node.refs ∧
    ((∃ ttlMs lease lease', pc = .renewing ttlMs lease ∧ lease'.id = lease.id ∧
        lease'.expiresAtMs = saturatingAdd env.nowMs ttlMs ∧
        (pc.step quotas env node).1.leases = node.leases.put lease' ∧
        (pc.step quotas env node).2 = .returned (.ok (.renewed lease'))) ∨
      (pc.step quotas env node).1.leases = node.leases ∧
        ∀ l, (pc.step quotas env node).2 = .returned (.ok (.renewed l)) →
          pc = .returned (.ok (.renewed l))) := by
  have hmoves := moves_step quotas env node pc
  generalize (pc.step quotas env node).1 = node', (pc.step quotas env node).2 = pc' at hmoves ⊢
  cases hmoves with
  | refuse | renew => exact ⟨trivial, rfl, Or.inr ⟨rfl, nofun⟩⟩
  | renewed hid _ _ hexpires =>
    exact ⟨trivial, rfl, Or.inl ⟨_, _, _, rfl, hid, hexpires, rfl, rfl⟩⟩
  | stay => exact ⟨trivial, rfl, Or.inr ⟨rfl, fun _ heq => heq⟩⟩
  | _ => exact h.elim

end ManagerPc

/-! ### The round and the calls -/

/-- The stores, the sweeper and the calls. -/
structure SweepState (I : Type) where
  node : Node
  sweeper : SweepPc
  pc : I → ManagerPc

/-- Who makes the next access. -/
inductive SweepTurn (I : Type)
  | sweeper
  | call (i : I)

namespace SweepState

variable {I : Type} [DecidableEq I] (quotas : QuotaLimits) (s : SweepState I)

def step : SweepTurn I → Env → SweepState I
  | .sweeper, env =>
    let (node, sweeper) := s.sweeper.step quotas env s.node
    { s with node := node, sweeper := sweeper }
  | .call i, env =>
    let (node, pc) := (s.pc i).step quotas env s.node
    { s with node := node, pc := Function.update s.pc i pc }

/-- The calls renew workspaces, each for some time on behalf of some tenant. -/
def init (node : Node) (calls : I → WorkspaceId × Nat × String) : SweepState I :=
  ⟨node, .waiting, fun i => .start (.renew (calls i).1 (calls i).2.1 (calls i).2.2)⟩

/-- A renewal of the workspace has returned `Ok` with an expiry after `nowMs`. -/
def Renewed (nowMs : Nat) (id : WorkspaceId) : Prop :=
  ∃ i l, s.pc i = .returned (.ok (.renewed l)) ∧ l.id = id ∧ nowMs < l.expiresAtMs

/-- The scan meets every lease. -/
def Legal : SweepTurn I → Env → Prop
  | .sweeper, env => ∀ nowMs, s.sweeper = .scanning nowMs → s.node.leases.index.Lists env.leases
  | .call _, _ => True

/-- A renewal does not prolong a lease that the sweeper has collected and still has to release. The
sweeper does not collect a lease that had been prolonged beyond its reading of the clock, and was
shortened again by another renewal. -/
def Careful : SweepTurn I → Env → Prop
  | .sweeper, env => ∀ nowMs, s.sweeper = .scanning nowMs →
      ∀ l ∈ env.leases, l.expiresAtMs ≤ nowMs → ¬ s.Renewed nowMs l.id
  | .call i, env => ∀ ttlMs lease, s.pc i = .renewing ttlMs lease →
      ∀ nowMs, s.sweeper.clock = some nowMs → nowMs < saturatingAdd env.nowMs ttlMs →
        ∀ l ∈ s.sweeper.todo, l.id ≠ lease.id

/-- The runs of careful steps. -/
inductive CarefulRun (s₀ : SweepState I) : SweepState I → Prop
  | start : CarefulRun s₀ s₀
  | step {s : SweepState I} (h : CarefulRun s₀ s) (turn : SweepTurn I) (env : Env)
      (hlegal : s.Legal turn env) (hcareful : s.Careful turn env) :
      CarefulRun s₀ (s.step quotas turn env)

/-- The release of the workspace has not begun. -/
def Untouched (id : WorkspaceId) : Prop := ∀ l ∈ s.sweeper.begun, l.id ≠ id

/-- Whatever the release of has not begun is as it should be. -/
structure Inv (node₀ : Node) : Prop where
  calls : ∀ i, (s.pc i).Renews
  /-- The sweeper is not going to release what was renewed. -/
  todo : ∀ nowMs, s.sweeper.clock = some nowMs → ∀ l ∈ s.sweeper.todo, ¬ s.Renewed nowMs l.id
  release : ∀ call, s.sweeper.call = some call → ∃ l ∈ s.sweeper.begun, call.Releases l.id
  lease : ∀ id, s.Untouched id → ∀ i l, s.pc i = .returned (.ok (.renewed l)) → l.id = id →
    (s.node.leases.get id).isSome
  refs : ∀ id, s.Untouched id → ∀ n, InWorkspace id n →
    s.node.refs.tree.get n = node₀.refs.tree.get n

variable {quotas} {s} {node₀ : Node} {i : I} {env : Env}

omit [DecidableEq I] in
/-- The calls stay where they are, and so does all that is left alone. -/
theorem Inv.of_untouched {s' : SweepState I} (h : s.Inv node₀) (hpc : s'.pc = s.pc)
    (hless : ∀ id, s'.Untouched id → s.Untouched id)
    (hleases : ∀ id, s'.Untouched id → s'.node.leases.get id = s.node.leases.get id)
    (hrefs : ∀ id, s'.Untouched id → ∀ n, InWorkspace id n →
      s'.node.refs.tree.get n = s.node.refs.tree.get n)
    (htodo : ∀ nowMs, s'.sweeper.clock = some nowMs → ∀ l ∈ s'.sweeper.todo, ¬ s.Renewed nowMs l.id)
    (hrelease : ∀ call, s'.sweeper.call = some call → ∃ l ∈ s'.sweeper.begun, call.Releases l.id) :
    s'.Inv node₀ where
  calls := by
    rw [hpc]
    exact h.calls
  todo nowMs hclock l hl := by
    simp only [Renewed, hpc]
    exact htodo nowMs hclock l hl
  release := hrelease
  lease id huntouched := by
    rw [hpc, hleases id huntouched]
    exact h.lease id (hless id huntouched)
  refs id huntouched n hn := by
    rw [hrefs id huntouched n hn]
    exact h.refs id (hless id huntouched) n hn

variable {begun todo : List Lease} {turn : SweepTurn I} {nowMs : Nat} {id : WorkspaceId}

/-- An access of the release of `l`, which has begun or begins with it. -/
theorem Inv.release_step {now : Nat} {call : ManagerPc} {l : Lease} (h : s.Inv node₀)
    (hclock : s.sweeper.clock = some now) (hbegun : s.sweeper.begun ⊆ begun)
    (htodo : todo ⊆ s.sweeper.todo) (hl : l ∈ begun) (hrelease : call.Releases l.id)
    (hstep : s.sweeper.step quotas env s.node =
      SweepPc.resume now begun todo (call.step quotas env s.node)) :
    (s.step quotas .sweeper env).Inv node₀ := by
  have hsweeper : (s.step quotas .sweeper env).sweeper =
      (SweepPc.resume now begun todo (call.step quotas env s.node)).2 := congrArg Prod.snd hstep
  have hnode : (s.step quotas .sweeper env).node = (call.step quotas env s.node).1 :=
    (congrArg Prod.fst hstep).trans (SweepPc.resume_node ..)
  obtain ⟨hleases, hrefs, hnext⟩ := hrelease.step quotas env s.node
  have hother : ∀ id, (s.step quotas .sweeper env).Untouched id → id ≠ l.id := by
    intro id huntouched heq
    refine huntouched l ?_ heq.symm
    rw [hsweeper, SweepPc.begun_resume]
    exact hl
  refine h.of_untouched rfl (fun id huntouched l' hl' => ?_) (fun id huntouched => ?_)
    (fun id huntouched n hn => ?_) (fun nowMs hnow l' hl' => ?_) (fun call' hcall => ?_)
  · refine huntouched l' ?_
    rw [hsweeper, SweepPc.begun_resume]
    exact hbegun hl'
  · rw [hnode, hleases id (hother id huntouched)]
  · rw [hnode, hrefs n fun hin => hother id huntouched (hn.unique hin)]
  · rw [hsweeper, SweepPc.clock_resume] at hnow
    rw [hsweeper, SweepPc.todo_resume] at hl'
    exact h.todo nowMs (hclock.trans hnow) l' (htodo hl')
  · rw [hsweeper] at hcall
    rw [hsweeper, SweepPc.begun_resume]
    obtain ⟨rfl, hrunning⟩ := SweepPc.call_resume _ _ _ _ hcall
    refine ⟨l, hl, hnext.resolve_right ?_⟩
    rintro ⟨result, heq⟩
    exact hrunning result heq

theorem Inv.sweep (h : s.Inv node₀) (hcareful : s.Careful .sweeper env) :
    (s.step quotas .sweeper env).Inv node₀ := by
  cases hs : s.sweeper with
  | waiting =>
    have hstep : s.step quotas .sweeper env = { s with sweeper := .scanning env.nowMs } := by
      simp only [SweepState.step, hs, SweepPc.step]
    rw [hstep]
    refine h.of_untouched rfl (fun _ _ => ?_) (fun _ _ => rfl) (fun _ _ _ _ => rfl) nofun nofun
    rw [Untouched, hs]
    exact nofun
  | scanning now =>
    have hstep : s.step quotas .sweeper env =
        { s with sweeper := .sweeping now [] (env.expired now) } := by
      simp only [SweepState.step, hs, SweepPc.step]
    rw [hstep]
    refine h.of_untouched rfl (fun _ _ => ?_) (fun _ _ => rfl) (fun _ _ _ _ => rfl)
      (fun nowMs hclock l hl => ?_) nofun
    · rw [Untouched, hs]
      exact nofun
    · obtain rfl : now = nowMs := Option.some.inj hclock
      obtain ⟨hmem, hexpired⟩ := mem_filter.mp hl
      exact hcareful now hs l hmem (of_decide_eq_true hexpired)
  | sweeping now begun todo =>
    cases todo with
    | nil =>
      have hsame : s.step quotas .sweeper env = s := by
        simp only [SweepState.step, hs, SweepPc.step]
        rw [← hs]
      rw [hsame]
      exact h
    | cons l todo =>
      have hrelease : (ManagerPc.start (.release l.id l.tenantId)).Releases l.id := rfl
      refine h.release_step ?_ ?_ ?_ mem_cons_self hrelease (congrArg (SweepPc.step _ _ _) hs)
      · rw [hs]
        rfl
      · rw [hs]
        exact subset_cons_self l begun
      · rw [hs]
        exact subset_cons_self l todo
  | releasing now begun call todo =>
    obtain ⟨l, hl, hrelease⟩ := h.release call (by rw [hs]; rfl)
    rw [hs] at hl
    refine h.release_step ?_ ?_ ?_ hl hrelease (congrArg (SweepPc.step _ _ _) hs)
    · rw [hs]
      rfl
    · rw [hs]
      exact List.Subset.refl _
    · rw [hs]
      exact List.Subset.refl _

theorem Inv.call (h : s.Inv node₀) (hcareful : s.Careful (.call i) env) :
    (s.step quotas (.call i) env).Inv node₀ := by
  have hpc : (s.step quotas (.call i) env).pc =
      Function.update s.pc i ((s.pc i).step quotas env s.node).2 := rfl
  have hnode : (s.step quotas (.call i) env).node = ((s.pc i).step quotas env s.node).1 := rfl
  obtain ⟨hrenews, hrefs, hcases⟩ := (h.calls i).step quotas env s.node
  -- a renewal that has returned now had returned before, or it has written its lease just now
  have hreturned : ∀ j l, (s.step quotas (.call i) env).pc j = .returned (.ok (.renewed l)) →
      s.pc j = .returned (.ok (.renewed l)) ∨
      ∃ ttlMs lease, s.pc i = .renewing ttlMs lease ∧ l.id = lease.id ∧
        l.expiresAtMs = saturatingAdd env.nowMs ttlMs ∧
        (s.step quotas (.call i) env).node.leases.get l.id = some l := by
    intro j l hj
    rw [hpc] at hj
    by_cases hji : j = i
    · subst hji
      rw [update_self] at hj
      rcases hcases with ⟨ttlMs, lease, lease', hat, hid, hexpires, hleases, hdone⟩ | ⟨-, hsame⟩
      · obtain rfl : lease' = l := by
          rw [hdone] at hj
          exact Reply.renewed.inj (Except.ok.inj (ManagerPc.returned.inj hj))
        refine Or.inr ⟨ttlMs, lease, hat, hid, hexpires, ?_⟩
        rw [hnode, hleases, LeaseStore.get_put, if_pos rfl]
      · exact Or.inl (hsame l hj)
    · rw [update_of_ne hji] at hj
      exact Or.inl hj
  refine ⟨fun j => ?_, fun nowMs hclock l hl => ?_, h.release, fun id huntouched j l hj hid => ?_,
    fun id huntouched n hn => ?_⟩
  · rw [hpc]
    by_cases hji : j = i
    · subst hji
      rw [update_self]
      exact hrenews
    · rw [update_of_ne hji]
      exact h.calls j
  · rintro ⟨j, l', hj, hid, hexpires⟩
    rcases hreturned j l' hj with hold | ⟨ttlMs, lease, hat, hlease, hnow, -⟩
    · exact h.todo nowMs hclock l hl ⟨j, l', hold, hid, hexpires⟩
    · rw [hnow] at hexpires
      exact hcareful ttlMs lease hat nowMs hclock hexpires l hl (hid.symm.trans hlease)
  · rcases hreturned j l hj with hold | ⟨ttlMs, lease, -, -, -, hget⟩
    · have hsome := h.lease id huntouched j l hold hid
      rcases hcases with ⟨_, lease, lease', -, hlease, -, hleases, -⟩ | ⟨hleases, -⟩
      · rw [hnode, hleases, LeaseStore.get_put]
        split_ifs
        · rfl
        · exact hsome
      · rw [hnode, hleases]
        exact hsome
    · rw [← hid, hget]
      rfl
  · rw [hnode, hrefs]
    exact h.refs id huntouched n hn

theorem Inv.step (h : s.Inv node₀) (hcareful : s.Careful turn env) :
    (s.step quotas turn env).Inv node₀ := by
  cases turn with
  | sweeper => exact h.sweep hcareful
  | call i => exact h.call hcareful

omit [DecidableEq I] in
theorem inv_init (node : Node) (calls : I → WorkspaceId × Nat × String) :
    (init node calls).Inv node where
  calls _ := trivial
  todo := nofun
  release := nofun
  lease := nofun
  refs _ _ _ _ := rfl

theorem CarefulRun.inv {s₀ : SweepState I} (h : CarefulRun quotas s₀ s) (hs₀ : s₀.Inv node₀) :
    s.Inv node₀ := by
  induction h with
  | start => exact hs₀
  | step _ _ _ _ hcareful ih => exact ih.step hcareful

theorem clock_step (h : s.sweeper.clock = some nowMs) :
    (s.step quotas turn env).sweeper.clock = some nowMs := by
  cases turn with
  | call i => exact h
  | sweeper =>
    show (s.sweeper.step quotas env s.node).2.clock = _
    cases hs : s.sweeper with
    | waiting =>
      rw [hs] at h
      cases h
    | scanning =>
      rw [hs] at h
      exact h
    | sweeping now begun todo =>
      rw [hs] at h
      cases todo with
      | nil => exact h
      | cons => exact (SweepPc.clock_resume ..).trans h
    | releasing =>
      rw [hs] at h
      exact (SweepPc.clock_resume ..).trans h

theorem Renewed.step (h : s.Renewed nowMs id) : (s.step quotas turn env).Renewed nowMs id := by
  obtain ⟨j, l, hj, hl⟩ := h
  refine ⟨j, l, ?_, hl⟩
  cases turn with
  | sweeper => exact hj
  | call i =>
    show Function.update s.pc i _ j = _
    by_cases hji : j = i
    · subst hji
      rw [update_self, hj]
    · rw [update_of_ne hji]
      exact hj

theorem Untouched.step (h : s.Untouched id) (hinv : s.Inv node₀) (hrenewed : s.Renewed nowMs id)
    (hclock : ∀ now, s.sweeper.clock = some now → now = nowMs) :
    (s.step quotas turn env).Untouched id := by
  cases turn with
  | call i => exact h
  | sweeper =>
    have hsweeper : (s.step quotas .sweeper env).sweeper = (s.sweeper.step quotas env s.node).2 :=
      rfl
    rw [Untouched] at h ⊢
    rw [hsweeper]
    cases hs : s.sweeper with
    | waiting | scanning =>
      intro l hl
      cases hl
    | sweeping now begun todo =>
      rw [hs] at h
      cases todo with
      | nil => exact h
      | cons l todo =>
        rw [SweepPc.step, SweepPc.begun_resume]
        intro l' hl' hid
        rcases mem_cons.mp hl' with rfl | hl'
        · have hnow : s.sweeper.clock = some now := by
            rw [hs]
            rfl
          have hmem : l' ∈ s.sweeper.todo := by
            rw [hs]
            exact mem_cons_self
          rw [← hid, ← hclock now hnow] at hrenewed
          exact hinv.todo now hnow l' hmem hrenewed
        · exact h l' hl' hid
    | releasing now begun call todo =>
      rw [hs] at h
      rw [SweepPc.step, SweepPc.begun_resume]
      exact h

/-- **Renewed workspaces survive the round.** In a run of careful steps, let a renewal of a
workspace have returned `Ok` at some point at which its release has not begun, with an expiry after
the sweeper's reading of the clock. When the round ends the workspace has its lease and all of its
refs. -/
theorem renewed_workspaces_survive {node : Node} {calls : I → WorkspaceId × Nat × String}
    {s s' : SweepState I} {nowMs : Nat} {id : WorkspaceId} {begun : List Lease}
    (hrun : CarefulRun quotas (init node calls) s) (hrest : CarefulRun quotas s s')
    (huntouched : s.Untouched id) (hrenewed : s.Renewed nowMs id)
    (hend : s'.sweeper = .sweeping nowMs begun []) :
    (s'.node.leases.get id).isSome ∧
      ∀ n, InWorkspace id n → s'.node.refs.tree.get n = node.refs.tree.get n := by
  have hinv := hrun.inv (inv_init node calls)
  have hclock : ∀ now, s'.sweeper.clock = some now → now = nowMs := by
    intro now hnow
    rw [hend] at hnow
    exact (Option.some.inj hnow).symm
  have hlater : (∀ now, s'.sweeper.clock = some now → now = nowMs) →
      s'.Inv node ∧ s'.Untouched id ∧ s'.Renewed nowMs id := by
    clear hend hclock
    induction hrest with
    | start => exact fun _ => ⟨hinv, huntouched, hrenewed⟩
    | step _ turn env _ hcareful ih =>
      intro hclock
      have hbefore := fun now hnow => hclock now (clock_step hnow)
      obtain ⟨hinv, huntouched, hrenewed⟩ := ih hbefore
      exact ⟨hinv.step hcareful, huntouched.step hinv hrenewed hbefore, hrenewed.step⟩
  obtain ⟨hinv', huntouched', ⟨i, l, hi, hid, -⟩⟩ := hlater hclock
  exact ⟨hinv'.lease id huntouched' i l hi hid, hinv'.refs id huntouched'⟩

variable (quotas) in
def exec (s : SweepState I) (turns : List (SweepTurn I × Env)) : SweepState I :=
  turns.foldl (fun s x => s.step quotas x.1 x.2) s

variable (quotas) in
/-- Every turn is legal where it comes. -/
def LegalRun (s : SweepState I) : List (SweepTurn I × Env) → Prop
  | [] => True
  | x :: turns => s.Legal x.1 x.2 ∧ LegalRun (s.step quotas x.1 x.2) turns

theorem legalRun_of_scanned {x : Node × ManagerPc}
    (h : s.sweeper = (SweepPc.resume nowMs begun todo x).2) (turns : List (SweepTurn I × Env)) :
    s.LegalRun quotas turns := by
  induction turns generalizing s begun todo x with
  | nil => trivial
  | cons y turns ih =>
    obtain ⟨turn, env⟩ := y
    cases turn with
    | call i => exact ⟨trivial, ih (s := s.step quotas (.call i) env) h⟩
    | sweeper =>
      have hstep : (s.step quotas .sweeper env).sweeper = (s.sweeper.step quotas env s.node).2 :=
        rfl
      refine ⟨fun now hscan => ?_, ?_⟩
      · rcases SweepPc.resume_cases nowMs begun todo x with ⟨result, -, heq⟩ | heq <;>
          rw [h, heq] at hscan <;> cases hscan
      · rcases SweepPc.resume_cases nowMs begun todo x with ⟨result, -, heq⟩ | heq
        · rw [h, heq] at hstep
          cases todo with
          | nil => exact ih (x := (s.node, .returned result)) hstep
          | cons l todo => exact ih hstep
        · rw [h, heq] at hstep
          exact ih hstep

end SweepState

/-! ### Runs -/

/-- A renewal of the workspace of `movedNode`, whose lease expires at 1000. -/
def beforeRound : SweepState Unit := .init movedNode (fun _ => (.fill 1, 500, "root"))

/-- The surroundings of a scan that finds these leases. -/
def scanOf (leases : List Lease) : Env := { envAt 0 with leases := leases }

/-- The sweeper collects the lease at 2000, and a renewal prolongs it. -/
def collectThenRenew : List (SweepTurn Unit × Env) :=
  [(.sweeper, envAt 2000), (.sweeper, scanOf [sampleLease]), (.call (), envAt 2001),
    (.call (), envAt 2002)]

/-- The accesses of a release with one ref. -/
def releaseOne : List (SweepTurn Unit × Env) := replicate 4 (.sweeper, envAt 2003)

/-- **A renewed workspace is swept.** Its renewal has returned `Ok` before the release begins, with
an expiry after the reading of the clock. At the end of the round the lease is gone, and so is the
ref. -/
theorem renewed_workspace_swept :
    let s := beforeRound.exec noQuotas collectThenRenew
    let s' := s.exec noQuotas releaseOne
    beforeRound.LegalRun noQuotas (collectThenRenew ++ releaseOne) ∧
    s.Untouched (.fill 1) ∧ s.Renewed 2000 (.fill 1) ∧
    s'.sweeper = .sweeping 2000 [sampleLease] [] ∧
    s'.node.leases.get (.fill 1) = none ∧
    (movedNode.refs.tree.get workspaceA).isSome ∧ s'.node.refs.tree.get workspaceA = none := by
  refine ⟨?_, nofun, ?_, ?_, by decide +kernel, by decide +kernel, by decide +kernel⟩
  · refine ⟨fun nowMs hscan => ?_, fun _ _ => lists_sampleLease, ?_⟩
    · cases hscan
    have hscanned : (beforeRound.exec noQuotas (collectThenRenew.take 2)).sweeper =
        (SweepPc.resume 2000 [] [sampleLease] (movedNode, .returned (.ok .released))).2 := by
      decide +kernel
    exact SweepState.legalRun_of_scanned hscanned _
  · refine ⟨(), { sampleLease with expiresAtMs := 2502, generation := 2, hlc := 2002 }, ?_, rfl, ?_⟩
    · decide +kernel
    · decide
  · decide +kernel

/-- A renewal before the scan, and a lease that it has prolonged. -/
def renewedLease : Lease := { sampleLease with expiresAtMs := 2401, generation := 2, hlc := 1901 }

theorem lists_renewedLease :
    ((LeaseIndex.empty.insert sampleLease).insert renewedLease).Lists [renewedLease] := by
  refine ⟨nodup_singleton _, fun l => ?_⟩
  rw [LeaseIndex.lookup_insert, LeaseIndex.lookup_insert, LeaseIndex.lookup_empty, mem_singleton]
  constructor
  · intro hl
    rw [hl, if_pos rfl]
  · intro hl
    split_ifs at hl with hid hid'
    · exact (Option.some.inj hl).symm
    · exact absurd hid' hid

/-- The workspace is renewed before the round. -/
def renewedFirst : SweepState Unit :=
  beforeRound.exec noQuotas [(.call (), envAt 1900), (.call (), envAt 1901)]

/-- The workspace is renewed, and then the round finds no lease that has expired. -/
theorem renewed_workspace_survives :
    let s := beforeRound.exec noQuotas [(.call (), envAt 1900), (.call (), envAt 1901)]
    let s' := s.exec noQuotas [(.sweeper, envAt 2000), (.sweeper, scanOf [renewedLease])]
    s'.sweeper = .sweeping 2000 [] [] ∧ (s'.node.leases.get (.fill 1)).isSome ∧
      s'.node.refs.tree.get workspaceA = movedNode.refs.tree.get workspaceA := by
  have hrun : SweepState.CarefulRun noQuotas beforeRound renewedFirst := by
    have hstart : SweepState.CarefulRun noQuotas beforeRound beforeRound := .start
    refine (hstart.step (.call ()) (envAt 1900) trivial ?_).step (.call ()) (envAt 1901) trivial ?_
    all_goals
      intro _ _ _ _ hclock
      cases hclock
  have hwal : (renewedFirst.step noQuotas .sweeper (envAt 2000)).node.leases.wal =
      [.put sampleLease, .put renewedLease] := by decide +kernel
  have hrest : SweepState.CarefulRun noQuotas renewedFirst (renewedFirst.exec noQuotas
      [(.sweeper, envAt 2000), (.sweeper, scanOf [renewedLease])]) := by
    refine (SweepState.CarefulRun.start.step .sweeper (envAt 2000) ?_ ?_).step .sweeper
      (scanOf [renewedLease]) ?_ ?_
    · intro _ hscan
      cases hscan
    · intro _ hscan
      cases hscan
    · intro _ _
      rw [← LeaseStore.openOn_wal (SweepState.node _).leases, hwal]
      exact lists_renewedLease
    · intro nowMs hscan l hl hexpired
      obtain rfl := mem_singleton.mp hl
      obtain rfl : 2000 = nowMs := SweepPc.scanning.inj hscan
      exact absurd hexpired (by decide)
  have hend : (renewedFirst.exec noQuotas
      [(.sweeper, envAt 2000), (.sweeper, scanOf [renewedLease])]).sweeper =
        .sweeping 2000 [] [] := by
    decide +kernel
  have hrenewed : renewedFirst.Renewed 2000 (.fill 1) := by
    refine ⟨(), renewedLease, ?_, rfl, ?_⟩
    · decide +kernel
    · decide
  have huntouched : renewedFirst.Untouched (.fill 1) := by
    intro l hl
    cases hl
  obtain ⟨hlease, hrefs⟩ :=
    SweepState.renewed_workspaces_survive hrun hrest huntouched hrenewed hend
  have hin : InWorkspace (.fill 1) workspaceA := by decide +kernel
  exact ⟨hend, hlease, hrefs workspaceA hin⟩

end Ledge.Workspace
