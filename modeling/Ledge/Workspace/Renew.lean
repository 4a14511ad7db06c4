import Ledge.Workspace.Manager

/-!
# Ledge.Workspace.Renew

Concurrent renewals and releases of **one workspace**.

A renewal reads the lease and later writes it back. Between the two the lease may have been
released, and then the renewal brings it back; or another renewal may have written it, and then
one of the two is lost. `renew_release_law_iff` says that nothing else goes wrong.
-/

namespace Ledge.Workspace

open Ledge.Core Ledge.RefStore Finset Function List

namespace ManagerPc

/-- The call renews or releases the workspace `id`. -/
def RenewsOrReleases (id : WorkspaceId) : ManagerPc → Prop
  | .start (.renew id' _ _) | .start (.release id' _) => id' = id
  | .renewing _ lease => lease.id = id
  | .listing id' | .deleting id' _ => id' = id
  | .returned (.ok (.renewed _)) | .returned (.ok .released) | .returned (.error _) => True
  | _ => False

/-- A renewal has returned `Ok`. -/
def hasRenewed : ManagerPc → Bool
  | .returned (.ok (.renewed _)) => true
  | _ => false

/-- What one access of such a call does: it leaves the leases alone, or writes back a lease, or
removes the lease. -/
theorem step_cases {id : WorkspaceId} {pc : ManagerPc} (h : pc.RenewsOrReleases id)
    (quotas : QuotaLimits) (env : Env) (node : Node) :
    ((pc.step quotas env node).1.leases = node.leases ∧
      (pc.step quotas env node).2.RenewsOrReleases id ∧
      (pc.step quotas env node).2.hasRenewed = pc.hasRenewed ∧
      ((pc.step quotas env node).2 = .returned (.ok .released) ↔ pc = .returned (.ok .released)) ∧
      (∀ ttlMs lease, pc ≠ .renewing ttlMs lease) ∧
      ∀ ttlMs lease, (pc.step quotas env node).2 = .renewing ttlMs lease →
        node.leases.get id = some lease) ∨
    (∃ ttlMs lease lease', pc = .renewing ttlMs lease ∧ lease'.id = id ∧
      lease'.generation = lease.generation + 1 ∧
      (pc.step quotas env node).1.leases = node.leases.put lease' ∧
      (pc.step quotas env node).2 = .returned (.ok (.renewed lease'))) ∨
    (∃ hlc, pc = .deleting id [] ∧
      (pc.step quotas env node).1.leases = node.leases.tombstoneWithHlc id hlc ∧
      (pc.step quotas env node).2 = .returned (.ok .released)) := by
  have hmoves := moves_step quotas env node pc
  generalize (pc.step quotas env node).1 = node', (pc.step quotas env node).2 = pc' at hmoves ⊢
  cases hmoves with
  | fork | commit | grant | read | copy | nothing | promote | skip | gather | expect | reported
  | report =>
    exact h.elim
  | refuse hrenewing hreturned =>
    refine Or.inl ⟨rfl, trivial, ?_, ?_, hrenewing, nofun⟩
    · cases pc with
      | returned result => exact absurd rfl (hreturned result)
      | _ => rfl
    · exact iff_of_false nofun (hreturned _)
  | renew hget =>
    obtain rfl := h
    refine Or.inl ⟨rfl, LeaseIndex.id_of_lookup hget, rfl, ?_, ?_, ?_⟩ <;> simp_all
  | releaseUnknown | release | list | delete | pass =>
    refine Or.inl ⟨rfl, h, rfl, ?_, ?_, ?_⟩ <;> simp
  | renewed hid _ hgeneration =>
    exact Or.inr (Or.inl ⟨_, _, _, rfl, hid.trans h, hgeneration, rfl, rfl⟩)
  | revoke =>
    obtain rfl := h
    exact Or.inr (Or.inr ⟨_, rfl, rfl, rfl⟩)
  | stay => refine Or.inl ⟨rfl, h, rfl, Iff.rfl, ?_, ?_⟩ <;> simp

end ManagerPc

section

variable {I : Type} [Fintype I] [DecidableEq I]

/-- The number of renewals that have returned `Ok`. -/
def ManagerState.renewals (s : ManagerState I) : Nat :=
  (univ.filter (fun i => (s.pc i).hasRenewed = true)).card

/-- **What callers rely on**: after a release has returned `Ok` there is no lease, in memory and in
the log, and while there is one its generation counts the renewals that have returned `Ok` from
`generation` on. -/
structure LeaseLaw (id : WorkspaceId) (generation : Nat) (s : ManagerState I) : Prop where
  absent : (∃ i, s.pc i = .returned (.ok .released)) →
    s.node.leases.get id = none ∧ (LeaseStore.openOn s.node.leases.wal).get id = none
  counts : ∀ l, s.node.leases.get id = some l → l.generation = generation + s.renewals

/-- If the next access of the call `i` writes a lease back, the stored lease is still the one that
it had read. -/
def Undisturbed (s : ManagerState I) (i : I) : Prop :=
  match s.pc i with
  | .renewing _ lease => s.node.leases.get lease.id = some lease
  | _ => True

instance (s : ManagerState I) (i : I) : Decidable (Undisturbed s i) := by
  unfold Undisturbed
  split <;> infer_instance

/-- A lease that a renewal has read is the stored one, or it has been released since, or it has
been renewed since. -/
structure ReadLeases (id : WorkspaceId) (s : ManagerState I) : Prop where
  calls : ∀ i, (s.pc i).RenewsOrReleases id
  read : ∀ i ttlMs lease, s.pc i = .renewing ttlMs lease →
    s.node.leases.get id = some lease ∨ (∃ j, s.pc j = .returned (.ok .released)) ∨
      ∃ l, s.node.leases.get id = some l ∧ lease.generation < l.generation

variable {s : ManagerState I} {i : I} {id : WorkspaceId} {generation : Nat} {quotas : QuotaLimits}
  {env : Env}

variable {s' : ManagerState I} {pc : ManagerPc}

theorem renewals_of_eq (hpc : s'.pc = Function.update s.pc i pc)
    (h : pc.hasRenewed = (s.pc i).hasRenewed) : s'.renewals = s.renewals := by
  unfold ManagerState.renewals
  congr 1
  refine Finset.filter_congr fun j _ => ?_
  rw [hpc]
  by_cases hj : j = i
  · rw [hj, update_self, h]
  · rw [update_of_ne hj]

theorem renewals_of_renewed (hpc : s'.pc = Function.update s.pc i pc)
    (hold : (s.pc i).hasRenewed = false) (hnew : pc.hasRenewed = true) :
    s'.renewals = s.renewals + 1 := by
  have hinsert : univ.filter (fun j => (s'.pc j).hasRenewed = true) =
      insert i (univ.filter (fun j => (s.pc j).hasRenewed = true)) := by
    ext j
    rw [mem_insert, mem_filter_univ, hpc]
    by_cases hj : j = i
    · rw [hj, update_self, hnew]
      simp
    · simp [hj]
  unfold ManagerState.renewals
  rw [hinsert, card_insert_of_notMem (by simp [hold])]

omit [Fintype I] in
theorem released_step {j : I} (h : s.pc j = .returned (.ok .released)) :
    (s.step quotas i env).pc j = .returned (.ok .released) := by
  rw [ManagerState.step_pc]
  by_cases hj : j = i
  · rw [hj] at h ⊢
    rw [update_self, h]
    rfl
  · rw [update_of_ne hj, h]

omit [Fintype I] in
theorem released_of_step {j : I}
    (hquiet : ((s.pc i).step quotas env s.node).2 = .returned (.ok .released) →
      s.pc i = .returned (.ok .released))
    (h : (s.step quotas i env).pc j = .returned (.ok .released)) :
    s.pc j = .returned (.ok .released) := by
  rw [ManagerState.step_pc] at h
  by_cases hj : j = i
  · rw [hj] at h ⊢
    rw [update_self] at h
    exact hquiet h
  · rwa [update_of_ne hj] at h

omit [Fintype I] in
theorem ReadLeases.step_calls (h : ReadLeases id s)
    (hnext : ((s.pc i).step quotas env s.node).2.RenewsOrReleases id) (j : I) :
    ((s.step quotas i env).pc j).RenewsOrReleases id := by
  rw [ManagerState.step_pc]
  by_cases hj : j = i
  · rw [hj, update_self]
    exact hnext
  · rw [update_of_ne hj]
    exact h.calls j

/-- **A step that is not disturbed** keeps the law. -/
theorem LeaseLaw.step (hlaw : LeaseLaw id generation s) (hread : ReadLeases id s)
    (hundisturbed : Undisturbed s i) :
    LeaseLaw id generation (s.step quotas i env) ∧ ReadLeases id (s.step quotas i env) := by
  have hopen : ∀ leases : LeaseStore, leases.get id = none →
      leases.get id = none ∧ (LeaseStore.openOn leases.wal).get id = none := by
    intro leases hnone
    rw [leases.openOn_wal]
    exact ⟨hnone, hnone⟩
  rcases ManagerPc.step_cases (hread.calls i) quotas env s.node with
    ⟨hleases, hnext, hsame, hreleased, -, hrenewing⟩ |
    ⟨ttlMs, lease, lease', hpc, hid, hgeneration, hleases, hnext⟩ | ⟨hlc, hpc, hleases, hnext⟩
  · -- the leases stay as they are
    have hleases' : (s.step quotas i env).node.leases = s.node.leases := hleases
    refine ⟨⟨fun hreturned => ?_, fun l hl => ?_⟩, hread.step_calls hnext, fun j ttlMs lease hj =>
      ?_⟩
    · obtain ⟨j, hj⟩ := hreturned
      rw [hleases']
      exact hlaw.absent ⟨j, released_of_step hreleased.mp hj⟩
    · rw [hleases'] at hl
      rw [renewals_of_eq (ManagerState.step_pc s i env) hsame]
      exact hlaw.counts l hl
    · rw [hleases']
      rw [ManagerState.step_pc] at hj
      by_cases hji : j = i
      · rw [hji, update_self] at hj
        exact Or.inl (hrenewing ttlMs lease hj)
      · rw [update_of_ne hji] at hj
        rcases hread.read j ttlMs lease hj with hstored | hreturned | hrenewed
        · exact Or.inl hstored
        · obtain ⟨k, hk⟩ := hreturned
          exact Or.inr (Or.inl ⟨k, released_step hk⟩)
        · exact Or.inr (Or.inr hrenewed)
  · -- a renewal writes the lease back that is stored
    have hleaseid : lease.id = id := by
      have hcall := hread.calls i
      rw [hpc] at hcall
      exact hcall
    have hstored := hundisturbed
    unfold Undisturbed at hstored
    rw [hpc] at hstored
    dsimp only at hstored
    rw [hleaseid] at hstored
    have hget : (s.step quotas i env).node.leases.get id = some lease' := by
      rw [ManagerState.step_node, hleases, LeaseStore.get_put, if_pos hid]
    have hnone : ∀ j, s.pc j ≠ .returned (.ok .released) := by
      intro j hj
      rw [(hlaw.absent ⟨j, hj⟩).1] at hstored
      cases hstored
    refine ⟨⟨fun hreturned => ?_, fun l hl => ?_⟩,
      hread.step_calls (by rw [hnext]; trivial), fun j ttlMs' l hj => ?_⟩
    · obtain ⟨j, hj⟩ := hreturned
      exact absurd (released_of_step (fun heq => by rw [hnext] at heq; cases heq) hj) (hnone j)
    · rw [hget] at hl
      cases hl
      rw [renewals_of_renewed (ManagerState.step_pc s i env) (by rw [hpc]; rfl)
        (by rw [hnext]; rfl), hgeneration, hlaw.counts lease hstored, Nat.add_assoc]
    · rw [ManagerState.step_pc] at hj
      by_cases hji : j = i
      · rw [hji, update_self, hnext] at hj
        cases hj
      · rw [update_of_ne hji] at hj
        refine Or.inr (Or.inr ⟨lease', hget, ?_⟩)
        rcases hread.read j ttlMs' l hj with hl | hreturned | hrenewed
        · cases hl.symm.trans hstored
          omega
        · obtain ⟨k, hk⟩ := hreturned
          exact absurd hk (hnone k)
        · obtain ⟨l', hl', hlt⟩ := hrenewed
          cases hl'.symm.trans hstored
          omega
  · -- a release removes the lease
    have hget : (s.step quotas i env).node.leases.get id = none := by
      rw [ManagerState.step_node, hleases, LeaseStore.get_tombstoneWithHlc, if_pos rfl]
    have hreturned : (s.step quotas i env).pc i = .returned (.ok .released) := by
      rw [ManagerState.step_pc, update_self, hnext]
    refine ⟨⟨fun _ => hopen _ hget, fun l hl => ?_⟩,
      hread.step_calls (by rw [hnext]; trivial), fun _ _ _ _ => Or.inr (Or.inl ⟨i, hreturned⟩)⟩
    rw [hget] at hl
    cases hl

/-- **A step that is disturbed** breaks the law. -/
theorem LeaseLaw.broken (hlaw : LeaseLaw id generation s) (hread : ReadLeases id s)
    (hdisturbed : ¬ Undisturbed s i) : ¬ LeaseLaw id generation (s.step quotas i env) := by
  intro hlaw'
  refine hdisturbed ?_
  unfold Undisturbed
  split
  case h_2 => trivial
  rename_i ttlMs lease hpc
  have hleaseid : lease.id = id := by
    have hcall := hread.calls i
    rw [hpc] at hcall
    exact hcall
  rw [hleaseid]
  rcases ManagerPc.step_cases (hread.calls i) quotas env s.node with
    ⟨-, -, -, -, hquiet, -⟩ | ⟨ttlMs', lease₁, lease', hpc', hid, hgeneration, hleases, hnext⟩ |
    ⟨hlc, hpc', -, -⟩
  · exact absurd hpc (hquiet ttlMs lease)
  · cases hpc.symm.trans hpc'
    have hget : (s.step quotas i env).node.leases.get id = some lease' := by
      rw [ManagerState.step_node, hleases, LeaseStore.get_put, if_pos hid]
    rcases hread.read i ttlMs lease hpc with hstored | hreturned | hrenewed
    · exact hstored
    · -- the lease was released, and comes back
      obtain ⟨j, hj⟩ := hreturned
      rw [(hlaw'.absent ⟨j, released_step hj⟩).1] at hget
      cases hget
    · -- another renewal was written, and is lost
      obtain ⟨l, hl, hlt⟩ := hrenewed
      have hcounts := hlaw'.counts lease' hget
      rw [renewals_of_renewed (ManagerState.step_pc s i env) (by rw [hpc]; rfl)
        (by rw [hnext]; rfl)] at hcounts
      have hcount := hlaw.counts l hl
      omega
  · rw [hpc] at hpc'
    cases hpc'

omit [DecidableEq I] in
theorem LeaseLaw.start {calls : I → ManagerCall} {node : Node}
    (hgeneration : ∀ l, node.leases.get id = some l → l.generation = generation) :
    LeaseLaw id generation (ManagerState.init node calls) := by
  refine ⟨fun hreturned => ?_, fun l hl => ?_⟩
  · obtain ⟨i, hi⟩ := hreturned
    cases hi
  · have hzero : (ManagerState.init node calls).renewals = 0 := by
      simp [ManagerState.renewals, ManagerState.init, ManagerPc.hasRenewed]
    rw [hzero]
    exact hgeneration l hl

/-- **Renewals and releases of one workspace.** A schedule keeps the law in all of its states if
and only if every renewal writes back to the very lease that it has read. -/
theorem renew_release_law_iff {calls : I → ManagerCall}
    (hcalls : ∀ i, (ManagerPc.start (calls i)).RenewsOrReleases id) {node : Node}
    (hgeneration : ∀ l, node.leases.get id = some l → l.generation = generation)
    (schedule : List (I × Env)) :
    (∀ p, p <+: schedule → LeaseLaw id generation ((ManagerState.init node calls).exec quotas p)) ↔
      ∀ p x, p ++ [x] <+: schedule →
        Undisturbed ((ManagerState.init node calls).exec quotas p) x.1 := by
  have hstart : LeaseLaw id generation (ManagerState.init node calls) := LeaseLaw.start hgeneration
  have hread : ReadLeases id (ManagerState.init node calls) :=
    ⟨hcalls, nofun⟩
  -- the leases that were read are known as long as no step was disturbed
  have hforward : ∀ sched : List (I × Env),
      (∀ p x, p ++ [x] <+: sched → Undisturbed ((ManagerState.init node calls).exec quotas p) x.1) →
      LeaseLaw id generation ((ManagerState.init node calls).exec quotas sched) ∧
        ReadLeases id ((ManagerState.init node calls).exec quotas sched) := by
    intro sched
    induction sched using reverseRecOn with
    | nil => exact fun _ => ⟨hstart, hread⟩
    | append_singleton sched x ih =>
      intro hall
      obtain ⟨hlaw, hreads⟩ := ih fun p y hp => hall p y (hp.trans (prefix_append _ _))
      rw [ManagerState.exec_concat]
      exact hlaw.step hreads (hall sched x prefix_rfl)
  constructor
  · intro hlaws
    induction schedule using reverseRecOn with
    | nil =>
      intro p x hp
      simp at hp
    | append_singleton schedule x ih =>
      have hundisturbed := ih fun p hp => hlaws p (hp.trans (prefix_append _ _))
      intro p y hp
      rcases prefix_concat_iff.mp hp with heq | hp
      · obtain ⟨rfl, hx⟩ := append_inj' heq rfl
        obtain rfl : y = x := by simpa using hx
        obtain ⟨hlaw, hreads⟩ := hforward p hundisturbed
        by_contra hdisturbed
        have hbroken : ¬ LeaseLaw id generation
            (((ManagerState.init node calls).exec quotas p).step quotas y.1 y.2) :=
          hlaw.broken hreads hdisturbed
        rw [← ManagerState.exec_concat] at hbroken
        exact hbroken (hlaws (p ++ [y]) prefix_rfl)
      · exact hundisturbed p y hp
  · intro hundisturbed p hp
    exact (hforward p fun q x hq => hundisturbed q x (hq.trans hp)).1

end

/-! ### Runs -/

/-- A node with one lease and no ref. -/
def leasedNode : Node := ⟨.openOn [], .openOn [.put sampleLease]⟩

/-- A renewal, and a release or another renewal of the same workspace. -/
def renewAndRelease (i : Bool) : ManagerCall :=
  if i then .renew (.fill 1) 500 "root" else .release (.fill 1) "root"

def renewTwice (_ : Bool) : ManagerCall := .renew (.fill 1) 500 "root"

/-- The steps of the calls, at times that count up from 100. -/
def steps (turns : List Bool) : List (Bool × Env) :=
  turns.mapIdx (fun k i => (i, envAt (100 + k)))

/-- **A released lease comes back, and a renewal is lost.** A renewal reads the lease, a release
removes it and returns `Ok`, and the renewal writes it back. Two renewals that read the same lease
both return `Ok` and raise its generation once. -/
theorem renewal_overwrites :
    let released := (ManagerState.init leasedNode renewAndRelease).exec noQuotas
      (steps [true, false, false, false, true])
    let renewed := (ManagerState.init leasedNode renewTwice).exec noQuotas
      (steps [true, false, true, false])
    (released.pc false = .returned (.ok .released) ∧
      (released.node.leases.get (.fill 1)).isSome = true ∧
      ((LeaseStore.openOn released.node.leases.wal).get (.fill 1)).isSome = true) ∧
    ((renewed.pc true).hasRenewed = true ∧ (renewed.pc false).hasRenewed = true ∧
      (leasedNode.leases.get (.fill 1)).map Lease.generation = some 1 ∧
      (renewed.node.leases.get (.fill 1)).map Lease.generation = some 2) := by
  decide +kernel

/-- A renewal and then a release, each without a step of the other in between. -/
theorem renew_release_law_in_turn :
    LeaseLaw (.fill 1) 1 ((ManagerState.init leasedNode renewAndRelease).exec noQuotas
      (steps [true, true, false, false, false])) := by
  refine (renew_release_law_iff (fun i => ?_) (fun l hl => ?_) _).mpr (fun p x hp => ?_) _
    prefix_rfl
  · cases i <;> rfl
  · have hfirst : (leasedNode.leases.get (.fill 1)).map Lease.generation = some 1 := by
      decide +kernel
    rw [hl] at hfirst
    exact Option.some.inj hfirst
  · have hall : ∀ q ∈ (steps [true, true, false, false, false]).inits, ∀ x ∈ q.getLast?,
        Undisturbed ((ManagerState.init leasedNode renewAndRelease).exec noQuotas q.dropLast)
          x.1 := by
      decide +kernel
    have hlast := hall (p ++ [x]) ((mem_inits _ _).mpr hp) x (by simp)
    rwa [dropLast_concat] at hlast

end Ledge.Workspace
