import Ledge.Cluster.Alone
import Ledge.Lib.RetriedWrite
import Mathlib.Algebra.GroupWithZero.Nat
import Mathlib.Algebra.Order.BigOperators.Group.List
import Mathlib.Algebra.Order.Group.Nat

/-!
# Ledge.Cluster.Routed

Writes that are routed to the leader of a shard (`ref_store.rs`), which
`client_write_routed` sends **a second time** when the first attempt is answered with
`ForwardToLeader`.

That answer does not say that the entry was dropped: a leader that is deposed gives it for
entries which its successor still applies. Both attempts carry the same entry, so the second is
a compare-and-set that may meet the first. A call is a `Ledge.Lib.Retried` write on the shard,
and `conflict_truthful_iff` says when its verdict is right.
-/

namespace Ledge.Cluster

open Ledge.Core Ledge.RefStore Ledge.Raft Ledge.Lib List

/-- A routed write: `update` of the cluster's ref store, or the batch of `commit_single_shard`. -/
inductive RoutedCall
  | update (name : RefName) (target : ObjectId) (expected : Option ObjectId) (hlc : Nat)
  | commitSingleShard (refs : List Mapping) (hlc : Nat → Nat)

namespace RoutedCall

/-- The entry that both attempts propose. -/
def op : RoutedCall → LedgeOp
  | .update name target expected hlc => .refUpdate name.asStr target expected hlc
  | .commitSingleShard refs hlc => .refBatch (Fleet.batchOps refs hlc)

/-- The refs of the call. -/
def names : RoutedCall → List RefName
  | .update name .. => [name]
  | .commitSingleShard refs _ => refs.map Mapping.name

/-- The entry is applied to the shard. -/
def apply (call : RoutedCall) (durable : Bool) (r : Replica) : Option (Replica × LedgeResp) :=
  applyOne r durable call.op

/-- The call makes a success of the response: `Ok`, or `Committed`. -/
def succeeds : RoutedCall → LedgeResp → Bool
  | .update .., .refUpdated _ => true
  | .commitSingleShard refs _, .batchResult outcomes =>
    (Fleet.singleResult refs outcomes).isCommitted
  | _, _ => false

/-- The call makes a conflict of the response: `Conflict`, or `Aborted`. -/
def conflicts : RoutedCall → LedgeResp → Bool
  | .update .., .conflict _ => true
  | .commitSingleShard refs _, .batchResult outcomes =>
    !(Fleet.singleResult refs outcomes).isCommitted
  | _, _ => false

/-- The slots of the call's refs. -/
def view (call : RoutedCall) (r : Replica) : List (Option RefSlot) :=
  call.names.map (fun n => r.refs.tree.slot n)

end RoutedCall

/-- The versions that are visible in some slots, together. -/
def versions (slots : List (Option RefSlot)) : Nat :=
  (slots.map (fun slot => (slot.bind RefSlot.visible).elim 0 RefEntry.version)).sum

namespace RoutedCall

variable {call : RoutedCall} {durable : Bool} {r r' : Replica} {resp : LedgeResp}

/-- The expectations of the call are met. An `update` looks at the slot as `apply_op` does, and a
batch as `commit_batch` does. -/
def Fits (t : RefTree) : RoutedCall → Prop
  | .update name _ expected _ => (t.slot name).map (fun s => s.committed.target) = expected
  | .commitSingleShard refs _ => ∀ m ∈ refs,
      t.lock m.name = none ∧ (t.get m.name).map RefEntry.target = m.expected

theorem fits_congr {t t' : RefTree} (h : ∀ n ∈ call.names, t.slot n = t'.slot n) :
    call.Fits t ↔ call.Fits t' := by
  cases call with
  | update name target expected hlc =>
    rw [Fits, Fits, h name (mem_singleton_self name)]
  | commitSingleShard refs hlc =>
    refine forall₂_congr fun m hm => ?_
    have hslot := h m.name (mem_map_of_mem hm)
    rw [RefTree.lock, RefTree.lock, hslot, RefTree.get_congr hslot]

theorem not_succeeds_of_conflicts (h : call.conflicts resp = true) :
    call.succeeds resp = false := by
  cases call with
  | update =>
    cases resp with
    | conflict => rfl
    | _ => cases h
  | commitSingleShard refs hlc =>
    cases resp with
    | batchResult outcomes => exact (Bool.not_eq_true' _).mp h
    | _ => cases h

theorem apply_eq (call : RoutedCall) (durable : Bool) (r : Replica) :
    call.apply durable r = some (r.perform durable
      (match call with
        | .update name target expected hlc => .ref (.update name target expected hlc)
        | .commitSingleShard refs hlc => .batch (batchInput refs hlc))) := by
  rw [apply, applyOne_eq]
  cases call with
  | update name target expected hlc =>
    rw [op, LedgeOp.action, LedgeOp.toApplied, RefName.new_asStr]
    rfl
  | commitSingleShard refs hlc =>
    rw [op, LedgeOp.action, mapM_toInput_batchOps]
    rfl

/-- What the application of an entry does to the shard. -/
def Applies (call : RoutedCall) (r r' : Replica) (resp : LedgeResp) : Prop :=
  (call.Fits r.refs.tree ∧ call.succeeds resp = true ∧ ∀ n ∈ call.names,
    (r.refs.tree.get n).elim 0 RefEntry.version < (r'.refs.tree.get n).elim 0 RefEntry.version) ∨
  (¬ call.Fits r.refs.tree ∧ call.succeeds resp = false ∧ r'.refs.tree = r.refs.tree)

theorem get_ofCommitted {t : RefTree} {n : RefName} {e : RefEntry}
    (h : t.slot n = some (.ofCommitted e)) (he : e.version ≠ 0) : t.get n = some e :=
  get_of_slot h fun _ heq => Option.some.inj heq ▸ he

theorem visible_version_lt (slot : Option RefSlot) :
    (slot.bind RefSlot.visible).elim 0 RefEntry.version <
      nextVersion (slot.map (fun s => s.committed)) := by
  cases slot with
  | none => exact Nat.one_pos
  | some s =>
    show (s.visible).elim 0 RefEntry.version < s.committed.version + 1
    unfold RefSlot.visible
    split_ifs
    · exact Nat.lt_succ_self _
    · exact Nat.succ_pos _

theorem applies_update (name : RefName) (target : ObjectId) (expected : Option ObjectId)
    (hlc : Nat) : (RoutedCall.update name target expected hlc).Applies r
      (r.perform durable (.ref (.update name target expected hlc))).1
      (r.perform durable (.ref (.update name target expected hlc))).2 := by
  have hcurrent : ((r.refs.tree.slot name).map (fun s => s.committed)).map RefEntry.target =
      (r.refs.tree.slot name).map (fun s => s.committed.target) := Option.map_map ..
  have hdecide : (AppliedOp.update name target expected hlc).decide (r.refs.tree.slot name) =
      applyUpdate name target expected hlc (r.refs.tree.slot name) := rfl
  rcases precondition_cases ((r.refs.tree.slot name).map (fun s => s.committed)) expected with
    ⟨hpre, htarget⟩ | ⟨e, hpre, hcommitted, hne⟩ | ⟨x, hpre, habsent, rfl⟩
  · simp only [applyUpdate, hpre] at hdecide
    refine Or.inl ⟨hcurrent.symm.trans htarget, ?_, fun n hn => ?_⟩
    · simp only [Replica.perform, run_applyOp]
      rw [show (AppliedOp.update name target expected hlc).name = name from rfl, hdecide]
      rfl
    · obtain rfl := mem_singleton.mp hn
      have hslot := slot_perform_ref r durable (.update n target expected hlc) hdecide n
      rw [get_ofCommitted (hslot.trans (if_pos rfl)) (nextVersion_ne_zero _)]
      exact visible_version_lt _
  · simp only [applyUpdate, hpre] at hdecide
    obtain ⟨htree, hresp⟩ := tree_perform_answer r durable (.update name target expected hlc)
      hdecide
    refine Or.inr ⟨fun hfits => hne ?_, by rw [hresp]; rfl, htree⟩
    rw [hcommitted] at hcurrent
    exact hcurrent.trans hfits
  · simp only [applyUpdate, hpre] at hdecide
    obtain ⟨htree, hresp⟩ := tree_perform_answer r durable (.update name target (some x) hlc)
      hdecide
    refine Or.inr ⟨fun hfits => ?_, by rw [hresp]; rfl, htree⟩
    rw [habsent] at hcurrent
    cases hcurrent.trans hfits

theorem applies_batch (refs : List Mapping) (hlc : Nat → Nat) :
    (RoutedCall.commitSingleShard refs hlc).Applies r
      (r.perform durable (.batch (batchInput refs hlc))).1
      (r.perform durable (.batch (batchInput refs hlc))).2 := by
  rcases batch_cases r durable (batchInput refs hlc) with
    ⟨hnone, hresp, hslot⟩ | ⟨hblocked, hresp, htree⟩
  · refine Or.inl ⟨?_, ?_, fun n hn => ?_⟩
    · intro m hm
      obtain ⟨op, hop, hname, hexpected⟩ := exists_batchInput hlc hm
      rw [← hname, ← hexpected]
      exact batchConflicts_eq_nil_iff.mp hnone op hop
    · rw [hresp, succeeds, Fleet.singleResult, if_pos (batchRefused_ok ..)]
      rfl
    · obtain ⟨m, hm, rfl⟩ := mem_map.mp hn
      obtain ⟨op, hop, hname, -⟩ := exists_batchInput hlc hm
      obtain ⟨e, he⟩ := exists_lastFor_batchPlanned hnone hop
      rw [hname] at he
      obtain ⟨op', -, -, rfl⟩ := lastFor_batchPlanned hnone he
      have hafter := hslot m.name
      rw [he] at hafter
      rw [get_ofCommitted hafter (nextVersion_ne_zero _)]
      show _ < nextVersion (r.refs.tree.get m.name)
      cases r.refs.tree.get m.name with
      | none => exact Nat.one_pos
      | some e => exact Nat.lt_succ_self _
  · refine Or.inr ⟨fun hfits => hblocked ?_, ?_, htree⟩
    · refine batchConflicts_eq_nil_iff.mpr fun op hop => ?_
      obtain ⟨m, hm, hname, hexpected⟩ := mem_batchInput hop
      rw [hname, hexpected]
      exact hfits m hm
    · rw [hresp, succeeds, Fleet.singleResult, if_neg (batchRefused_ne_nil hblocked)]
      rfl

theorem applies_of_apply (h : call.apply durable r = some (r', resp)) :
    call.Applies r r' resp := by
  rw [apply_eq] at h
  obtain ⟨rfl, rfl⟩ := Prod.mk.inj (Option.some.inj h)
  cases call with
  | update name target expected hlc => exact applies_update name target expected hlc
  | commitSingleShard refs hlc => exact applies_batch refs hlc

/-- **A routed write is a conditional write** of its refs. -/
theorem conditionalWrite (hne : call.names ≠ []) :
    ConditionalWrite call.apply call.succeeds call.view versions where
  decides {_ _ s s' t t' r r'} h h' hview := by
    have hfits : call.Fits s.refs.tree ↔ call.Fits t.refs.tree :=
      fits_congr (map_inj_left.mp hview)
    rcases applies_of_apply h with ⟨hs, hr, -⟩ | ⟨hs, hr, -⟩
    · rcases applies_of_apply h' with ⟨-, hr', -⟩ | ⟨ht, -, -⟩
      · rw [hr, hr']
      · exact absurd (hfits.mp hs) ht
    · rcases applies_of_apply h' with ⟨ht, -, -⟩ | ⟨-, hr', -⟩
      · exact absurd (hfits.mpr ht) hs
      · rw [hr, hr']
  refused {_ s s' r} h hr := by
    rcases applies_of_apply h with ⟨-, hr', -⟩ | ⟨-, -, htree⟩
    · rw [hr] at hr'
      cases hr'
    · rw [view, view, htree]
  grows {_ s s' r} h hr := by
    rcases applies_of_apply h with ⟨-, -, hlt⟩ | ⟨-, hr', -⟩
    · rw [view, view, versions, versions, map_map, map_map]
      exact sum_lt_sum_of_ne_nil hne _ _ hlt
    · rw [hr] at hr'
      cases hr'

theorem names_ne_nil_of_conflicts (h : call.conflicts resp = true) : call.names ≠ [] := by
  cases call with
  | update => exact cons_ne_nil _ _
  | commitSingleShard refs hlc =>
    intro hnil
    obtain rfl := map_eq_nil_iff.mp hnil
    cases resp with
    | batchResult outcomes => cases h
    | _ => cases h

end RoutedCall

/-- **A conflict verdict is truthful** if and only if the second attempt has not met the write of
the first: then the refs are as they were before the call. -/
theorem conflict_truthful_iff {call : RoutedCall} {r : Replica} {s : Retried Replica LedgeResp}
    {resp : LedgeResp} (h : RetryRun call.apply call.succeeds call.view r s)
    (hreturned : s.pc = .returned (some resp)) (hconflict : call.conflicts resp = true) :
    (∀ n ∈ call.names, s.object.refs.tree.get n = r.refs.tree.get n) ↔ s.met = false := by
  obtain ⟨hsame, hgrown⟩ := h.refused
    (RoutedCall.conditionalWrite (RoutedCall.names_ne_nil_of_conflicts hconflict)) hreturned
    (RoutedCall.not_succeeds_of_conflicts hconflict)
  constructor
  · intro hget
    have hversions : versions (call.view s.object) = versions (call.view r) := by
      rw [versions, versions, RoutedCall.view, RoutedCall.view, map_map, map_map]
      refine congrArg sum (map_congr_left fun n hn => ?_)
      exact congrArg (fun e : Option RefEntry => e.elim 0 RefEntry.version) (hget n hn)
    exact Bool.eq_false_iff.mpr fun hmet => Nat.ne_of_lt (hgrown hmet) hversions.symm
  · intro hmet n hn
    exact RefTree.get_congr (map_inj_left.mp (hsame hmet) n hn)

/-! ### A retry that meets the first attempt -/

/-- The creation of a ref, by an update and by a batch. -/
def createA : RoutedCall := .update .headsA (.fill 1) none 1
def createBatchA : RoutedCall := .commitSingleShard [⟨.headsA, .fill 1, none⟩] (fun _ => 1)

/-- Whether a call has returned a conflict after some events, and the target of the ref. -/
def verdictA (call : RoutedCall) (r : Replica) (evs : List (RetryEvent Replica Bool)) :
    Option (Bool × Option ObjectId) :=
  ((Retried.init r).exec call.apply call.succeeds evs).map (fun s =>
    (match s.pc with
      | .returned (some resp) => call.conflicts resp
      | _ => false,
    (s.object.refs.tree.get .headsA).map RefEntry.target))

/-- The first leader is deposed after it has replicated the entry, and answers with
`ForwardToLeader`; the second attempt finds the ref that the first has created. The call returns
a conflict, and the ref is where it was to go. -/
theorem retry_meets_first_attempt :
    verdictA createA .empty [.send, .apply false true, .redirect, .apply true true, .answer] =
        some (true, some (.fill 1)) ∧
      verdictA createBatchA .empty
          [.send, .apply false true, .redirect, .apply true true, .answer] =
        some (true, some (.fill 1)) := by
  decide +kernel

/-- A shard where the ref exists. -/
def occupiedA : Replica :=
  (Replica.empty.perform true (.ref (.update .headsA (.fill 2) none 1))).1

/-- On it both attempts are refused, the first after the second. -/
theorem refused_twice_truthful : ∃ s : Retried Replica LedgeResp, ∃ resp,
    RetryRun createBatchA.apply createBatchA.succeeds createBatchA.view occupiedA s ∧
      s.pc = .returned (some resp) ∧ createBatchA.conflicts resp = true ∧
      ∀ n ∈ createBatchA.names, s.object.refs.tree.get n = occupiedA.refs.tree.get n := by
  have hexec : ((Retried.init occupiedA).exec createBatchA.apply createBatchA.succeeds
      [.send, .redirect, .apply true true, .answer, .apply false true]).any (fun s =>
        s.met = false ∧ s.pc =
          .returned (some (.batchResult [.conflict ⟨.fill 2, 1, 1⟩]))) := by
    decide +kernel
  obtain ⟨s, hs, hfinal⟩ := (Option.any_eq_true _ _).mp hexec
  obtain ⟨hmet, hpc⟩ := of_decide_eq_true hfinal
  have hrun : RetryRun createBatchA.apply createBatchA.succeeds createBatchA.view occupiedA s :=
    RetryRun.start.exec (fun ev hev t heq => by simp [heq] at hev) hs
  exact ⟨s, _, hrun, hpc, rfl, (conflict_truthful_iff hrun hpc rfl).mpr hmet⟩

end Ledge.Cluster
