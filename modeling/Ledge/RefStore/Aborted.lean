import Ledge.RefStore.Applied
import Ledge.RefStore.Single

/-!
# Ledge.RefStore.Aborted

**An aborted prepare leaves no trace.** Two runs of the same operations are compared, one with a
`Prepare` before them and the matching `AbortPrepared` after them, and one without the two.

* What an operation does depends on the slots of the refs that it writes and, if it reads, on
  what is visible (`Alike.act`).
* `Prepare` and `AbortPrepared` change one slot, nothing visible and no frame of the log.
* If the ref was not locked before, the abort restores its slot too. A transaction that prepares a
  ref again, which it has locked already, loses the lock with the abort.
-/

namespace Ledge.RefStore

open Ledge.Core List

/-! ### Runs -/

/-- What is done to a store: a client call, with what the clock returns, or a replicated
operation. -/
inductive Act
  | call (c : Call) (hlc : Nat)
  | apply (op : AppliedOp)

/-- The result of an act. -/
inductive Reply
  | call (r : Resp)
  | apply (o : AppliedOutcome)

namespace Act

/-- The refs that the act may write. Reads write none. -/
def writes : Act → List RefName
  | .call (.get _) _ | .call (.list _) _ | .call .snapshot _ => []
  | .call (.update name ..) _ | .call (.delete name _) _ => [name]
  | .call (.commitBatch ops) _ => ops.map BatchOp.name
  | .apply op => [op.name]

/-- The act on a store; `durable` says whether the append of its frame succeeds. -/
def run (s : Store) (durable : Bool) : Act → Store × Reply
  | .call c hlc => (s.run durable (c.attempt hlc s.tree)).map id .call
  | .apply op => (s.run durable (s.tree.applyOp op)).map id .apply

end Act

/-- Acts in order, with their results. -/
def Store.runActs : Store → List (Bool × Act) → Store × List Reply
  | s, [] => (s, [])
  | s, (durable, a) :: acts =>
    let (s', r) := a.run s durable
    let (s'', rs) := s'.runActs acts
    (s'', r :: rs)

/-- The results are the same. A snapshot is what it answers. -/
def Reply.Same : Reply → Reply → Prop
  | .call (.snapshot t), .call (.snapshot t') =>
    (∀ n, t.get n = t'.get n) ∧ ∀ search, t.list search = t'.list search
  | r, r' => r = r'

theorem Reply.same_refl (r : Reply) : r.Same r := by
  cases r with
  | apply o => rfl
  | call r =>
    cases r with
    | snapshot t => exact ⟨fun _ => rfl, fun _ => rfl⟩
    | got entry | listed refs | updated result | deleted result | batch result => rfl

theorem Reply.same_of_eq {r r' : Reply} (h : r = r') : r.Same r' := h ▸ r.same_refl

/-- Two stores that show the same refs, have the same log and agree on the slots of `p`. -/
structure Alike (p : RefName → Prop) (s s' : Store) : Prop where
  slot : ∀ n, p n → s.tree.slot n = s'.tree.slot n
  get : ∀ n, s.tree.get n = s'.tree.get n
  wal : s.wal = s'.wal

variable {p : RefName → Prop} {s s' s'' : Store} {name : RefName}

theorem Alike.trans (h : Alike p s s') (h' : Alike p s' s'') : Alike p s s'' :=
  ⟨fun n hn => (h.slot n hn).trans (h'.slot n hn), fun n => (h.get n).trans (h'.get n),
    h.wal.trans h'.wal⟩

/-! ### One act -/

section Decisions

variable {R : Type} {d : Decision R}

theorem Store.run_attempt_fst (s : Store) (durable : Bool) (name : RefName) (d : Decision R) :
    (s.run durable (d.attempt s.tree name)).1 =
      ⟨d.tree s.tree name, s.wal ++ if durable then d.log.toList else []⟩ := by
  cases d with
  | answer r => simp [Store.run, Decision.attempt, Decision.tree, Decision.log]
  | put slot log r lost | remove log r lost =>
    cases log <;> cases durable <;>
      simp [Store.run, Decision.attempt, Decision.tree, Decision.log]

/-- The result of a decision does not depend on the tree it is carried out on. -/
theorem Store.run_attempt_snd (s s' : Store) (durable : Bool) (name : RefName) (d : Decision R) :
    (s.run durable (d.attempt s.tree name)).2 = (s'.run durable (d.attempt s'.tree name)).2 := by
  cases d with
  | answer r => rfl
  | put slot log r lost | remove log r lost => cases log <;> cases durable <;> rfl

theorem Alike.attempt (h : Alike p s s') (durable : Bool) (hname : p name)
    (hsound : d.Sound name (s.tree.slot name)) :
    Alike p (s.run durable (d.attempt s.tree name)).1
      (s'.run durable (d.attempt s'.tree name)).1 := by
  have hslot := h.slot name hname
  have hsound' : d.Sound name (s'.tree.slot name) := hslot ▸ hsound
  rw [Store.run_attempt_fst, Store.run_attempt_fst]
  refine ⟨fun n hn => ?_, fun n => ?_, ?_⟩
  · rw [hsound.slot_tree, hsound'.slot_tree, hslot, h.slot n hn]
  · rw [RefTree.get, RefTree.get, hsound.slot_tree, hsound'.slot_tree, hslot]
    split_ifs
    · rfl
    · exact h.get n
  · rw [h.wal]

theorem slot_attempt_of_ne (s : Store) (durable : Bool) (hsound : d.Sound name (s.tree.slot name))
    {n : RefName} (hn : n ≠ name) :
    (s.run durable (d.attempt s.tree name)).1.tree.slot n = s.tree.slot n := by
  rw [Store.run_attempt_fst]
  exact (hsound.slot_tree n).trans (if_neg hn)

end Decisions

theorem Store.run_attempt_map {R R' : Type} (s : Store) (durable : Bool) (g : R → R')
    (a : Attempt R) : s.run durable (a.map g) = (s.run durable a).map id g := by
  cases a with
  | done r => rfl
  | publish t log r lost => cases log <;> cases durable <;> rfl

theorem Alike.commitBatch (h : Alike p s s') (durable : Bool) {ops : List BatchOp}
    (hops : ∀ op ∈ ops, p op.name) :
    (s.run durable (s.tree.commitBatch ops)).2 = (s'.run durable (s'.tree.commitBatch ops)).2 ∧
      Alike p (s.run durable (s.tree.commitBatch ops)).1
        (s'.run durable (s'.tree.commitBatch ops)).1 := by
  have hplan : ∀ op ∈ ops, planOp s.tree op = planOp s'.tree op :=
    fun op hop => by rw [planOp, planOp, h.slot op.name (hops op hop)]
  have hconflicts : batchConflicts s.tree ops = batchConflicts s'.tree ops :=
    filterMap_congr fun op hop => by rw [hplan op hop]
  have hplanned : batchPlanned s.tree ops = batchPlanned s'.tree ops :=
    filterMap_congr fun op hop => by rw [hplan op hop]
  rw [Store.run_commitBatch, Store.run_commitBatch, hconflicts, hplanned]
  by_cases hnone : batchConflicts s'.tree ops = []
  · rw [if_neg (not_not.mpr hnone), if_neg (not_not.mpr hnone)]
    refine ⟨rfl, fun n hn => ?_, fun n => ?_, by rw [h.wal]⟩
    · rw [slot_foldl_insertCommitted, slot_foldl_insertCommitted, h.slot n hn]
    · have hget := get_of_batch (hconflicts.trans hnone)
        (slot_foldl_insertCommitted (batchPlanned s.tree ops) s.tree n)
      have hget' := get_of_batch hnone
        (slot_foldl_insertCommitted (batchPlanned s'.tree ops) s'.tree n)
      rw [hplanned] at hget
      rw [hget, hget', h.get]
  · rw [if_pos hnone, if_pos hnone]
    exact ⟨rfl, h⟩

/-- **One act on two stores** that agree on the slots it writes. -/
theorem Alike.act (h : Alike p s s') (durable : Bool) {a : Act} (ha : ∀ n ∈ a.writes, p n) :
    (a.run s durable).2.Same (a.run s' durable).2 ∧
      Alike p (a.run s durable).1 (a.run s' durable).1 := by
  cases a with
  | apply op =>
    have hname : p op.name := ha op.name (mem_singleton.mpr rfl)
    have hsound := op.decide_sound (s.tree.slot op.name)
    have hdecide : op.decide (s'.tree.slot op.name) = op.decide (s.tree.slot op.name) := by
      rw [h.slot op.name hname]
    simp only [Act.run, RefTree.applyOp, hdecide]
    refine ⟨Reply.same_of_eq (congrArg Reply.apply ?_), h.attempt durable hname hsound⟩
    exact s.run_attempt_snd s' durable op.name _
  | call c hlc =>
    cases c with
    | get n =>
      refine ⟨Reply.same_of_eq ?_, h⟩
      simp [Act.run, Call.attempt, Store.run, h.get]
    | list search =>
      refine ⟨Reply.same_of_eq ?_, h⟩
      simp [Act.run, Call.attempt, Store.run, RefTree.list_congr h.get search]
    | snapshot => exact ⟨⟨h.get, fun search => RefTree.list_congr h.get search⟩, h⟩
    | update n new expected =>
      have hname : p n := ha n (mem_singleton.mpr rfl)
      have hsound := decideUpdate_sound n new expected hlc (s.tree.slot n)
      simp only [Act.run, Call.attempt, Store.run_attempt_map, ← h.slot n hname]
      refine ⟨Reply.same_of_eq (congrArg (fun r => Reply.call (Resp.updated r)) ?_),
        h.attempt durable hname hsound⟩
      exact s.run_attempt_snd s' durable n _
    | delete n expected =>
      have hname : p n := ha n (mem_singleton.mpr rfl)
      have hsound := decideDelete_sound n expected hlc (s.tree.slot n)
      simp only [Act.run, Call.attempt, Store.run_attempt_map, ← h.slot n hname]
      refine ⟨Reply.same_of_eq (congrArg (fun r => Reply.call (Resp.deleted r)) ?_),
        h.attempt durable hname hsound⟩
      exact s.run_attempt_snd s' durable n _
    | commitBatch ops =>
      have hops : ∀ op ∈ ops, p op.name := fun op hop => ha _ (mem_map_of_mem hop)
      obtain ⟨hresult, halike⟩ := h.commitBatch durable hops
      simp only [Act.run, Call.attempt, Store.run_attempt_map]
      exact ⟨Reply.same_of_eq (congrArg (fun r => Reply.call (Resp.batch r)) hresult), halike⟩

theorem slot_act_of_notMem (s : Store) (durable : Bool) {a : Act} {n : RefName}
    (hn : n ∉ a.writes) : (a.run s durable).1.tree.slot n = s.tree.slot n := by
  cases a with
  | apply op =>
    exact slot_attempt_of_ne s durable (op.decide_sound _) (by simpa [Act.writes] using hn)
  | call c hlc =>
    cases c with
    | get m | list search | snapshot => rfl
    | update m new expected =>
      simp only [Act.run, Call.attempt, Store.run_attempt_map]
      exact slot_attempt_of_ne s durable (decideUpdate_sound m new expected hlc _)
        (by simpa [Act.writes] using hn)
    | delete m expected =>
      simp only [Act.run, Call.attempt, Store.run_attempt_map]
      exact slot_attempt_of_ne s durable (decideDelete_sound m expected hlc _)
        (by simpa [Act.writes] using hn)
    | commitBatch ops =>
      simp only [Act.run, Call.attempt, Store.run_attempt_map, Store.run_commitBatch]
      by_cases hnone : batchConflicts s.tree ops = []
      · rw [if_neg (not_not.mpr hnone)]
        show (List.foldl _ _ _ : RefTree).slot n = _
        rw [slot_foldl_insertCommitted]
        cases hlast : lastFor n (batchPlanned s.tree ops) with
        | none => rfl
        | some e =>
          obtain ⟨op, hop, rfl, -⟩ := lastFor_batchPlanned hnone hlast
          exact absurd (mem_map_of_mem hop) hn
      · rw [if_pos hnone]
        rfl

/-! ### Whole runs -/

variable {acts : List (Bool × Act)} {txnId : TxnId} {coordShard hlc : Nat} {target : ObjectId}
  {expected : Option ObjectId} {slot : Option RefSlot}

theorem Alike.runActs (h : Alike p s s') (hacts : ∀ a ∈ acts, ∀ n ∈ a.2.writes, p n) :
    List.Forall₂ Reply.Same (s.runActs acts).2 (s'.runActs acts).2 ∧
      Alike p (s.runActs acts).1 (s'.runActs acts).1 := by
  induction acts generalizing s s' with
  | nil => exact ⟨.nil, h⟩
  | cons x acts ih =>
    obtain ⟨hx, hacts⟩ := forall_mem_cons.mp hacts
    obtain ⟨hsame, halike⟩ := h.act x.1 hx
    obtain ⟨hrest, halike'⟩ := ih halike hacts
    exact ⟨.cons hsame hrest, halike'⟩

theorem slot_runActs_of_notMem {n : RefName} (hacts : ∀ a ∈ acts, n ∉ a.2.writes) :
    (s.runActs acts).1.tree.slot n = s.tree.slot n := by
  induction acts generalizing s with
  | nil => rfl
  | cons x acts ih =>
    obtain ⟨hx, hacts⟩ := forall_mem_cons.mp hacts
    exact (ih hacts).trans (slot_act_of_notMem s x.1 hx)

/-! ### Taking and releasing a lock -/

/-- An operation that logs nothing changes one slot and nothing visible. -/
theorem alike_applyOp (s : Store) (durable : Bool) (op : AppliedOp)
    (hlog : (op.decide (s.tree.slot op.name)).log = none) :
    Alike (· ≠ op.name) (s.run durable (s.tree.applyOp op)).1 s := by
  have hsound := op.decide_sound (s.tree.slot op.name)
  refine ⟨fun n hn => slot_attempt_of_ne s durable hsound hn, fun n => ?_, ?_⟩
  · rw [RefTree.applyOp, Store.run_attempt_fst, RefTree.get, hsound.slot_tree]
    split_ifs with hn
    · rw [hsound.unlogged hlog, hn]
      rfl
    · rfl
  · rw [RefTree.applyOp, Store.run_attempt_fst, hlog]
    cases durable <;> simp

theorem slot_applyOp_self (s : Store) (durable : Bool) (op : AppliedOp) :
    (s.run durable (s.tree.applyOp op)).1.tree.slot op.name =
      (op.decide (s.tree.slot op.name)).after (s.tree.slot op.name) := by
  rw [RefTree.applyOp, Store.run_attempt_fst]
  exact ((op.decide_sound _).slot_tree op.name).trans (if_pos rfl)

theorem log_applyPrepare (txnId : TxnId) (coordShard : Nat) (target : ObjectId)
    (expected : Option ObjectId) (hlc : Nat) (slot : Option RefSlot) :
    (applyPrepare txnId coordShard target expected hlc slot).log = none := by
  unfold applyPrepare
  split_ifs
  · rfl
  · split
    · rfl
    · rfl
    · cases slot <;> rfl

theorem log_applyAbortPrepared (txnId : TxnId) (slot : Option RefSlot) :
    (applyAbortPrepared txnId slot).log = none := by
  unfold applyAbortPrepared
  split
  · rfl
  · split
    · split_ifs <;> rfl
    · rfl

theorem expected_of_voteYes
    (hvote : (applyPrepare txnId coordShard target expected hlc slot).result = .voteYes) :
    (slot.bind RefSlot.visible).map RefEntry.target = expected := by
  unfold applyPrepare at hvote
  split_ifs at hvote
  · cases hvote
  · rcases precondition_cases (slot.bind RefSlot.visible) expected with
      ⟨-, htarget⟩ | ⟨e, hpre, -⟩ | ⟨x, hpre, -⟩
    · exact htarget
    · rw [hpre] at hvote
      cases hvote
    · rw [hpre] at hvote
      cases hvote

/-- A yes vote on an unlocked slot: the abort puts back what the prepare found. -/
theorem after_abort_of_voteYes
    (hvote : (applyPrepare txnId coordShard target expected hlc slot).result = .voteYes)
    (hfree : slot.bind RefSlot.prepared = none)
    (htidy : ∀ x, slot = some x → x.committed.version = 0 → x.prepared.isSome) :
    let prepared := (applyPrepare txnId coordShard target expected hlc slot).after slot
    (applyAbortPrepared txnId prepared).after prepared = slot := by
  have hunlocked : slot.any (·.lockedByOther txnId) = false := by
    rcases slot with _ | ⟨committed, prepared⟩
    · rfl
    · obtain rfl : prepared = none := hfree
      rfl
  rw [applyPrepare, hunlocked] at hvote ⊢
  cases hpre : precondition (slot.bind RefSlot.visible) expected with
  | conflict e | absent x =>
    rw [hpre] at hvote
    cases hvote
  | holds =>
    rcases slot with _ | ⟨committed, prepared⟩
    · simp [applyAbortPrepared, Decision.putAnyway, Decision.after]
    · obtain rfl : prepared = none := hfree
      have hv : committed.version ≠ 0 := fun hv => by cases htidy _ rfl hv
      simp [applyAbortPrepared, Decision.putAnyway, Decision.after, hv, RefSlot.ofCommitted]

/-- **An aborted prepare leaves no trace.** Between the two operations any acts on other refs and
reads of any refs are made, and `later` ones after them; the results are those of a run without the
two. After the abort the acts may be on any ref, unless the transaction had locked the ref already
before the prepare. In between the ref shows what it showed before, so it does not show the staged
target unless that is the target it had. -/
theorem aborted_prepare_leaves_no_trace (hreached : Reached s) {txnId : TxnId} {coordShard : Nat}
    {target : ObjectId} {expected : Option ObjectId} {hlc : Nat} {durable durable' : Bool}
    (hvote : (s.run durable
      (s.tree.applyOp (.prepare txnId coordShard name target expected hlc))).2 = .voteYes)
    {acts later : List (Bool × Act)} (hacts : ∀ a ∈ acts, name ∉ a.2.writes)
    (hlater : s.tree.lock name ≠ none → ∀ a ∈ later, name ∉ a.2.writes) :
    let prepared := (s.run durable
      (s.tree.applyOp (.prepare txnId coordShard name target expected hlc))).1
    let during := prepared.runActs acts
    let aborted := (during.1.run durable' (during.1.tree.applyOp (.abortPrepared txnId name))).1
    let without := s.runActs acts
    List.Forall₂ Reply.Same during.2 without.2 ∧
    during.1.tree.get name = s.tree.get name ∧
    (expected ≠ some target → ∀ e, during.1.tree.get name = some e → e.target ≠ target) ∧
    (∀ n, aborted.tree.get n = without.1.tree.get n) ∧
    List.Forall₂ Reply.Same (aborted.runActs later).2 (without.1.runActs later).2 := by
  intro prepared during aborted without
  have hne : ∀ {l : List (Bool × Act)}, (∀ a ∈ l, name ∉ a.2.writes) →
      ∀ a ∈ l, ∀ n ∈ a.2.writes, n ≠ name :=
    fun hl a ha n hn heq => hl a ha (heq ▸ hn)
  have hprepared : Alike (· ≠ name) prepared s :=
    alike_applyOp s durable (.prepare txnId coordShard name target expected hlc)
      (log_applyPrepare ..)
  obtain ⟨hsame, hduring⟩ := hprepared.runActs (hne hacts)
  have haborted : Alike (· ≠ name) aborted without.1 :=
    (alike_applyOp during.1 durable' (.abortPrepared txnId name)
      (log_applyAbortPrepared ..)).trans hduring
  have hget : during.1.tree.get name = s.tree.get name := by
    rw [hduring.get, RefTree.get_congr (slot_runActs_of_notMem hacts)]
  have hvote' : (applyPrepare txnId coordShard target expected hlc (s.tree.slot name)).result =
      .voteYes := by
    rw [RefTree.applyOp, s.run_attempt durable _ (AppliedOp.decide_steady _ _)] at hvote
    exact hvote
  refine ⟨hsame, hget, fun hstaged e he htarget => ?_, haborted.get, ?_⟩
  · have hexpected := expected_of_voteYes hvote'
    rw [hget, RefTree.get] at he
    rw [he, Option.map_some, htarget] at hexpected
    exact hstaged hexpected.symm
  · by_cases hfree : s.tree.lock name = none
    · -- the slots are all the same again
      have hslot : aborted.tree.slot name = without.1.tree.slot name := by
        have hprepare : prepared.tree.slot name =
            (applyPrepare txnId coordShard target expected hlc (s.tree.slot name)).after
              (s.tree.slot name) :=
          slot_applyOp_self s durable (.prepare txnId coordShard name target expected hlc)
        have habort : aborted.tree.slot name =
            (applyAbortPrepared txnId (during.1.tree.slot name)).after (during.1.tree.slot name) :=
          slot_applyOp_self during.1 durable' (.abortPrepared txnId name)
        rw [slot_runActs_of_notMem hacts, hprepare] at habort
        rw [habort, slot_runActs_of_notMem hacts]
        exact after_abort_of_voteYes hvote' hfree (hreached.tidy name)
      have hall : Alike (fun _ => True) aborted without.1 := by
        refine ⟨fun n _ => ?_, haborted.get, haborted.wal⟩
        by_cases hn : n = name
        · rw [hn, hslot]
        · exact haborted.slot n hn
      exact (hall.runActs fun _ _ _ _ => trivial).1
    · exact (haborted.runActs (hne (hlater hfree))).1

/-! ### A ref that is prepared for the target it has -/

/-- `refs/heads/a` at the object 1. -/
def storeOfA : Store := .openOn [.update .headsA ⟨.fill 1, 1, 1⟩]

/-- The replicated operation on a store. -/
def Store.applied (s : Store) (op : AppliedOp) : Store := (s.run true (s.tree.applyOp op)).1

/-- The lock of a transaction that keeps the ref where it is: the target that it stages is read.
If it had the lock before, the abort takes it away, and then `refs/heads/a` can be moved, which
without the two operations would be refused. -/
theorem staged_target_read :
    let op : AppliedOp := .prepare (.fill 7) 0 .headsA (.fill 1) (some (.fill 1)) 2
    let s := storeOfA.applied op
    let again := (s.applied op).applied (.abortPrepared (.fill 7) .headsA)
    (storeOfA.run true (storeOfA.tree.applyOp op)).2 = .voteYes ∧
      (s.tree.get .headsA).map RefEntry.target = some (.fill 1) ∧
      (s.run true (s.tree.applyOp op)).2 = .voteYes ∧
      (again.update .headsA (.fill 2) (some (.fill 1)) 3).1.tree.get .headsA =
        some ⟨.fill 2, 3, 2⟩ ∧
      (s.update .headsA (.fill 2) (some (.fill 1)) 3).1.tree.get .headsA =
        some ⟨.fill 1, 1, 1⟩ := by
  decide

/-- A new `refs/heads/b` is created while `refs/heads/a` is prepared. -/
theorem aborted_prepare_beside_creation :
    let prepared := storeOfA.applied (.prepare (.fill 7) 0 .headsA (.fill 2) (some (.fill 1)) 2)
    let during := prepared.runActs [(true, .call (.update .headsB (.fill 3) none) 3)]
    Reached storeOfA ∧ during.1.tree.get .headsA = storeOfA.tree.get .headsA ∧
      (during.1.tree.get .headsA).map RefEntry.target = some (.fill 1) := by
  intro prepared during
  have hreached : Reached storeOfA := .start (by simp [WalEntry.Valid, WalEntry.effect])
  have hnone := @aborted_prepare_leaves_no_trace storeOfA .headsA hreached (.fill 7) 0 (.fill 2)
    (some (.fill 1)) 2 true true (by decide) [(true, .call (.update .headsB (.fill 3) none) 3)] []
    (by decide) (by simp)
  exact ⟨hreached, hnone.2.1, by decide⟩

end Ledge.RefStore
