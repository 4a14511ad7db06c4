import Mathlib.Tactic.Common

/-!
# Ledge.Lib.RetriedWrite

A **conditional write** to a replicated object that is sent once more when the answer does not
say what has become of it.

Each of the two copies is applied at most once, at any time after it was sent. The first can be
answered with a redirection, whether it is going to be applied or not. Nobody else writes what
the write is about (`view`).

`RetryRun.refused`: if the caller is told that the write was refused, then it was, unless the
second copy has met the write of the first.
-/

namespace Ledge.Lib

variable {S R X V : Type}

/-- What has become of a copy. -/
inductive Flight (R : Type)
  | unsent
  | sent
  | applied (r : R)
  deriving DecidableEq

/-- Where the caller is. A call that returns without an answer has failed. -/
inductive RetryPc (R : Type)
  | start
  | awaiting (again : Bool)
  | returned (answer : Option R)
  deriving DecidableEq

/-- The object, the two copies and the caller. `met` says that the second copy was applied when
the first had written. -/
structure Retried (S R : Type) where
  object : S
  first : Flight R
  again : Flight R
  met : Bool
  pc : RetryPc R

inductive RetryEvent (S X : Type)
  | send
  /-- A copy is applied; `x` is what that depends on besides the object. -/
  | apply (again : Bool) (x : X)
  /-- The first copy is answered with a redirection, and the second is sent. -/
  | redirect
  /-- The copy that the caller waits for is answered. -/
  | answer
  | fail
  /-- Other commands are applied. -/
  | others (s : S)

/-- The copy has been applied and has written. -/
def Flight.wrote (wrote : R → Bool) : Flight R → Bool
  | .applied r => wrote r
  | .unsent | .sent => false

namespace Retried

variable (apply : X → S → Option (S × R)) (wrote : R → Bool)

def init (s : S) : Retried S R := ⟨s, .unsent, .unsent, false, .start⟩

/-- One event, if it can happen. -/
def step (s : Retried S R) : RetryEvent S X → Option (Retried S R)
  | .send =>
    match s.pc with
    | .start => some { s with first := .sent, pc := .awaiting false }
    | _ => none
  | .apply false x =>
    match s.first with
    | .sent =>
      (apply x s.object).map (fun (o, r) => { s with object := o, first := .applied r })
    | _ => none
  | .apply true x =>
    match s.again with
    | .sent =>
      (apply x s.object).map (fun (o, r) =>
        { s with object := o, again := .applied r, met := s.first.wrote wrote })
    | _ => none
  | .redirect =>
    match s.pc with
    | .awaiting false => some { s with again := .sent, pc := .awaiting true }
    | _ => none
  | .answer =>
    match s.pc with
    | .awaiting again =>
      match if again then s.again else s.first with
      | .applied r => some { s with pc := .returned (some r) }
      | _ => none
    | _ => none
  | .fail =>
    match s.pc with
    | .returned _ => none
    | _ => some { s with pc := .returned none }
  | .others o => some { s with object := o }

/-- Events in order. -/
def exec (s : Retried S R) : List (RetryEvent S X) → Option (Retried S R)
  | [] => some s
  | ev :: evs => (s.step apply wrote ev).bind (fun s' => s'.exec evs)

end Retried

/-- Whatever others do leaves the view alone. -/
def RetryEvent.Keeps (view : S → V) (s : Retried S R) : RetryEvent S X → Prop
  | .others o => view o = view s.object
  | _ => True

/-- The states that a call on the object `o` leads to. -/
inductive RetryRun (apply : X → S → Option (S × R)) (wrote : R → Bool) (view : S → V) (o : S) :
    Retried S R → Prop
  | start : RetryRun apply wrote view o (.init o)
  | step {s s' : Retried S R} {ev : RetryEvent S X} (h : RetryRun apply wrote view o s)
      (hkeeps : ev.Keeps view s) (hstep : s.step apply wrote ev = some s') :
      RetryRun apply wrote view o s'

theorem RetryRun.exec {apply : X → S → Option (S × R)} {wrote : R → Bool} {view : S → V} {o : S}
    {s s' : Retried S R} {evs : List (RetryEvent S X)} (h : RetryRun apply wrote view o s)
    (halone : ∀ ev ∈ evs, ∀ t, ev ≠ .others t) (hexec : s.exec apply wrote evs = some s') :
    RetryRun apply wrote view o s' := by
  induction evs generalizing s with
  | nil =>
    cases hexec
    exact h
  | cons ev evs ih =>
    obtain ⟨s₁, hstep, hrest⟩ := Option.bind_eq_some_iff.mp hexec
    have hkeeps : ev.Keeps view s := by
      cases ev with
      | others t => exact absurd rfl (halone _ List.mem_cons_self t)
      | _ => trivial
    exact ih (h.step hkeeps hstep) (fun ev' hev' => halone ev' (List.mem_cons_of_mem _ hev')) hrest

/-- A write that depends on the view only, leaves it alone when it is refused and moves it on
otherwise. -/
structure ConditionalWrite (apply : X → S → Option (S × R)) (wrote : R → Bool) (view : S → V)
    (rank : V → Nat) : Prop where
  decides : ∀ {x x' s s' t t' r r'}, apply x s = some (s', r) → apply x' t = some (t', r') →
    view s = view t → wrote r = wrote r'
  refused : ∀ {x s s' r}, apply x s = some (s', r) → wrote r = false → view s' = view s
  grows : ∀ {x s s' r}, apply x s = some (s', r) → wrote r = true →
    rank (view s) < rank (view s')

section Runs

variable {apply : X → S → Option (S × R)} {wrote : R → Bool} {view : S → V} {rank : V → Nat}
  {o : S} {s s' : Retried S R}

/-- The invariant of a call on the object `o`. -/
structure RetryInv (apply : X → S → Option (S × R)) (wrote : R → Bool) (view : S → V)
    (rank : V → Nat) (o : S) (s : Retried S R) : Prop where
  same : s.first.wrote wrote = false → s.again.wrote wrote = false → view s.object = view o
  grown : s.first.wrote wrote = true ∨ s.again.wrote wrote = true →
    rank (view o) < rank (view s.object)
  met : s.met = true → s.first.wrote wrote = true ∧ ∃ r, s.again = .applied r
  /-- A second copy that was refused on what the first found would have been refused in its
  place. -/
  refuses : ∀ r, s.again = .applied r → wrote r = false → s.met = false →
    s.first.wrote wrote = false ∧
      ∀ x t t' r', apply x t = some (t', r') → view t = view o → wrote r' = false
  start : s.pc = .start → s.first = .unsent
  early : s.pc = .start ∨ s.pc = .awaiting false → s.again = .unsent
  answered : ∀ r, s.pc = .returned (some r) →
    s.first = .applied r ∧ s.again = .unsent ∨ s.again = .applied r

theorem retryInv_init : RetryInv apply wrote view rank o (.init o) where
  same _ _ := rfl
  grown h := by
    rcases h with h | h <;> cases h
  met := nofun
  refuses := nofun
  start _ := rfl
  early _ := rfl
  answered := nofun

variable {object : S} {r : R}

/-- The object is moved without the view, and nothing else happens. -/
theorem RetryInv.others (h : RetryInv apply wrote view rank o s)
    (hview : view object = view s.object) :
    RetryInv apply wrote view rank o { s with object := object } where
  same hfirst hagain := hview.trans (h.same hfirst hagain)
  grown hwrote := by
    show _ < rank (view object)
    rw [hview]
    exact h.grown hwrote
  met := h.met
  refuses := h.refuses
  start := h.start
  early := h.early
  answered := h.answered

theorem RetryInv.rank_le (h : RetryInv apply wrote view rank o s) :
    rank (view o) ≤ rank (view s.object) := by
  by_cases hwrote : s.first.wrote wrote = true ∨ s.again.wrote wrote = true
  · exact Nat.le_of_lt (h.grown hwrote)
  · obtain ⟨hfirst, hagain⟩ := not_or.mp hwrote
    have hsame := h.same (Bool.eq_false_iff.mpr hfirst) (Bool.eq_false_iff.mpr hagain)
    exact Nat.le_of_eq (congrArg rank hsame.symm)

theorem RetryInv.applyFirst (h : RetryInv apply wrote view rank o s)
    (hwrite : ConditionalWrite apply wrote view rank) (hsent : s.first = .sent) {x : X}
    (happly : apply x s.object = some (object, r)) :
    RetryInv apply wrote view rank o { s with object := object, first := .applied r } where
  same hfirst hagain := by
    rw [hwrite.refused happly hfirst]
    exact h.same (by rw [hsent]; rfl) hagain
  grown hwrote := by
    cases hr : wrote r with
    | true => exact Nat.lt_of_le_of_lt h.rank_le (hwrite.grows happly hr)
    | false =>
      show _ < rank (view object)
      rw [hwrite.refused happly hr]
      refine h.grown (Or.inr (hwrote.resolve_left fun hfirst => ?_))
      rw [Flight.wrote, hr] at hfirst
      cases hfirst
  met hmet := by
    have hfirst := (h.met hmet).1
    rw [hsent] at hfirst
    cases hfirst
  refuses r' hagain hr' hmet := by
    obtain ⟨hfirst, hrefuses⟩ := h.refuses r' hagain hr' hmet
    -- the object is still as the second copy found it
    have hview := h.same hfirst (by rw [hagain]; exact hr')
    exact ⟨hrefuses x s.object object r happly hview, hrefuses⟩
  start hpc := by
    have hfirst := h.start hpc
    rw [hsent] at hfirst
    cases hfirst
  early := h.early
  answered r' hpc := by
    rcases h.answered r' hpc with ⟨hfirst, -⟩ | hagain
    · rw [hsent] at hfirst
      cases hfirst
    · exact Or.inr hagain

theorem RetryInv.applyAgain (h : RetryInv apply wrote view rank o s)
    (hwrite : ConditionalWrite apply wrote view rank) (hsent : s.again = .sent) {x : X}
    (happly : apply x s.object = some (object, r)) :
    RetryInv apply wrote view rank o
      { s with object := object, again := .applied r, met := s.first.wrote wrote } where
  same hfirst hagain := by
    rw [hwrite.refused happly hagain]
    exact h.same hfirst (by rw [hsent]; rfl)
  grown hwrote := by
    cases hr : wrote r with
    | true => exact Nat.lt_of_le_of_lt h.rank_le (hwrite.grows happly hr)
    | false =>
      show _ < rank (view object)
      rw [hwrite.refused happly hr]
      refine h.grown (Or.inl (hwrote.resolve_right fun hagain => ?_))
      rw [Flight.wrote, hr] at hagain
      cases hagain
  met hmet := ⟨hmet, r, rfl⟩
  refuses r' hagain hr' hmet := by
    cases hagain
    refine ⟨hmet, fun x' t t' r' happly' hview => ?_⟩
    have hsame := h.same hmet (by rw [hsent]; rfl)
    rw [hwrite.decides happly' happly (hview.trans hsame.symm)]
    exact hr'
  start := h.start
  early hpc := by
    have hagain := h.early hpc
    rw [hsent] at hagain
    cases hagain
  answered r' hpc := by
    rcases h.answered r' hpc with ⟨-, hagain⟩ | hagain
    · rw [hsent] at hagain
      cases hagain
    · rw [hsent] at hagain
      cases hagain

theorem RetryInv.returns (h : RetryInv apply wrote view rank o s) {answer : Option R}
    (hanswer : ∀ r, answer = some r →
      s.first = .applied r ∧ s.again = .unsent ∨ s.again = .applied r) :
    RetryInv apply wrote view rank o { s with pc := .returned answer } where
  same := h.same
  grown := h.grown
  met := h.met
  refuses := h.refuses
  start := nofun
  early hpc := by
    rcases hpc with hpc | hpc <;> cases hpc
  answered r hpc := hanswer r (RetryPc.returned.inj hpc)

/-- **One event.** -/
theorem RetryInv.step (h : RetryInv apply wrote view rank o s)
    (hwrite : ConditionalWrite apply wrote view rank) {ev : RetryEvent S X}
    (hkeeps : ev.Keeps view s) (hstep : s.step apply wrote ev = some s') :
    RetryInv apply wrote view rank o s' := by
  cases ev with
  | send =>
    unfold Retried.step at hstep
    cases hpc : s.pc with
    | awaiting | returned =>
      rw [hpc] at hstep
      cases hstep
    | start =>
      rw [hpc] at hstep
      cases hstep
      have hfirst : s.first.wrote wrote = false := by
        rw [h.start hpc]
        rfl
      exact
        { same := fun _ => h.same hfirst
          grown := fun hwrote => h.grown (Or.inr (hwrote.resolve_left nofun))
          met := fun hmet => by
            rw [(h.met hmet).1] at hfirst
            cases hfirst
          refuses := fun r hagain => by
            rw [h.early (Or.inl hpc)] at hagain
            cases hagain
          start := nofun
          early := fun _ => h.early (Or.inl hpc)
          answered := nofun }
  | apply again x =>
    cases again with
    | false =>
      unfold Retried.step at hstep
      cases hfirst : s.first with
      | unsent | applied =>
        rw [hfirst] at hstep
        cases hstep
      | sent =>
        rw [hfirst] at hstep
        obtain ⟨⟨object, r⟩, happly, rfl⟩ := Option.map_eq_some_iff.mp hstep
        exact h.applyFirst hwrite hfirst happly
    | true =>
      unfold Retried.step at hstep
      cases hagain : s.again with
      | unsent | applied =>
        rw [hagain] at hstep
        cases hstep
      | sent =>
        rw [hagain] at hstep
        obtain ⟨⟨object, r⟩, happly, rfl⟩ := Option.map_eq_some_iff.mp hstep
        exact h.applyAgain hwrite hagain happly
  | redirect =>
    unfold Retried.step at hstep
    rcases hpc : s.pc with _ | again | answer
    · rw [hpc] at hstep
      cases hstep
    · cases again with
      | true =>
        rw [hpc] at hstep
        cases hstep
      | false =>
        rw [hpc] at hstep
        cases hstep
        have hunsent := h.early (Or.inr hpc)
        have hagain : s.again.wrote wrote = false := by
          rw [hunsent]
          rfl
        exact
          { same := fun hfirst _ => h.same hfirst hagain
            grown := fun hwrote =>
              h.grown (Or.inl (hwrote.resolve_right nofun))
            met := fun hmet => by
              obtain ⟨r, hr⟩ := (h.met hmet).2
              rw [hunsent] at hr
              cases hr
            refuses := nofun
            start := nofun
            early := fun hpc' => by
              rcases hpc' with hpc' | hpc' <;> cases hpc'
            answered := nofun }
    · rw [hpc] at hstep
      cases hstep
  | answer =>
    unfold Retried.step at hstep
    rcases hpc : s.pc with _ | again | answer
    · rw [hpc] at hstep
      cases hstep
    · rw [hpc] at hstep
      dsimp only at hstep
      split at hstep
      · next r hr =>
        cases hstep
        refine h.returns fun r' hr' => ?_
        cases hr'
        cases again with
        | false => exact Or.inl ⟨hr, h.early (Or.inr hpc)⟩
        | true => exact Or.inr hr
      · cases hstep
    · rw [hpc] at hstep
      cases hstep
  | fail =>
    unfold Retried.step at hstep
    rcases hpc : s.pc with _ | again | answer
    · rw [hpc] at hstep
      cases hstep
      exact h.returns nofun
    · rw [hpc] at hstep
      cases hstep
      exact h.returns nofun
    · rw [hpc] at hstep
      cases hstep
  | others object =>
    cases hstep
    exact h.others hkeeps

theorem RetryRun.inv (h : RetryRun apply wrote view o s)
    (hwrite : ConditionalWrite apply wrote view rank) : RetryInv apply wrote view rank o s := by
  induction h with
  | start => exact retryInv_init
  | step _ hkeeps hstep ih => exact ih.step hwrite hkeeps hstep

/-- **A refusal** is true if the second copy has not met the write of the first, and false if it
has. -/
theorem RetryRun.refused (h : RetryRun apply wrote view o s)
    (hwrite : ConditionalWrite apply wrote view rank) (hpc : s.pc = .returned (some r))
    (hr : wrote r = false) :
    (s.met = false → view s.object = view o) ∧
      (s.met = true → rank (view o) < rank (view s.object)) := by
  have hinv := h.inv hwrite
  refine ⟨fun hmet => ?_, fun hmet => hinv.grown (Or.inl (hinv.met hmet).1)⟩
  rcases hinv.answered r hpc with ⟨hfirst, hagain⟩ | hagain
  · exact hinv.same (by rw [hfirst]; exact hr) (by rw [hagain]; rfl)
  · exact hinv.same (hinv.refuses r hagain hr hmet).1 (by rw [hagain]; exact hr)

end Runs

end Ledge.Lib
