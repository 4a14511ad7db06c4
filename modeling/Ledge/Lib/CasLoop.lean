import Ledge.Lib.Linearizable

/-!
# Ledge.Lib.CasLoop

Objects in **one shared cell**, used only through a loop: load the cell, compute from
the loaded value either an answer or a new value, and swap the new value in if the cell
is still the one that was loaded; otherwise start over.

The cell carries a stamp that changes with every swap. It stands for the identity of
the allocation the cell points to: a loop holds on to what it loaded, so an equal
pointer means an untouched cell.

`Machine.reach_linearizes`: every interleaving of such loops is linearizable. A call takes
effect at the load of its last turn if it answers without writing, and at its successful
swap otherwise.
-/

namespace Ledge.Lib

open Function List

variable {I C R S X : Type}

/-- What one turn of a loop computes from the loaded value. -/
inductive Turn (S R : Type) where
  | answer (r : R)
  | swap (next : S) (r : R)

/-- The program counter of a call. -/
inductive Phase (S R : Type) where
  | idle
  | running
  | armed (seen : Nat) (next : S) (r : R)
  | decided (r : R)
  | returned

/-- The call has taken effect. -/
def Phase.Done : Phase S R → Prop
  | .idle | .running | .armed .. => False
  | .decided _ | .returned => True

/-- The call has returned or was never made. -/
def Phase.atRest : Phase S R → Bool
  | .idle | .returned => true
  | .running | .armed .. | .decided _ => false

/-- The shared cell with its stamp, the calls in progress, the history so far, and the
calls in the order in which they took effect. -/
structure Machine (I C R S : Type) where
  cell : S
  stamp : Nat
  phase : I → Phase S R
  hist : List (Event I C R)
  order : List (I × C × R)

/-- The labels of the steps. -/
inductive Act (I : Type) where
  | invoke (i : I)
  | load (i : I)
  | swap (i : I)
  | retry (i : I)
  | respond (i : I)

section

variable [DecidableEq I] (turn : C → X → S → Turn S R) (calls : I → C)

/-- One step of one call. `X` is what a turn reads besides the cell, such as a clock. -/
inductive Step : Machine I C R S → Act I → Machine I C R S → Prop
  | invoke {m : Machine I C R S} {i : I} : m.phase i = .idle →
      Step m (.invoke i)
        { m with phase := Function.update m.phase i .running,
                 hist := m.hist ++ [.invoke i (calls i)] }
  | answer {m : Machine I C R S} {i : I} {x : X} {r : R} : m.phase i = .running →
      turn (calls i) x m.cell = .answer r →
      Step m (.load i)
        { m with phase := Function.update m.phase i (.decided r),
                 order := m.order ++ [(i, calls i, r)] }
  | arm {m : Machine I C R S} {i : I} {x : X} {next : S} {r : R} : m.phase i = .running →
      turn (calls i) x m.cell = .swap next r →
      Step m (.load i) { m with phase := Function.update m.phase i (.armed m.stamp next r) }
  | swap {m : Machine I C R S} {i : I} {next : S} {r : R} : m.phase i = .armed m.stamp next r →
      Step m (.swap i)
        { m with cell := next, stamp := m.stamp + 1,
                 phase := Function.update m.phase i (.decided r),
                 order := m.order ++ [(i, calls i, r)] }
  | retry {m : Machine I C R S} {i : I} {seen : Nat} {next : S} {r : R} :
      m.phase i = .armed seen next r → seen ≠ m.stamp →
      Step m (.retry i) { m with phase := Function.update m.phase i .running }
  | respond {m : Machine I C R S} {i : I} {r : R} : m.phase i = .decided r →
      Step m (.respond i)
        { m with phase := Function.update m.phase i .returned,
                 hist := m.hist ++ [.respond i r] }

/-- The step with a given label, if there is one. `x` is what a load reads. -/
def Machine.step (m : Machine I C R S) (a : Act I) (x : X) : Option (Machine I C R S) :=
  match a with
  | .invoke i =>
    match m.phase i with
    | .idle => some { m with phase := Function.update m.phase i .running,
                             hist := m.hist ++ [.invoke i (calls i)] }
    | _ => none
  | .load i =>
    match m.phase i with
    | .running =>
      match turn (calls i) x m.cell with
      | .answer r => some { m with phase := Function.update m.phase i (.decided r),
                                   order := m.order ++ [(i, calls i, r)] }
      | .swap next r =>
        some { m with phase := Function.update m.phase i (.armed m.stamp next r) }
    | _ => none
  | .swap i =>
    match m.phase i with
    | .armed seen next r =>
      if seen = m.stamp then
        some { m with cell := next, stamp := m.stamp + 1,
                      phase := Function.update m.phase i (.decided r),
                      order := m.order ++ [(i, calls i, r)] }
      else none
    | _ => none
  | .retry i =>
    match m.phase i with
    | .armed seen _ _ =>
      if seen = m.stamp then none
      else some { m with phase := Function.update m.phase i .running }
    | _ => none
  | .respond i =>
    match m.phase i with
    | .decided r => some { m with phase := Function.update m.phase i .returned,
                                  hist := m.hist ++ [.respond i r] }
    | _ => none

/-- What the object does when a call runs alone. -/
def soleTurn (s : S) (c : C) (r : R) (s' : S) : Prop :=
  ∃ x, turn c x s = .answer r ∧ s' = s ∨ turn c x s = .swap s' r

/-- Nothing has been called yet. -/
def Machine.init (s : S) : Machine I C R S := ⟨s, 0, fun _ => .idle, [], []⟩

/-- Any number of steps. -/
def Reach (m m' : Machine I C R S) : Prop :=
  Relation.ReflTransGen (fun m m' => ∃ a, Step turn calls m a m') m m'

/-- The invariant of all runs from `Machine.init s`. -/
structure Inv (s : S) (m : Machine I C R S) : Prop where
  legal : Sequential (soleTurn turn) s m.order m.cell
  nodup : (m.order.map Prod.fst).Nodup
  done : ∀ i c r, (i, c, r) ∈ m.order → (m.phase i).Done ∧ Event.invoke i c ∈ m.hist
  decided : ∀ i r, m.phase i = .decided r → (i, calls i, r) ∈ m.order
  invoked : ∀ i, m.phase i ≠ .idle → Event.invoke i (calls i) ∈ m.hist
  idle : ∀ i c, Event.invoke i c ∈ m.hist → m.phase i ≠ .idle
  answered : ∀ i r, Event.respond i r ∈ m.hist → ∃ c, (i, c, r) ∈ m.order
  armed : ∀ i seen next r, m.phase i = .armed seen next r → seen ≤ m.stamp ∧
    (seen = m.stamp → ∃ x, turn (calls i) x m.cell = .swap next r)
  realtime : ∀ i j, Precedes m.hist i j → ∀ y ∈ m.order, y.1 = j →
    ∃ x, x.1 = i ∧ List.Sublist [x, y] m.order

end

/-! ### The invariant is kept -/

theorem pair_sublist_concat {α : Type} {x y z : α} {l : List α}
    (h : List.Sublist [x, y] (l ++ [z])) : List.Sublist [x, y] l ∨ y = z ∧ x ∈ l := by
  obtain ⟨l₁, l₂, heq, h₁, h₂⟩ := sublist_append_iff.mp h
  rcases sublist_singleton.mp h₂ with rfl | rfl
  · rw [append_nil] at heq
    exact Or.inl (heq ▸ h₁)
  · have hsplit : [x] ++ [y] = l₁ ++ [z] := heq
    obtain ⟨rfl, hyz⟩ := append_inj' hsplit rfl
    exact Or.inr ⟨by simpa using hyz, by simpa using h₁⟩

theorem inv_init (turn : C → X → S → Turn S R) (calls : I → C) (s : S) :
    Inv turn calls s (Machine.init s) := by
  constructor <;> simp [Machine.init, Sequential.nil, Precedes]

section

variable [DecidableEq I] {turn : C → X → S → Turn S R} {calls : I → C} {s : S}
  {m m' : Machine I C R S} {i : I}

variable {r : R} {a : Act I}

/-- A call takes effect: its result is legal for the current cell, and either the cell is
unchanged or the stamp moves on. -/
theorem Inv.decide (h : Inv turn calls s m) {next : S} {stamp : Nat} (hphase : ¬ (m.phase i).Done)
    (hidle : m.phase i ≠ .idle) (hturn : soleTurn turn m.cell (calls i) r next)
    (hstamp : stamp = m.stamp ∧ next = m.cell ∨ m.stamp < stamp) :
    Inv turn calls s
      { m with cell := next, stamp := stamp,
               phase := Function.update m.phase i (.decided r),
               order := m.order ++ [(i, calls i, r)] } := by
  have hnew : ∀ c r', (i, c, r') ∉ m.order := fun c r' hmem => hphase (h.done i c r' hmem).1
  constructor
  · exact h.legal.concat hturn
  · rw [map_append, nodup_append]
    refine ⟨h.nodup, by simp, ?_⟩
    intro a ha b hb heq
    obtain ⟨⟨i', c', r'⟩, hx, rfl⟩ := mem_map.mp ha
    obtain rfl : b = i := by simpa using hb
    exact hnew c' r' (heq ▸ hx)
  · intro j c r' hmem
    rcases mem_append.mp hmem with hmem | hmem
    · obtain ⟨hdone, hinv⟩ := h.done j c r' hmem
      refine ⟨?_, hinv⟩
      by_cases hji : j = i
      · exact absurd (hji ▸ hmem) (hnew c r')
      · simpa [update_of_ne hji] using hdone
    · simp only [mem_singleton, Prod.mk.injEq] at hmem
      obtain ⟨rfl, rfl, rfl⟩ := hmem
      exact ⟨by simp [Phase.Done], h.invoked j hidle⟩
  · intro j r' hj
    by_cases hji : j = i
    · subst hji
      simp only [update_self, Phase.decided.injEq] at hj
      simp [hj]
    · simp only [update_of_ne hji] at hj
      exact mem_append_left _ (h.decided j r' hj)
  · intro j hj
    by_cases hji : j = i
    · exact hji ▸ h.invoked i hidle
    · simp only [update_of_ne hji] at hj
      exact h.invoked j hj
  · intro j c hj
    by_cases hji : j = i
    · subst hji
      simp
    · simp only [update_of_ne hji]
      exact h.idle j c hj
  · intro j r' hj
    obtain ⟨c, hc⟩ := h.answered j r' hj
    exact ⟨c, mem_append_left _ hc⟩
  · intro j seen next' r' hj
    by_cases hji : j = i
    · subst hji
      simp at hj
    · simp only [update_of_ne hji] at hj
      obtain ⟨hle, hsame⟩ := h.armed j seen next' r' hj
      rcases hstamp with ⟨rfl, rfl⟩ | hlt
      · exact ⟨hle, hsame⟩
      · exact ⟨Nat.le_of_lt (Nat.lt_of_le_of_lt hle hlt), fun heq => by
          simp only at heq
          omega⟩
  · intro a b hp y hy hyb
    rcases mem_append.mp hy with hy | hy
    · obtain ⟨x, hx, hsub⟩ := h.realtime a b hp y hy hyb
      exact ⟨x, hx, hsub.trans (sublist_append_left _ _)⟩
    · -- the new call comes last, and whoever returned before it is already there
      obtain rfl : y = (i, calls i, r) := by simpa using hy
      obtain ⟨ra, cb, hsub⟩ := hp
      obtain ⟨c, hc⟩ := h.answered a ra (hsub.subset (by simp))
      refine ⟨(a, c, ra), rfl, ?_⟩
      exact List.Sublist.append (singleton_sublist.mpr hc) (List.Sublist.refl _)

/-- A call changes its phase and takes no effect; what the history gains is about this call. -/
theorem Inv.rephase (h : Inv turn calls s m) {p : Phase S R} {hist : List (Event I C R)}
    (hdone : (m.phase i).Done → p.Done) (hundecided : ∀ r, p ≠ .decided r) (hpidle : p ≠ .idle)
    (hsub : m.hist ⊆ hist) (hinvoked : Event.invoke i (calls i) ∈ hist)
    (hinvokes : ∀ j c, Event.invoke j c ∈ hist → Event.invoke j c ∈ m.hist ∨ j = i)
    (hanswered : ∀ j r, Event.respond j r ∈ hist → ∃ c, (j, c, r) ∈ m.order)
    (hprecedes : ∀ a b, Precedes hist a b → ∀ y ∈ m.order, y.1 = b → Precedes m.hist a b)
    (harmed : ∀ seen next r, p = .armed seen next r → seen ≤ m.stamp ∧
      (seen = m.stamp → ∃ x, turn (calls i) x m.cell = .swap next r)) :
    Inv turn calls s { m with phase := Function.update m.phase i p, hist := hist } := by
  constructor
  · exact h.legal
  · exact h.nodup
  · intro j c r hmem
    obtain ⟨hj, hinv⟩ := h.done j c r hmem
    refine ⟨?_, hsub hinv⟩
    by_cases hji : j = i
    · subst hji
      simpa using hdone hj
    · simpa [update_of_ne hji] using hj
  · intro j r hj
    by_cases hji : j = i
    · subst hji
      simp only [update_self] at hj
      exact absurd hj (hundecided r)
    · simp only [update_of_ne hji] at hj
      exact h.decided j r hj
  · intro j hj
    by_cases hji : j = i
    · exact hji ▸ hinvoked
    · simp only [update_of_ne hji] at hj
      exact hsub (h.invoked j hj)
  · intro j c hj
    by_cases hji : j = i
    · subst hji
      simpa using hpidle
    · simp only [update_of_ne hji]
      exact h.idle j c ((hinvokes j c hj).resolve_right hji)
  · exact hanswered
  · intro j seen next r hj
    by_cases hji : j = i
    · subst hji
      simp only [update_self] at hj
      exact harmed seen next r hj
    · simp only [update_of_ne hji] at hj
      exact h.armed j seen next r hj
  · intro a b hp y hy hyb
    exact h.realtime a b (hprecedes a b hp y hy hyb) y hy hyb

/-- A call that is running or armed changes its phase; nothing else happens. -/
theorem Inv.rearm (h : Inv turn calls s m) {p : Phase S R}
    (hphase : ¬ (m.phase i).Done) (hidle : m.phase i ≠ .idle) (hp : ¬ p.Done) (hpidle : p ≠ .idle)
    (harmed : ∀ seen next r, p = .armed seen next r → seen ≤ m.stamp ∧
      (seen = m.stamp → ∃ x, turn (calls i) x m.cell = .swap next r)) :
    Inv turn calls s { m with phase := Function.update m.phase i p } := by
  refine h.rephase (fun hd => absurd hd hphase) ?_ hpidle (List.Subset.refl _) (h.invoked i hidle)
    (fun _ _ => Or.inl) h.answered (fun _ _ hp _ _ _ => hp) harmed
  rintro r rfl
  exact hp trivial

theorem Inv.invoke (h : Inv turn calls s m) (hphase : m.phase i = .idle) :
    Inv turn calls s
      { m with phase := Function.update m.phase i .running,
               hist := m.hist ++ [.invoke i (calls i)] } := by
  have hnot : ¬ (m.phase i).Done := by simp [hphase, Phase.Done]
  refine h.rephase (fun hd => absurd hd hnot) (by simp) (by simp) (subset_append_left _ _)
    (by simp) ?_ ?_ ?_ (by simp)
  · intro j c hj
    simp only [mem_append, mem_singleton, Event.invoke.injEq] at hj
    exact hj.imp_right And.left
  · intro j r hj
    exact h.answered j r (by simpa using hj)
  · rintro a b ⟨ra, cb, hsub⟩ y hy hyb
    rcases pair_sublist_concat hsub with hsub | ⟨heq, -⟩
    · exact ⟨ra, cb, hsub⟩
    · -- a call that is only now made has not taken effect
      cases heq
      subst hyb
      exact absurd (h.done _ _ _ hy).1 hnot

theorem Inv.respond (h : Inv turn calls s m) (hphase : m.phase i = .decided r) :
    Inv turn calls s
      { m with phase := Function.update m.phase i .returned,
               hist := m.hist ++ [.respond i r] } := by
  refine h.rephase (fun _ => trivial) (by simp) (by simp) (subset_append_left _ _)
    (mem_append_left _ (h.invoked i (by simp [hphase]))) ?_ ?_ ?_ (by simp)
  · intro j c hj
    exact Or.inl (by simpa using hj)
  · intro j r' hj
    rcases mem_append.mp hj with hj | hj
    · exact h.answered j r' hj
    · simp only [mem_singleton, Event.respond.injEq] at hj
      obtain ⟨rfl, rfl⟩ := hj
      exact ⟨calls j, h.decided j r' hphase⟩
  · rintro a b ⟨ra, cb, hsub⟩ y hy hyb
    rcases pair_sublist_concat hsub with hsub | ⟨heq, -⟩
    · exact ⟨ra, cb, hsub⟩
    · cases heq

theorem Step.of_step {x : X} (h : m.step turn calls a x = some m') : Step turn calls m a m' := by
  unfold Machine.step at h
  split at h
  · split at h
    · next hphase =>
      cases h
      exact .invoke hphase
    · cases h
  · split at h
    · next hphase =>
      split at h
      · next hturn =>
        cases h
        exact .answer hphase hturn
      · next hturn =>
        cases h
        exact .arm hphase hturn
    · cases h
  · split at h
    · next hphase =>
      split_ifs at h with hseen
      cases h
      exact .swap (hseen ▸ hphase)
    · cases h
  · split at h
    · next hphase =>
      split_ifs at h with hseen
      cases h
      exact .retry hphase hseen
    · cases h
  · split at h
    · next hphase =>
      cases h
      exact .respond hphase
    · cases h

theorem Step.cell_eq (h : Step turn calls m a m') (ha : ∀ i, a ≠ .swap i) : m'.cell = m.cell := by
  cases h with
  | invoke | answer | arm | retry | respond => rfl
  | swap => exact absurd rfl (ha _)

theorem Step.decided_of_decided (h : Step turn calls m a m') (hr : m.phase i = .decided r)
    (ha : a ≠ .respond i) : m'.phase i = .decided r := by
  have keep : ∀ (j : I) (p : Phase S R), i ≠ j → Function.update m.phase j p i = .decided r :=
    fun j p hne => (update_of_ne hne p m.phase).trans hr
  cases h with
  | invoke hphase | answer hphase _ | arm hphase _ | retry hphase _ | swap hphase =>
    refine keep _ _ ?_
    rintro rfl
    rw [hr] at hphase
    cases hphase
  | respond => exact keep _ _ fun heq => ha (by rw [heq])

theorem Inv.step (h : Inv turn calls s m) (hstep : Step turn calls m a m') :
    Inv turn calls s m' := by
  cases hstep with
  | invoke hphase => exact h.invoke hphase
  | answer hphase hturn =>
    exact h.decide (by simp [hphase, Phase.Done]) (by simp [hphase])
      ⟨_, Or.inl ⟨hturn, rfl⟩⟩ (Or.inl ⟨rfl, rfl⟩)
  | arm hphase hturn =>
    refine h.rearm (by simp [hphase, Phase.Done]) (by simp [hphase]) id (by simp) ?_
    intro seen next r heq
    cases heq
    exact ⟨Nat.le_refl _, fun _ => ⟨_, hturn⟩⟩
  | swap hphase =>
    -- the stamp is the loaded one, so the cell is the loaded one
    obtain ⟨x, hturn⟩ := (h.armed _ _ _ _ hphase).2 rfl
    exact h.decide (by simp [hphase, Phase.Done]) (by simp [hphase])
      ⟨x, Or.inr hturn⟩ (Or.inr (Nat.lt_succ_self _))
  | retry hphase _ =>
    refine h.rearm (by simp [hphase, Phase.Done]) (by simp [hphase]) id (by simp) ?_
    intro seen next r heq
    cases heq
  | respond hphase => exact h.respond hphase

theorem Reach.inv (h : Reach turn calls (Machine.init s) m) : Inv turn calls s m := by
  induction h with
  | refl => exact inv_init turn calls s
  | tail _ hstep ih =>
    obtain ⟨a, hstep⟩ := hstep
    exact ih.step hstep

theorem Reach.order_calls (h : Reach turn calls (Machine.init s) m) :
    ∀ x ∈ m.order, x.2.1 = calls x.1 := by
  induction h with
  | refl =>
    intro x hx
    cases hx
  | tail _ hstep ih =>
    obtain ⟨a, hstep⟩ := hstep
    cases hstep with
    | invoke | arm | retry | respond => exact ih
    | answer _ _ | swap _ =>
      intro x hx
      rcases mem_append.mp hx with hx | hx
      · exact ih x hx
      · rw [mem_singleton.mp hx]

/-- **Compare-and-swap loops are linearizable**, in every interleaving of their loads and
swaps. -/
theorem Machine.reach_linearizes (h : Reach turn calls (Machine.init s) m) :
    Linearizes (soleTurn turn) s m.hist m.order := by
  have hinv := h.inv
  refine ⟨hinv.nodup, fun i c r hmem => (hinv.done i c r hmem).2, hinv.answered, ?_,
    m.cell, hinv.legal⟩
  intro x hx y hy hp
  obtain ⟨x', hx', hsub⟩ := hinv.realtime x.1 y.1 hp y hy rfl
  -- the order names each call once
  obtain rfl : x' = x := inj_on_of_nodup_map hinv.nodup (hsub.subset (by simp)) hx hx'
  exact hsub

end

end Ledge.Lib
