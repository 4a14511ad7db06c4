import Mathlib.Data.List.Sublists
import Mathlib.Logic.Relation

/-!
# Ledge.Lib.Linearizable

**Linearizability**: a concurrent history is explained by one sequential order of its
calls that respects real time. A call is an index `i : I` of a family of calls, each
made at most once. Step order is real time, so a history is the list of invocations
and responses in the order they happen.
-/

namespace Ledge.Lib

open List

variable {I C R S : Type}

/-- A client-visible event. -/
inductive Event (I C R : Type) where
  | invoke (i : I) (c : C)
  | respond (i : I) (r : R)

/-- Call `i` returned before call `j` was made. -/
def Precedes (h : List (Event I C R)) (i j : I) : Prop :=
  ∃ r c, List.Sublist [Event.respond i r, Event.invoke j c] h

/-- One call after the other, each as the sequential object `spec` allows. -/
inductive Sequential (spec : S → C → R → S → Prop) : S → List (I × C × R) → S → Prop
  | nil (s : S) : Sequential spec s [] s
  | cons {s s' s'' : S} {i : I} {c : C} {r : R} {l : List (I × C × R)} :
      spec s c r s' → Sequential spec s' l s'' → Sequential spec s ((i, c, r) :: l) s''

theorem Sequential.concat {spec : S → C → R → S → Prop} {s s' s'' : S} {l : List (I × C × R)}
    {i : I} {c : C} {r : R} (h : Sequential spec s l s') (hlast : spec s' c r s'') :
    Sequential spec s (l ++ [(i, c, r)]) s'' := by
  induction h with
  | nil s => exact .cons hlast (.nil s'')
  | cons hfirst _ ih => exact .cons hfirst (ih hlast)

theorem Sequential.split {spec : S → C → R → S → Prop} {s s'' : S} {l₁ l₂ : List (I × C × R)}
    (h : Sequential spec s (l₁ ++ l₂) s'') :
    ∃ s', Sequential spec s l₁ s' ∧ Sequential spec s' l₂ s'' := by
  induction l₁ generalizing s with
  | nil => exact ⟨s, .nil s, h⟩
  | cons x l₁ ih =>
    cases h with
    | cons hfirst hrest =>
      obtain ⟨s', h₁, h₂⟩ := ih hrest
      exact ⟨s', .cons hfirst h₁, h₂⟩

/-- The order `l` explains the history `h`: it holds every completed call with the result
it returned, possibly some pending ones, keeps the real-time order, and is legal. -/
structure Linearizes (spec : S → C → R → S → Prop) (init : S) (h : List (Event I C R))
    (l : List (I × C × R)) : Prop where
  nodup : (l.map Prod.fst).Nodup
  invoked : ∀ i c r, (i, c, r) ∈ l → Event.invoke i c ∈ h
  answered : ∀ i r, Event.respond i r ∈ h → ∃ c, (i, c, r) ∈ l
  realtime : ∀ x ∈ l, ∀ y ∈ l, Precedes h x.1 y.1 → List.Sublist [x, y] l
  legal : ∃ final, Sequential spec init l final

/-! ### Abstraction -/

/-- A history with other results. -/
def Event.mapResult {R' : Type} (g : R → R') : Event I C R → Event I C R'
  | .invoke i c => .invoke i c
  | .respond i r => .respond i (g r)

theorem precedes_map {R' : Type} {g : R → R'} {h : List (Event I C R)} {i j : I}
    (hp : Precedes (h.map (Event.mapResult g)) i j) : Precedes h i j := by
  obtain ⟨r, c, hsub⟩ := hp
  obtain ⟨l, hl, heq⟩ := sublist_map_iff.mp hsub
  -- the preimage of the two events is again a response and an invocation
  match l, heq with
  | [.respond i' r', .invoke j' c'], heq =>
    simp only [map_cons, Event.mapResult, map_nil, List.cons.injEq,
      Event.respond.injEq, Event.invoke.injEq, and_true] at heq
    obtain ⟨⟨rfl, -⟩, rfl, -⟩ := heq
    exact ⟨r', c', hl⟩

variable {A R' : Type}

/-- A simulation from a concrete sequential object to an abstract one carries sequential
runs over. -/
theorem Sequential.simulate {spec : S → C → R → S → Prop} {spec' : A → C → R' → A → Prop}
    {g : R → R'} {rel : S → A → Prop}
    (hsim : ∀ s a c r s', rel s a → spec s c r s' → ∃ a', spec' a c (g r) a' ∧ rel s' a')
    {s s' : S} {a : A} {l : List (I × C × R)} (h : Sequential spec s l s') (ha : rel s a) :
    ∃ a', Sequential spec' a (l.map (fun x => (x.1, x.2.1, g x.2.2))) a' ∧ rel s' a' := by
  induction h generalizing a with
  | nil s => exact ⟨a, .nil a, ha⟩
  | cons hfirst _ ih =>
    obtain ⟨a₁, hspec, ha₁⟩ := hsim _ _ _ _ _ ha hfirst
    obtain ⟨a', hseq, ha'⟩ := ih ha₁
    exact ⟨a', .cons hspec hseq, ha'⟩

/-- **Linearizability composes with simulation.** -/
theorem Linearizes.simulate {spec : S → C → R → S → Prop} {spec' : A → C → R' → A → Prop}
    {g : R → R'} {rel : S → A → Prop}
    (hsim : ∀ s a c r s', rel s a → spec s c r s' → ∃ a', spec' a c (g r) a' ∧ rel s' a')
    {init : S} {a : A} {h : List (Event I C R)} {l : List (I × C × R)}
    (hlin : Linearizes spec init h l) (ha : rel init a) :
    Linearizes spec' a (h.map (Event.mapResult g)) (l.map (fun x => (x.1, x.2.1, g x.2.2))) := by
  constructor
  · rw [map_map]
    exact hlin.nodup
  · intro i c r hmem
    obtain ⟨⟨i', c', r'⟩, hx, heq⟩ := mem_map.mp hmem
    obtain ⟨rfl, rfl, -⟩ := heq
    exact mem_map.mpr ⟨_, hlin.invoked _ _ _ hx, rfl⟩
  · intro i r hmem
    obtain ⟨e, he, heq⟩ := mem_map.mp hmem
    cases e with
    | invoke i' c' => cases heq
    | respond i' r' =>
      obtain ⟨rfl, rfl⟩ := Event.respond.inj heq
      obtain ⟨c, hc⟩ := hlin.answered i' r' he
      exact ⟨c, mem_map.mpr ⟨_, hc, rfl⟩⟩
  · intro x hx y hy hp
    obtain ⟨x', hx', rfl⟩ := mem_map.mp hx
    obtain ⟨y', hy', rfl⟩ := mem_map.mp hy
    exact (hlin.realtime x' hx' y' hy' (precedes_map hp)).map (fun x => (x.1, x.2.1, g x.2.2))
  · obtain ⟨final, hseq⟩ := hlin.legal
    obtain ⟨a', hseq', -⟩ := hseq.simulate hsim ha
    exact ⟨a', hseq'⟩

end Ledge.Lib
