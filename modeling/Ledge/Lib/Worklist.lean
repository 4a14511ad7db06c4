import Mathlib.Algebra.BigOperators.Group.Finset.Basic
import Mathlib.Algebra.Order.BigOperators.Group.Finset
import Mathlib.Logic.Relation

/-!
# Ledge.Lib.Worklist

Closing a set under the edges of a graph with a **worklist**. `Graph.visit` marks what it takes
from its queue, `Links.follow` marks what it puts there; both find exactly what paths lead to
(`Graph.mem_visit`, `Links.mem_follow`). `Graph.explore` lists what it takes, in order, with a label
that may stop it; without labels this is `Graph.sweep` (`Graph.mem_sweep`).

The graph may have infinitely many nodes. What makes the loops end is that edges lead to finitely
many of them, or come from finitely many.
-/

namespace Ledge.Lib

open Relation List

variable {α : Type} [DecidableEq α]

/-- A graph whose edges lead to finitely many nodes. -/
structure Graph (α : Type) where
  succ : α → List α
  ends : List α
  mem_ends : ∀ a, ∀ b ∈ succ a, b ∈ ends

namespace Graph

variable (g : Graph α)

def Edge (a b : α) : Prop := b ∈ g.succ a

/-- The edges from `a` that lead to unmarked nodes. -/
def fresh (visited : List α) (a : α) : List α := (g.succ a).filter (· ∉ visited)

/-- The nodes that may still be marked. -/
def unvisited (visited queue : List α) : Finset α :=
  (queue ++ g.ends).toFinset \ visited.toFinset

/-- The queue and all that the nodes that may still be marked can add to it. -/
def weight (visited queue : List α) : Nat :=
  ∑ a ∈ g.unvisited visited queue, ((g.succ a).length + 1) + queue.length

theorem weight_skip (visited rest : List α) (a : α) :
    g.weight visited rest < g.weight visited (a :: rest) := by
  have hsub : g.unvisited visited rest ⊆ g.unvisited visited (a :: rest) := by
    refine Finset.sdiff_subset_sdiff (fun b hb => ?_) (Finset.Subset.refl _)
    rw [mem_toFinset] at hb ⊢
    exact mem_cons_of_mem a hb
  have hle := Finset.sum_le_sum_of_subset (f := fun a => (g.succ a).length + 1) hsub
  exact Nat.add_lt_add_of_le_of_lt hle (Nat.lt_succ_self _)

theorem weight_mark (visited rest : List α) {more : List α} {a : α} (hmore : more ⊆ g.succ a)
    (hlen : more.length ≤ (g.succ a).length) (ha : a ∉ visited) :
    g.weight (a :: visited) (rest ++ more) < g.weight visited (a :: rest) := by
  have hmem : a ∈ g.unvisited visited (a :: rest) := by simp [unvisited, ha]
  have hsub : g.unvisited (a :: visited) (rest ++ more) ⊆ (g.unvisited visited (a :: rest)).erase
      a := by
    intro b hb
    have hb' : b ∈ (rest ++ more) ++ g.ends ∧ b ∉ a :: visited := by
      simpa [unvisited] using hb
    obtain ⟨hb, hnew⟩ := hb'
    have hin : b ∈ a :: rest ++ g.ends := by
      rcases mem_append.mp hb with hb | hb
      · rcases mem_append.mp hb with hb | hb
        · exact mem_append_left _ (mem_cons_of_mem a hb)
        · exact mem_append_right _ (g.mem_ends a b (hmore hb))
      · exact mem_append_right _ hb
    rw [Finset.mem_erase, unvisited, Finset.mem_sdiff, mem_toFinset, mem_toFinset]
    exact ⟨ne_of_not_mem_cons hnew, hin, not_mem_of_not_mem_cons hnew⟩
  have hle := Finset.sum_le_sum_of_subset (f := fun a => (g.succ a).length + 1) hsub
  have hsum := Finset.add_sum_erase _ (fun a => (g.succ a).length + 1) hmem
  simp only [weight, length_append, length_cons] at *
  omega

/-- Take nodes from the queue and mark them, until it is empty. -/
def visit (visited queue : List α) : List α :=
  match queue with
  | [] => visited
  | a :: rest =>
    if a ∈ visited then visit visited rest
    else visit (a :: visited) (rest ++ g.fresh (a :: visited) a)
termination_by g.weight visited queue
decreasing_by
  · exact g.weight_skip visited rest a
  · exact g.weight_mark visited rest (filter_subset_self _) (length_filter_le _ _) ‹a ∉ visited›

/-- Edges from marked nodes lead to marked nodes or into the queue. -/
def Closed (visited queue : List α) : Prop :=
  ∀ a ∈ visited, ∀ b, g.Edge a b → b ∈ visited ∨ b ∈ queue

variable {g} {visited queue : List α} {a b : α}

omit [DecidableEq α] in
/-- A path from a marked node ends at a marked node or passes the queue. -/
theorem Closed.path (h : g.Closed visited queue) (ha : a ∈ visited)
    (hpath : ReflTransGen g.Edge a b) :
    b ∈ visited ∨ ∃ c ∈ queue, ReflTransGen g.Edge c b := by
  induction hpath with
  | refl => exact Or.inl ha
  | tail _ hedge ih =>
    rcases ih with hb | ⟨c, hc, hcb⟩
    · rcases h _ hb _ hedge with hnext | hnext
      · exact Or.inl hnext
      · exact Or.inr ⟨_, hnext, .refl⟩
    · exact Or.inr ⟨c, hc, hcb.tail hedge⟩

theorem Closed.mark (h : g.Closed visited (a :: queue)) :
    g.Closed (a :: visited) (queue ++ g.fresh (a :: visited) a) := by
  intro b hb c hedge
  rcases mem_cons.mp hb with rfl | hb
  · by_cases hc : c ∈ b :: visited
    · exact Or.inl hc
    · exact Or.inr (mem_append_right _ (mem_filter.mpr ⟨hedge, decide_eq_true hc⟩))
  · rcases h b hb c hedge with hc | hc
    · exact Or.inl (mem_cons_of_mem a hc)
    · rcases mem_cons.mp hc with rfl | hc
      · exact Or.inl mem_cons_self
      · exact Or.inr (mem_append_left _ hc)

theorem mem_visit_of_closed (h : g.Closed visited queue) :
    b ∈ g.visit visited queue ↔ b ∈ visited ∨ ∃ a ∈ queue, ReflTransGen g.Edge a b := by
  fun_induction g.visit visited queue with
  | case1 visited => simp
  | case2 visited a rest ha ih =>
    have hrest : g.Closed visited rest := fun c hc d hedge => by
      rcases h c hc d hedge with hd | hd
      · exact Or.inl hd
      · rcases mem_cons.mp hd with rfl | hd
        · exact Or.inl ha
        · exact Or.inr hd
    rw [ih hrest]
    constructor
    · rintro (hb | ⟨c, hc, hpath⟩)
      · exact Or.inl hb
      · exact Or.inr ⟨c, mem_cons_of_mem a hc, hpath⟩
    · rintro (hb | ⟨c, hc, hpath⟩)
      · exact Or.inl hb
      · rcases mem_cons.mp hc with rfl | hc
        · exact hrest.path ha hpath
        · exact Or.inr ⟨c, hc, hpath⟩
  | case3 visited a rest ha ih =>
    rw [ih h.mark]
    constructor
    · rintro (hb | ⟨c, hc, hpath⟩)
      · rcases mem_cons.mp hb with rfl | hb
        · exact Or.inr ⟨b, mem_cons_self, .refl⟩
        · exact Or.inl hb
      · rcases mem_append.mp hc with hc | hc
        · exact Or.inr ⟨c, mem_cons_of_mem a hc, hpath⟩
        · exact Or.inr ⟨a, mem_cons_self, hpath.head (mem_of_mem_filter hc)⟩
    · rintro (hb | ⟨c, hc, hpath⟩)
      · exact Or.inl (mem_cons_of_mem a hb)
      · rcases mem_cons.mp hc with rfl | hc
        · exact h.mark.path mem_cons_self hpath
        · exact Or.inr ⟨c, mem_append_left _ hc, hpath⟩

/-- **Visiting finds what paths lead to.** -/
theorem mem_visit {roots : List α} :
    b ∈ g.visit [] roots ↔ ∃ a ∈ roots, ReflTransGen g.Edge a b := by
  rw [mem_visit_of_closed fun a ha => by cases ha]
  simp

/-! ### Walks with labels -/

variable {ι : Type}

/-- What the walk queues when it takes `a` with the label `i`. -/
def next (g : Graph α) (label : α → ι → Option ι) (a : α) (i : ι) : List (α × ι) :=
  match label a i with
  | some j => (g.succ a).map (fun b => (b, j))
  | none => []

omit [DecidableEq α] in
theorem map_fst_next (label : α → ι → Option ι) (a : α) (i : ι) :
    (g.next label a i).map Prod.fst ⊆ g.succ a ∧
      ((g.next label a i).map Prod.fst).length ≤ (g.succ a).length := by
  unfold next
  cases label a i with
  | some j => simp [Function.comp_def]
  | none => simp

/-- Take labelled nodes from the queue, each node once and not those in `seen`, and queue where its
edges lead to. `label` says with which label, or that they are not followed. -/
def explore (g : Graph α) (label : α → ι → Option ι) (seen : List α) (queue : List (α × ι)) :
    List (α × ι) :=
  match queue with
  | [] => []
  | (a, i) :: rest =>
    if a ∈ seen then explore g label seen rest
    else (a, i) :: explore g label (a :: seen) (rest ++ g.next label a i)
termination_by g.weight seen (queue.map Prod.fst)
decreasing_by
  · exact g.weight_skip seen (rest.map Prod.fst) a
  · obtain ⟨hsub, hlen⟩ := g.map_fst_next label a i
    rw [map_append, map_cons]
    exact g.weight_mark seen (rest.map Prod.fst) hsub hlen ‹a ∉ seen›

variable {label : α → ι → Option ι} {seen : List α} {todo : List (α × ι)} {i j : ι}

theorem notMem_of_mem_explore {x : α × ι} (h : x ∈ g.explore label seen todo) : x.1 ∉ seen := by
  fun_induction g.explore label seen todo with
  | case1 seen => cases h
  | case2 seen a i rest ha ih => exact ih h
  | case3 seen a i rest ha ih =>
    rcases mem_cons.mp h with rfl | h
    · exact ha
    · exact not_mem_of_not_mem_cons (ih h)

theorem nodup_explore : ((g.explore label seen todo).map Prod.fst).Nodup := by
  fun_induction g.explore label seen todo with
  | case1 seen => exact nodup_nil
  | case2 seen a i rest ha ih => exact ih
  | case3 seen a i rest ha ih =>
    refine nodup_cons.mpr ⟨fun hmem => ?_, ih⟩
    obtain ⟨x, hx, hfst⟩ := mem_map.mp hmem
    exact notMem_of_mem_explore hx (hfst ▸ mem_cons_self)

theorem exists_mem_explore (h : (a, i) ∈ todo) : a ∈ seen ∨ ∃ j,
    (a, j) ∈ g.explore label seen todo := by
  fun_induction g.explore label seen todo with
  | case1 seen => cases h
  | case2 seen b j rest hb ih =>
    rcases mem_cons.mp h with heq | h
    · cases heq
      exact Or.inl hb
    · exact ih h
  | case3 seen b j rest hb ih =>
    by_cases hab : a = b
    · rw [hab]
      exact Or.inr ⟨j, mem_cons_self⟩
    · have hrest : (a, i) ∈ rest := by
        rcases mem_cons.mp h with heq | h
        · exact absurd (Prod.mk.inj heq).1 hab
        · exact h
      rcases ih (mem_append_left _ hrest) with hseen | ⟨k, hk⟩
      · exact Or.inl ((mem_cons.mp hseen).resolve_left hab)
      · exact Or.inr ⟨k, mem_cons_of_mem _ hk⟩

/-- Where the edges of a taken node lead to is taken, if they are followed. -/
theorem exists_mem_explore_of_edge (h : (a, i) ∈ g.explore label seen todo)
    (hlabel : label a i = some j)
    (hedge : g.Edge a b) : b ∈ seen ∨ ∃ k, (b, k) ∈ g.explore label seen todo := by
  fun_induction g.explore label seen todo with
  | case1 seen => cases h
  | case2 seen c k rest hc ih => exact ih h
  | case3 seen c k rest hc ih =>
    have hnext : b ∈ c :: seen ∨ ∃ k', (b, k') ∈ g.explore label (c :: seen)
        (rest ++ g.next label c k) := by
      rcases mem_cons.mp h with heq | h
      · cases heq
        refine exists_mem_explore (i := j) (mem_append_right _ ?_)
        unfold next
        rw [hlabel]
        exact mem_map_of_mem hedge
      · exact ih h
    rcases hnext with hseen | ⟨k', hk'⟩
    · rcases mem_cons.mp hseen with rfl | hseen
      · exact Or.inr ⟨k, mem_cons_self⟩
      · exact Or.inl hseen
    · exact Or.inr ⟨k', mem_cons_of_mem _ hk'⟩

theorem path_of_mem_explore {x : α × ι} (h : x ∈ g.explore label seen todo) :
    ∃ y ∈ todo, ReflTransGen g.Edge y.1 x.1 := by
  fun_induction g.explore label seen todo with
  | case1 seen => cases h
  | case2 seen a i rest ha ih =>
    obtain ⟨y, hy, hpath⟩ := ih h
    exact ⟨y, mem_cons_of_mem _ hy, hpath⟩
  | case3 seen a i rest ha ih =>
    rcases mem_cons.mp h with rfl | h
    · exact ⟨_, mem_cons_self, .refl⟩
    · obtain ⟨y, hy, hpath⟩ := ih h
      rcases mem_append.mp hy with hy | hy
      · exact ⟨y, mem_cons_of_mem _ hy, hpath⟩
      · refine ⟨_, mem_cons_self, hpath.head ?_⟩
        exact (g.map_fst_next label a i).1 (mem_map_of_mem hy)

/-- **Two graphs that agree on what a walk can come to** give the same walk. -/
theorem explore_congr {g' : Graph α} {label' : α → ι → Option ι} {S : Set α}
    (hsucc : ∀ a ∈ S, g.succ a = g'.succ a) (hlabel : ∀ a ∈ S, label a = label' a)
    (hclosed : ∀ a ∈ S, ∀ b ∈ g.succ a, b ∈ S) (htodo : ∀ x ∈ todo, x.1 ∈ S) :
    g.explore label seen todo = g'.explore label' seen todo := by
  fun_induction g.explore label seen todo with
  | case1 seen => rw [explore]
  | case2 seen a i rest ha ih =>
    rw [explore, if_pos ha]
    exact ih fun x hx => htodo x (mem_cons_of_mem _ hx)
  | case3 seen a i rest ha ih =>
    have haS : a ∈ S := htodo _ mem_cons_self
    have hnext : g.next label a i = g'.next label' a i := by
      unfold next
      rw [hlabel a haS, hsucc a haS]
    rw [explore, if_neg ha, ← hnext]
    refine congrArg _ (ih fun x hx => ?_)
    rcases mem_append.mp hx with hx | hx
    · exact htodo x (mem_cons_of_mem _ hx)
    · exact hclosed a haS _ ((g.map_fst_next label a i).1 (mem_map_of_mem hx))

/-! ### Walks without labels -/

/-- Take nodes from the queue, each once and not those in `seen`, and queue where their edges lead
to. -/
def sweep (g : Graph α) (seen queue : List α) : List α :=
  (g.explore (fun _ _ => some ()) seen (queue.map (fun a => (a, ())))).map Prod.fst

theorem nodup_sweep : (g.sweep seen queue).Nodup := nodup_explore

theorem mem_sweep_iff_mem_explore :
    b ∈ g.sweep seen queue ↔ (b, ()) ∈ g.explore (fun _ _ => some ()) seen
      (queue.map (fun a => (a, ()))) := by
  rw [sweep, mem_map]
  constructor
  · rintro ⟨⟨c, _⟩, h, rfl⟩
    exact h
  · exact fun h => ⟨_, h, rfl⟩

theorem notMem_of_mem_sweep (h : b ∈ g.sweep seen queue) : b ∉ seen :=
  notMem_of_mem_explore (mem_sweep_iff_mem_explore.mp h)

theorem mem_sweep_of_mem (h : a ∈ queue) : a ∈ seen ∨ a ∈ g.sweep seen queue := by
  rcases exists_mem_explore (mem_map_of_mem (f := fun a => (a, ())) h) with hseen | ⟨_, htaken⟩
  · exact Or.inl hseen
  · exact Or.inr (mem_sweep_iff_mem_explore.mpr htaken)

theorem mem_sweep_of_edge (h : a ∈ g.sweep seen queue) (hedge : g.Edge a b) :
    b ∈ seen ∨ b ∈ g.sweep seen queue := by
  rcases exists_mem_explore_of_edge (mem_sweep_iff_mem_explore.mp h) rfl
    hedge with hseen | ⟨_, htaken⟩
  · exact Or.inl hseen
  · exact Or.inr (mem_sweep_iff_mem_explore.mpr htaken)

/-- **What a walk takes**, if no edge leads out of `seen`: what paths from the queue lead to, and is
not in `seen`. -/
theorem mem_sweep (hclosed : ∀ a ∈ seen, ∀ b, g.Edge a b → b ∈ seen) :
    b ∈ g.sweep seen queue ↔ b ∉ seen ∧ ∃ a ∈ queue, ReflTransGen g.Edge a b := by
  constructor
  · intro h
    obtain ⟨y, hy, hpath⟩ := path_of_mem_explore (mem_sweep_iff_mem_explore.mp h)
    obtain ⟨a, ha, rfl⟩ := mem_map.mp hy
    exact ⟨notMem_of_mem_sweep h, a, ha, hpath⟩
  · rintro ⟨hnot, a, ha, hpath⟩
    have htaken : b ∈ seen ∨ b ∈ g.sweep seen queue := by
      induction hpath with
      | refl => exact mem_sweep_of_mem ha
      | @tail c d _ hedge ih =>
        by_cases hc : c ∈ seen
        · exact Or.inl (hclosed c hc d hedge)
        · exact mem_sweep_of_edge ((ih hc).resolve_left hc) hedge
    exact htaken.resolve_left hnot

theorem sweep_congr {g' : Graph α} {S : Set α} (hsucc : ∀ a ∈ S, g.succ a = g'.succ a)
    (hclosed : ∀ a ∈ S, ∀ b ∈ g.succ a, b ∈ S) (hqueue : ∀ a ∈ queue, a ∈ S) :
    g.sweep seen queue = g'.sweep seen queue := by
  unfold sweep
  rw [explore_congr hsucc (fun _ _ => rfl) hclosed fun x hx => ?_]
  obtain ⟨a, ha, rfl⟩ := mem_map.mp hx
  exact hqueue a ha

/-- A walk with nothing in `seen`. -/
theorem mem_sweep_nil : b ∈ g.sweep [] queue ↔ ∃ a ∈ queue, ReflTransGen g.Edge a b := by
  rw [mem_sweep fun a ha => absurd ha not_mem_nil]
  simp

end Graph

/-- At most one link from each node, which may be unreadable, and from finitely many nodes. -/
structure Links (α ε : Type) where
  next : α → Except ε (Option α)
  starts : List α
  mem_starts : ∀ a b, next a = .ok (some b) → a ∈ starts

namespace Links

variable {ε : Type} (l : Links α ε)

def Link (a b : α) : Prop := l.next a = .ok (some b)

/-- The link from `a` leads out of `keep`. -/
def leaves (keep : List α) (a : α) : Bool :=
  match l.next a with
  | .ok (some b) => b ∉ keep
  | .ok none | .error _ => false

def weight (keep frontier : List α) : Nat :=
  (l.starts.toFinset.filter (fun a => l.leaves keep a)).card + frontier.length

theorem weight_pop (keep rest : List α) (a : α) : l.weight keep rest < l.weight keep (a :: rest) :=
  Nat.lt_succ_self _

theorem weight_push {keep : List α} (rest : List α) {a b : α} (hnext : l.next a = .ok (some b))
    (hb : b ∉ keep) : l.weight (b :: keep) (b :: rest) < l.weight keep (a :: rest) := by
  refine Nat.add_lt_add_right (Finset.card_lt_card ?_) _
  refine (Finset.ssubset_iff_of_subset ?_).mpr ⟨a, ?_, ?_⟩
  · refine Finset.monotone_filter_right _ fun c _ hc => ?_
    unfold leaves at hc ⊢
    split at hc
    · exact decide_eq_true (not_mem_of_not_mem_cons (of_decide_eq_true hc))
    · cases hc
    · cases hc
  · simp [leaves, hnext, hb, l.mem_starts a b hnext]
  · simp [leaves, hnext]

/-- Follow the links from the frontier and mark where they lead, until it is empty. -/
def follow (keep frontier : List α) : Except ε (List α) :=
  match frontier with
  | [] => .ok keep
  | a :: rest =>
    match _hnext : l.next a with
    | .error e => .error e
    | .ok none => follow keep rest
    | .ok (some b) => if b ∈ keep then follow keep rest else follow (b :: keep) (b :: rest)
termination_by l.weight keep frontier
decreasing_by
  · exact l.weight_pop keep rest a
  · exact l.weight_pop keep rest a
  · exact l.weight_push rest _hnext ‹b ∉ keep›

/-- The links that leave `keep` start in the frontier. -/
def Settled (keep frontier : List α) : Prop :=
  ∀ a ∈ keep, a ∉ frontier → ∀ b, l.Link a b → b ∈ keep

variable {l} {keep keep' frontier rest : List α} {a b : α}

theorem Settled.pop (h : l.Settled keep (a :: rest)) (ha : ∀ b, l.Link a b → b ∈ keep) :
    l.Settled keep rest := by
  intro c hc hrest d hlink
  by_cases hca : c = a
  · exact ha d (hca ▸ hlink)
  · exact h c hc (not_mem_cons_of_ne_of_not_mem hca hrest) d hlink

theorem Settled.push (h : l.Settled keep (a :: rest)) (hnext : l.next a = .ok (some b)) :
    l.Settled (b :: keep) (b :: rest) := by
  intro c hc hrest d hlink
  by_cases hca : c = a
  · rw [hca, Link, hnext] at hlink
    cases hlink
    exact mem_cons_self
  · have hkeep : c ∈ keep := (mem_cons.mp hc).resolve_left (ne_of_not_mem_cons hrest)
    have hnot := not_mem_cons_of_ne_of_not_mem hca (not_mem_of_not_mem_cons hrest)
    exact mem_cons_of_mem b (h c hkeep hnot d hlink)

/-- Following adds what the links from `keep` lead to. -/
theorem mem_follow_of_settled (hok : l.follow keep frontier = .ok keep')
    (hfrontier : ∀ a ∈ frontier, a ∈ keep) (h : l.Settled keep frontier) :
    b ∈ keep' ↔ ∃ a ∈ keep, ReflTransGen l.Link a b := by
  fun_induction l.follow keep frontier with
  | case1 keep =>
    cases hok
    refine ⟨fun hb => ⟨b, hb, .refl⟩, ?_⟩
    rintro ⟨a, ha, hpath⟩
    induction hpath with
    | refl => exact ha
    | tail _ hlink ih => exact h _ ih not_mem_nil _ hlink
  | case2 keep a rest e hnext => cases hok
  | case3 keep a rest hnext ih =>
    refine ih hok (fun c hc => hfrontier c (mem_cons_of_mem a hc)) (h.pop fun d hlink => ?_)
    rw [Link, hnext] at hlink
    cases hlink
  | case4 keep a rest b' hnext hb ih =>
    refine ih hok (fun c hc => hfrontier c (mem_cons_of_mem a hc)) (h.pop fun d hlink => ?_)
    rw [Link, hnext] at hlink
    cases hlink
    exact hb
  | case5 keep a rest b' hnext hb ih =>
    have hfrontier' : ∀ c ∈ b' :: rest, c ∈ b' :: keep := by
      intro c hc
      rcases mem_cons.mp hc with rfl | hc
      · exact mem_cons_self
      · exact mem_cons_of_mem b' (hfrontier c (mem_cons_of_mem a hc))
    rw [ih hok hfrontier' (h.push hnext)]
    constructor
    · rintro ⟨c, hc, hpath⟩
      rcases mem_cons.mp hc with rfl | hc
      · exact ⟨a, hfrontier a mem_cons_self, hpath.head hnext⟩
      · exact ⟨c, hc, hpath⟩
    · rintro ⟨c, hc, hpath⟩
      exact ⟨c, mem_cons_of_mem b' hc, hpath⟩

/-- **Following finds what links lead to.** -/
theorem mem_follow {set : List α} (hok : l.follow set set = .ok keep') :
    b ∈ keep' ↔ ∃ a ∈ set, ReflTransGen l.Link a b :=
  mem_follow_of_settled hok (fun _ ha => ha) fun _ ha hnot => absurd ha hnot

end Links

end Ledge.Lib
