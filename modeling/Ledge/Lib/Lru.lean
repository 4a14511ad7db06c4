import Mathlib.Algebra.GroupWithZero.Nat
import Mathlib.Algebra.Order.BigOperators.Group.List
import Mathlib.Algebra.Order.Group.Nat
import Mathlib.Logic.Function.Basic

/-!
# Ledge.Lib.Lru

A cache that is bounded in two ways, by the number of its entries and by the sum of their sizes, and
that gives up the **least recently used** first: a map, the keys in the order of their use, and a
counter of the size.

The three stay in step (`Lru.WF`). What is known of all entries stays known (`Lru.All.put`), and a
new entry is found as long as it fits alone (`Lru.get_put`).
-/

namespace Ledge.Lib

open List Option

variable {κ ν : Type} [DecidableEq κ]

/-- The bounds of a cache, and what counts as the size of a value. -/
structure LruBounds (ν : Type) where
  maxEntries : Nat
  maxSize : Nat
  size : ν → Nat

/-- A cache. The key that was used last comes first in `order`. -/
structure Lru (κ ν : Type) where
  map : κ → Option ν
  order : List κ
  total : Nat
  hits : Nat
  misses : Nat

namespace Lru

/-- An empty cache. -/
def empty : Lru κ ν := ⟨fun _ => none, [], 0, 0, 0⟩

variable (b : LruBounds ν) (c : Lru κ ν)

/-- Give up the key that is last in the order. -/
def drop (old : κ) : Lru κ ν :=
  match c.map old with
  | some v =>
    { c with
      map := Function.update c.map old none
      order := c.order.dropLast
      total := c.total - b.size v }
  | none => { c with order := c.order.dropLast }

theorem order_drop (old : κ) : (c.drop b old).order = c.order.dropLast := by
  unfold drop
  cases c.map old <;> rfl

/-- Give up keys until the cache is within its bounds. -/
def evict (c : Lru κ ν) : Lru κ ν :=
  if b.maxEntries < c.order.length ∨ b.maxSize < c.total then
    match _h : c.order.getLast? with
    | some old => evict (c.drop b old)
    | none => c
  else c
termination_by c.order.length
decreasing_by
  rw [order_drop, length_dropLast]
  have hne : c.order ≠ [] := by
    intro hnil
    rw [hnil] at _h
    cases _h
  have hpos := length_pos_iff.mpr hne
  omega

/-- The value of a key. If there is one, the key is now the last one used. -/
def get (key : κ) : Option ν × Lru κ ν :=
  match c.map key with
  | some v =>
    (some v, { c with hits := c.hits + 1, order := key :: c.order.filter (fun k => k ≠ key) })
  | none => (none, { c with misses := c.misses + 1 })

/-- A new entry, before anything is given up for it. -/
def insert (key : κ) (v : ν) : Lru κ ν :=
  { c with
    map := Function.update c.map key (some v)
    order := key :: c.order
    total := c.total + b.size v }

/-- A key that is there keeps its value. -/
def put (key : κ) (v : ν) : Lru κ ν := if (c.map key).isSome then c else (c.insert b key v).evict b

/-! ### The map, the order and the counter -/

/-- The size of what a key leads to. -/
def sizeAt (key : κ) : Nat := ((c.map key).map b.size).getD 0

/-- The order lists the keys of the map, each once, and the counter is the sum of the sizes. -/
structure WF (c : Lru κ ν) : Prop where
  nodup : c.order.Nodup
  resident : ∀ k, k ∈ c.order ↔ (c.map k).isSome
  total : c.total = (c.order.map (c.sizeAt b)).sum

/-- What is known of every entry. -/
def All (c : Lru κ ν) (p : κ → ν → Prop) : Prop := ∀ k v, c.map k = some v → p k v

variable {b c} {p : κ → ν → Prop} {key old : κ} {v : ν}

omit [DecidableEq κ] in
theorem wf_empty : WF b (empty : Lru κ ν) := ⟨nodup_nil, by simp [empty], rfl⟩

omit [DecidableEq κ] in
theorem sizeAt_of_map {c' : Lru κ ν} {k : κ} (h : c'.map k = c.map k) : c'.sizeAt b k =
    c.sizeAt b k := by
  rw [sizeAt, sizeAt, h]

omit [DecidableEq κ] in
theorem sum_sizeAt_congr {c' : Lru κ ν} {keys : List κ} (h : ∀ k ∈ keys, c'.map k = c.map k) :
    (keys.map (c'.sizeAt b)).sum = (keys.map (c.sizeAt b)).sum := by
  rw [map_congr_left fun k hk => sizeAt_of_map (h k hk)]

theorem WF.drop {keys : List κ} (h : WF b c) (horder : c.order = keys ++ [old]) :
    WF b (c.drop b old) ∧ (c.drop b old).order = keys ∧
      ∀ k, (c.drop b old).map k = if k = old then none else c.map k := by
  have hmem : (c.map old).isSome := (h.resident old).mp (by simp [horder])
  obtain ⟨v, hv⟩ := isSome_iff_exists.mp hmem
  have hnodup := h.nodup
  rw [horder, nodup_append] at hnodup
  have hnot : old ∉ keys := fun hold => hnodup.2.2 old hold old mem_cons_self rfl
  have hlast : c.order.dropLast = keys := by rw [horder, dropLast_concat]
  have hmap : ∀ k, (c.drop b old).map k = if k = old then none else c.map k := by
    intro k
    simp only [Lru.drop, hv, Function.update_apply]
  have hkeys : (c.drop b old).order = keys := by rw [order_drop, hlast]
  refine ⟨⟨?_, fun k => ?_, ?_⟩, hkeys, hmap⟩
  · rw [hkeys]
    exact hnodup.1
  · rw [hkeys, hmap]
    split_ifs with hk
    · simp [hk, hnot]
    · rw [← h.resident, horder, mem_append]
      simp [hk]
  · have hsame : ∀ k ∈ keys, (c.drop b old).map k = c.map k := by
      intro k hk
      have hne : k ≠ old := fun heq => hnot (heq ▸ hk)
      rw [hmap, if_neg hne]
    rw [hkeys, sum_sizeAt_congr hsame]
    have htotal := h.total
    rw [horder, map_append, sum_append] at htotal
    simp only [map_cons, map_nil, sum_cons, sum_nil, sizeAt, hv, map_some,
      getD_some] at htotal
    simp only [Lru.drop, hv]
    omega

/-- **What an eviction leaves**: the keys used last, with their values, within the bounds. -/
theorem WF.evict (h : WF b c) :
    WF b (c.evict b) ∧ (∃ gone, c.order = (c.evict b).order ++ gone) ∧
      (∀ k, (c.evict b).map k = if k ∈ (c.evict b).order then c.map k else none) ∧
      (c.evict b).order.length ≤ b.maxEntries ∧ (c.evict b).total ≤ b.maxSize := by
  fun_induction c.evict b with
  | case1 c hfull old hlast ih =>
    obtain ⟨keys, horder⟩ := getLast?_eq_some_iff.mp hlast
    obtain ⟨hwf, hkeys, hmap⟩ := h.drop horder
    obtain ⟨hwf', ⟨gone, hgone⟩, hmap', hentries, htotal⟩ := ih hwf
    have hnot : old ∉ ((c.drop b old).evict b).order := by
      intro hold
      have hmem : old ∈ (c.drop b old).order := by
        rw [hgone]
        exact mem_append_left _ hold
      rw [hwf.resident, hmap, if_pos rfl] at hmem
      cases hmem
    refine ⟨hwf', ⟨gone ++ [old], ?_⟩, fun k => ?_, hentries, htotal⟩
    · rw [horder, ← hkeys, hgone, append_assoc]
    · rw [hmap', hmap]
      split_ifs with hk hold
      · exact absurd (hold ▸ hk) hnot
      · rfl
      · rfl
  | case2 c hfull hlast =>
    have hnil : c.order = [] := getLast?_eq_none_iff.mp hlast
    have htotal := h.total
    rw [hnil] at htotal
    rcases hfull with hfull | hfull
    · rw [hnil] at hfull
      cases hfull
    · rw [htotal] at hfull
      cases hfull
  | case3 c hfits =>
    obtain ⟨hentries, htotal⟩ := not_or.mp hfits
    refine ⟨h, ⟨[], (append_nil _).symm⟩, fun k => ?_, Nat.le_of_not_lt hentries,
      Nat.le_of_not_lt htotal⟩
    split_ifs with hk
    · rfl
    · exact not_isSome_iff_eq_none.mp fun hsome => hk ((h.resident k).mpr hsome)

theorem WF.order_evict (h : WF b c) : (c.evict b).order <+: c.order :=
  h.evict.2.1.imp fun _ => Eq.symm

theorem map_insert (k : κ) : (c.insert b key v).map k = if k = key then some v else c.map k :=
  Function.update_apply c.map key (some v) k

theorem WF.insert (h : WF b c) (hnone : c.map key = none) : WF b (c.insert b key v) := by
  have hnot : key ∉ c.order := by
    rw [h.resident, hnone]
    simp
  have horder : (c.insert b key v).order = key :: c.order := rfl
  refine ⟨?_, fun k => ?_, ?_⟩
  · exact nodup_cons.mpr ⟨hnot, h.nodup⟩
  · rw [horder, map_insert, mem_cons, h.resident]
    split_ifs with hk <;> simp [hk]
  · have hself : (c.insert b key v).sizeAt b key = b.size v := by simp [sizeAt, map_insert]
    have hsame : ∀ k ∈ c.order, (c.insert b key v).map k = c.map k := by
      intro k hk
      have hne : k ≠ key := fun heq => hnot (heq ▸ hk)
      rw [map_insert, if_neg hne]
    rw [horder, map_cons, sum_cons, hself, sum_sizeAt_congr hsame, ← h.total, Nat.add_comm]
    rfl

omit [DecidableEq κ] in
theorem WF.sizeAt_le (h : WF b c) (hkey : key ∈ c.order) : c.sizeAt b key ≤ c.total := by
  rw [h.total]
  exact le_sum_of_mem (List.mem_map_of_mem hkey)

theorem mem_order_evict (h : WF b c) (hfirst : c.order.head? = some key)
    (hentries : 1 ≤ b.maxEntries)
    (hsize : c.sizeAt b key ≤ b.maxSize) : key ∈ (c.evict b).order := by
  fun_induction c.evict b with
  | case1 c hfull old hlast ih =>
    obtain ⟨keys, horder⟩ := getLast?_eq_some_iff.mp hlast
    obtain ⟨hwf, hkeys, hmap⟩ := h.drop horder
    cases keys with
    | nil =>
      -- the key is the only one, and the cache is within its bounds
      obtain rfl : old = key := by
        rw [horder] at hfirst
        exact some.inj hfirst
      have htotal := h.total
      rw [horder] at hfull htotal
      simp only [nil_append, length_singleton, map_cons, map_nil, sum_cons,
        sum_nil, Nat.add_zero] at hfull htotal
      omega
    | cons first keys =>
      obtain rfl : first = key := by
        rw [horder] at hfirst
        exact some.inj hfirst
      have hne : first ≠ old := by
        intro heq
        have hnodup := h.nodup
        rw [horder, heq, cons_append, nodup_cons] at hnodup
        exact hnodup.1 (mem_append_right _ mem_cons_self)
      refine ih hwf ?_ ?_
      · rw [hkeys]
        rfl
      · rw [sizeAt_of_map (c := c) (by rw [hmap, if_neg hne])]
        exact hsize
  | case2 c hfull hlast =>
    rw [getLast?_eq_none_iff.mp hlast] at hfirst
    cases hfirst
  | case3 c hfits => exact mem_of_head? hfirst

theorem WF.put (h : WF b c) : WF b (c.put b key v) := by
  unfold Lru.put
  split_ifs with hsome
  · exact h
  · exact (h.insert (not_isSome_iff_eq_none.mp hsome)).evict.1

theorem map_get (c : Lru κ ν) (key : κ) : (c.get key).2.map = c.map := by
  unfold Lru.get
  cases c.map key <;> rfl

theorem get_fst (c : Lru κ ν) (key : κ) : (c.get key).1 = c.map key := by
  unfold Lru.get
  cases c.map key <;> rfl

theorem total_get (c : Lru κ ν) (key : κ) : (c.get key).2.total = c.total := by
  unfold Lru.get
  cases c.map key <;> rfl

/-- A `get` only changes the order. -/
theorem WF.order_get (h : WF b c) (key : κ) : (c.get key).2.order.Perm c.order := by
  unfold Lru.get
  cases hkey : c.map key with
  | none => exact .refl _
  | some v =>
    have hmem : key ∈ c.order := (h.resident key).mpr (by rw [hkey]; rfl)
    have herase : c.order.filter (fun k => k ≠ key) = c.order.erase key := by
      rw [h.nodup.erase_eq_filter]
      refine filter_congr fun k _ => ?_
      by_cases hk : k = key <;> simp [hk]
    rw [herase]
    exact (perm_cons_erase hmem).symm

theorem WF.get (h : WF b c) (key : κ) : WF b (c.get key).2 := by
  have hperm := h.order_get key
  have hmap := map_get c key
  refine ⟨hperm.nodup_iff.mpr h.nodup, fun k => ?_, ?_⟩
  · rw [hperm.mem_iff, hmap, h.resident]
  · rw [total_get, h.total, (hperm.map _).sum_eq, sum_sizeAt_congr fun k _ => congrFun hmap k]

/-- A turn of the eviction loop. -/
def Drops (b : LruBounds ν) (c c' : Lru κ ν) : Prop := ∃ old ∈ c.order.getLast?, c' = c.drop b old

theorem WF.drops {c' : Lru κ ν} (h : WF b c) (hdrops : Relation.ReflTransGen (Drops b) c c') :
    WF b c' := by
  induction hdrops with
  | refl => exact h
  | tail _ hdrop ih =>
    obtain ⟨old, hlast, rfl⟩ := hdrop
    obtain ⟨keys, horder⟩ := getLast?_eq_some_iff.mp hlast
    exact (ih.drop horder).1

/-! ### What is found -/

/-- A value that fits alone. -/
def Fits (b : LruBounds ν) (v : ν) : Prop := 1 ≤ b.maxEntries ∧ b.size v ≤ b.maxSize

/-- What a `put` leaves of a key. -/
theorem map_put (h : WF b c) (key : κ) (v : ν) (k : κ) :
    (c.put b key v).map k = none ∨ (c.put b key v).map k = c.map k ∨
      k = key ∧ c.map key = none ∧ Fits b v ∧ (c.put b key v).map k = some v := by
  unfold Lru.put
  split_ifs with hsome
  · exact Or.inr (Or.inl rfl)
  · have hnone := not_isSome_iff_eq_none.mp hsome
    obtain ⟨hwf, -, hmap, hentries, htotal⟩ := (h.insert (v := v) hnone).evict
    by_cases hk : k ∈ ((c.insert b key v).evict b).order
    case neg => exact Or.inl (by rw [hmap, if_neg hk])
    by_cases hkey : k = key
    · obtain rfl := hkey
      have hnew : ((c.insert b k v).evict b).map k = some v := by
        rw [hmap, if_pos hk, map_insert, if_pos rfl]
      have hsize := hwf.sizeAt_le hk
      rw [sizeAt, hnew] at hsize
      exact Or.inr (Or.inr ⟨rfl, hnone, ⟨Nat.le_trans (length_pos_of_mem hk) hentries,
        Nat.le_trans hsize htotal⟩, hnew⟩)
    · exact Or.inr (Or.inl (by rw [hmap, if_pos hk, map_insert, if_neg hkey]))

/-- **A new entry is found**, if it fits alone. -/
theorem get_put (h : WF b c) (hnone : c.map key = none) (hfits : Fits b v) :
    ((c.put b key v).get key).1 = some v := by
  obtain ⟨-, -, hmap, -, -⟩ := (h.insert (v := v) hnone).evict
  have hself : (c.insert b key v).map key = some v := by rw [map_insert, if_pos rfl]
  have hsize : (c.insert b key v).sizeAt b key ≤ b.maxSize := by
    rw [sizeAt, hself]
    exact hfits.2
  have hmem := mem_order_evict (h.insert (v := v) hnone) rfl hfits.1 hsize
  have hnot : ¬ (c.map key).isSome := by simp [hnone]
  rw [get_fst, Lru.put, if_neg hnot, hmap, if_pos hmem, hself]

theorem All.put (h : c.All p) (hwf : WF b c) (hvalue : Fits b v → p key v) :
    (c.put b key v).All p := by
  intro k v' hk
  rcases map_put hwf key v k with hnone | hsame | ⟨rfl, -, hfits, hnew⟩
  · rw [hnone] at hk
    cases hk
  · rw [hsame] at hk
    exact h k v' hk
  · cases hnew.symm.trans hk
    exact hvalue hfits

theorem All.get (h : c.All p) (key : κ) : (c.get key).2.All p := by
  intro k v hk
  rw [map_get] at hk
  exact h k v hk

end Lru

end Ledge.Lib
