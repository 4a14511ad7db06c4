import Ledge.RefStore.ArtMap

/-!
# Ledge.RefStore.ArtIter

**Prefix iteration** (`art_prefix_iter`) lists exactly the pairs whose key starts
with the search prefix, each once and in ascending key order. A listing is
therefore a function of the lookups of its tree (`Root.list_congr`), which is all
the layers above use.
-/

namespace Ledge.RefStore

open ArtNode List

variable {α : Type} {path pfx search k : Key} {m : ArtNode α}
  {table : UInt8 → Option (ArtNode α)}

/-! ### Pruning -/

/-- A prefix agrees with the list it comes from on every overlap. -/
theorem take_eq_take {l₁ l₂ : List UInt8} (h : l₁ <+: l₂) {n : Nat} (hn : n ≤ l₁.length) :
    l₁.take n = l₂.take n := by
  rw [prefix_iff_eq_take.mp h, take_take, Nat.min_eq_left hn]

theorem nodePrefixCompatible_of_common (hP : path ++ pfx <+: k) (hs : search <+: k) :
    nodePrefixCompatible pfx search path.length = true := by
  rw [nodePrefixCompatible]
  split_ifs with hlen
  · rfl
  · have hpfx : pfx <+: k.drop path.length := by
      have := hP.drop path.length
      rwa [drop_left] at this
    have hsearch : search.drop path.length <+: k.drop path.length := hs.drop _
    simp only [beq_iff_eq]
    rw [take_eq_take hpfx (Nat.min_le_left _ _),
      take_eq_take hsearch (Nat.min_le_right _ _)]

/-! ### Exactness -/

theorem mem_collectPrefix_leaf {l : LeafNode α} {d : Nat} {e : α} :
    (k, e) ∈ collectPrefix (.leaf l) search d ↔ search <+: l.key ∧ l.key = k ∧ l.entry = e := by
  rw [collectPrefix]
  split_ifs with hs
  · simp [hs, eq_comm]
  · simp [hs]

theorem Wf.mem_collectPrefix (hwf : Wf path m) (search k : Key) (e : α) :
    (k, e) ∈ collectPrefix m search path.length ↔
      search <+: k ∧ path <+: k ∧ artLookup m k path.length = some e := by
  induction hwf with
  | @leaf path l hl hnl =>
    rw [mem_collectPrefix_leaf, artLookup_leaf]
    constructor
    · rintro ⟨hs, rfl, rfl⟩
      exact ⟨hs, hl, if_pos rfl⟩
    · rintro ⟨hs, -, hlook⟩
      split_ifs at hlook with heq
      exact ⟨heq ▸ hs, heq, Option.some.inj hlook⟩
  | @inner path m pfx table hm hP hne h0 hch ih =>
    have hdepth : ∀ b : UInt8, path.length + pfx.length + 1 = (path ++ pfx ++ [b]).length := by
      simp [Nat.add_assoc]
    rw [collectPrefix_of_table hm]
    constructor
    · intro hmem
      split_ifs at hmem with hcomp
      · obtain ⟨b, -, hmem⟩ := mem_flatMap.mp hmem
        cases ht : table b with
        | none => simp [ht, collectChild] at hmem
        | some c =>
          rw [ht, collectChild] at hmem
          by_cases hb : b = 0x00
          · subst hb
            obtain ⟨e', rfl⟩ := h0 c ht
            obtain ⟨hs, rfl, rfl⟩ := mem_collectPrefix_leaf.mp hmem
            refine ⟨hs, prefix_append _ _, ?_⟩
            rw [artLookup_end hm, ht, artLookupChild_some, artLookup_leaf, if_pos rfl]
          · rw [hdepth b, ih b c hb ht] at hmem
            obtain ⟨hs, hPb, hlook⟩ := hmem
            refine ⟨hs, ?_, ?_⟩
            · rw [append_assoc] at hPb
              exact (prefix_append _ _).trans hPb
            · rw [artLookup_under hm hPb, ht, artLookupChild_some, hlook]
      · simp at hmem
    · rintro ⟨hs, hk, hlook⟩
      obtain ⟨hPk, c, ht, hc⟩ := exists_child_of_lookup hm h0 hk hlook
      rw [if_pos (nodePrefixCompatible_of_common hPk hs)]
      refine mem_flatMap.mpr
        ⟨nextByte k (path ++ pfx).length, mem_allBytes _, ?_⟩
      rw [ht, collectChild]
      obtain ⟨-, rfl⟩ | ⟨hb, hPb, -, hlook'⟩ := hc
      · exact mem_collectPrefix_leaf.mpr ⟨hs, rfl, rfl⟩
      · rw [hdepth]
        exact (ih _ c hb ht).mpr ⟨hs, hPb, hlook'⟩

/-! ### Order -/

theorem lt_of_fits {P k₁ k₂ : Key} {b₁ b₂ : UInt8} (hb : b₁ < b₂)
    (h₁ : b₁ = 0x00 ∧ k₁ = P ∨ P ++ [b₁] <+: k₁) (h₂ : P ++ [b₂] <+: k₂) : k₁ < k₂ := by
  obtain ⟨r₂, rfl⟩ := h₂
  obtain ⟨-, rfl⟩ | ⟨r₁, rfl⟩ := h₁
  · rw [append_assoc]
    nth_rewrite 1 [← append_nil k₁]
    exact append_left_lt (nil_lt_cons _ _)
  · rw [append_assoc, append_assoc]
    exact append_left_lt (cons_lt_cons_iff.mpr (Or.inl hb))

theorem Wf.collectPrefix_sorted (hwf : Wf path m) (search : Key) :
    (collectPrefix m search path.length).Pairwise (fun x y => x.1 < y.1) := by
  induction hwf with
  | leaf =>
    rw [collectPrefix]
    split_ifs <;> simp
  | @inner path m pfx table hm hP hne h0 hch ih =>
    have hdepth : ∀ b : UInt8, path.length + pfx.length + 1 = (path ++ pfx ++ [b]).length := by
      simp [Nat.add_assoc]
    -- where the keys listed under one byte lie
    have hunder : ∀ b x, x ∈ collectChild (table b) search (path.length + pfx.length + 1) →
        b = 0x00 ∧ x.1 = path ++ pfx ∨ b ≠ 0x00 ∧ path ++ pfx ++ [b] <+: x.1 := by
      rintro b ⟨k, e⟩ hx
      cases ht : table b with
      | none => simp [ht, collectChild] at hx
      | some c =>
        rw [ht, collectChild] at hx
        by_cases hb : b = 0x00
        · obtain ⟨e', rfl⟩ := h0 c (hb ▸ ht)
          exact Or.inl ⟨hb, (mem_collectPrefix_leaf.mp hx).2.1.symm⟩
        · rw [hdepth b, (hch b c hb ht).mem_collectPrefix] at hx
          exact Or.inr ⟨hb, hx.2.1⟩
    rw [collectPrefix_of_table hm]
    split_ifs
    · refine pairwise_flatMap.mpr ⟨fun b _ => ?_, allBytes_pairwise.imp ?_⟩
      · cases ht : table b with
        | none => simp [collectChild]
        | some c =>
          rw [collectChild]
          by_cases hb : b = 0x00
          · obtain ⟨e', rfl⟩ := h0 c (hb ▸ ht)
            rw [collectPrefix]
            split_ifs <;> simp
          · rw [hdepth b]
            exact ih b c hb ht
      · intro b₁ b₂ hlt x hx y hy
        refine lt_of_fits hlt ((hunder b₁ x hx).imp_right And.right) ?_
        obtain ⟨rfl, -⟩ | ⟨-, h₂⟩ := hunder b₂ y hy
        · simp at hlt
        · exact h₂
    · exact List.Pairwise.nil

/-! ### Listing a whole tree -/

namespace Root

variable {root root' : Root α}

/-- `art_prefix_iter` from a root. -/
def list (root : Root α) (search : Key) : List (Key × α) :=
  root.elim [] (fun m => artPrefixIter m search 0)

theorem Ok.mem_list (h : root.Ok) (search : Key) {k : Key} {e : α} :
    (k, e) ∈ root.list search ↔ search <+: k ∧ root.lookup k = some e := by
  cases root with
  | none => simp [list, lookup]
  | some m =>
    have := (h m rfl).mem_collectPrefix search k e
    simpa [list, lookup, artPrefixIter] using this

theorem Ok.list_sorted (h : root.Ok) (search : Key) :
    (root.list search).Pairwise (fun x y => x.1 < y.1) := by
  cases root with
  | none => exact List.Pairwise.nil
  | some m => exact (h m rfl).collectPrefix_sorted search

instance : Std.Irrefl (fun x y : UInt8 => x < y) := ⟨UInt8.lt_irrefl⟩
instance : Std.Asymm (fun x y : UInt8 => x < y) := ⟨fun _ _ => UInt8.lt_asymm⟩

theorem list_congr (h : root.Ok) (h' : root'.Ok) (hlook : ∀ k, root.lookup k = root'.lookup k)
    (search : Key) : root.list search = root'.list search := by
  refine eq_of_ordered (fun _ _ => List.lt_asymm) (h.list_sorted search) (h'.list_sorted search) ?_
  rintro ⟨k, e⟩
  rw [h.mem_list, h'.mem_list, hlook]

end Root

/-- **Prefix listing is exact and ordered.** After any run of allowed writes, `art_prefix_iter`
lists the pairs of the map under the prefix, each once and in ascending key order, and another
run to the same map lists the same. -/
theorem art_prefix_iter_exact (ops : List (ArtOp α)) (hops : ArtOp.Runs ∅ ops) (search : Key) :
    let listing := Root.list (ops.foldl ArtOp.onRoot none) search
    let m := ops.foldl ArtOp.onMap ∅
    (∀ k e, (k, e) ∈ listing ↔ search <+: k ∧ m.lookup k = some e) ∧
    listing.Nodup ∧
    listing.Pairwise (fun x y => x.1 < y.1) ∧
    ∀ ops' : List (ArtOp α), ArtOp.Runs ∅ ops' → ops'.foldl ArtOp.onMap ∅ = m →
      Root.list (ops'.foldl ArtOp.onRoot none) search = listing := by
  intro listing m
  have href : ArtOp.Refines (ops.foldl ArtOp.onRoot none) m := ArtOp.refines_empty.foldl hops
  have hsorted := href.ok.list_sorted search
  refine ⟨fun k e => ?_, nodup_of_ordered (fun _ _ => List.lt_asymm) hsorted, hsorted,
    fun ops' hops' hm => ?_⟩
  · rw [href.ok.mem_list search, href.lookup]
  · have href' := ArtOp.refines_empty.foldl hops'
    rw [hm] at href'
    exact Root.list_congr href'.ok href.ok (fun k => by rw [href'.lookup, href.lookup]) search

/-- The listing ends inside the compressed path that two of the three keys share. -/
theorem art_prefix_iter_exact_nested_keys :
    let ops : List (ArtOp Nat) := [.insert [1, 2, 3] 7, .insert [4] 8, .insert [1, 2, 5] 9]
    let listing := Root.list (ops.foldl ArtOp.onRoot none) [1]
    let m := ops.foldl ArtOp.onMap ∅
    listing = [([1, 2, 3], 7), ([1, 2, 5], 9)] ∧ listing.Nodup ∧
      (([1, 2, 3], 7) ∈ listing ↔
        ([1] : Key) <+: [1, 2, 3] ∧ m.lookup [1, 2, 3] = some 7) := by
  intro ops listing m
  have hexact := art_prefix_iter_exact ops ⟨by decide, by decide, by decide, trivial⟩ [1]
  exact ⟨by decide, hexact.2.1, hexact.1 _ _⟩

/-- **Deleting an absent key changes nothing unless the walk drops a subtree.** The tree is any
that inserts of NUL-free keys and deletions lead to; the listings and lookups are all of them. -/
theorem delete_absent_iff (ops : List (ArtOp α)) (hops : ∀ op ∈ ops, op.Inserts) (key : Key)
    (habsent : Root.lookup (ops.foldl ArtOp.onRoot none) key = none) :
    let root := ops.foldl ArtOp.onRoot none
    ((∀ k, Root.lookup (Root.delete root key) k = Root.lookup root k) ∧
      ∀ search, Root.list (Root.delete root key) search = Root.list root search) ↔
    Root.drop root key = none := by
  intro root
  have hok : Root.Ok root := ArtOp.ok_foldl Root.ok_none hops
  rw [← hok.lookup_delete_of_absent habsent]
  constructor
  · exact fun h => h.1
  · exact fun h => ⟨h, Root.list_congr (hok.delete key) hok h⟩

/-- Deleting the absent key `[3]` from a root with two children empties the tree. -/
theorem delete_absent_empties :
    let ops : List (ArtOp Nat) := [.insert [1] 7, .insert [2] 8]
    let root := ops.foldl ArtOp.onRoot none
    (∀ op ∈ ops, op.Inserts) ∧ NulFree [3] ∧ Root.lookup root [3] = none ∧
      Root.lookup root [1] = some 7 ∧ Root.lookup (Root.delete root [3]) [1] = none ∧
      Root.list root [] = [([1], 7), ([2], 8)] ∧ Root.list (Root.delete root [3]) [] = [] := by
  decide

/-- A key that leaves a compressed path is deleted without effect. -/
theorem delete_absent_beside_path :
    let ops : List (ArtOp Nat) := [.insert [1, 2] 7, .insert [1, 3] 8]
    let root := ops.foldl ArtOp.onRoot none
    Root.lookup root [4] = none ∧ Root.drop root [4] = none ∧
      Root.list (Root.delete root [4]) [1] = Root.list root [1] := by
  intro ops root
  have hiff := delete_absent_iff ops (by decide) [4] (by decide)
  exact ⟨by decide, by decide, (hiff.mpr (by decide)).2 [1]⟩

end Ledge.RefStore
