import Ledge.RefStore.ArtLayout

/-!
# Ledge.RefStore.ArtTable

The **layout-independent view** of an inner node: a compressed prefix and a
table from bytes to children. `ArtNode.HasTable` says which table a node has;
each function of `Ledge.RefStore.Art` gets one equation over tables, so that
nothing above this module looks at a layout again.

The layouts differ in one place only. On a missing child, `art_delete` returns
a `Node48` unchanged and drops every other node (`artDelete_missing`).
-/

namespace Ledge.RefStore

variable {α : Type}

namespace ArtNode

/-- `m` is an inner node in a valid layout, with this prefix and these children. -/
inductive HasTable : ArtNode α → List UInt8 → (UInt8 → Option (ArtNode α)) → Prop
  | node4 {n : SortedNode 4 (ArtNode α)} (h : n.Ok) : HasTable (.node4 n) n.pfx n.child
  | node16 {n : SortedNode 16 (ArtNode α)} (h : n.Ok) : HasTable (.node16 n) n.pfx n.child
  | node48 {n : Node48 (ArtNode α)} (h : n.Ok) : HasTable (.node48 n) n.pfx n.child
  | node256 {n : Node256 (ArtNode α)} (h : n.Ok) : HasTable (.node256 n) n.pfx n.children

/-- The same node with another compressed prefix. -/
def withPfx : ArtNode α → List UInt8 → ArtNode α
  | .leaf l, _ => .leaf l
  | .node4 n, p => .node4 { n with pfx := p }
  | .node16 n, p => .node16 { n with pfx := p }
  | .node48 n, p => .node48 { n with pfx := p }
  | .node256 n, p => .node256 { n with pfx := p }

/-- The setter of the node's layout. -/
def withChild : ArtNode α → UInt8 → ArtNode α → ArtNode α
  | .leaf l, _, _ => .leaf l
  | .node4 n, b, c => node4WithChild n b c
  | .node16 n, b, c => node16WithChild n b c
  | .node48 n, b, c => node48WithChild n b c
  | .node256 n, b, c => node256WithChild n b c

/-- The layout whose delete arm keeps the node on a missing child. -/
def isNode48 : ArtNode α → Bool
  | .node48 _ => true
  | _ => false

variable {m : ArtNode α} {pfx : List UInt8} {table : UInt8 → Option (ArtNode α)}

theorem HasTable.congr {pfx' : List UInt8} {table' : UInt8 → Option (ArtNode α)}
    (h : HasTable m pfx table) (hp : pfx = pfx') (ht : table = table') :
    HasTable m pfx' table' := by
  subst hp ht
  exact h

theorem HasTable.withPfx (h : HasTable m pfx table) (p : List UInt8) :
    HasTable (m.withPfx p) p table := by
  cases h with
  | @node4 n h => exact .node4 (n := { n with pfx := p }) ⟨h.count_le, h.sorted, h.filled⟩
  | @node16 n h => exact .node16 (n := { n with pfx := p }) ⟨h.count_le, h.sorted, h.filled⟩
  | @node48 n h =>
    exact .node48 (n := { n with pfx := p }) ⟨h.slot_lt, h.inj, h.filled, h.count_eq⟩
  | @node256 n h => exact .node256 (n := { n with pfx := p }) h

end ArtNode

open ArtNode

/-! ### Setting a child -/

theorem node256WithChild_hasTable {n : Node256 (ArtNode α)} (h : n.Ok) (b : UInt8)
    (c : ArtNode α) :
    HasTable (node256WithChild n b c) n.pfx (Function.update n.children b (some c)) :=
  .node256 (h.update_some b c)

theorem node48WithChild_hasTable {n : Node48 (ArtNode α)} (h : n.Ok) (b : UInt8)
    (c : ArtNode α) :
    HasTable (node48WithChild n b c) n.pfx (Function.update n.child b (some c)) := by
  rw [node48WithChild]
  by_cases hb : n.keyIndex b = 0xFF
  · rw [if_neg (not_not.mpr hb)]
    by_cases hc : n.count < 48
    · rw [if_pos hc]
      split
      · rename_i slot hslot
        have hfree : n.children slot = none := by simpa using List.find?_some hslot
        exact (HasTable.node48 (h.insertFree hb hfree c)).congr rfl (h.child_insertFree hfree c)
      · -- a node that is not full has a free slot
        rename_i hnone
        obtain ⟨i, hi⟩ := h.exists_free hc
        exact absurd hi (by simpa using List.find?_eq_none.mp hnone i (List.mem_finRange i))
    · rw [if_neg hc]
      exact (node256WithChild_hasTable (Node48.grow_ok h) b c).congr n.grow_pfx
        (by rw [n.grow_children])
  · rw [if_pos hb]
    exact (HasTable.node48 (h.setChild b c)).congr rfl (h.child_setChild hb c)

theorem node16WithChild_hasTable {n : Node16 (ArtNode α)} (h : n.Ok) (b : UInt8)
    (c : ArtNode α) :
    HasTable (node16WithChild n b c) n.pfx (Function.update n.child b (some c)) := by
  rw [node16WithChild]
  cases hp : n.position b with
  | some i =>
    have hi := ((h.position_eq_some_iff).mp hp).1
    exact (HasTable.node16 (h.setChild hi c)).congr rfl (h.child_setChild hp c)
  | none =>
    by_cases hc : n.count < 16
    · simp only [if_pos hc]
      exact (HasTable.node16 (h.insertSorted hp hc c)).congr rfl (h.child_insertSorted hp hc c)
    · have hfull : n.count = 16 := by have := h.count_le; omega
      simp only [if_neg hc]
      exact (node48WithChild_hasTable (Node16.grow_ok h hfull) b c).congr rfl
        (by rw [Node16.child_grow h hfull])

theorem node4WithChild_hasTable {n : Node4 (ArtNode α)} (h : n.Ok) (b : UInt8)
    (c : ArtNode α) :
    HasTable (node4WithChild n b c) n.pfx (Function.update n.child b (some c)) := by
  rw [node4WithChild]
  cases hp : n.position b with
  | some i =>
    have hi := ((h.position_eq_some_iff).mp hp).1
    exact (HasTable.node4 (h.setChild hi c)).congr rfl (h.child_setChild hp c)
  | none =>
    by_cases hc : n.count < 4
    · simp only [if_pos hc]
      exact (HasTable.node4 (h.insertSorted hp hc c)).congr rfl (h.child_insertSorted hp hc c)
    · have hfull : n.count = 4 := by have := h.count_le; omega
      simp only [if_neg hc]
      exact (node16WithChild_hasTable (Node4.grow_ok h hfull) b c).congr rfl
        (by rw [Node4.child_grow h hfull])

theorem ArtNode.HasTable.withChild {m : ArtNode α} {pfx : List UInt8}
    {table : UInt8 → Option (ArtNode α)} (h : HasTable m pfx table) (b : UInt8) (c : ArtNode α) :
    HasTable (m.withChild b c) pfx (Function.update table b (some c)) := by
  cases h with
  | node4 h => exact node4WithChild_hasTable h b c
  | node16 h => exact node16WithChild_hasTable h b c
  | node48 h => exact node48WithChild_hasTable h b c
  | node256 h => exact node256WithChild_hasTable h b c

/-- The two-child node of a split, whichever way round the bytes are. -/
theorem pairNode_hasTable (pfx : List UInt8) {b₀ b₁ : UInt8} (hne : b₀ ≠ b₁)
    (c₀ c₁ : ArtNode α) :
    HasTable (pairNode pfx b₀ c₀ b₁ c₁) pfx
      (Function.update (Function.update (fun _ => none) b₀ (some c₀)) b₁ (some c₁)) := by
  -- a sorted pair is two sorted insertions into an empty node
  have hlt : ∀ {x y : UInt8} (cx cy : ArtNode α), x < y →
      HasTable (.node4 ⟨pfx, 2, setAt (setAt (fun _ => 0) 0 x) 1 y,
          setAt (setAt (fun _ => none) 0 (some cx)) 1 (some cy)⟩) pfx
        (Function.update (Function.update (fun _ => none) x (some cx)) y (some cy)) := by
    intro x y cx cy hxy
    have hok : SortedNode.Ok (⟨pfx, 2, setAt (setAt (fun _ => 0) 0 x) 1 y,
        setAt (setAt (fun _ => none) 0 (some cx)) 1 (some cy)⟩ : SortedNode 4 (ArtNode α)) := by
      refine ⟨by simp, fun i j hij hj => ?_, fun i => ?_⟩
      · have hj' : j.val < 2 := hj
        have hi0 : i.val = 0 := by omega
        have hj1 : j.val = 1 := by omega
        simpa [setAt_apply, hi0, hj1] using hxy
      · simp only [setAt_apply]
        split_ifs with h₁ h₀ <;> simp <;> omega
    refine (HasTable.node4 hok).congr rfl (funext fun b => ?_)
    simp only [Function.update_apply]
    split_ifs with hy hx
    · exact hok.child_eq_some_iff.mpr ⟨1, Nat.one_lt_two, by simp [setAt_apply, hy], by
        simp [setAt_apply]⟩
    · exact hok.child_eq_some_iff.mpr ⟨0, Nat.two_pos, by simp [setAt_apply, hx], by
        simp [setAt_apply]⟩
    · rw [hok.child_eq_none_iff, SortedNode.position_eq_none_iff]
      intro i hi
      have hi' : i.val < 2 := hi
      simp only [setAt_apply]
      split_ifs with h₁ h₀
      · exact fun h => hy h.symm
      · exact fun h => hx h.symm
      · omega
  rw [pairNode]
  by_cases h01 : b₀ < b₁
  · simpa only [if_pos h01, SortedNode.new] using hlt c₀ c₁ h01
  · have h10 : b₁ < b₀ := by
      rw [UInt8.lt_iff_toNat_lt] at h01 ⊢
      have : b₀.toNat ≠ b₁.toNat := fun h => hne (UInt8.toNat_inj.mp h)
      omega
    have hswap : ∀ {γ : Type} (a : Fin 4 → γ) (x y : γ),
        setAt (setAt a 1 x) 0 y = setAt (setAt a 0 y) 1 x := by
      intro γ a x y
      funext j
      simp only [setAt_apply]
      split_ifs <;> first | rfl | omega
    simp only [if_neg h01, SortedNode.new, hswap]
    exact (hlt c₁ c₀ h10).congr rfl (Function.update_comm hne.symm _ _ _)

/-! ### The tree functions over tables -/

section

variable {m : ArtNode α} {pfx : List UInt8} {table : UInt8 → Option (ArtNode α)}

theorem artLookup_of_table (h : HasTable m pfx table) (key : Key) (depth : Nat) :
    artLookup m key depth =
      if prefixMismatch pfx key depth then none
      else artLookupChild (table (nextByte key (depth + pfx.length))) key
        (nextDepth key (depth + pfx.length)) := by
  cases h with
  | @node4 n h | @node16 n h =>
    simp only [artLookup, h.occupied_eq_position, SortedNode.child]
    congr 1
    cases n.position (nextByte key (depth + n.pfx.length)) <;> simp [artLookupChild]
  | @node48 n h =>
    simp only [artLookup, Node48.child, Node48.childAt]
    congr 1
    split_ifs <;> simp [artLookupChild]
  | node256 h => simp only [artLookup]

theorem artInsertNode_of_table (h : HasTable m pfx table) (key : Key) (e : α) (depth : Nat) :
    artInsertNode m key e depth =
      if commonPrefixLen pfx (key.drop depth) < pfx.length then
        splitInner pfx (m.withPfx (pfx.drop (commonPrefixLen pfx (key.drop depth) + 1))) key e depth
          (commonPrefixLen pfx (key.drop depth))
      else if key.length ≤ depth + pfx.length then m.withChild 0x00 (newLeaf key e)
      else m.withChild (key.getD (depth + pfx.length) 0x00)
        (artInsert (table (key.getD (depth + pfx.length) 0x00)) key e
          (depth + pfx.length + 1)) := by
  cases h with
  | @node4 n h =>
    simp only [artInsertNode, splitInnerNode4, withPfx, ArtNode.withChild, SortedNode.child]
    cases n.position (key.getD (depth + n.pfx.length) 0x00) <;> simp [artInsert]
  | @node16 n h =>
    simp only [artInsertNode, splitInnerNode16, withPfx, ArtNode.withChild, SortedNode.child]
    cases n.position (key.getD (depth + n.pfx.length) 0x00) <;> simp [artInsert]
  | @node48 n h =>
    simp only [artInsertNode, splitInnerNode48, withPfx, ArtNode.withChild]
    congr 3
    by_cases hidx : n.keyIndex (key.getD (depth + n.pfx.length) 0x00) = 0xFF
    · rw [if_neg (not_not.mpr hidx), Node48.child, if_pos hidx, artInsert]
    · have hlt := h.slot_lt _ hidx
      rw [if_pos hidx, dif_pos hlt, Node48.child, if_neg hidx, Node48.childAt, dif_pos hlt]
  | node256 h => simp only [artInsertNode, splitInnerNode256, withPfx, ArtNode.withChild]

/-! ### Delete over tables -/

variable {key : Key} {depth : Nat} {c : ArtNode α}

/-- Deleting below a missing child: a `Node48` stays, any other node is dropped with
everything in it. -/
theorem artDelete_missing (h : HasTable m pfx table) (hp : prefixMismatch pfx key depth = false)
    (hb : table (nextByte key (depth + pfx.length)) = none) :
    artDelete m key depth = if m.isNode48 then some m else none := by
  cases h with
  | node4 h | node16 h | node48 h =>
    rw [h.child_eq_none_iff] at hb
    simp [artDelete, hp, hb, isNode48]
  | node256 h => simp [artDelete, hp, hb, artDeleteChild, isNode48]

theorem artDelete_replace (h : HasTable m pfx table) {c' : ArtNode α}
    (hp : prefixMismatch pfx key depth = false)
    (hb : table (nextByte key (depth + pfx.length)) = some c)
    (hc : artDelete c key (nextDepth key (depth + pfx.length)) = some c') :
    ∃ m', artDelete m key depth = some m' ∧
      HasTable m' pfx (Function.update table (nextByte key (depth + pfx.length)) (some c')) := by
  cases h with
  | @node4 n h =>
    obtain ⟨i, hi, hk, hci⟩ := h.child_eq_some_iff.mp hb
    have hpos := h.position_eq_some_iff.mpr ⟨hi, hk⟩
    refine ⟨.node4 (n.setChild i c'), ?_, ?_⟩
    · simp [artDelete, hp, hpos, hci, artDeleteChild, hc]
    · exact (HasTable.node4 (h.setChild hi c')).congr rfl (h.child_setChild hpos c')
  | @node16 n h =>
    obtain ⟨i, hi, hk, hci⟩ := h.child_eq_some_iff.mp hb
    have hpos := h.position_eq_some_iff.mpr ⟨hi, hk⟩
    refine ⟨.node16 (n.setChild i c'), ?_, ?_⟩
    · simp [artDelete, hp, hpos, hci, artDeleteChild, hc]
    · exact (HasTable.node16 (h.setChild hi c')).congr rfl (h.child_setChild hpos c')
  | @node48 n h =>
    obtain ⟨hidx, hlt, hci⟩ := Node48.child_eq_some_iff.mp hb
    refine ⟨.node48 { n with
      children := setAt n.children (n.keyIndex (nextByte key (depth + n.pfx.length))).toNat
        (some c') }, ?_, ?_⟩
    · simp only [artDelete, hp, Bool.false_eq_true, if_false, if_neg hidx, dif_pos hlt, hci,
        artDeleteChild, hc]
    · exact (HasTable.node48 (h.setChild _ c')).congr rfl (h.child_setChild hidx c')
  | @node256 n h =>
    refine ⟨.node256 { n with
      children := Function.update n.children (nextByte key (depth + n.pfx.length)) (some c') },
      ?_, ?_⟩
    · simp [artDelete, hp, hb, artDeleteChild, hc]
    · have := h.update_some (nextByte key (depth + n.pfx.length)) c'
      simp only [hb, Option.isNone_some, Bool.false_eq_true, if_false] at this
      exact .node256 this

/-- A child that becomes empty is cleared; the node goes with its last child. -/
theorem artDelete_remove (h : HasTable m pfx table) (hp : prefixMismatch pfx key depth = false)
    (hb : table (nextByte key (depth + pfx.length)) = some c)
    (hc : artDelete c key (nextDepth key (depth + pfx.length)) = none) :
    let table' := Function.update table (nextByte key (depth + pfx.length)) none
    (artDelete m key depth = none ∧ ∀ b, table' b = none) ∨
    ∃ m', artDelete m key depth = some m' ∧ HasTable m' pfx table' ∧ ∃ b, (table' b).isSome := by
  intro table'
  -- in every layout: remove, then test `count`
  have hcases : ∀ m' : ArtNode α, HasTable m' pfx table' → ∀ k : Nat,
      (k = 0 ↔ ∀ b, table' b = none) →
      artDelete m key depth = (if k = 0 then none else some m') →
      (artDelete m key depth = none ∧ ∀ b, table' b = none) ∨
      ∃ m', artDelete m key depth = some m' ∧ HasTable m' pfx table' ∧ ∃ b, (table' b).isSome := by
    intro m' hm' k hk hdel
    by_cases hk0 : k = 0
    · rw [if_pos hk0] at hdel
      exact Or.inl ⟨hdel, hk.mp hk0⟩
    · rw [if_neg hk0] at hdel
      obtain ⟨b, hb⟩ := not_forall.mp (fun h => hk0 (hk.mpr h))
      exact Or.inr ⟨m', hdel, hm', b, Option.isSome_iff_ne_none.mpr hb⟩
  cases h with
  | @node4 n h =>
    obtain ⟨i, hi, hk, hci⟩ := h.child_eq_some_iff.mp hb
    have hpos := h.position_eq_some_iff.mpr ⟨hi, hk⟩
    have htable := h.child_removeAt hpos
    refine hcases (.node4 (n.removeAt i)) ((HasTable.node4 (h.removeAt hi)).congr rfl htable)
      (n.removeAt i).count ?_ ?_
    · rw [(h.removeAt hi).count_eq_zero_iff, htable]
    · simp [artDelete, hp, hpos, hci, artDeleteChild, hc]
  | @node16 n h =>
    obtain ⟨i, hi, hk, hci⟩ := h.child_eq_some_iff.mp hb
    have hpos := h.position_eq_some_iff.mpr ⟨hi, hk⟩
    have htable := h.child_removeAt hpos
    refine hcases (.node16 (n.removeAt i)) ((HasTable.node16 (h.removeAt hi)).congr rfl htable)
      (n.removeAt i).count ?_ ?_
    · rw [(h.removeAt hi).count_eq_zero_iff, htable]
    · simp [artDelete, hp, hpos, hci, artDeleteChild, hc]
  | @node48 n h =>
    obtain ⟨hidx, hlt, hci⟩ := Node48.child_eq_some_iff.mp hb
    have htable := h.child_removeByte hidx
    refine hcases (.node48 _) ((HasTable.node48 (h.removeByte hidx)).congr rfl htable)
      (n.removeByte (nextByte key (depth + n.pfx.length))
        (n.keyIndex (nextByte key (depth + n.pfx.length)))).count ?_ ?_
    · rw [(h.removeByte hidx).count_eq_zero_iff, htable]
    · simp only [artDelete, hp, Bool.false_eq_true, if_false, if_neg hidx, dif_pos hlt, hci,
        artDeleteChild, hc]
  | @node256 n h =>
    have hok := h.removeByte (b := nextByte key (depth + n.pfx.length)) (by rw [hb]; rfl)
    refine hcases (.node256 _) (HasTable.node256 hok)
      (n.removeByte (nextByte key (depth + n.pfx.length))).count ?_ ?_
    · exact hok.count_eq_zero_iff
    · simp [artDelete, hp, hb, artDeleteChild, hc]

/-- The two cases together: the child's slot takes what is left of the child. -/
theorem artDelete_present (h : HasTable m pfx table) (hp : prefixMismatch pfx key depth = false)
    (hb : table (nextByte key (depth + pfx.length)) = some c) :
    let table' := Function.update table (nextByte key (depth + pfx.length))
      (artDelete c key (nextDepth key (depth + pfx.length)))
    (artDelete m key depth = none ∧ ∀ b, table' b = none) ∨
    ∃ m', artDelete m key depth = some m' ∧ HasTable m' pfx table' ∧ ∃ b, (table' b).isSome := by
  cases hc : artDelete c key (nextDepth key (depth + pfx.length)) with
  | none => exact artDelete_remove h hp hb hc
  | some c' =>
    obtain ⟨m', hdel, hm'⟩ := artDelete_replace h hp hb hc
    exact Or.inr ⟨m', hdel, hm', nextByte key (depth + pfx.length), by simp⟩

/-! ### Prefix iteration over tables -/

theorem collectPrefix_of_table (h : HasTable m pfx table) (search : List UInt8) (depth : Nat) :
    collectPrefix m search depth =
      if nodePrefixCompatible pfx search depth then
        allBytes.flatMap (fun b => collectChild (table b) search (depth + pfx.length + 1))
      else [] := by
  cases h with
  | node4 h | node16 h =>
    simp only [collectPrefix]
    rw [h.flatMap_children (fun c => collectChild c search _) rfl]
  | @node48 n h =>
    simp only [collectPrefix]
    congr 2
    funext b
    by_cases hidx : n.keyIndex b = 0xFF
    · rw [if_neg (not_not.mpr hidx), Node48.child, if_pos hidx, collectChild]
    · have hlt := h.slot_lt _ hidx
      rw [if_pos hidx, dif_pos hlt, Node48.child, if_neg hidx, Node48.childAt, dif_pos hlt]
  | node256 h => simp only [collectPrefix]

end

end Ledge.RefStore
