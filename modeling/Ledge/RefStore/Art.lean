import Mathlib.Data.List.FinRange
import Mathlib.Data.List.Infix
import Mathlib.Logic.Function.Basic

/-!
# Ledge.RefStore.Art

The **adaptive radix tree** of the ref store (`art.rs`): node layouts, lookup,
copy-on-write insert and delete, and prefix iteration.

Design points:

* The four inner layouts are structures over an arbitrary child type, so the
  layout-level functions (`node4WithChild`, growth, removal) are ordinary
  non-recursive functions. `ArtNode` ties the knot.
* A fixed-size array `[T; N]` is a function `Fin N → T`; the 256-entry tables
  are functions on `UInt8`. `Node4` and `Node16` have one shape, `SortedNode`.
* The array loops of the source (shift right on insertion, shift left on
  removal, the growth copies) are folds over the same index range in the same
  order. `Ledge.RefStore.ArtLayout` has their closed forms.
* An `Arc` is the node it points to. No function of the source mutates a
  shared node: every arm clones the inner node before it writes.
-/

namespace Ledge.RefStore

open List

/-- A radix-tree key: the raw bytes of a ref name. -/
abbrev Key := List UInt8

/-! ### Node types -/

/-- Terminal node. `key` is the full original key, not just the suffix. -/
structure LeafNode (α : Type) where
  key : Key
  entry : α

/-- The common shape of `Node4` and `Node16`: `keys[i]` is the byte of
`children[i]` for `i < count`, ascending. -/
structure SortedNode (N : Nat) (β : Type) where
  pfx : List UInt8
  count : Nat
  keys : Fin N → UInt8
  children : Fin N → Option β

abbrev Node4 := SortedNode 4
abbrev Node16 := SortedNode 16

/-- Up to 48 children. `keyIndex byte` is a slot of `children`, `0xFF` for
absent. -/
structure Node48 (β : Type) where
  pfx : List UInt8
  count : Nat
  keyIndex : UInt8 → UInt8
  children : Fin 48 → Option β

/-- Up to 256 children, indexed directly by byte. -/
structure Node256 (β : Type) where
  pfx : List UInt8
  count : Nat
  children : UInt8 → Option β

/-- The four inner node layouts plus the leaf. -/
inductive ArtNode (α : Type) where
  | leaf (l : LeafNode α)
  | node4 (n : SortedNode 4 (ArtNode α))
  | node16 (n : SortedNode 16 (ArtNode α))
  | node48 (n : Node48 (ArtNode α))
  | node256 (n : Node256 (ArtNode α))

/-! ### Constructors -/

def SortedNode.new (N : Nat) (β : Type) (pfx : List UInt8) : SortedNode N β :=
  ⟨pfx, 0, fun _ => 0, fun _ => none⟩

def Node48.new (β : Type) (pfx : List UInt8) : Node48 β :=
  ⟨pfx, 0, fun _ => 0xFF, fun _ => none⟩

def Node256.new (β : Type) (pfx : List UInt8) : Node256 β :=
  ⟨pfx, 0, fun _ => none⟩

/-! ### Prefix utilities -/

/-- Length of the common prefix of `a` and `b`. -/
def commonPrefixLen (a b : List UInt8) : Nat :=
  ((a.zip b).takeWhile (fun p => p.1 == p.2)).length

/-- The guard of every inner arm of lookup and delete: the unconsumed part of
`key` is shorter than the node's compressed prefix, or differs from it. -/
def prefixMismatch (pfx : List UInt8) (key : Key) (depth : Nat) : Bool :=
  let remaining := key.drop depth
  remaining.length < pfx.length || remaining.take pfx.length != pfx

/-- The child byte for `key` at a node whose prefix ends at `after`: an exhausted
key goes under the null byte. -/
def nextByte (key : Key) (after : Nat) : UInt8 :=
  if key.length ≤ after then 0x00 else key.getD after 0x00

/-- The depth passed to that child. -/
def nextDepth (key : Key) (after : Nat) : Nat :=
  if key.length ≤ after then after else after + 1

/-! ### Child search -/

/-- The first `i < count` with `keys[i] == byte`. -/
def SortedNode.position {N : Nat} {β : Type} (n : SortedNode N β) (byte : UInt8) :
    Option (Fin N) :=
  (finRange N).find? (fun i => i.val < n.count && n.keys i == byte)

/-- The scan of lookup: the first `i < count` with `keys[i] == byte` and an
occupied child slot. -/
def SortedNode.occupied {N : Nat} {β : Type} (n : SortedNode N β) (byte : UInt8) :
    Option (Fin N) :=
  (finRange N).find?
    (fun i => i.val < n.count && n.keys i == byte && (n.children i).isSome)

/-- `children[idx as usize]` of a `Node48`. -/
def Node48.childAt {β : Type} (n : Node48 β) (idx : UInt8) : Option β :=
  if h : idx.toNat < 48 then n.children ⟨idx.toNat, h⟩ else none

/-! ### Lookup -/

section

variable {α : Type}

mutual

/-- `art_lookup`: `depth` counts the bytes of `key` consumed by ancestors. -/
def artLookup : ArtNode α → Key → Nat → Option α
  | .leaf l, key, _ => if l.key = key then some l.entry else none
  | .node4 n, key, depth =>
    if prefixMismatch n.pfx key depth then none
    else
      let after := depth + n.pfx.length
      match n.occupied (nextByte key after) with
      | some i => artLookupChild (n.children i) key (nextDepth key after)
      | none => none
  | .node16 n, key, depth =>
    if prefixMismatch n.pfx key depth then none
    else
      let after := depth + n.pfx.length
      match n.occupied (nextByte key after) with
      | some i => artLookupChild (n.children i) key (nextDepth key after)
      | none => none
  | .node48 n, key, depth =>
    if prefixMismatch n.pfx key depth then none
    else
      let after := depth + n.pfx.length
      let idx := n.keyIndex (nextByte key after)
      if idx = 0xFF then none
      else if h : idx.toNat < 48 then
        artLookupChild (n.children ⟨idx.toNat, h⟩) key (nextDepth key after)
      else none
  | .node256 n, key, depth =>
    if prefixMismatch n.pfx key depth then none
    else
      let after := depth + n.pfx.length
      artLookupChild (n.children (nextByte key after)) key (nextDepth key after)

/-- Lookup in a child slot. -/
def artLookupChild : Option (ArtNode α) → Key → Nat → Option α
  | none, _, _ => none
  | some n, key, depth => artLookup n key depth

end

end

/-! ### Node-level child setters -/

section

variable {β : Type}

/-- One iteration of the shift-right loop: `a[i + 1] = a[i]`. -/
def copyRight {N : Nat} {γ : Type} (a : Fin N → γ) (i : Nat) : Fin N → γ :=
  fun j => if h : j.val = i + 1 then a ⟨i, by omega⟩ else a j

/-- `for i in (pos..count).rev() { a[i + 1] = a[i] }` -/
def shiftRight {N : Nat} {γ : Type} (a : Fin N → γ) (pos count : Nat) : Fin N → γ :=
  (range' pos (count - pos)).reverse.foldl copyRight a

/-- `a[i] = v` -/
def setAt {N : Nat} {γ : Type} (a : Fin N → γ) (i : Nat) (v : γ) : Fin N → γ :=
  fun j => if j.val = i then v else a j

/-- Overwrite the child in slot `i`. -/
def SortedNode.setChild {N : Nat} (n : SortedNode N β) (i : Fin N) (child : β) :
    SortedNode N β :=
  { n with children := setAt n.children i.val (some child) }

/-- The sorted position of `byte`: the first `i < count` with `keys[i] > byte`, or
`count`. -/
def SortedNode.insertPos {N : Nat} (n : SortedNode N β) (byte : UInt8) : Nat :=
  ((finRange N).find? (fun i => i.val < n.count && byte < n.keys i)).elim n.count Fin.val

/-- Insert at the sorted position of a node that is not full. -/
def SortedNode.insertSorted {N : Nat} (n : SortedNode N β) (byte : UInt8) (child : β) :
    SortedNode N β :=
  let pos := n.insertPos byte
  { n with
    count := n.count + 1
    keys := setAt (shiftRight n.keys pos n.count) pos byte
    children := setAt (shiftRight n.children pos n.count) pos (some child) }

/-- `Node4 → Node16`: copy all 4 entries. -/
def Node4.grow (n : Node4 β) : Node16 β :=
  { pfx := n.pfx
    count := 4
    keys := (finRange 4).foldl (fun a i => setAt a i.val (n.keys i))
      (SortedNode.new 16 β n.pfx).keys
    children := (finRange 4).foldl (fun a i => setAt a i.val (n.children i))
      (SortedNode.new 16 β n.pfx).children }

/-- `Node16 → Node48`: entry `i` keeps slot `i`. -/
def Node16.grow (n : Node16 β) : Node48 β :=
  { pfx := n.pfx
    count := 16
    keyIndex := (finRange 16).foldl
      (fun a i => Function.update a (n.keys i) (UInt8.ofNat i.val))
      (Node48.new β n.pfx).keyIndex
    children := (finRange 16).foldl (fun a i => setAt a i.val (n.children i))
      (Node48.new β n.pfx).children }

/-- All byte values in ascending order: the range `0usize..256`. -/
def allBytes : List UInt8 := (List.range 256).map UInt8.ofNat

/-- `Node48 → Node256`. -/
def Node48.grow (n : Node48 β) : Node256 β :=
  allBytes.foldl
    (fun m b =>
      let slot := n.keyIndex b
      if slot = 0xFF then m
      else { m with children := Function.update m.children b (n.childAt slot),
                    count := m.count + 1 })
    (Node256.new β n.pfx)

end

section

variable {α : Type}

/-- `node256_with_child` -/
def node256WithChild (n : Node256 (ArtNode α)) (byte : UInt8) (child : ArtNode α) : ArtNode α :=
  .node256 { n with
    count := if (n.children byte).isNone then n.count + 1 else n.count
    children := Function.update n.children byte (some child) }

/-- `node48_with_child`: a full node grows to `Node256`. The `expect` on the free
slot is the last arm; `Node48.exists_free` shows it is not reached. -/
def node48WithChild (n : Node48 (ArtNode α)) (byte : UInt8) (child : ArtNode α) : ArtNode α :=
  let idx := n.keyIndex byte
  if idx ≠ 0xFF then
    .node48 { n with children := setAt n.children idx.toNat (some child) }
  else if n.count < 48 then
    match (finRange 48).find? (fun i => (n.children i).isNone) with
    | some slot =>
      .node48 { n with
        count := n.count + 1
        keyIndex := Function.update n.keyIndex byte (UInt8.ofNat slot.val)
        children := setAt n.children slot.val (some child) }
    | none => .node48 n
  else node256WithChild n.grow byte child

/-- `node16_with_child`: a full node grows to `Node48`. -/
def node16WithChild (n : Node16 (ArtNode α)) (byte : UInt8) (child : ArtNode α) : ArtNode α :=
  match n.position byte with
  | some i => .node16 (n.setChild i child)
  | none =>
    if n.count < 16 then .node16 (n.insertSorted byte child)
    else node48WithChild (Node16.grow n) byte child

/-- `node4_with_child`: a full node grows to `Node16`. -/
def node4WithChild (n : Node4 (ArtNode α)) (byte : UInt8) (child : ArtNode α) : ArtNode α :=
  match n.position byte with
  | some i => .node4 (n.setChild i child)
  | none =>
    if n.count < 4 then .node4 (n.insertSorted byte child)
    else node16WithChild (Node4.grow n) byte child

/-! ### Insert -/

/-- A leaf for `key`: what `art_insert` makes of an empty slot. -/
def newLeaf (key : Key) (entry : α) : ArtNode α := .leaf ⟨key, entry⟩

/-- The two-child `Node4` of every split: `b₀ ↦ c₀` and `b₁ ↦ c₁` in the order the
source's `(p0, p1)` gives them. -/
def pairNode (pfx : List UInt8) (b₀ : UInt8) (c₀ : ArtNode α) (b₁ : UInt8) (c₁ : ArtNode α) :
    ArtNode α :=
  let (p₀, p₁) := if b₀ < b₁ then (0, 1) else (1, 0)
  let n := SortedNode.new 4 (ArtNode α) pfx
  .node4 { n with
    count := 2
    keys := setAt (setAt n.keys p₀ b₀) p₁ b₁
    children := setAt (setAt n.children p₀ (some c₀)) p₁ (some c₁) }

/-- The leaf arm of `art_insert`: overwrite the leaf, or split it at the first byte
where the two keys differ. The shorter of a key and its extension goes under
`0x00`. -/
def insertLeaf (leaf : LeafNode α) (key : Key) (entry : α) (depth : Nat) : ArtNode α :=
  if leaf.key = key then newLeaf key entry
  else
    let cp := commonPrefixLen (leaf.key.drop depth) (key.drop depth)
    let common := (key.drop depth).take cp
    let existingLeaf := ArtNode.leaf leaf
    if leaf.key.length ≤ depth + cp then
      pairNode common 0x00 existingLeaf (key.getD (depth + cp) 0x00) (newLeaf key entry)
    else if key.length ≤ depth + cp then
      pairNode common 0x00 (newLeaf key entry) (leaf.key.getD (depth + cp) 0x00) existingLeaf
    else
      pairNode common (leaf.key.getD (depth + cp) 0x00) existingLeaf
        (key.getD (depth + cp) 0x00) (newLeaf key entry)

/-- The common body of the four `split_inner_node*`: `old` is the existing node with
its prefix trimmed to `pfx[cp + 1..]`. -/
def splitInner (pfx : List UInt8) (old : ArtNode α) (key : Key) (entry : α) (depth cp : Nat) :
    ArtNode α :=
  pairNode (pfx.take cp) (pfx.getD cp 0x00) old (nextByte key (depth + cp)) (newLeaf key entry)

def splitInnerNode4 (n : Node4 (ArtNode α)) (key : Key) (entry : α) (depth cp : Nat) :
    ArtNode α :=
  splitInner n.pfx (.node4 { n with pfx := n.pfx.drop (cp + 1) }) key entry depth cp

def splitInnerNode16 (n : Node16 (ArtNode α)) (key : Key) (entry : α) (depth cp : Nat) :
    ArtNode α :=
  splitInner n.pfx (.node16 { n with pfx := n.pfx.drop (cp + 1) }) key entry depth cp

def splitInnerNode48 (n : Node48 (ArtNode α)) (key : Key) (entry : α) (depth cp : Nat) :
    ArtNode α :=
  splitInner n.pfx (.node48 { n with pfx := n.pfx.drop (cp + 1) }) key entry depth cp

def splitInnerNode256 (n : Node256 (ArtNode α)) (key : Key) (entry : α) (depth cp : Nat) :
    ArtNode α :=
  splitInner n.pfx (.node256 { n with pfx := n.pfx.drop (cp + 1) }) key entry depth cp

mutual

/-- `art_insert` on a present node. A missing child is the `None` arm of the source,
`newLeaf`. -/
def artInsertNode : ArtNode α → Key → α → Nat → ArtNode α
  | .leaf l, key, entry, depth => insertLeaf l key entry depth
  | .node4 n, key, entry, depth =>
    let cp := commonPrefixLen n.pfx (key.drop depth)
    if cp < n.pfx.length then splitInnerNode4 n key entry depth cp
    else
      let after := depth + n.pfx.length
      if key.length ≤ after then node4WithChild n 0x00 (newLeaf key entry)
      else
        let byte := key.getD after 0x00
        let newChild := match n.position byte with
          | some i => artInsert (n.children i) key entry (after + 1)
          | none => newLeaf key entry
        node4WithChild n byte newChild
  | .node16 n, key, entry, depth =>
    let cp := commonPrefixLen n.pfx (key.drop depth)
    if cp < n.pfx.length then splitInnerNode16 n key entry depth cp
    else
      let after := depth + n.pfx.length
      if key.length ≤ after then node16WithChild n 0x00 (newLeaf key entry)
      else
        let byte := key.getD after 0x00
        let newChild := match n.position byte with
          | some i => artInsert (n.children i) key entry (after + 1)
          | none => newLeaf key entry
        node16WithChild n byte newChild
  | .node48 n, key, entry, depth =>
    let cp := commonPrefixLen n.pfx (key.drop depth)
    if cp < n.pfx.length then splitInnerNode48 n key entry depth cp
    else
      let after := depth + n.pfx.length
      if key.length ≤ after then node48WithChild n 0x00 (newLeaf key entry)
      else
        let byte := key.getD after 0x00
        let idx := n.keyIndex byte
        let newChild :=
          if idx ≠ 0xFF then
            if h : idx.toNat < 48 then
              artInsert (n.children ⟨idx.toNat, h⟩) key entry (after + 1)
            else newLeaf key entry
          else newLeaf key entry
        node48WithChild n byte newChild
  | .node256 n, key, entry, depth =>
    let cp := commonPrefixLen n.pfx (key.drop depth)
    if cp < n.pfx.length then splitInnerNode256 n key entry depth cp
    else
      let after := depth + n.pfx.length
      if key.length ≤ after then node256WithChild n 0x00 (newLeaf key entry)
      else
        let byte := key.getD after 0x00
        node256WithChild n byte (artInsert (n.children byte) key entry (after + 1))

/-- `art_insert`: pure insert into an optional root. -/
def artInsert : Option (ArtNode α) → Key → α → Nat → ArtNode α
  | none, key, entry, _ => newLeaf key entry
  | some n, key, entry, depth => artInsertNode n key entry depth

end

end

/-! ### Delete -/

section

variable {β : Type}

/-- One iteration of the shift-left loop: `a[i] = a[i + 1]`. -/
def copyLeft {N : Nat} {γ : Type} (a : Fin N → γ) (i : Nat) : Fin N → γ :=
  fun j => if h : j.val = i ∧ i + 1 < N then a ⟨i + 1, h.2⟩ else a j

/-- `for i in pos..count - 1 { a[i] = a[i + 1] }` -/
def shiftLeft {N : Nat} {γ : Type} (a : Fin N → γ) (pos count : Nat) : Fin N → γ :=
  (range' pos (count - 1 - pos)).foldl copyLeft a

/-- Remove slot `pos` by shifting the remaining entries left. -/
def SortedNode.removeAt {N : Nat} (n : SortedNode N β) (pos : Fin N) : SortedNode N β :=
  { n with
    count := n.count - 1
    keys := setAt (shiftLeft n.keys pos.val n.count) (n.count - 1) 0
    children := setAt (shiftLeft n.children pos.val n.count) (n.count - 1) none }

/-- Clear `byte`, which sits in slot `idx`. -/
def Node48.removeByte (n : Node48 β) (byte idx : UInt8) : Node48 β :=
  { n with
    count := n.count - 1
    keyIndex := Function.update n.keyIndex byte 0xFF
    children := setAt n.children idx.toNat none }

/-- Clear `byte`. -/
def Node256.removeByte (n : Node256 β) (byte : UInt8) : Node256 β :=
  { n with
    count := n.count - 1
    children := Function.update n.children byte none }

end

section

variable {α : Type}

mutual

/-- `art_delete`: `none` when the subtree is empty after the deletion. The `?` of the
source on a missing child of a `Node4`, `Node16` or `Node256` also returns `none`;
only the `Node48` arm returns the node unchanged there. -/
def artDelete : ArtNode α → Key → Nat → Option (ArtNode α)
  | .leaf l, key, _ => if l.key = key then none else some (.leaf l)
  | .node4 n, key, depth =>
    if prefixMismatch n.pfx key depth then some (.node4 n)
    else
      let after := depth + n.pfx.length
      match n.position (nextByte key after) with
      | none => none
      | some pos =>
        match artDeleteChild (n.children pos) key (nextDepth key after) with
        | none => none
        | some (some nc) => some (.node4 (n.setChild pos nc))
        | some none =>
          let m := n.removeAt pos
          if m.count = 0 then none else some (.node4 m)
  | .node16 n, key, depth =>
    if prefixMismatch n.pfx key depth then some (.node16 n)
    else
      let after := depth + n.pfx.length
      match n.position (nextByte key after) with
      | none => none
      | some pos =>
        match artDeleteChild (n.children pos) key (nextDepth key after) with
        | none => none
        | some (some nc) => some (.node16 (n.setChild pos nc))
        | some none =>
          let m := n.removeAt pos
          if m.count = 0 then none else some (.node16 m)
  | .node48 n, key, depth =>
    if prefixMismatch n.pfx key depth then some (.node48 n)
    else
      let after := depth + n.pfx.length
      let byte := nextByte key after
      let idx := n.keyIndex byte
      if idx = 0xFF then some (.node48 n)
      else if h : idx.toNat < 48 then
        match artDeleteChild (n.children ⟨idx.toNat, h⟩) key (nextDepth key after) with
        | none => none
        | some (some nc) =>
          some (.node48 { n with children := setAt n.children idx.toNat (some nc) })
        | some none =>
          let m := n.removeByte byte idx
          if m.count = 0 then none else some (.node48 m)
      else none
  | .node256 n, key, depth =>
    if prefixMismatch n.pfx key depth then some (.node256 n)
    else
      let after := depth + n.pfx.length
      let byte := nextByte key after
      match artDeleteChild (n.children byte) key (nextDepth key after) with
      | none => none
      | some (some nc) =>
        some (.node256 { n with children := Function.update n.children byte (some nc) })
      | some none =>
        let m := n.removeByte byte
        if m.count = 0 then none else some (.node256 m)

/-- Delete below a child slot; the outer `none` is the `?` on an empty slot. -/
def artDeleteChild : Option (ArtNode α) → Key → Nat → Option (Option (ArtNode α))
  | none, _, _ => none
  | some n, key, depth => some (artDelete n key depth)

end

/-! ### Prefix iteration -/

/-- Can this node's subtree contain keys that match the search prefix? -/
def nodePrefixCompatible (nodePfx search : List UInt8) (depth : Nat) : Bool :=
  if search.length ≤ depth then true
  else
    let remaining := search.drop depth
    let overlap := min nodePfx.length remaining.length
    nodePfx.take overlap == remaining.take overlap

mutual

/-- `collect_prefix`, with the pairs it pushes as its result. -/
def collectPrefix : ArtNode α → List UInt8 → Nat → List (Key × α)
  | .leaf l, search, _ => if search <+: l.key then [(l.key, l.entry)] else []
  | .node4 n, search, depth =>
    if nodePrefixCompatible n.pfx search depth then
      (finRange 4).flatMap (fun i =>
        if i.val < n.count then
          collectChild (n.children i) search (depth + n.pfx.length + 1)
        else [])
    else []
  | .node16 n, search, depth =>
    if nodePrefixCompatible n.pfx search depth then
      (finRange 16).flatMap (fun i =>
        if i.val < n.count then
          collectChild (n.children i) search (depth + n.pfx.length + 1)
        else [])
    else []
  | .node48 n, search, depth =>
    if nodePrefixCompatible n.pfx search depth then
      allBytes.flatMap (fun b =>
        let idx := n.keyIndex b
        if idx ≠ 0xFF then
          if h : idx.toNat < 48 then
            collectChild (n.children ⟨idx.toNat, h⟩) search (depth + n.pfx.length + 1)
          else []
        else [])
    else []
  | .node256 n, search, depth =>
    if nodePrefixCompatible n.pfx search depth then
      allBytes.flatMap (fun b =>
        collectChild (n.children b) search (depth + n.pfx.length + 1))
    else []

/-- `collect_prefix` on a child slot. -/
def collectChild : Option (ArtNode α) → List UInt8 → Nat → List (Key × α)
  | none, _, _ => []
  | some n, search, depth => collectPrefix n search depth

end

/-- `art_prefix_iter`: all pairs whose key starts with `search`. -/
def artPrefixIter (node : ArtNode α) (search : List UInt8) (depth : Nat) : List (Key × α) :=
  collectPrefix node search depth

end

end Ledge.RefStore
