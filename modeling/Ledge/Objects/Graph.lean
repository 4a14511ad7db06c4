import Ledge.Core.RefName
import Ledge.Lib.Worklist

/-!
# Ledge.Objects.Graph

The walks over the git object graph of a store (`graph.rs`), down to the bytes of commits, trees
and tags.

A walk sees the store through its reads (`StoreView`), any of which may fail.
-/

namespace Ledge.Objects

open Ledge.Core Ledge.Lib List

/-- A git object name, 20 raw bytes. -/
structure Sha1 where
  bytes : List UInt8
  size : bytes.length = 20
  deriving DecidableEq

/-- A name of one byte, repeated. -/
def Sha1.fill (byte : UInt8) : Sha1 := ⟨replicate 20 byte, length_replicate⟩

/-- `try_into` of a slice. -/
def Sha1.ofSlice (bytes : List UInt8) : Option Sha1 :=
  if h : bytes.length = 20 then some ⟨bytes, h⟩ else none

/-! ### What an object names -/

/-- `u8::is_ascii_whitespace` -/
def isAsciiWhitespace (b : UInt8) : Bool :=
  b == 0x20 || b == 0x09 || b == 0x0a || b == 0x0c || b == 0x0d

/-- `trim_ascii` -/
def trimAscii (bytes : List UInt8) : List UInt8 :=
  ((bytes.dropWhile isAsciiWhitespace).reverse.dropWhile isAsciiWhitespace).reverse

/-- The value of a hex digit of either case. -/
def hexVal (b : UInt8) : Option UInt8 :=
  if 0x30 ≤ b ∧ b ≤ 0x39 then some (b - 0x30)
  else if 0x41 ≤ b ∧ b ≤ 0x46 then some (b - 0x37)
  else if 0x61 ≤ b ∧ b ≤ 0x66 then some (b - 0x57)
  else none

/-- `hex::decode_to_slice` -/
def hexDecode : List UInt8 → Option (List UInt8)
  | [] => some []
  | [_] => none
  | hi :: lo :: rest => do
    let hi ← hexVal hi
    let lo ← hexVal lo
    let rest ← hexDecode rest
    some ((hi * 16 + lo) :: rest)

/-- `parse_hex_sha1_bytes` -/
def parseHexSha1Bytes (value : List UInt8) : Option Sha1 :=
  let trimmed := trimAscii value
  if trimmed.length ≠ 40 then none else (hexDecode trimmed).bind Sha1.ofSlice

/-- The lines before the first empty one. -/
def headerLines (content : List UInt8) : List (List UInt8) :=
  (content.splitOn 0x0a).takeWhile (· ≠ [])

/-- What follows `key` on a line that starts with it. -/
def valueOf (key : String) (line : List UInt8) : Option (List UInt8) :=
  if strBytes key <+: line then some (line.drop (strBytes key).length) else none

/-- `commit_tree_sha1` -/
def commitTreeSha1 (content : List UInt8) : Option Sha1 :=
  ((headerLines content).findSome? (valueOf "tree ")).bind parseHexSha1Bytes

/-- `commit_parent_sha1s` -/
def commitParentSha1s (content : List UInt8) : List Sha1 :=
  (headerLines content).filterMap (fun line => (valueOf "parent " line).bind parseHexSha1Bytes)

/-- `tag_object_sha1` -/
def tagObjectSha1 (content : List UInt8) : Option Sha1 :=
  ((headerLines content).findSome? (valueOf "object ")).bind parseHexSha1Bytes

theorem length_rest_lt {content rest : List UInt8} {b : UInt8}
    (h : content.dropWhile (· ≠ 0) = b :: rest) : (rest.drop 20).length < content.length := by
  have hle : (content.dropWhile (· ≠ 0)).length ≤ content.length :=
    (dropWhile_suffix _).length_le
  simp only [h, length_cons, length_drop] at hle ⊢
  omega

/-- `tree_child_sha1s`: after the NUL of each entry stand 20 raw bytes. -/
def treeChildSha1s (content : List UInt8) : List Sha1 :=
  match _h : content.dropWhile (· ≠ 0) with
  | [] => []
  | _ :: rest =>
    match Sha1.ofSlice (rest.take 20) with
    | none => []
    | some sha1 => sha1 :: treeChildSha1s (rest.drop 20)
termination_by content.length
decreasing_by exact length_rest_lt _h

/-- The names in the body of an object, by its git type. -/
def childSha1s (gitType : UInt8) (content : List UInt8) : List Sha1 :=
  if gitType = 1 then (commitTreeSha1 content).toList ++ commitParentSha1s content
  else if gitType = 2 then treeChildSha1s content
  else if gitType = 4 then (tagObjectSha1 content).toList
  else []

/-- The mode of the first entry of a tree. -/
def entryMode (content : List UInt8) : List UInt8 :=
  (content.takeWhile (· ≠ 0)).takeWhile (· ≠ 0x20)

/-- `tree_child_sha1s_in_repo`: an entry of mode `160000` names a commit of another repository. -/
def treeChildSha1sInRepo (content : List UInt8) : List Sha1 :=
  match _h : content.dropWhile (· ≠ 0) with
  | [] => []
  | _ :: rest =>
    match Sha1.ofSlice (rest.take 20) with
    | none => []
    | some sha1 =>
      (if entryMode content ≠ strBytes "160000" then [sha1] else []) ++
        treeChildSha1sInRepo (rest.drop 20)
termination_by content.length
decreasing_by exact length_rest_lt _h

/-- The name in the first entry of a tree: what follows the first space of its header. -/
def entryName (content : List UInt8) : List UInt8 :=
  let header := content.takeWhile (· ≠ 0)
  if 0x20 ∈ header then (header.dropWhile (· ≠ 0x20)).drop 1 else header

/-- `tree_entries` -/
def treeEntries (content : List UInt8) : List (List UInt8 × Sha1) :=
  match _h : content.dropWhile (· ≠ 0) with
  | [] => []
  | _ :: rest =>
    match Sha1.ofSlice (rest.take 20) with
    | none => []
    | some sha1 => (entryName content, sha1) :: treeEntries (rest.drop 20)
termination_by content.length
decreasing_by exact length_rest_lt _h

/-- What a pushed object names in its own repository. -/
def referencedSha1s (gitType : UInt8) (content : List UInt8) : List Sha1 :=
  if gitType = 1 then (commitTreeSha1 content).toList ++ commitParentSha1s content
  else if gitType = 2 then treeChildSha1sInRepo content
  else if gitType = 4 then (tagObjectSha1 content).toList
  else []

theorem treeChildSha1sInRepo_subset (content : List UInt8) :
    treeChildSha1sInRepo content ⊆ treeChildSha1s content := by
  fun_induction treeChildSha1sInRepo content with
  | case1 content h => exact nil_subset _
  | case2 content b rest h hslice => exact nil_subset _
  | case3 content b rest h sha1 hslice ih =>
    rw [treeChildSha1s, h]
    simp only [hslice]
    intro x hx
    rcases mem_append.mp hx with hx | hx
    · split_ifs at hx
      · exact mem_cons.mpr (Or.inl (mem_singleton.mp hx))
      · cases hx
    · exact mem_cons_of_mem sha1 (ih hx)

theorem referencedSha1s_subset (gitType : UInt8) (content : List UInt8) :
    referencedSha1s gitType content ⊆ childSha1s gitType content := by
  unfold referencedSha1s childSha1s
  split_ifs
  · exact List.Subset.refl _
  · exact treeChildSha1sInRepo_subset content
  · exact List.Subset.refl _
  · exact List.Subset.refl _

/-! ### The walks -/

/-- What the walks read of a `DiskObjectStore`. Only stored objects are deltas. -/
structure StoreView where
  sha1Index : Except LedgeError (List (Sha1 × ObjectId))
  read : ObjectId → Except LedgeError (List UInt8)
  gitTypeOf : ObjectId → Except LedgeError UInt8
  deltaBaseOf : ObjectId → Except LedgeError (Option ObjectId)
  deltas : List ObjectId
  mem_deltas : ∀ id base, deltaBaseOf id = .ok (some base) → id ∈ deltas

namespace StoreView

theorem no_deltas : ∀ id base : ObjectId, (.ok none : Except LedgeError (Option ObjectId)) =
    .ok (some base) → id ∈ ([] : List ObjectId) := by
  intro id base h
  cases h

variable (view : StoreView)

/-- The stored objects that `id` names; none if it cannot be read. -/
def children (index : List (Sha1 × ObjectId)) (id : ObjectId) : List ObjectId :=
  match view.read id, view.gitTypeOf id with
  | .ok content, .ok gitType =>
    (childSha1s gitType content).filterMap (fun sha1 =>
      (index.find? (fun x => x.1 = sha1)).map Prod.snd)
  | _, _ => []

/-- The object graph as the index resolves it. -/
def graph (index : List (Sha1 × ObjectId)) : Graph ObjectId where
  succ := view.children index
  ends := index.map Prod.snd
  mem_ends := by
    intro id child hchild
    unfold children at hchild
    split at hchild
    · obtain ⟨sha1, -, hfind⟩ := mem_filterMap.mp hchild
      obtain ⟨x, hx, rfl⟩ := Option.map_eq_some_iff.mp hfind
      exact mem_map_of_mem (mem_of_find?_eq_some hx)
    · cases hchild

/-- `reachable_from` -/
def reachableFrom (roots : List ObjectId) : Except LedgeError (List ObjectId) :=
  if roots = [] then .ok []
  else
    match view.sha1Index with
    | .error e => .error e
    | .ok index => .ok ((view.graph index).visit [] roots)

def links : Links ObjectId LedgeError := ⟨view.deltaBaseOf, view.deltas, view.mem_deltas⟩

/-- `close_under_delta_bases`. The set is a `HashSet` in the source: the order of the first
frontier is unspecified, and what is found does not depend on it. -/
def closeUnderDeltaBases (set : List ObjectId) : Except LedgeError (List ObjectId) :=
  view.links.follow set set

/-- The mark phase of both collectors. -/
def mark (roots : List ObjectId) : Except LedgeError (List ObjectId) :=
  match view.reachableFrom roots with
  | .error e => .error e
  | .ok reachable => view.closeUnderDeltaBases reachable

/-- A readable object names a stored one. -/
def Child (id child : ObjectId) : Prop :=
  ∃ index, view.sha1Index = .ok index ∧ child ∈ view.children index id

/-- An object is stored as a delta. -/
def Base (id base : ObjectId) : Prop := view.deltaBaseOf id = .ok (some base)

/-- Reading all that `root` leads to needs `id`. -/
def Needs (root id : ObjectId) : Prop :=
  ∃ a, Relation.ReflTransGen view.Child root a ∧ Relation.ReflTransGen view.Base a id

variable {view} {roots set : List ObjectId} {id : ObjectId}

theorem mem_reachableFrom (h : view.reachableFrom roots = .ok set) :
    id ∈ set ↔ ∃ root ∈ roots, Relation.ReflTransGen view.Child root id := by
  unfold reachableFrom at h
  split_ifs at h with hroots
  · cases h
    simp [hroots]
  · split at h
    · cases h
    · rename_i index hindex
      cases h
      have hedge : (view.graph index).Edge = view.Child := by
        funext a b
        refine propext ⟨fun hab => ⟨index, hindex, hab⟩, fun hab => ?_⟩
        obtain ⟨index', hindex', hab⟩ := hab
        cases hindex.symm.trans hindex'
        exact hab
      rw [Graph.mem_visit, hedge]

/-- **The mark** finds what is reachable from the roots, and what that needs to be read. -/
theorem mem_mark (h : view.mark roots = .ok set) :
    id ∈ set ↔ ∃ root ∈ roots, ∃ a, Relation.ReflTransGen view.Child root a ∧
      Relation.ReflTransGen view.Base a id := by
  unfold mark at h
  split at h
  · cases h
  · rename_i reachable hreach
    rw [Links.mem_follow h]
    constructor
    · intro hid
      obtain ⟨a, ha, hbase⟩ := hid
      obtain ⟨root, hroot, hchild⟩ := (mem_reachableFrom hreach).mp ha
      exact ⟨root, hroot, a, hchild, hbase⟩
    · intro hid
      obtain ⟨root, hroot, a, hchild, hbase⟩ := hid
      exact ⟨a, (mem_reachableFrom hreach).mpr ⟨root, hroot, hchild⟩, hbase⟩

end StoreView

end Ledge.Objects
