import Ledge.Lib.LastWrite
import Ledge.Objects.DiskStore

/-!
# Ledge.Objects.TypedWrites

Sequences of typed writes to a store. An object is addressed by the hash of its content, a git
object is named by its type and its content: **every typed object is served as written exactly if no
content was written with two types** (`typed_objects_served_iff`), and each can be read at all.
-/

namespace Ledge.Objects

open Ledge.Core Ledge.Lib List Option

/-- A call of `write_git_object`. -/
@[ext] structure TypedWrite where
  gitType : UInt8
  content : List UInt8
  deriving DecidableEq

namespace TypedWrite

/-- The write is not refused. -/
def Valid (w : TypedWrite) : Prop := (gitTypeName w.gitType).isSome

instance (w : TypedWrite) : Decidable w.Valid := inferInstanceAs (Decidable (_ = true))

variable (P : Primitives)

/-- The file that the write leaves. -/
def file (w : TypedWrite) : Option (List UInt8) :=
  (gitTypeName w.gitType).map (fun typeName => P.looseFile typeName w.gitType w.content)

/-- The git name of the object. -/
def gitName (w : TypedWrite) : Option Sha1 :=
  (gitTypeName w.gitType).map (fun typeName => P.gitSha1 typeName w.content)

/-- What a write does to the file of one object. -/
def writeTo (id : ObjectId) (w : TypedWrite) : Option (Option (List UInt8)) :=
  if P.blake3 w.content = id then (w.file P).map some else none

variable {P} {w w' : TypedWrite}

theorem Valid.file (h : w.Valid) : ∃ typeName, gitTypeName w.gitType = some typeName ∧
    w.file P = some (P.looseFile typeName w.gitType w.content) ∧
    w.gitName P = some (P.gitSha1 typeName w.content) := by
  obtain ⟨typeName, hname⟩ := isSome_iff_exists.mp h
  refine ⟨typeName, hname, ?_, ?_⟩
  · rw [TypedWrite.file, hname]
    rfl
  · rw [gitName, hname]
    rfl

theorem gitType_of_file {raw : List UInt8} (h : w.file P = some raw) (h' : w'.file P = some raw) :
    w.gitType = w'.gitType := by
  obtain ⟨typeName, -, rfl⟩ := map_eq_some_iff.mp h
  obtain ⟨typeName', -, heq⟩ := map_eq_some_iff.mp h'
  have htype := congrArg (fun raw => raw.getD 20 0) heq
  rw [Primitives.type_looseFile, Primitives.type_looseFile] at htype
  exact htype.symm

theorem headerSha1_file {raw : List UInt8} (h : w.file P = some raw) :
    DiskStore.headerSha1 raw = w.gitName P := by
  obtain ⟨typeName, hname, rfl⟩ := map_eq_some_iff.mp h
  rw [DiskStore.headerSha1_looseFile, gitName, hname]
  rfl

end TypedWrite

/-- The table has this object, under the names that a push computes. -/
structure ObjectTable.Has (t : ObjectTable) (P : Primitives) (w : TypedWrite) : Prop where
  known : P.blake3 w.content ∈ t.known
  content : t.content (P.blake3 w.content) = w.content
  gitType : t.gitType (P.blake3 w.content) = w.gitType
  sha1 : ∀ typeName, gitTypeName w.gitType = some typeName →
    t.sha1 (P.blake3 w.content) = P.gitSha1 typeName w.content

/-- The hashes do not collide on the objects of a sequence. -/
structure Primitives.CollisionFree (P : Primitives) (ws : List TypedWrite) : Prop where
  blake3 : ∀ w ∈ ws, ∀ w' ∈ ws, P.blake3 w.content = P.blake3 w'.content → w.content = w'.content
  sha1 : ∀ w ∈ ws, ∀ w' ∈ ws, w.Valid → w.gitName P = w'.gitName P → w = w'

namespace DiskStore

variable (P : Primitives)

/-- The store after a sequence of writes. -/
def writeAll (s : DiskStore) (ws : List TypedWrite) : DiskStore :=
  ws.foldl (fun s w => (s.writeGitObject P w.gitType w.content).2) s

/-- **A typed object is served**: its git name leads to an object with its type and its content. -/
def Serves (s : DiskStore) (order : List ObjectId) (w : TypedWrite) : Prop :=
  ∃ x ∈ (s.sha1Index order).1.find? (fun x => some x.1 = w.gitName P),
    s.gitTypeOf x.2 = .ok w.gitType ∧ (s.read P x.2).1 = .ok w.content

variable {P} {s : DiskStore} {w : TypedWrite} {ws : List TypedWrite}

theorem lookup_writeGitObject (s : DiskStore) (w : TypedWrite) (id : ObjectId) :
    (s.writeGitObject P w.gitType w.content).2.loose.lookup id =
      (w.writeTo P id).getD (s.loose.lookup id) := by
  unfold writeGitObject TypedWrite.writeTo TypedWrite.file
  cases hname : gitTypeName w.gitType with
  | none => split_ifs <;> rfl
  | some typeName =>
    split_ifs with hid
    · rw [← hid, Finmap.lookup_insert]
      rfl
    · rw [Finmap.lookup_insert_of_ne _ (Ne.symm hid)]
      rfl

theorem lookup_writeAll (s : DiskStore) (ws : List TypedWrite) (id : ObjectId) :
    (s.writeAll P ws).loose.lookup id = settle (TypedWrite.writeTo P id)
    (s.loose.lookup id) ws := by
  induction ws generalizing s with
  | nil => rfl
  | cons w ws ih =>
    rw [settle_cons, ← lookup_writeGitObject]
    exact ih _

theorem packs_writeAll (s : DiskStore) (ws : List TypedWrite) : (s.writeAll P ws).packs =
    s.packs := by
  induction ws generalizing s with
  | nil => rfl
  | cons w ws ih =>
    refine (ih _).trans ?_
    dsimp only [writeGitObject]
    split <;> rfl

theorem sha1Cache_writeAll (h : s.sha1Cache = none) (ws : List TypedWrite) :
    (s.writeAll P ws).sha1Cache = none := by
  induction ws generalizing s with
  | nil => exact h
  | cons w ws ih =>
    refine ih ?_
    dsimp only [writeGitObject]
    split
    · exact h
    · rfl

theorem exists_of_lookup_writeAll {id : ObjectId} {raw : List UInt8}
    (h : (empty.writeAll P ws).loose.lookup id = some raw) :
    ∃ w ∈ ws, P.blake3 w.content = id ∧ w.file P = some raw := by
  rw [lookup_writeAll] at h
  by_cases ht : Touched (TypedWrite.writeTo P id) ws
  · obtain ⟨w, hw, hwrite⟩ := exists_write_of_touched (v := empty.loose.lookup id) ht
    rw [h, TypedWrite.writeTo] at hwrite
    split_ifs at hwrite with hid
    obtain ⟨file, hfile, heq⟩ := map_eq_some_iff.mp hwrite
    cases heq
    exact ⟨w, hw, hid, hfile⟩
  · rw [settle_of_not_touched ht] at h
    cases h

theorem isSome_lookup_writeAll (hw : w ∈ ws) (hvalid : w.Valid) :
    ∃ raw, (empty.writeAll P ws).loose.lookup (P.blake3 w.content) = some raw := by
  obtain ⟨typeName, -, hfile, -⟩ := hvalid.file (P := P)
  have ht : Touched (TypedWrite.writeTo P (P.blake3 w.content)) ws := by
    refine ⟨w, hw, ?_⟩
    rw [TypedWrite.writeTo, if_pos rfl, hfile]
    rfl
  obtain ⟨w', -, hwrite⟩ :=
    exists_write_of_touched (v := empty.loose.lookup (P.blake3 w.content)) ht
  rw [lookup_writeAll]
  rw [TypedWrite.writeTo] at hwrite
  split_ifs at hwrite with hid
  obtain ⟨raw, -, heq⟩ := map_eq_some_iff.mp hwrite
  exact ⟨raw, heq.symm⟩

theorem sha1Index_writeAll (order : List ObjectId) :
    ((empty.writeAll P ws).sha1Index order).1 = (empty.writeAll P ws).scan order := by
  unfold sha1Index
  rw [sha1Cache_writeAll rfl]

theorem file_of_mem_index (hfree : P.CollisionFree ws) {order : List ObjectId} (hw : w ∈ ws)
    (hvalid : w.Valid) {x : Sha1 × ObjectId}
    (hx : x ∈ ((empty.writeAll P ws).sha1Index order).1.find? (fun x => some x.1 = w.gitName P)) :
    x.2 = P.blake3 w.content ∧ (empty.writeAll P ws).loose.lookup x.2 = w.file P := by
  have hfound := find?_some hx
  have hname : some x.1 = w.gitName P := of_decide_eq_true hfound
  have hmem := mem_of_find?_eq_some hx
  rw [sha1Index_writeAll, scan, packs_writeAll, mem_reverse, mem_append] at hmem
  obtain hmem | hmem := hmem
  · obtain ⟨id, -, hid⟩ := mem_filterMap.mp hmem
    obtain ⟨sha1, hsha1, rfl⟩ := map_eq_some_iff.mp hid
    obtain ⟨raw, hraw, hheader⟩ := bind_eq_some_iff.mp hsha1
    obtain ⟨w', hw', rfl, hfile⟩ := exists_of_lookup_writeAll hraw
    have hsame : w.gitName P = w'.gitName P := by
      rw [← hname, ← TypedWrite.headerSha1_file hfile, hheader]
    obtain rfl := hfree.sha1 w hw w' hw' hvalid hsame
    exact ⟨rfl, hraw.trans hfile.symm⟩
  · cases hmem

/-- An object is served exactly if its file has not been replaced and can be read. -/
theorem serves_writeAll_iff (hfree : P.CollisionFree ws) {order : List ObjectId}
    (horder : Lists order (empty.writeAll P ws).loose) (hw : w ∈ ws) (hvalid : w.Valid) :
    (empty.writeAll P ws).Serves P order w ↔
      (empty.writeAll P ws).loose.lookup (P.blake3 w.content) = w.file P ∧ P.Fits w.content := by
  obtain ⟨typeName, hname, hfile, hgit⟩ := hvalid.file (P := P)
  constructor
  · intro h
    obtain ⟨x, hx, -, hread⟩ := h
    obtain ⟨hid, hlookup⟩ := file_of_mem_index hfree hw hvalid hx
    refine ⟨hid ▸ hlookup, ?_⟩
    rw [read, readDepth_loose maxChain (hlookup.trans hfile)] at hread
    by_contra hlarge
    rw [if_neg hlarge] at hread
    cases hread
  · intro h
    obtain ⟨hlookup, hfits⟩ := h
    have hlisted : P.blake3 w.content ∈ order :=
      (horder.2 _).mpr (Finmap.mem_iff.mpr ⟨_, hlookup.trans hfile⟩)
    have hmem : (P.gitSha1 typeName w.content, P.blake3 w.content) ∈
        ((empty.writeAll P ws).sha1Index order).1 := by
      rw [sha1Index_writeAll]
      exact mem_scan_of_loose hlisted (hlookup.trans hfile) headerSha1_looseFile
    have hfound : (((empty.writeAll P ws).sha1Index order).1.find?
        (fun x => some x.1 = w.gitName P)).isSome :=
      find?_isSome.mpr ⟨_, hmem, decide_eq_true hgit.symm⟩
    obtain ⟨x, hx⟩ := isSome_iff_exists.mp hfound
    obtain ⟨-, hlookup'⟩ := file_of_mem_index hfree hw hvalid hx
    refine ⟨x, hx, gitTypeOf_loose (hlookup'.trans hfile), ?_⟩
    rw [read, readDepth_loose maxChain (hlookup'.trans hfile), if_pos hfits]

/-- **Every typed object is served as written exactly if no content was written with two types** and
each content can be read. -/
theorem typed_objects_served_iff (P : Primitives) (ws : List TypedWrite)
    (hfree : P.CollisionFree ws) : (∀ order, Lists order (empty.writeAll P ws).loose →
      ∀ w ∈ ws, w.Valid → (empty.writeAll P ws).Serves P order w) ↔
    (∀ w ∈ ws, ∀ w' ∈ ws, w.Valid → w'.Valid → w.content = w'.content → w.gitType = w'.gitType) ∧
      ∀ w ∈ ws, w.Valid → P.Fits w.content := by
  constructor
  · intro h
    set order := (empty.writeAll P ws).loose.keys.toList with horder
    have hlists : Lists order (empty.writeAll P ws).loose :=
      ⟨Finset.nodup_toList _, fun id => by rw [horder, Finset.mem_toList, Finmap.mem_keys]⟩
    have hserved := fun w hw hvalid =>
      (serves_writeAll_iff hfree hlists hw hvalid).mp (h order hlists w hw hvalid)
    refine ⟨?_, fun w hw hvalid => (hserved w hw hvalid).2⟩
    intro w hw w' hw' hvalid hvalid' hcontent
    obtain ⟨typeName, -, hfile, -⟩ := hvalid.file (P := P)
    have hlookup := (hserved w hw hvalid).1
    have hlookup' := (hserved w' hw' hvalid').1
    rw [← hcontent, hlookup, hfile] at hlookup'
    exact TypedWrite.gitType_of_file hfile hlookup'.symm
  · intro h order horder w hw hvalid
    obtain ⟨htypes, hfits⟩ := h
    refine (serves_writeAll_iff hfree horder hw hvalid).mpr ⟨?_, hfits w hw hvalid⟩
    -- whatever wrote the file last had the same content, and so the same type
    obtain ⟨raw, hraw⟩ := isSome_lookup_writeAll (P := P) hw hvalid
    obtain ⟨w', hw', hid, hfile⟩ := exists_of_lookup_writeAll hraw
    have hcontent := hfree.blake3 w' hw' w hw hid
    have hvalid' : w'.Valid := by
      obtain ⟨typeName, hname, -⟩ := map_eq_some_iff.mp hfile
      exact isSome_iff_exists.mpr ⟨typeName, hname⟩
    have htype := htypes w' hw' w hw hvalid' hvalid hcontent
    obtain rfl := TypedWrite.ext htype hcontent
    rw [hraw, hfile]

/-- The empty blob and the empty tree have the same content: the second write replaces the first,
and the git name of the blob leads nowhere. -/
theorem empty_tree_replaces_empty_blob :
    samplePrimitives.CollisionFree [⟨3, []⟩, ⟨2, []⟩] ∧
      TypedWrite.Valid ⟨3, []⟩ ∧ Lists [samplePrimitives.blake3 []]
        (empty.writeAll samplePrimitives [⟨3, []⟩, ⟨2, []⟩]).loose ∧
      ¬ (empty.writeAll samplePrimitives [⟨3, []⟩, ⟨2, []⟩]).Serves samplePrimitives
        [samplePrimitives.blake3 []] ⟨3, []⟩ := by
  have hfree : samplePrimitives.CollisionFree [⟨3, []⟩, ⟨2, []⟩] :=
    ⟨by decide +kernel, by decide +kernel⟩
  have hlists : Lists [samplePrimitives.blake3 []]
      (empty.writeAll samplePrimitives [⟨3, []⟩, ⟨2, []⟩]).loose := by
    refine ⟨nodup_singleton _, fun id => ?_⟩
    rw [mem_singleton, Finmap.mem_iff]
    constructor
    · intro h
      obtain rfl := h
      exact isSome_lookup_writeAll mem_cons_self (by decide)
    · intro h
      obtain ⟨raw, hraw⟩ := h
      obtain ⟨w, hw, rfl, -⟩ := exists_of_lookup_writeAll hraw
      have hcontent : w.content = [] := by
        simp only [mem_cons, not_mem_nil, or_false] at hw
        rcases hw with rfl | rfl <;> rfl
      rw [hcontent]
  refine ⟨hfree, by decide, hlists, ?_⟩
  rw [serves_writeAll_iff hfree hlists mem_cons_self (by decide)]
  decide +kernel

theorem lists_blobAndTree :
    Lists [.fill 218, .fill 7] (empty.writeAll samplePrimitives [⟨3, [1]⟩, ⟨2, []⟩]).loose := by
  have hloose : (empty.writeAll samplePrimitives [⟨3, [1]⟩, ⟨2, []⟩]).loose.keys =
      {.fill 218, .fill 7} := by decide +kernel
  refine ⟨by decide, fun id => ?_⟩
  rw [← Finmap.mem_keys, hloose]
  simp

/-- A blob and a tree with contents of their own are served. -/
theorem blob_and_tree_served :
    (empty.writeAll samplePrimitives [⟨3, [1]⟩, ⟨2, []⟩]).Serves samplePrimitives
      [.fill 218, .fill 7] ⟨3, [1]⟩ :=
  (typed_objects_served_iff samplePrimitives [⟨3, [1]⟩, ⟨2, []⟩]
    ⟨by decide +kernel, by decide +kernel⟩).mpr ⟨by decide, by decide⟩ _ lists_blobAndTree _
    mem_cons_self (by decide)

end DiskStore

end Ledge.Objects
