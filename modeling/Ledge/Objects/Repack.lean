import Ledge.Objects.PackWriter
import Ledge.Objects.StoredPacks
import Mathlib.Algebra.GroupWithZero.Nat

/-!
# Ledge.Objects.Repack

`repack` (`repack.rs`): all objects of a store are written into one new pack, which replaces the
packs that were registered, and then the sources are deleted.

The pass lists the ids in an order that is left open. It reads every object, so it fetches the
bodies of packs that are in the cold tier. What it counts in directories is left out of its
statistics.
-/

namespace Ledge.Objects

open Ledge.Core

/-- `WINDOW` -/
def repackWindow : Nat := 250

structure RepackStats where
  objectsSeen : Nat
  objectsDeltified : Nat
  bytesBefore : Nat
  objectsPacked : Nat
  deriving DecidableEq

/-- The rows of the table of a new pack. -/
def packRows (objects : List (ObjectId × PackObject)) (offsets : List Nat) : List LidxEntry :=
  (objects.zip offsets).map (fun x => ⟨x.1.1, x.1.2.sha1, x.1.2.gitType, x.2⟩)

namespace DiskStore

variable (P : Primitives) (encodeDelta : List UInt8 → List UInt8 → List UInt8)

/-! ### Collecting -/

/-- The first pass, over the trees: the hash of the name under which each object was met last. Later
entries come first. -/
def nameHashes : List ObjectId → List (Sha1 × UInt32) → DiskStore → List (Sha1 × UInt32) × DiskStore
  | [], hashes, s => (hashes, s)
  | id :: ids, hashes, s =>
    if (s.gitTypeOf id).toOption.getD 0 ≠ 2 then nameHashes ids hashes s
    else
      match s.read P id with
      | (.error _, s) => nameHashes ids hashes s
      | (.ok content, s) =>
        nameHashes ids
          ((treeEntries content).foldl (fun hashes x => (x.2, packNameHash x.1) :: hashes) hashes) s

/-- The second pass: every object with its type and its names. What cannot be read is passed
over. -/
def collect (hashes : List (Sha1 × UInt32)) :
    List ObjectId → DiskStore → Except LedgeError (List (ObjectId × PackObject)) × DiskStore
  | [], s => (.ok [], s)
  | id :: ids, s =>
    match s.read P id with
    | (.error _, s) => collect hashes ids s
    | (.ok content, s) =>
      match s.gitTypeOf id, s.sha1Of id with
      | .error e, _ => (.error e, s)
      | .ok _, .error e => (.error e, s)
      | .ok gitType, .ok sha1 =>
        match collect hashes ids s with
        | (.error e, s) => (.error e, s)
        | (.ok objects, s) =>
          (.ok ((id, ⟨gitType, content, sha1, (hashes.lookup sha1).getD 0⟩) :: objects), s)

/-- Both passes. -/
def gather (s : DiskStore) (ids : List ObjectId) :
    Except LedgeError (List (ObjectId × PackObject)) × DiskStore :=
  let (hashes, s) := nameHashes P ids [] s
  collect P hashes ids s

/-! ### Replacing -/

/-- The files of the new pack. -/
def publish (s : DiskStore) (pack : List UInt8) (rows : List LidxEntry) : DiskStore :=
  s.setFiles (P.blake3 pack)
    { s.files (P.blake3 pack) with pack := some pack, lidx := some (writeLidx rows) }

/-- Every object is read back. The text of the error of the read is left out. -/
def verifyAll : List ObjectId → DiskStore → Except LedgeError Unit × DiskStore
  | [], s => (.ok (), s)
  | id :: ids, s =>
    match s.read P id with
    | (.error _, s) => (.error (.corruption ("repack verify " ++ id.toHex)), s)
    | (.ok _, s) => verifyAll ids s

/-- The files of an old pack go, but for its marker. -/
def removePack (s : DiskStore) (name : ObjectId) : DiskStore :=
  s.setFiles name { s.files name with pack := none, lidx := none }

/-- Loose files that are in the new pack go, and so do the old packs. -/
def removeSources (s : DiskStore) (ids old : List ObjectId) : DiskStore :=
  old.foldl removePack (ids.foldl delete s)

/-- How many objects of the new pack are deltas. -/
def countDeltas : List ObjectId → DiskStore → Except LedgeError Nat × DiskStore
  | [], s => (.ok 0, s)
  | id :: ids, s =>
    match s.deltaBaseOf P id with
    | (.error e, s) => (.error e, s)
    | (.ok base, s) =>
      match countDeltas ids s with
      | (.error e, s) => (.error e, s)
      | (.ok n, s) => (.ok (n + if base.isSome then 1 else 0), s)

/-- From the written pack on: the pack is published and registered, and its sources are deleted. -/
def replacePacks (s : DiskStore) (ids : List ObjectId) (pack : List UInt8) (rows : List LidxEntry) :
    Except LedgeError (Nat × Nat) × DiskStore :=
  let old := s.packs.map GitPackFile.name
  let s := s.publish P pack rows
  match s.openPack (P.blake3 pack) with
  | .error e => (.error e, s)
  | .ok new =>
    match ids.find? (fun id => id ∉ new.oids) with
    | some missing =>
      (.error (.corruption ("repack: object " ++ missing.toHex ++
        " missing from the new pack; refusing to delete sources")), s)
    | none =>
      match verifyAll P new.oids (s.swapPacks [new]) with
      | (.error e, s) => (.error e, s)
      | (.ok (), s) =>
        match countDeltas P new.oids (s.removeSources new.oids old) with
        | (.error e, s) => (.error e, s)
        | (.ok deltified, s) => (.ok (new.oids.length, deltified), s)

/-- `repack`; `ids` is what `list_all_ids` returns. -/
def repack (s : DiskStore) (ids : List ObjectId) : Except LedgeError RepackStats × DiskStore :=
  let bytesBefore := (ids.map (fun id => ((s.loose.lookup id).map List.length).getD 0)).sum
  match s.gather P ids with
  | (.error e, s) => (.error e, s)
  | (.ok objects, s) =>
    match writeGitPack P encodeDelta (objects.map Prod.snd) repackWindow with
    | .error e => (.error e, s)
    | .ok (pack, offsets) =>
      match s.replacePacks P ids pack (packRows objects offsets) with
      | (.error e, s) => (.error e, s)
      | (.ok (packed, deltified), s) => (.ok ⟨ids.length, deltified, bytesBefore, packed⟩, s)

end DiskStore

end Ledge.Objects
