import Ledge.Objects.PackFile
import Ledge.Objects.Table
import Mathlib.Data.Finmap

/-!
# Ledge.Objects.DiskStore

The object store of a node (`disk.rs`): loose files, registered packs, the cache of the index by git
names, and the cold tier that the bodies of packs may be moved to.

A directory is read in an order that is left open: functions that read one take the names in the
order in which they are met. Files are there or not; other faults of the file system are left out.
The cold tier is healthy: what was put there is there. `.idx` files are for git itself and are left
out.
-/

namespace Ledge.Objects

open Ledge.Core Primitives

/-- The files of a pack: `<name>.pack`, `<name>.lidx` and the marker `<name>.pack.s3`. -/
structure PackFiles where
  pack : Option (List UInt8)
  lidx : Option (List UInt8)
  marker : Option (List UInt8)
  deriving DecidableEq

/-- No files. -/
def PackFiles.empty : PackFiles := ⟨none, none, none⟩

/-- The key of a body in the cold tier. A marker holds the key of its own pack, or what a crash has
left of it, which is the key of no other. -/
def bodyKey (name : ObjectId) : List UInt8 := strBytes ("packs/" ++ name.toHex ++ ".pack")

/-- What the cold tier has of a pack. The table is uploaded after the body. -/
structure ColdPack where
  pack : List UInt8
  lidx : Option (List UInt8)
  deriving DecidableEq

/-- `DiskObjectStore` with the files below its `data_dir` -/
structure DiskStore where
  loose : Finmap (fun _ : ObjectId => List UInt8)
  packDir : Finmap (fun _ : ObjectId => PackFiles)
  packs : List GitPackFile
  sha1Cache : Option (List (Sha1 × ObjectId))
  cold : Option (Finmap (fun _ : ObjectId => ColdPack))

/-- The names of a directory, each once. -/
def Lists {β : Type} (order : List ObjectId) (m : Finmap (fun _ : ObjectId => β)) : Prop :=
  order.Nodup ∧ ∀ id, id ∈ order ↔ id ∈ m

namespace DiskStore

/-- A store on an empty directory. -/
def empty : DiskStore := ⟨∅, ∅, [], none, none⟩

variable (P : Primitives) (s : DiskStore)

/-! ### The cold tier -/

def files (name : ObjectId) : PackFiles := (s.packDir.lookup name).getD .empty

def setFiles (name : ObjectId) (files : PackFiles) : DiskStore :=
  { s with packDir := s.packDir.insert name files }

/-- `verify_pack_body`. Packs are named by the hash of their body. -/
def verifyPackBody (bytes : List UInt8) (name : ObjectId) : Except LedgeError Unit :=
  let file := name.toHex ++ ".pack"
  let body := bytes.take (bytes.length - 20)
  if bytes.length < 32 ∨ bytes.take 4 ≠ strBytes "PACK" then
    .error (.corruption ("cold restore " ++ file ++ ": not a git pack (bad magic or too short)"))
  else if (P.sha1 body).bytes ≠ bytes.drop (bytes.length - 20) then
    .error (.corruption ("cold restore " ++ file ++
      ": pack trailer mismatch (truncated or corrupt body)"))
  else if P.blake3 bytes ≠ name then
    .error (.corruption ("cold restore " ++ file ++ ": body hashes to " ++ (P.blake3 bytes).toHex ++
      " (wrong object served for this key)"))
  else .ok ()

/-- `ensure_pack_local` -/
def ensurePackLocal (pf : GitPackFile) : Except LedgeError DiskStore :=
  let files := s.files pf.name
  if files.pack.isSome then .ok s
  else
    match s.cold, files.marker with
    | some cold, some key =>
      match if key = bodyKey pf.name then cold.lookup pf.name else none with
      | none => .error (.unavailable ("s3 get " ++ (fromUtf8 key).getD ""))
      | some c =>
        match verifyPackBody P c.pack pf.name with
        | .error e => .error e
        | .ok () => .ok (s.setFiles pf.name { files with pack := some c.pack })
    | _, _ => .ok s

/-! ### Reading -/

/-- The loop of `read_depth` over the packs. -/
def readPacks (id : ObjectId) : List GitPackFile → DiskStore →
    Except LedgeError (Option (List UInt8)) × DiskStore
  | [], s => (.ok none, s)
  | pf :: packs, s =>
    match s.ensurePackLocal P pf with
    | .error e => (.error e, s)
    | .ok s =>
      match pf.read P (s.files pf.name).pack id with
      | .error e => (.error e, s)
      | .ok (some content) => (.ok (some content), s)
      | .ok none => readPacks id packs s

/-- `read_depth`, with the number of deltas that may still be opened. The text of an error of
`apply_delta` is left out. -/
def readDepth : Nat → DiskStore → ObjectId → Except LedgeError (List UInt8) × DiskStore
  | links, s, id =>
    match s.loose.lookup id with
    | none =>
      match readPacks P id s.packs s with
      | (.error e, s) => (.error e, s)
      | (.ok (some content), s) => (.ok content, s)
      | (.ok none, s) => (.error (.notFound id), s)
    | some raw =>
      let enc := raw.getD 21 0
      if raw.length < 24 then
        (.error (.corruption ("object " ++ id.toHex ++ " too short: " ++ toString raw.length ++
          " bytes")), s)
      else if enc = encRaw ∨ enc = encZlib then (P.decodeBody enc (raw.drop 24) id, s)
      else if enc = encDelta then
        match links with
        | 0 => (.error (.corruption ("object " ++ id.toHex ++ ": delta chain too deep")), s)
        | links + 1 =>
          match ObjectId.ofSlice ((raw.drop 24).take 32) with
          | none =>
            (.error (.corruption ("object " ++ id.toHex ++ ": truncated delta header")), s)
          | some baseId =>
            match readDepth links s baseId with
            | (.error e, s) => (.error e, s)
            | (.ok base, s) =>
              match P.zlibInflate (raw.drop 56) id with
              | .error e => (.error e, s)
              | .ok delta =>
                match applyDelta base delta with
                | .error _ =>
                  (.error (.corruption ("object " ++ id.toHex ++ ": apply_delta")), s)
                | .ok content => (.ok content, s)
      else
        (.error (.corruption ("object " ++ id.toHex ++ ": unknown encoding " ++
          toString enc.toNat)), s)

/-- `read` -/
def read (id : ObjectId) : Except LedgeError (List UInt8) × DiskStore := readDepth P maxChain s id

/-- `exists` -/
def has (id : ObjectId) : Bool :=
  (s.loose.lookup id).isSome || s.packs.any (fun pf => pf.contains id)

/-- `git_type_of` -/
def gitTypeOf (id : ObjectId) : Except LedgeError UInt8 :=
  match s.loose.lookup id with
  | some raw =>
    if raw.length < 24 then .error (.corruption ("object " ++ id.toHex ++ " header truncated"))
    else .ok (raw.getD 20 0)
  | none =>
    match s.packs.findSome? (fun pf => pf.gitTypeOf id) with
    | some gitType => .ok gitType
    | none => .error (.notFound id)

/-- `sha1_of` -/
def sha1Of (id : ObjectId) : Except LedgeError Sha1 :=
  match s.loose.lookup id with
  | some raw =>
    match Sha1.ofSlice (raw.take 20) with
    | none =>
      .error (.corruption ("object " ++ id.toHex ++ " header truncated: " ++
        toString raw.length ++ " bytes"))
    | some sha1 => .ok sha1
  | none =>
    match s.packs.findSome? (fun pf => pf.sha1Of id) with
    | some sha1 => .ok sha1
    | none => .error (.notFound id)

/-- `delta_base_of` -/
def deltaBaseOf (id : ObjectId) : Except LedgeError (Option ObjectId) × DiskStore :=
  match s.loose.lookup id with
  | some raw =>
    if raw.length < 56 ∨ raw.getD 21 0 ≠ encDelta then (.ok none, s)
    else (.ok (ObjectId.ofSlice ((raw.drop 24).take 32)), s)
  | none =>
    match s.packs.find? (fun pf => pf.contains id) with
    | none => (.ok none, s)
    | some pf =>
      match s.ensurePackLocal P pf with
      | .error e => (.error e, s)
      | .ok s => (pf.deltaBaseOf (s.files pf.name).pack id, s)

/-! ### Writing and listing -/

/-- `write_git_object` -/
def writeGitObject (gitType : UInt8) (content : List UInt8) :
    Except LedgeError ObjectId × DiskStore :=
  match gitTypeName gitType with
  | none => (.error (.corruption ("unknown git object type " ++ toString gitType.toNat)), s)
  | some typeName =>
    let id := P.blake3 content
    (.ok id, { s with
      loose := s.loose.insert id (P.looseFile typeName gitType content)
      sha1Cache := none })

/-- `delete` -/
def delete (id : ObjectId) : DiskStore := { s with loose := s.loose.erase id }

/-- `list_all_ids`, in some order; `order` lists the loose files -/
def listAllIds (order : List ObjectId) : List ObjectId :=
  (order ++ s.packs.flatMap GitPackFile.oids).dedup

/-- The git name in the header of a loose file. A file without a whole header is passed over. -/
def headerSha1 (raw : List UInt8) : Option Sha1 :=
  if raw.length < 24 then none else Sha1.ofSlice (raw.take 20)

/-- The map that `sha1_index` builds. Later inserts come first. -/
def scan (order : List ObjectId) : List (Sha1 × ObjectId) :=
  (order.filterMap (fun id => (s.loose.lookup id).bind headerSha1 |>.map
    (fun sha1 => (sha1, id))) ++
    s.packs.flatMap (fun pf => pf.rows.map (fun e => (e.sha1, e.oid)))).reverse

/-- `sha1_index` -/
def sha1Index (order : List ObjectId) : List (Sha1 × ObjectId) × DiskStore :=
  match s.sha1Cache with
  | some map => (map, s)
  | none => (s.scan order, { s with sha1Cache := some (s.scan order) })

/-! ### The set of packs -/

/-- `GitPackFile::open` -/
def openPack (name : ObjectId) : Except LedgeError GitPackFile :=
  match (s.files name).lidx with
  | none => .error .io
  | some lidx =>
    match readLidx lidx with
    | .error e => .error e
    | .ok rows => .ok ⟨name, rows⟩

/-- `swap_packs` -/
def swapPacks (packs : List GitPackFile) : DiskStore := { s with packs := packs, sha1Cache := none }

/-- The packs of a directory that open, of those that a condition selects. -/
def openAll (wanted : PackFiles → Bool) (order : List ObjectId) : List GitPackFile :=
  order.filterMap (fun name => if wanted (s.files name) then (s.openPack name).toOption else none)

/-- `reload_packs` -/
def reloadPacks (order : List ObjectId) : DiskStore :=
  s.swapPacks (s.openAll (fun f => f.pack.isSome || f.marker.isSome) order)

/-- `new` on the directory of a store, with the cold tier that it had -/
def reopen (order : List ObjectId) : DiskStore :=
  s.swapPacks (s.openAll (fun f => f.pack.isSome) order)

structure TierStats where
  packsTiered : Nat
  bytesUploaded : Nat
  deriving DecidableEq

/-- The body of the loop of `tier_packs`: an upload, the marker, and the local body goes. -/
def tierOne (acc : DiskStore × TierStats) (name : ObjectId) : DiskStore × TierStats :=
  let (s, stats) := acc
  let files := s.files name
  match s.cold, files.pack with
  | some cold, some pack =>
    if files.marker.isSome then acc
    else
      let lidx := files.lidx <|> (cold.lookup name).bind ColdPack.lidx
      ({ s.setFiles name { files with pack := none, marker := some (bodyKey name) } with
        cold := some (cold.insert name ⟨pack, lidx⟩) },
      ⟨stats.packsTiered + 1, stats.bytesUploaded + pack.length⟩)
  | _, _ => acc

/-- `tier_packs`; the directory is read twice. -/
def tierPacks (order order' : List ObjectId) : Except LedgeError TierStats × DiskStore :=
  if s.cold.isNone then (.error (.unavailable "s3 cold tier disabled"), s)
  else
    let (s, stats) := order.foldl tierOne (s, ⟨0, 0⟩)
    (.ok stats, s.reloadPacks order')

/-- The body of the loop of `recover_from_s3`: a pack whose table is in the cold tier gets its table
back, and a marker unless its body is there. -/
def recoverOne (acc : DiskStore × Nat) (name : ObjectId) : DiskStore × Nat :=
  let (s, recovered) := acc
  let files := s.files name
  match (s.cold.bind (fun cold => cold.lookup name)).bind ColdPack.lidx with
  | none => acc
  | some lidx =>
    if files.lidx.isSome ∧ (files.pack.isSome ∨ files.marker.isSome) then acc
    else
      (s.setFiles name { files with
        lidx := files.lidx <|> some lidx
        marker := files.marker <|> (if files.pack.isSome then none else some (bodyKey name)) },
      recovered + 1)

/-- `recover_from_s3`; `keys` lists the cold tier. -/
def recoverFromS3 (keys order : List ObjectId) : Nat × DiskStore :=
  if s.cold.isNone then (0, s)
  else
    let (s, recovered) := keys.foldl recoverOne (s, 0)
    (recovered, s.reloadPacks order)

/-! ### Loose objects are read back -/

variable {P} {s} {id : ObjectId} {typeName : String} {gitType : UInt8} {content : List UInt8}

/-- **A loose object is read back exactly if it fits.** -/
theorem readDepth_loose (links : Nat)
    (h : s.loose.lookup id = some (P.looseFile typeName gitType content)) :
    readDepth P links s id = (if P.Fits content then .ok content
      else .error (.corruption ("object " ++ id.toHex ++ ": inflated too large")), s) := by
  have hlength : 24 ≤ (P.looseFile typeName gitType content).length := length_looseFile
  have henc : (P.encodeBody content).1 = encRaw ∨ (P.encodeBody content).1 = encZlib := by
    rcases P.encodeBody_cases content with ⟨h, -⟩ | ⟨h, -⟩
    · exact Or.inr (by rw [h])
    · exact Or.inl (by rw [h])
  unfold readDepth
  rw [h]
  dsimp only
  rw [if_neg (Nat.not_lt_of_le hlength), enc_looseFile, if_pos henc,
    drop_looseFile, P.decodeBody_encodeBody]

theorem gitTypeOf_loose (h : s.loose.lookup id = some (P.looseFile typeName gitType content)) :
    s.gitTypeOf id = .ok gitType := by
  unfold gitTypeOf
  rw [h]
  dsimp only
  rw [if_neg (Nat.not_lt_of_le length_looseFile), type_looseFile]

theorem headerSha1_looseFile :
    headerSha1 (P.looseFile typeName gitType content) = some (P.gitSha1 typeName content) := by
  unfold headerSha1
  rw [if_neg (Nat.not_lt_of_le length_looseFile), take_looseFile, Sha1.ofSlice,
    dif_pos (Sha1.size _)]

theorem sha1Of_loose (h : s.loose.lookup id = some (P.looseFile typeName gitType content)) :
    s.sha1Of id = .ok (P.gitSha1 typeName content) := by
  unfold sha1Of
  rw [h]
  dsimp only
  rw [take_looseFile, Sha1.ofSlice, dif_pos (Sha1.size _)]

theorem mem_scan_of_loose {order : List ObjectId} {raw : List UInt8} {sha1 : Sha1}
    (hid : id ∈ order) (hraw : s.loose.lookup id = some raw) (hsha1 : headerSha1 raw = some sha1) :
    (sha1, id) ∈ s.scan order := by
  refine List.mem_reverse.mpr (List.mem_append_left _ (List.mem_filterMap.mpr ⟨id, hid, ?_⟩))
  rw [hraw, Option.bind_some, hsha1]
  rfl

end DiskStore

end Ledge.Objects
