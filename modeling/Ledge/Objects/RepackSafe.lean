import Ledge.Objects.Repack
import Ledge.Objects.Catalog

/-!
# Ledge.Objects.RepackSafe

**Whether a repack loses objects** (`repack.rs`).

A pack is named by its bytes, and a repack that writes the same bytes again takes its own pack for
one of those that it replaces: it deletes it (`second_repack_loses`). The check before the deletion
reads loose files first, so it does not notice an object that the reader of packs refuses for its
size. `repack_keeps_iff` says that there is nothing else: all objects stay readable exactly if the
new pack is not one of the registered ones and has every object as it is.
-/

namespace Ledge.Objects

open Ledge.Core List

namespace Catalog

variable (k : Catalog) (P : Primitives)

/-- What is packed of an object. -/
def packObject (hashes : List (Sha1 × UInt32)) (id : ObjectId) : PackObject :=
  ⟨k.gitType id, k.content id, k.sha1 P id, (hashes.lookup (k.sha1 P id)).getD 0⟩

def packObjects (hashes : List (Sha1 × UInt32)) (ids : List ObjectId) :
    List (ObjectId × PackObject) :=
  ids.map (fun id => (id, k.packObject P hashes id))

end Catalog

namespace DiskStore

variable {P : Primitives} {k : Catalog} {encodeDelta : List UInt8 → List UInt8 → List UInt8}
  {s s' : DiskStore} {id : ObjectId} {ids : List ObjectId}

/-! ### Collecting -/

theorem Coherent.nameHashes (h : s.Coherent P k) (ids : List ObjectId)
    (hashes : List (Sha1 × UInt32)) : Fetched s (nameHashes P ids hashes s).2 := by
  induction ids generalizing s hashes with
  | nil => exact Fetched.refl s
  | cons id ids ih =>
    rw [DiskStore.nameHashes]
    split_ifs
    · exact ih h hashes
    · obtain ⟨s₁, hread, hfetched, -⟩ := h.read id
      rw [hread]
      have h₁ := h.fetched hfetched
      split
      · rename_i heq
        obtain ⟨-, rfl⟩ := Prod.mk.inj heq
        exact hfetched.trans (ih h₁ _)
      · rename_i heq
        obtain ⟨-, rfl⟩ := Prod.mk.inj heq
        exact hfetched.trans (ih h₁ _)

/-- The second pass collects every object, and all of them are on disk then. -/
theorem Coherent.collect (h : s.Coherent P k) (hashes : List (Sha1 × UInt32)) (ids : List ObjectId)
    (hids : ∀ id ∈ ids, s.has id = true) :
    ∃ s', collect P hashes ids s = (.ok (k.packObjects P hashes ids), s') ∧ Fetched s s' ∧
      ∀ id ∈ ids, s'.Local id := by
  induction ids generalizing s with
  | nil => exact ⟨s, rfl, Fetched.refl s, nofun⟩
  | cons id ids ih =>
    have hhas := hids id mem_cons_self
    obtain ⟨s₁, hread, hfetched, hlocal⟩ := h.read id
    have h₁ := h.fetched hfetched
    have hhas₁ : s₁.has id = true := by rw [hfetched.has, hhas]
    obtain ⟨s₂, hcollect, hfetched₂, hlocal₂⟩ := ih h₁ fun id' hid' => by
      rw [hfetched.has]
      exact hids id' (mem_cons_of_mem _ hid')
    refine ⟨s₂, ?_, hfetched.trans hfetched₂, fun id' hid' => ?_⟩
    · rw [DiskStore.collect, hread, if_pos hhas]
      dsimp only
      rw [h₁.gitTypeOf hhas₁, h₁.sha1Of hhas₁]
      dsimp only
      rw [hcollect]
      rfl
    · rcases mem_cons.mp hid' with rfl | hid'
      · exact (hlocal hhas).fetched hfetched₂
      · exact hlocal₂ id' hid'

/-- **What a repack collects.** -/
theorem Coherent.gather (h : s.Coherent P k) (hids : ∀ id ∈ ids, s.has id = true) :
    ∃ hashes s', s.gather P ids = (.ok (k.packObjects P hashes ids), s') ∧ Fetched s s' ∧
      ∀ id ∈ ids, s'.Local id := by
  have hfetched := h.nameHashes ids []
  obtain ⟨s₂, hcollect, hfetched₂, hlocal⟩ := (h.fetched hfetched).collect
    (DiskStore.nameHashes P ids [] s).1 ids fun id hid => by
      rw [hfetched.has]
      exact hids id hid
  exact ⟨_, s₂, hcollect, hfetched.trans hfetched₂, hlocal⟩

end DiskStore

/-! ### The new pack -/

theorem oids_packRows {objects : List (ObjectId × PackObject)} {offsets : List Nat}
    (h : offsets.length = objects.length) :
    (packRows objects offsets).map LidxEntry.oid = objects.map Prod.fst := by
  have hfst : (objects.zip offsets).map Prod.fst = objects := map_fst_zip (Nat.le_of_eq h.symm)
  calc (packRows objects offsets).map LidxEntry.oid
      = ((objects.zip offsets).map Prod.fst).map Prod.fst := by
        rw [packRows, map_map, map_map]
        rfl
    _ = objects.map Prod.fst := by rw [hfst]

theorem contains_iff_mem_oids {pf : GitPackFile} {id : ObjectId} :
    pf.contains id = true ↔ id ∈ pf.oids := by
  unfold GitPackFile.contains GitPackFile.row GitPackFile.oids
  rw [find?_isSome, mem_map]
  constructor
  · rintro ⟨e, he, hoid⟩
    exact ⟨e, mem_reverse.mp he, of_decide_eq_true hoid⟩
  · rintro ⟨e, he, rfl⟩
    exact ⟨e, mem_reverse.mpr he, decide_eq_true rfl⟩

section

variable {P : Primitives} {k : Catalog} {encodeDelta : List UInt8 → List UInt8 → List UInt8}
  {hashes : List (Sha1 × UInt32)} {ids : List ObjectId} {pack : List UInt8} {offsets : List Nat}

/-- Every object is read from the new pack as it was packed. -/
def ReadsBack (P : Primitives) (objects : List (ObjectId × PackObject)) (pack : List UInt8)
    (offsets : List Nat) : Prop :=
  ∀ x ∈ objects, GitPackFile.read P ⟨P.blake3 pack, packRows objects offsets⟩ (some pack) x.1 =
    .ok (some x.2.content)

theorem verifyPackBody_writeGitPack {objects : List PackObject} {window : Nat}
    (h : writeGitPack P encodeDelta objects window = .ok (pack, offsets)) :
    DiskStore.verifyPackBody P pack (P.blake3 pack) = .ok () := by
  obtain ⟨body, hheader, rfl⟩ := body_writeGitPack h
  have hbody := isPack_of_header hheader
  unfold GitPackFile.isPack at hbody
  rw [Bool.and_eq_true, decide_eq_true_iff, beq_iff_eq] at hbody
  obtain ⟨hlength, hmagic⟩ := hbody
  have htotal : (body ++ (P.sha1 body).bytes).length = body.length + 20 := by
    rw [length_append, Sha1.size]
  have htake : (body ++ (P.sha1 body).bytes).take 4 = strBytes "PACK" := by
    rw [take_append_of_le_length (by omega), hmagic]
  have hwhole : ¬ (body.length + 20 < 32 ∨ strBytes "PACK" ≠ strBytes "PACK") := by
    rintro (hshort | hne)
    · omega
    · exact hne rfl
  unfold DiskStore.verifyPackBody
  rw [htotal, htake, Nat.add_sub_cancel, take_left, drop_left, if_neg hwhole,
    if_neg (fun hne => hne rfl), if_neg (fun hne => hne rfl)]

variable (hwrite : writeGitPack P encodeDelta ((k.packObjects P hashes ids).map Prod.snd)
  repackWindow = .ok (pack, offsets))

include hwrite

theorem length_offsets : offsets.length = (k.packObjects P hashes ids).length := by
  rw [(offsets_writeGitPack hwrite).1, length_map]

theorem oids_newRows :
    (packRows (k.packObjects P hashes ids) offsets).map LidxEntry.oid = ids := by
  rw [oids_packRows (length_offsets hwrite), Catalog.packObjects, map_map]
  exact map_id ids

omit hwrite in
theorem mem_newRows {e : LidxEntry} (he : e ∈ packRows (k.packObjects P hashes ids) offsets) :
    e.oid ∈ ids ∧ e.gitType = k.gitType e.oid ∧ e.sha1 = k.sha1 P e.oid ∧ e.offset ∈ offsets := by
  obtain ⟨⟨x, offset⟩, hx, rfl⟩ := mem_map.mp he
  obtain ⟨hobject, hoffset⟩ := of_mem_zip hx
  obtain ⟨id, hid, rfl⟩ := mem_map.mp hobject
  exact ⟨hid, rfl, rfl, hoffset⟩

/-- A new pack that has the objects as they are. -/
def newPack (hstorable : ∀ id ∈ ids, k.Storable P id)
    (hreads : ReadsBack P (k.packObjects P hashes ids) pack offsets) : LabelledPack P k where
  body := pack
  rows := packRows (k.packObjects P hashes ids) offsets
  verified := verifyPackBody_writeGitPack hwrite
  offsets e he := Nat.lt_trans ((offsets_writeGitPack hwrite).2.2 _ (mem_newRows he).2.2.2)
    (by decide)
  count := by
    have hcount := (offsets_writeGitPack hwrite).2.1
    have hlength := congrArg List.length (oids_newRows hwrite)
    rw [length_map, Catalog.packObjects, length_map] at hcount
    rw [length_map] at hlength
    omega
  reads id hid := by
    have hmem := contains_iff_mem_oids.mp hid
    rw [GitPackFile.oids, oids_newRows hwrite] at hmem
    exact hreads _ (mem_map_of_mem hmem)
  storable e he := hstorable _ (mem_newRows he).1
  labels e he := ⟨(mem_newRows he).2.1, (mem_newRows he).2.2.1⟩

end

namespace DiskStore

variable {P : Primitives} {k : Catalog} {encodeDelta : List UInt8 → List UInt8 → List UInt8}
  {s s' : DiskStore} {id : ObjectId} {ids : List ObjectId} {pf : GitPackFile} {pack : List UInt8}
  {rows : List LidxEntry}

/-! ### The new pack is registered -/

/-- One pack is registered, and its body is on disk. -/
structure Solo (s : DiskStore) (pf : GitPackFile) (pack : List UInt8) : Prop where
  packs : s.packs = [pf]
  body : (s.files pf.name).pack = some pack

theorem Solo.read (h : s.Solo pf pack) (hloose : s.loose.lookup id = none) :
    s.read P id = (match pf.read P (some pack) id with
      | .error e => .error e
      | .ok (some content) => .ok content
      | .ok none => .error (.notFound id), s) := by
  have hensure : s.ensurePackLocal P pf = .ok s := by
    unfold ensurePackLocal
    dsimp only
    rw [h.body]
    exact if_pos rfl
  rw [read_of_not_loose hloose, h.packs, readPacks, hensure]
  dsimp only
  rw [h.body]
  cases pf.read P (some pack) id with
  | error e => rfl
  | ok found =>
    cases found with
    | none | some content => rfl

/-- The store with a new pack in the place of the registered ones. -/
def withPack (P : Primitives) (s : DiskStore) (pack : List UInt8) (rows : List LidxEntry) :
    DiskStore :=
  (s.publish P pack rows).swapPacks [⟨P.blake3 pack, rows⟩]

theorem files_withPack (s : DiskStore) (pack : List UInt8) (rows : List LidxEntry) (n : ObjectId) :
    (s.withPack P pack rows).files n = if n = P.blake3 pack then
      ⟨some pack, some (writeLidx rows), (s.files n).marker⟩ else s.files n := by
  refine (files_setFiles s (P.blake3 pack) n _).trans ?_
  split_ifs with hn
  · rw [hn]
  · rfl

theorem solo_withPack (s : DiskStore) (pack : List UInt8) (rows : List LidxEntry) :
    (s.withPack P pack rows).Solo ⟨P.blake3 pack, rows⟩ pack := by
  refine ⟨rfl, ?_⟩
  rw [files_withPack, if_pos rfl]

theorem Coherent.read_loose (h : s.Coherent P k) (s' : DiskStore) (hloose : s'.loose = s.loose)
    (hid : (s.loose.lookup id).isSome) : s'.read P id = (.ok (k.content id), s') := by
  obtain ⟨raw, hraw⟩ := Option.isSome_iff_exists.mp hid
  obtain ⟨rfl, hstorable⟩ := h.loose id raw hraw
  rw [← hloose] at hraw
  rw [DiskStore.read, readDepth_loose maxChain hraw, if_pos hstorable.fits]

theorem Coherent.read_withPack_snd (h : s.Coherent P k) (id : ObjectId) :
    ((s.withPack P pack rows).read P id).2 = s.withPack P pack rows := by
  cases hraw : s.loose.lookup id with
  | none => rw [(solo_withPack s pack rows).read hraw]
  | some raw =>
    have hread := h.read_loose (s.withPack P pack rows) rfl (Option.isSome_of_eq_some hraw)
    rw [hread]

theorem verifyAll_cases (hstill : ∀ id, (s.read P id).2 = s) (ids : List ObjectId) :
    ((∀ id ∈ ids, ∃ content, (s.read P id).1 = .ok content) ∧ verifyAll P ids s = (.ok (), s)) ∨
      ((∃ id ∈ ids, ∃ e, (s.read P id).1 = .error e) ∧ ∃ e, verifyAll P ids s = (.error e, s)) := by
  induction ids with
  | nil => exact Or.inl ⟨fun id hid => absurd hid not_mem_nil, rfl⟩
  | cons id ids ih =>
    rw [verifyAll]
    cases hread : s.read P id with
    | mk r s₁ =>
      have hsame : s₁ = s := by
        have hsnd := hstill id
        rwa [hread] at hsnd
      subst hsame
      cases r with
      | error e =>
        exact Or.inr ⟨⟨id, mem_cons_self, e, by rw [hread]⟩, _, rfl⟩
      | ok content =>
        rcases ih with ⟨hall, hok⟩ | ⟨⟨id', hid', hfails⟩, herr⟩
        · refine Or.inl ⟨fun id' hid' => ?_, hok⟩
          rcases mem_cons.mp hid' with rfl | hid'
          · exact ⟨content, by rw [hread]⟩
          · exact hall id' hid'
        · exact Or.inr ⟨⟨id', mem_cons_of_mem _ hid', hfails⟩, herr⟩

/-! ### Sources are deleted -/

theorem foldl_delete (ids : List ObjectId) (s : DiskStore) :
    ids.foldl delete s =
      { s with loose := ids.foldl (fun loose id => loose.erase id) s.loose } := by
  induction ids generalizing s with
  | nil => rfl
  | cons id ids ih => rw [foldl_cons, ih, foldl_cons, delete]

theorem lookup_foldl_erase {β : Type} (ids : List ObjectId) (m : Finmap (fun _ : ObjectId => β))
    (id : ObjectId) : (ids.foldl (fun m id => m.erase id) m).lookup id =
      if id ∈ ids then none else m.lookup id := by
  induction ids generalizing m with
  | nil => rfl
  | cons id' ids ih =>
    rw [foldl_cons, ih]
    by_cases hid : id = id'
    · rw [hid, Finmap.lookup_erase, ite_self, if_pos mem_cons_self]
    · rw [Finmap.lookup_erase_ne hid]
      simp [hid]

theorem foldl_removePack (old : List ObjectId) (s : DiskStore) :
    ∃ packDir, old.foldl removePack s = { s with packDir := packDir } ∧
      ∀ n, (old.foldl removePack s).files n =
        if n ∈ old then { s.files n with pack := none, lidx := none } else s.files n := by
  induction old generalizing s with
  | nil => exact ⟨s.packDir, rfl, fun _ => rfl⟩
  | cons name old ih =>
    obtain ⟨packDir, heq, hfiles⟩ := ih (s.removePack name)
    refine ⟨packDir, heq, fun n => ?_⟩
    rw [foldl_cons, hfiles, removePack, files_setFiles]
    by_cases hn : n = name
    · subst hn
      simp
    · simp [hn]

section

variable (s : DiskStore) (ids old : List ObjectId)

theorem packs_removeSources : (s.removeSources ids old).packs = s.packs := by
  obtain ⟨packDir, heq, -⟩ := foldl_removePack old (ids.foldl delete s)
  rw [removeSources, heq, foldl_delete]

theorem cold_removeSources : (s.removeSources ids old).cold = s.cold := by
  obtain ⟨packDir, heq, -⟩ := foldl_removePack old (ids.foldl delete s)
  rw [removeSources, heq, foldl_delete]

theorem loose_removeSources (id : ObjectId) :
    (s.removeSources ids old).loose.lookup id = if id ∈ ids then none else s.loose.lookup id := by
  obtain ⟨packDir, heq, -⟩ := foldl_removePack old (ids.foldl delete s)
  rw [removeSources, heq, foldl_delete]
  exact lookup_foldl_erase ids s.loose id

theorem files_removeSources (n : ObjectId) : (s.removeSources ids old).files n =
    if n ∈ old then { s.files n with pack := none, lidx := none } else s.files n := by
  obtain ⟨packDir, -, hfiles⟩ := foldl_removePack old (ids.foldl delete s)
  rw [removeSources, hfiles, foldl_delete]
  rfl

end

theorem fetched_deltaBaseOf (s : DiskStore) (id : ObjectId) : Fetched s (s.deltaBaseOf P id).2 := by
  unfold deltaBaseOf
  split
  · split_ifs
    · exact Fetched.refl s
    · exact Fetched.refl s
  · split
    · exact Fetched.refl s
    · rename_i pf hfind
      split
      · exact Fetched.refl s
      · rename_i s₁ hensure
        exact fetched_ensure (mem_of_find?_eq_some hfind) hensure

theorem fetched_countDeltas (ids : List ObjectId) (s : DiskStore) :
    Fetched s (countDeltas P ids s).2 := by
  induction ids generalizing s with
  | nil => exact Fetched.refl s
  | cons id ids ih =>
    have hbase := fetched_deltaBaseOf (P := P) s id
    rw [countDeltas]
    cases hdelta : s.deltaBaseOf P id with
    | mk r s₁ =>
      rw [hdelta] at hbase
      cases r with
      | error e => exact hbase
      | ok base =>
        have hrest := hbase.trans (ih s₁)
        dsimp only
        cases hcount : countDeltas P ids s₁ with
        | mk r s₂ =>
          rw [hcount] at hrest
          cases r with
          | error e | ok n => exact hrest

/-- What is left when the sources are deleted. -/
def replaced (P : Primitives) (s : DiskStore) (ids : List ObjectId) (pack : List UInt8)
    (rows : List LidxEntry) : DiskStore :=
  (s.withPack P pack rows).removeSources ids (s.packs.map GitPackFile.name)

theorem files_replaced (n : ObjectId) : (s.replaced P ids pack rows).files n =
    if n ∈ s.packs.map GitPackFile.name then ⟨none, none, (s.files n).marker⟩
    else if n = P.blake3 pack then ⟨some pack, some (writeLidx rows), (s.files n).marker⟩
    else s.files n := by
  rw [replaced, files_removeSources, files_withPack]
  split_ifs <;> rfl

/-- **The new pack alone makes a coherent store** if it is not one of those that were deleted. -/
theorem Coherent.replaced (h : s.Coherent P k) (p : LabelledPack P k)
    (hids : ∀ id, (s.loose.lookup id).isSome → id ∈ ids)
    (hsafe : p.name ∉ s.packs.map GitPackFile.name ∨ p.rows = []) :
    (s.replaced P ids p.body p.rows).Coherent P k := by
  have hcold : ∀ n, (s.replaced P ids p.body p.rows).coldPack n = s.coldPack n := by
    intro n
    unfold coldPack
    rw [DiskStore.replaced, cold_removeSources]
    rfl
  have hmarker : ∀ n, ((s.replaced P ids p.body p.rows).files n).marker = (s.files n).marker := by
    intro n
    rw [files_replaced]
    split_ifs <;> rfl
  have hnew : p.name ∉ s.packs.map GitPackFile.name → (s.replaced P ids p.body p.rows).files
      p.name = ⟨some p.body, some p.lidx, (s.files p.name).marker⟩ := by
    intro hname
    rw [files_replaced, if_neg hname]
    exact if_pos rfl
  refine ⟨⟨fun id raw hraw => ?_, fun n => ?_⟩, fun pf hpf hne => ?_, fun n hpack hlidx => ?_⟩
  · -- no loose file is left
    rw [DiskStore.replaced, loose_removeSources] at hraw
    split_ifs at hraw with hid
    exact absurd (hids id (Option.isSome_of_eq_some hraw)) hid
  · by_cases hold : n ∈ s.packs.map GitPackFile.name
    · -- the marker of a deleted pack stays
      refine ⟨fun lidx hlidx => ?_, fun key hkey => ?_, fun pack hpack => ?_, fun c hc => ?_⟩
      · rw [files_replaced, if_pos hold] at hlidx
        cases hlidx
      · rw [hmarker] at hkey
        rw [hcold]
        exact (h.filing n).marker key hkey
      · rw [files_replaced, if_pos hold] at hpack
        cases hpack
      · rw [hcold] at hc
        exact (h.filing n).cold c hc
    · by_cases hn : n = p.name
      · subst hn
        refine filing_of_table p ?_ (Or.inl ?_) (fun key hkey => ?_) (fun c hc => ?_)
        · rw [hnew hold]
        · rw [hnew hold]
        · rw [hmarker] at hkey
          rw [hcold]
          exact (h.filing p.name).marker key hkey
        · rw [hcold] at hc
          exact (h.filing p.name).cold c hc
      · refine (h.filing n).of_same ?_ (hcold n)
        rw [files_replaced, if_neg hold]
        exact if_neg hn
  · rw [DiskStore.replaced, packs_removeSources] at hpf
    obtain rfl : pf = p.file := mem_singleton.mp hpf
    have hname := hsafe.resolve_right hne
    refine ⟨p, rfl, ?_⟩
    have hfiles := hnew hname
    exact congrArg PackFiles.lidx hfiles
  · rw [files_replaced] at hpack hlidx
    split_ifs at hpack hlidx with hold hn
    · cases hpack
    · rw [DiskStore.replaced, packs_removeSources, hn]
      exact mem_singleton.mpr rfl
    · exact absurd (h.listed n hpack hlidx) hold

/-! ### The whole pass -/

section

variable {hashes : List (Sha1 × UInt32)} {offsets : List Nat}

/-- The new pack opens, has all objects, and is registered: what is left to decide is whether they
are read back. -/
theorem Coherent.replacePacks (h : s.Coherent P k)
    (hwrite : writeGitPack P encodeDelta ((k.packObjects P hashes ids).map Prod.snd) repackWindow =
      .ok (pack, offsets)) (hrows : rows = packRows (k.packObjects P hashes ids) offsets) :
    ((∀ id ∈ ids, ∃ content, ((s.withPack P pack rows).read P id).1 = .ok content) ∧
        Fetched (s.replaced P ids pack rows) (s.replacePacks P ids pack rows).2) ∨
      ((∃ id ∈ ids, ∃ e, ((s.withPack P pack rows).read P id).1 = .error e) ∧
        (s.replacePacks P ids pack rows).2 = s.withPack P pack rows) := by
  have hoids : rows.map LidxEntry.oid = ids := hrows ▸ oids_newRows hwrite
  have hlidx : readLidx (writeLidx rows) = .ok rows := by
    have hlength := congrArg List.length hoids
    have hcount := (offsets_writeGitPack hwrite).2.1
    rw [length_map] at hlength
    rw [length_map, Catalog.packObjects, length_map] at hcount
    rw [readLidx_writeLidx rows fun e he => ?_, Nat.mod_eq_of_lt (by omega), take_length]
    rw [hrows] at he
    exact Nat.lt_trans ((offsets_writeGitPack hwrite).2.2 _ (mem_newRows he).2.2.2) (by decide)
  have hopen : (s.publish P pack rows).openPack (P.blake3 pack) = .ok ⟨P.blake3 pack, rows⟩ := by
    unfold openPack publish
    rw [files_setFiles, if_pos rfl]
    dsimp only
    rw [hlidx]
  have hguard : ids.find? (fun id => id ∉ (⟨P.blake3 pack, rows⟩ : GitPackFile).oids) = none := by
    rw [find?_eq_none]
    intro id hid
    rw [GitPackFile.oids, hoids]
    simpa using hid
  unfold DiskStore.replacePacks
  dsimp only
  rw [hopen]
  dsimp only
  rw [hguard]
  rw [GitPackFile.oids, hoids]
  rcases verifyAll_cases h.read_withPack_snd ids with ⟨hall, hverify⟩ | ⟨hfails, e, hverify⟩
  · refine Or.inl ⟨hall, ?_⟩
    have hcount := fetched_countDeltas (P := P) ids (s.replaced P ids pack rows)
    rw [withPack] at hverify
    rw [hverify]
    dsimp only
    rw [DiskStore.replaced, withPack] at hcount ⊢
    cases hdeltas : countDeltas P ids
        (((s.publish P pack rows).swapPacks [⟨P.blake3 pack, rows⟩]).removeSources ids
          (s.packs.map GitPackFile.name)) with
    | mk r s₁ =>
      rw [hdeltas] at hcount
      cases r with
      | error e | ok n => exact hcount
  · refine Or.inr ⟨hfails, ?_⟩
    rw [withPack] at hverify
    rw [hverify]
    rfl

end

/-- **What a repack does to a coherent store**: it fetches, and if the pack can be written it
replaces what there was. -/
theorem Coherent.repack (h : s.Coherent P k)
    (encodeDelta : List UInt8 → List UInt8 → List UInt8) (hids : ∀ id ∈ ids, s.has id = true) :
    ∃ hashes s₁, s.gather P ids = (.ok (k.packObjects P hashes ids), s₁) ∧ Fetched s s₁ ∧
      (∀ id ∈ ids, s₁.Local id) ∧
      match writeGitPack P encodeDelta ((k.packObjects P hashes ids).map Prod.snd) repackWindow with
      | .error _ => (s.repack P encodeDelta ids).2 = s₁
      | .ok (pack, offsets) => (s.repack P encodeDelta ids).2 =
          (s₁.replacePacks P ids pack (packRows (k.packObjects P hashes ids) offsets)).2 := by
  obtain ⟨hashes, s₁, hgather, hfetched, hlocal⟩ := h.gather hids
  refine ⟨hashes, s₁, hgather, hfetched, hlocal, ?_⟩
  unfold DiskStore.repack
  rw [hgather]
  dsimp only
  cases writeGitPack P encodeDelta ((k.packObjects P hashes ids).map Prod.snd) repackWindow with
  | error e => rfl
  | ok written =>
    obtain ⟨pack, offsets⟩ := written
    dsimp only
    cases s₁.replacePacks P ids pack (packRows (k.packObjects P hashes ids) offsets) with
    | mk r s₂ =>
      cases r with
      | error e | ok counts => rfl

/-! ### Nothing is lost -/

/-- Everything that was shown is shown, by the running store and by one that is opened on its
directory. -/
def KeepsAll (P : Primitives) (s s' : DiskStore) : Prop :=
  ∀ id content gitType sha1, s.Shows P id content gitType sha1 →
    s'.Shows P id content gitType sha1 ∧
      ∀ order, Lists order s'.packDir → (s'.reopen order).Shows P id content gitType sha1

theorem Local.has (h : s.Local id) : s.has id = true := by
  rcases h with hloose | ⟨pf, hpf, hcontains, -⟩
  · exact has_iff.mpr (Or.inl hloose)
  · exact has_iff.mpr (Or.inr (any_eq_true.mpr ⟨pf, hpf, hcontains⟩))

theorem Coherent.has_reopen (h : s.Coherent P k) {order : List ObjectId}
    (horder : Lists order s.packDir) (hlocal : s.Local id) : (s.reopen order).has id = true := by
  rcases hlocal with hloose | ⟨pf, hpf, hcontains, hpack⟩
  · exact has_iff.mpr (Or.inl hloose)
  · obtain ⟨p, rfl, -, hlidx⟩ := h.backing hpf (rows_ne_of_contains hcontains)
    have hmem : p.file ∈ s.openAll (fun f => f.pack.isSome) order :=
      (h.mem_openAll horder).mpr ⟨p, rfl, hlidx, hpack⟩
    exact has_iff.mpr (Or.inr (any_eq_true.mpr ⟨p.file, hmem, hcontains⟩))

theorem keepsAll_of_local (h : s.Coherent P k) (h' : s'.Coherent P k)
    (hlocal : ∀ id, s.has id = true → s'.Local id) : KeepsAll P s s' := by
  intro id content gitType sha1 hshows
  obtain ⟨hhas, hcatalog⟩ := h.shows_iff.mp hshows
  refine ⟨h'.shows_iff.mpr ⟨(hlocal id hhas).has, hcatalog⟩, fun order horder => ?_⟩
  exact (h'.toArranged.reopen horder).shows_iff.mpr
    ⟨h'.has_reopen horder (hlocal id hhas), hcatalog⟩

/-- **A repack is safe**: if a pack can be written then there is nothing to pack, or the pack is not
registered yet and has every object as it is. -/
def SafeRepack (P : Primitives) (encodeDelta : List UInt8 → List UInt8 → List UInt8) (s : DiskStore)
    (ids : List ObjectId) : Prop :=
  ∀ objects pack offsets, (s.gather P ids).1 = .ok objects →
    writeGitPack P encodeDelta (objects.map Prod.snd) repackWindow = .ok (pack, offsets) →
      objects = [] ∨
        P.blake3 pack ∉ s.packs.map GitPackFile.name ∧ ReadsBack P objects pack offsets

/-- `ids` is what `list_all_ids` returns. -/
def ListsAll (s : DiskStore) (ids : List ObjectId) : Prop :=
  ∃ order, Lists order s.loose ∧ ids.Perm (s.listAllIds order)

theorem ListsAll.mem_iff (h : s.ListsAll ids) : id ∈ ids ↔ s.has id = true := by
  obtain ⟨order, horder, hperm⟩ := h
  rw [hperm.mem_iff, listAllIds, mem_dedup, mem_append, has_iff, horder.2,
    ← Finmap.lookup_isSome, mem_flatMap, packed, any_eq_true]
  simp only [contains_iff_mem_oids]

/-- A safe repack leaves a coherent store with all objects on disk. -/
theorem SafeRepack.coherent (hsafe : s.SafeRepack P encodeDelta ids) (h : s.Coherent P k)
    (hids : s.ListsAll ids) :
    (s.repack P encodeDelta ids).2.Coherent P k ∧
      ∀ id, s.has id = true → (s.repack P encodeDelta ids).2.Local id := by
  obtain ⟨hashes, s₁, hgather, hfetched, hlocal, hstore⟩ :=
    h.repack encodeDelta fun id hid => hids.mem_iff.mp hid
  have h₁ := h.fetched hfetched
  have hhas₁ : ∀ id, s₁.has id = true ↔ id ∈ ids := fun id => by rw [hfetched.has, hids.mem_iff]
  cases hwrite : writeGitPack P encodeDelta ((k.packObjects P hashes ids).map Prod.snd)
    repackWindow with
  | error e =>
    -- nothing was written, but what was read is on disk now
    rw [hwrite] at hstore
    rw [hstore]
    exact ⟨h₁, fun id hid => hlocal id (hids.mem_iff.mpr hid)⟩
  | ok written =>
    obtain ⟨pack, offsets⟩ := written
    rw [hwrite] at hstore
    rw [hstore]
    have hcase := hsafe _ pack offsets (by rw [hgather]) hwrite
    have hreads : ReadsBack P (k.packObjects P hashes ids) pack offsets := by
      rcases hcase with hnil | ⟨-, hreads⟩
      · intro x hx
        rw [hnil] at hx
        cases hx
      · exact hreads
    have hstorable : ∀ id ∈ ids, k.Storable P id := fun id hid => h₁.storable ((hhas₁ id).mpr hid)
    rcases h₁.replacePacks hwrite rfl with ⟨-, hfetched₂⟩ | ⟨⟨id, hid, e, hfails⟩, -⟩
    · have hname : (newPack hwrite hstorable hreads).name ∉ s₁.packs.map GitPackFile.name ∨
          (newPack hwrite hstorable hreads).rows = [] := by
        rw [hfetched.packs]
        rcases hcase with hnil | ⟨hname, -⟩
        · refine Or.inr ?_
          show packRows (k.packObjects P hashes ids) offsets = []
          rw [hnil]
          rfl
        · exact Or.inl hname
      have h₂ := h₁.replaced (newPack hwrite hstorable hreads)
        (fun id hloose => (hhas₁ id).mp (has_iff.mpr (Or.inl hloose))) hname
      refine ⟨h₂.fetched hfetched₂, fun id hid => Local.fetched ?_ hfetched₂⟩
      have hmem := hids.mem_iff.mpr hid
      have hfresh : P.blake3 pack ∉ s₁.packs.map GitPackFile.name := by
        rw [hfetched.packs]
        rcases hcase with hnil | ⟨hname, -⟩
        · rw [Catalog.packObjects, map_eq_nil_iff] at hnil
          rw [hnil] at hmem
          cases hmem
        · exact hname
      refine Or.inr ⟨⟨P.blake3 pack, packRows (k.packObjects P hashes ids) offsets⟩, ?_, ?_, ?_⟩
      · rw [DiskStore.replaced, packs_removeSources]
        exact mem_singleton.mpr rfl
      · rw [contains_iff_mem_oids, GitPackFile.oids, oids_newRows hwrite]
        exact hmem
      · rw [files_replaced, if_neg hfresh, if_pos rfl]
        rfl
    · -- every object is read back
      cases hraw : s₁.loose.lookup id with
      | some raw =>
        rw [h₁.read_loose (s₁.withPack P pack _) rfl (Option.isSome_of_eq_some hraw)] at hfails
        cases hfails
      | none =>
        have hread := hreads _ (mem_map_of_mem hid)
        rw [(solo_withPack s₁ pack _).read hraw, hread] at hfails
        cases hfails

/-- Without a loose file and without packs that open nothing is found when the store is opened
again. -/
theorem read_reopen_bare (order : List ObjectId) (hloose : s.loose.lookup id = none)
    (hfiles : ∀ n, (s.files n).pack.isSome → (s.files n).lidx = none) :
    ((s.reopen order).read P id).1 = .error (.notFound id) := by
  have hpacks : (s.reopen order).packs = [] := by
    show s.openAll (fun f => f.pack.isSome) order = []
    refine filterMap_eq_nil_iff.mpr fun n _ => ?_
    split_ifs with hpack
    · rw [openPack, hfiles n hpack]
      rfl
    · rfl
  rw [read_of_not_loose (s := s.reopen order) hloose, hpacks]
  rfl

/-- If the new pack was registered before, no pack is on disk when the sources are deleted. -/
theorem lidx_of_deleted (h : s.Coherent P k) (hmem : P.blake3 pack ∈ s.packs.map GitPackFile.name)
    (hfetched : Fetched (s.replaced P ids pack rows) s') {n : ObjectId}
    (hpack : (s'.files n).pack.isSome) :
    ((s.replaced P ids pack rows).files n).lidx = none := by
  rw [files_replaced]
  by_cases hold : n ∈ s.packs.map GitPackFile.name
  · rw [if_pos hold]
  · have hn : n ≠ P.blake3 pack := fun heq => hold (heq ▸ hmem)
    rw [if_neg hold, if_neg hn]
    rcases hfetched.pack n with hsame | ⟨-, -, hin, -⟩
    · rw [hsame, files_replaced, if_neg hold, if_neg hn] at hpack
      by_contra hne
      exact hold (h.listed n hpack (Option.isSome_iff_ne_none.mpr hne))
    · rw [replaced, packs_removeSources] at hin
      exact absurd (mem_singleton.mp hin) hn

theorem Solo.fetched (h : s.Solo pf pack) (hfetched : Fetched s s') : s'.Solo pf pack := by
  refine ⟨hfetched.packs.trans h.packs, ?_⟩
  rcases hfetched.pack pf.name with hsame | ⟨hnone, -⟩
  · exact hsame.trans h.body
  · rw [h.body] at hnone
    cases hnone

theorem solo_replaced (h : P.blake3 pack ∉ s.packs.map GitPackFile.name) :
    (s.replaced P ids pack rows).Solo ⟨P.blake3 pack, rows⟩ pack := by
  refine ⟨by rw [replaced, packs_removeSources]; rfl, ?_⟩
  rw [files_replaced, if_neg h, if_pos rfl]

/-- **When a repack loses nothing.** -/
theorem Coherent.keepsAll_repack_iff (h : s.Coherent P k) (hids : s.ListsAll ids) :
    KeepsAll P s (s.repack P encodeDelta ids).2 ↔ s.SafeRepack P encodeDelta ids := by
  constructor
  · intro hkeeps objects pack offsets hobjects hwrite
    obtain ⟨hashes, s₁, hgather, hfetched, -, hstore⟩ :=
      h.repack encodeDelta fun id hid => hids.mem_iff.mp hid
    have h₁ := h.fetched hfetched
    rw [hgather] at hobjects
    obtain rfl : k.packObjects P hashes ids = objects := Except.ok.inj hobjects
    rw [hwrite] at hstore
    have hshows : ∀ id ∈ ids, s.Shows P id (k.content id) (k.gitType id) (k.sha1 P id) :=
      fun id hid => h.shows_iff.mpr ⟨hids.mem_iff.mp hid, rfl, rfl, rfl⟩
    rw [hstore] at hkeeps
    rcases h₁.replacePacks hwrite rfl with ⟨-, hfetched₂⟩ | ⟨⟨id, hid, e, hfails⟩, hstop⟩
    · set s₂ := (s₁.replacePacks P ids pack (packRows (k.packObjects P hashes ids)
        offsets)).2 with hs₂
      have hloose : ∀ id ∈ ids, s₂.loose.lookup id = none := by
        intro id hid
        rw [hfetched₂.loose, DiskStore.replaced, loose_removeSources, if_pos hid]
      by_cases hnil : k.packObjects P hashes ids = []
      · exact Or.inl hnil
      · have hfresh : P.blake3 pack ∉ s₁.packs.map GitPackFile.name := by
          -- else the new pack is deleted with the others, and nothing is found on disk
          intro hmem
          obtain ⟨⟨id, o⟩, hx⟩ := exists_mem_of_ne_nil _ hnil
          obtain ⟨id, hid, -⟩ := mem_map.mp hx
          obtain ⟨order, horder⟩ := exists_lists s₂.packDir
          have hread := ((hkeeps id _ _ _ (hshows id hid)).2 order horder).read
          rw [read_reopen_bare order (hloose id hid) fun n hpack => by
            rw [hfetched₂.lidx]
            exact lidx_of_deleted h₁ hmem hfetched₂ hpack] at hread
          cases hread
        refine Or.inr ⟨hfetched.packs ▸ hfresh, fun x hx => ?_⟩
        obtain ⟨id, hid, rfl⟩ := mem_map.mp hx
        have hread := (hkeeps id _ _ _ (hshows id hid)).1.read
        rw [((solo_replaced hfresh).fetched hfetched₂).read (hloose id hid)] at hread
        cases hnew : GitPackFile.read P
            ⟨P.blake3 pack, packRows (k.packObjects P hashes ids) offsets⟩ (some pack) id with
        | error e =>
          rw [hnew] at hread
          cases hread
        | ok found =>
          rw [hnew] at hread
          cases found with
          | none => cases hread
          | some content =>
            obtain rfl : content = k.content id := Except.ok.inj hread
            rfl
    · -- the check found an object that cannot be read
      rw [hstop] at hkeeps
      have hread := (hkeeps id _ _ _ (hshows id hid)).1.read
      rw [hfails] at hread
      cases hread
  · intro hsafe
    obtain ⟨h', hlocal⟩ := hsafe.coherent h hids
    exact keepsAll_of_local h h' hlocal

/-! ### Sizes -/

theorem readsBack_of_small {hashes : List (Sha1 × UInt32)} {offsets : List Nat}
    (hwrite : writeGitPack P encodeDelta ((k.packObjects P hashes ids).map Prod.snd) repackWindow =
      .ok (pack, offsets)) (hstorable : ∀ id ∈ ids, k.Storable P id)
    (hsmall : ∀ id ∈ ids, (k.content id).length ≤ maxPackObject) :
    ReadsBack P (k.packObjects P hashes ids) pack offsets := by
  have hpackable : ∀ o ∈ (k.packObjects P hashes ids).map Prod.snd, o.Packable := by
    intro o ho
    obtain ⟨x, hx, rfl⟩ := mem_map.mp ho
    obtain ⟨id, hid, rfl⟩ := mem_map.mp hx
    exact ⟨(hstorable id hid).range.1, (hstorable id hid).range.2, hsmall id hid⟩
  have hmagic : GitPackFile.isPack pack = true := by
    obtain ⟨body, hheader, rfl⟩ := body_writeGitPack hwrite
    exact isPack_of_header (hheader.trans (prefix_append _ _))
  intro x hx
  obtain ⟨id, hid, rfl⟩ := mem_map.mp hx
  have hcontains : GitPackFile.contains
      ⟨P.blake3 pack, packRows (k.packObjects P hashes ids) offsets⟩ id = true := by
    rw [contains_iff_mem_oids, GitPackFile.oids, oids_newRows hwrite]
    exact hid
  obtain ⟨e, he⟩ := Option.isSome_iff_exists.mp hcontains
  have hfind : (packRows (k.packObjects P hashes ids) offsets).reverse.find? (fun e => e.oid = id) =
      some e := he
  have hoid := find?_some hfind
  obtain rfl : e.oid = id := of_decide_eq_true hoid
  -- the row is one of the table, at the place of its object
  obtain ⟨i, hi⟩ := mem_iff_getElem?.mp (mem_reverse.mp (mem_of_find?_eq_some hfind))
  rw [packRows, getElem?_map] at hi
  obtain ⟨⟨y, offset⟩, hzip, rfl⟩ := Option.map_eq_some_iff.mp hi
  obtain ⟨hobject, hoffset⟩ := getElem?_zip_eq_some.mp hzip
  obtain ⟨id', -, rfl⟩ := mem_map.mp (mem_of_getElem? hobject)
  have hinput : ((k.packObjects P hashes ids).map Prod.snd)[i]? =
      some (k.packObject P hashes id') := by
    rw [getElem?_map, hobject]
    rfl
  obtain ⟨offset', hoffset', -, hread⟩ := readAt_writeGitPack hpackable hwrite hinput
    ⟨P.blake3 pack, packRows (k.packObjects P hashes ids) offsets⟩
  obtain rfl : offset = offset' := Option.some.inj (hoffset.symm.trans hoffset')
  unfold GitPackFile.read
  rw [he]
  dsimp only
  rw [if_pos hmagic, hread]

/-- **Up to 1 GiB only the name of the new pack matters.** -/
theorem Coherent.safeRepack_of_small (h : s.Coherent P k) (hids : s.ListsAll ids)
    (hsmall : ∀ id ∈ ids, (k.content id).length ≤ maxPackObject)
    (hfresh : ∀ objects pack offsets, (s.gather P ids).1 = .ok objects →
      writeGitPack P encodeDelta (objects.map Prod.snd) repackWindow = .ok (pack, offsets) →
        P.blake3 pack ∉ s.packs.map GitPackFile.name) : s.SafeRepack P encodeDelta ids := by
  intro objects pack offsets hobjects hwrite
  refine Or.inr ⟨hfresh objects pack offsets hobjects hwrite, ?_⟩
  obtain ⟨hashes, s₁, hgather, -⟩ := h.gather fun id hid => hids.mem_iff.mp hid
  rw [hgather] at hobjects
  obtain rfl : k.packObjects P hashes ids = objects := Except.ok.inj hobjects
  exact readsBack_of_small hwrite (fun id hid => h.storable (hids.mem_iff.mp hid)) hsmall

/-- **A single object above 1 GiB** is not read back, whatever its name. -/
theorem Coherent.not_safeRepack_of_large (h : s.Coherent P k) (hids : s.ListsAll [id])
    (hlarge : maxPackObject < (k.content id).length) (hsize : (k.content id).length < 2 ^ 64) :
    ¬ s.SafeRepack P encodeDelta [id] := by
  intro hsafe
  have hhas := hids.mem_iff.mp mem_cons_self
  obtain ⟨hashes, s₁, hgather, -⟩ := h.gather fun id' hid' => hids.mem_iff.mp hid'
  have hwrite := @writeGitPack_singleton P encodeDelta (k.packObject P hashes id) repackWindow
  obtain ⟨hlow, hhigh⟩ := (h.storable hhas).range
  rcases hsafe (k.packObjects P hashes [id]) _ _ (by rw [hgather]) hwrite with hnil | ⟨-, hreads⟩
  · cases hnil
  · have hread := hreads _ mem_cons_self
    set body := singlePack P (k.packObject P hashes id) with hbody
    set pf : GitPackFile := ⟨P.blake3 (body ++ (P.sha1 body).bytes), packRows _ [12]⟩ with hpf
    obtain ⟨e, herr⟩ := readAt_singlePack_large (P := P) (o := k.packObject P hashes id) hlow hhigh
      hlarge hsize (P.sha1 body).bytes pf maxDeltaDepth
    have hrow : pf.row id = some ⟨id, k.sha1 P id, k.gitType id, 12⟩ := by
      exact find?_cons_of_pos (decide_eq_true rfl)
    rw [GitPackFile.read, hrow] at hread
    dsimp only at hread
    rw [herr] at hread
    cases hread

/-! ### Runs -/

/-- What is done to a store. -/
inductive StoreOp
  | write (gitType : UInt8) (content : List UInt8)
  | read (id : ObjectId)
  | tierPacks (order order' : List ObjectId)
  | recoverFromS3 (keys order : List ObjectId)
  | repack (ids : List ObjectId)

variable (P k encodeDelta) in
def run (s : DiskStore) : StoreOp → DiskStore
  | .write gitType content => (s.writeGitObject P gitType content).2
  | .read id => (s.read P id).2
  | .tierPacks order order' => (s.tierPacks order order').2
  | .recoverFromS3 keys order => (s.recoverFromS3 keys order).2
  | .repack ids => (s.repack P encodeDelta ids).2

variable (P k) in
/-- Contents are at most 2 GiB long and have one type each, and directories are listed as they
are. -/
def Allowed (s : DiskStore) : StoreOp → Prop
  | .write gitType content => (gitTypeName gitType).isSome → k.Lists P gitType content
  | .read _ => True
  | .tierPacks order order' =>
    Lists order s.packDir ∧ Lists order' (order.foldl tierOne (s, ⟨0, 0⟩)).1.packDir
  | .recoverFromS3 keys order =>
    (∀ cold, s.cold = some cold → Lists keys cold) ∧
      Lists order (keys.foldl recoverOne (s, 0)).1.packDir
  | .repack ids => s.ListsAll ids

variable (P encodeDelta) in
/-- A repack is safe; nothing is asked of the other operations. -/
def SafeOp (s : DiskStore) (op : StoreOp) : Prop :=
  ∀ ids, op = .repack ids → s.SafeRepack P encodeDelta ids

variable (P k encodeDelta) in
/-- The states of the runs that begin with an empty directory and an empty cold tier, or none, and
whose repacks are safe. -/
inductive Reached : DiskStore → Prop
  | start {cold : Option (Finmap (fun _ : ObjectId => ColdPack))}
      (hcold : cold = none ∨ cold = some ∅) : Reached { empty with cold := cold }
  | step {s : DiskStore} {op : StoreOp} (hs : Reached s) (hallowed : s.Allowed P k op)
      (hsafe : s.SafeOp P encodeDelta op) : Reached (s.run P encodeDelta op)

/-- **Every operation keeps the store coherent**, a repack if it is safe. -/
theorem Coherent.run {op : StoreOp} (h : s.Coherent P k) (hallowed : s.Allowed P k op)
    (hsafe : s.SafeOp P encodeDelta op) : (s.run P encodeDelta op).Coherent P k := by
  cases op with
  | write gitType content => exact h.writeGitObject hallowed
  | read id =>
    obtain ⟨s', hread, hfetched, -⟩ := h.read id
    have h' := h.fetched hfetched
    show (s.read P id).2.Coherent P k
    rw [hread]
    exact h'
  | tierPacks order order' => exact h.tierPacks hallowed.2
  | recoverFromS3 keys order => exact h.recoverFromS3 hallowed.2
  | repack ids => exact ((hsafe ids rfl).coherent h hallowed).1

theorem Reached.coherent (h : Reached P k encodeDelta s) : s.Coherent P k := by
  induction h with
  | start hcold => exact coherent_empty hcold
  | step _ hallowed hsafe ih => exact ih.run hallowed hsafe

/-- **A repack loses nothing if and only if it is safe**, in every state of a run whose repacks were
safe. -/
theorem repack_keeps_iff (h : Reached P k encodeDelta s) (hids : s.ListsAll ids) :
    KeepsAll P s (s.repack P encodeDelta ids).2 ↔ s.SafeRepack P encodeDelta ids :=
  h.coherent.keepsAll_repack_iff hids

end DiskStore

/-! ### The same pack again -/

/-- An encoder whose deltas are never smaller. -/
def noDeltas (_ target : List UInt8) : List UInt8 := target

/-- Every object is a blob with one byte. -/
def blobCatalog : Catalog := ⟨fun _ => [1], fun _ => 3⟩

/-- A store with one loose blob. -/
def looseStore : DiskStore := (DiskStore.empty.writeGitObject samplePrimitives 3 [1]).2

/-- The same store with the blob in a pack. -/
def packedStore : DiskStore := (looseStore.repack samplePrimitives noDeltas [.fill 218]).2

theorem reached_looseStore :
    DiskStore.Reached samplePrimitives blobCatalog noDeltas looseStore := by
  have hstart : DiskStore.Reached samplePrimitives blobCatalog noDeltas DiskStore.empty :=
    .start (Or.inl rfl)
  have hlists : blobCatalog.Lists samplePrimitives 3 [1] := ⟨rfl, rfl, by decide⟩
  have hstep : DiskStore.Reached samplePrimitives blobCatalog noDeltas
      (DiskStore.empty.run samplePrimitives noDeltas (.write 3 [1])) :=
    hstart.step (fun _ => hlists) nofun
  exact hstep

theorem listsAll_looseStore : looseStore.ListsAll [.fill 218] := by
  refine ⟨[.fill 218], lists_singleton _ _, ?_⟩
  decide +kernel

theorem safeRepack_looseStore : looseStore.SafeRepack samplePrimitives noDeltas [.fill 218] := by
  have hsmall : ∀ id ∈ [ObjectId.fill 218], (blobCatalog.content id).length ≤ maxPackObject :=
    fun _ _ => show 1 ≤ maxPackObject by decide
  refine reached_looseStore.coherent.safeRepack_of_small listsAll_looseStore hsmall ?_
  intro objects pack offsets _ _ hmem
  cases hmem

theorem reached_packedStore :
    DiskStore.Reached samplePrimitives blobCatalog noDeltas packedStore := by
  have hstep : DiskStore.Reached samplePrimitives blobCatalog noDeltas
      (looseStore.run samplePrimitives noDeltas (.repack [.fill 218])) :=
    reached_looseStore.step listsAll_looseStore fun ids heq => by
      obtain rfl : [.fill 218] = ids := by injection heq
      exact safeRepack_looseStore
  exact hstep

theorem listsAll_packedStore : packedStore.ListsAll [.fill 218] := by
  have hloose : packedStore.loose = ∅ := by decide +kernel
  refine ⟨[], ⟨nodup_nil, fun id => ?_⟩, by decide +kernel⟩
  rw [hloose]
  exact ⟨fun h => absurd h not_mem_nil, fun h => absurd h (Finmap.notMem_empty)⟩

theorem packDir_second : (packedStore.repack samplePrimitives noDeltas [.fill 218]).2.packDir =
    Finmap.singleton samplePack.name .empty := by
  decide +kernel

/-- **A second repack deletes its own pack.** The blob is read after the first one, and neither by
the running store nor by one that is opened again after the second. -/
theorem second_repack_loses :
    let s := (packedStore.repack samplePrimitives noDeltas [.fill 218]).2
    DiskStore.Reached samplePrimitives blobCatalog noDeltas packedStore ∧
    packedStore.ListsAll [.fill 218] ∧
    (packedStore.read samplePrimitives (.fill 218)).1 = .ok [1] ∧
    (s.read samplePrimitives (.fill 218)).1 = .error .io ∧
    ∀ order, ((s.reopen order).read samplePrimitives (.fill 218)).1 =
      .error (.notFound (.fill 218)) := by
  refine ⟨reached_packedStore, listsAll_packedStore, by decide +kernel, by decide +kernel,
    fun order => ?_⟩
  refine DiskStore.read_reopen_bare order (by decide +kernel) fun n hpack => ?_
  rw [DiskStore.files, packDir_second, lookup_singleton] at hpack
  split_ifs at hpack <;> cases hpack

/-- The first repack loses nothing. -/
theorem first_repack_keeps : DiskStore.KeepsAll samplePrimitives looseStore packedStore :=
  (DiskStore.repack_keeps_iff reached_looseStore listsAll_looseStore).mpr safeRepack_looseStore

end Ledge.Objects
