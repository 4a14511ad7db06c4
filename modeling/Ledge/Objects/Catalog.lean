import Ledge.Objects.ColdCrash

/-!
# Ledge.Objects.Catalog

Stores that are **coherent** with a catalog, which says what every object is: each loose file and
each row of a table is that of its object, and each table belongs to a body that is on disk or can
be fetched.

A coherent store reads an object as the catalog has it exactly if it has a loose file or a
registered pack with it (`Coherent.read`), and a read fetches bodies and changes nothing else
(`Fetched`). Writing an object, `tier_packs` and `recover_from_s3` keep a store coherent.
-/

namespace Ledge.Objects

open Ledge.Core List Option

/-- What the objects are. Every content has one git type. -/
structure Catalog where
  content : ObjectId → List UInt8
  gitType : ObjectId → UInt8

namespace Catalog

variable (k : Catalog) (P : Primitives)

def typeName (id : ObjectId) : String := (gitTypeName (k.gitType id)).getD ""

/-- The git name of an object. -/
def sha1 (id : ObjectId) : Sha1 := P.gitSha1 (k.typeName id) (k.content id)

def looseFile (id : ObjectId) : List UInt8 :=
  P.looseFile (k.typeName id) (k.gitType id) (k.content id)

/-- The object can be stored: it has a git type, and its loose file can be read. -/
structure Storable (id : ObjectId) : Prop where
  typed : (gitTypeName (k.gitType id)).isSome
  fits : P.Fits (k.content id)

variable {k P} in
theorem Storable.range {id : ObjectId} (h : k.Storable P id) : 1 ≤ k.gitType id ∧
    k.gitType id ≤ 4 := by
  have htyped := h.typed
  unfold gitTypeName at htyped
  split_ifs at htyped with h₁ h₂ h₃ h₄
  · rw [h₁]
    decide
  · rw [h₂]
    decide
  · rw [h₃]
    decide
  · rw [h₄]
    decide
  · cases htyped

/-- The object that is written is that of the catalog. -/
structure Lists (gitType : UInt8) (content : List UInt8) : Prop where
  content_eq : k.content (P.blake3 content) = content
  gitType_eq : k.gitType (P.blake3 content) = gitType
  small : content.length ≤ maxDecompressed

end Catalog

/-- A pack with the git types and the names of its objects. -/
structure LabelledPack (P : Primitives) (k : Catalog) extends StoredPack P k.content where
  storable : ∀ e ∈ rows, k.Storable P e.oid
  labels : ∀ e ∈ rows, e.gitType = k.gitType e.oid ∧ e.sha1 = k.sha1 P e.oid

namespace DiskStore

/-- What there is of a pack belongs together. -/
structure Filing (P : Primitives) (k : Catalog) (s : DiskStore) (name : ObjectId) : Prop where
  /-- A table is that of a pack whose body is there or can be fetched. -/
  table : ∀ lidx, (s.files name).lidx = some lidx →
    ∃ p : LabelledPack P k, p.name = name ∧ p.lidx = lidx ∧ s.Restorable p.toStoredPack
  marker : ∀ key, (s.files name).marker = some key → key = bodyKey name ∧ (s.coldPack name).isSome
  /-- A body without a table has been fetched. -/
  body : ∀ pack, (s.files name).pack = some pack → (s.files name).lidx = none →
    (s.files name).marker.isSome ∧ ∃ c, s.coldPack name = some c ∧ c.pack = pack
  cold : ∀ c, s.coldPack name = some c →
    ∃ p : LabelledPack P k, p.name = name ∧ p.body = c.pack ∧ c.lidx = some p.lidx

/-- The files of the store are those of the catalog. -/
structure Arranged (P : Primitives) (k : Catalog) (s : DiskStore) : Prop where
  loose : ∀ id raw, s.loose.lookup id = some raw → raw = k.looseFile P id ∧ k.Storable P id
  filing : ∀ name, s.Filing P k name

/-- **The store is coherent with the catalog**: so are its files, and the packs on disk are
registered. The files of a registered pack may be gone if it has no objects. -/
structure Coherent (P : Primitives) (k : Catalog) (s : DiskStore) :
    Prop extends Arranged P k s where
  registered : ∀ pf ∈ s.packs, pf.rows ≠ [] →
    ∃ p : LabelledPack P k, p.file = pf ∧ (s.files pf.name).lidx = some p.lidx
  listed : ∀ name, (s.files name).pack.isSome → (s.files name).lidx.isSome →
    name ∈ s.packs.map GitPackFile.name

variable {P : Primitives} {k : Catalog} {s s' s'' : DiskStore} {id name : ObjectId}

/-! ### Files of a pack -/

variable {p : StoredPack P k.content} {pf : GitPackFile} {content : List UInt8} {gitType : UInt8}
  {order : List ObjectId} {wanted : PackFiles → Bool}

/-- Being restorable is a matter of the files of the pack and of its body in the cold tier. -/
theorem Restorable.of_same (h : s.Restorable p) (hfiles : s'.files p.name = s.files p.name)
    (hcold : s'.coldPack p.name = s.coldPack p.name) : s'.Restorable p := by
  unfold Restorable at h ⊢
  rw [inCold_iff] at h ⊢
  rw [hfiles, hcold]
  exact h

theorem Filing.of_same (h : s.Filing P k name) (hfiles : s'.files name = s.files name)
    (hcold : s'.coldPack name = s.coldPack name) : s'.Filing P k name := by
  refine ⟨fun lidx hlidx => ?_, fun key hkey => ?_, fun pack hpack hnone => ?_, fun c hc => ?_⟩
  · rw [hfiles] at hlidx
    obtain ⟨p, rfl, hp, hrestorable⟩ := h.table lidx hlidx
    exact ⟨p, rfl, hp, hrestorable.of_same hfiles hcold⟩
  · rw [hfiles] at hkey
    rw [hcold]
    exact h.marker key hkey
  · rw [hfiles] at hpack hnone ⊢
    rw [hcold]
    exact h.body pack hpack hnone
  · rw [hcold] at hc
    exact h.cold c hc

/-! ### Fetching -/

/-- Bodies have been fetched from the cold tier, and nothing else has changed. -/
structure Fetched (s s' : DiskStore) : Prop where
  loose : s'.loose = s.loose
  packs : s'.packs = s.packs
  cold : s'.cold = s.cold
  lidx : ∀ name, (s'.files name).lidx = (s.files name).lidx
  marker : ∀ name, (s'.files name).marker = (s.files name).marker
  pack : ∀ name, (s'.files name).pack = (s.files name).pack ∨
    (s.files name).pack = none ∧ (s.files name).marker.isSome ∧ name ∈ s.packs.map
      GitPackFile.name ∧ ∃ c, s.coldPack name = some c ∧ (s'.files name).pack = some c.pack

theorem Fetched.refl (s : DiskStore) : Fetched s s :=
  ⟨rfl, rfl, rfl, fun _ => rfl, fun _ => rfl, fun _ => Or.inl rfl⟩

theorem Fetched.coldPack (h : Fetched s s') (name : ObjectId) : s'.coldPack name =
    s.coldPack name := by
  unfold DiskStore.coldPack
  rw [h.cold]

theorem Fetched.trans (h : Fetched s s') (h' : Fetched s' s'') : Fetched s s'' := by
  refine ⟨h'.loose.trans h.loose, h'.packs.trans h.packs, h'.cold.trans h.cold,
    fun n => (h'.lidx n).trans (h.lidx n), fun n => (h'.marker n).trans (h.marker n), fun n => ?_⟩
  rcases h'.pack n with hsame | ⟨hnone, hmarker, hmem, c, hc, hpack⟩
  · rw [hsame]
    exact h.pack n
  · rw [h.marker] at hmarker
    rw [h.packs] at hmem
    rw [h.coldPack] at hc
    rcases h.pack n with hsame' | ⟨-, -, -, c', -, hpack'⟩
    · exact Or.inr ⟨hsame' ▸ hnone, hmarker, hmem, c, hc, hpack⟩
    · rw [hpack'] at hnone
      cases hnone

theorem Fetched.isSome_pack (h : Fetched s s') (hpack : (s.files name).pack.isSome) :
    (s'.files name).pack.isSome := by
  rcases h.pack name with hsame | ⟨hnone, -⟩
  · rw [hsame]
    exact hpack
  · rw [hnone] at hpack
    cases hpack

theorem Fetched.restorable (h : Fetched s s') (hp : s.Restorable p) : s'.Restorable p := by
  have hcold : s'.InCold p ↔ s.InCold p := by
    unfold InCold
    rw [h.cold]
  unfold Restorable at hp ⊢
  rw [h.marker, hcold]
  rcases h.pack p.name with hsame | ⟨hnone, -, -, c, hc, hpack⟩
  · rw [hsame]
    exact hp
  · rw [hnone] at hp
    rcases hp with hp | ⟨-, -, hin⟩
    · cases hp
    · obtain ⟨c', hc', hbody⟩ := inCold_iff.mp hin
      cases hc.symm.trans hc'
      exact Or.inl (hpack.trans (congrArg some hbody))

theorem Filing.fetched (h : s.Filing P k name) (hfetched : Fetched s s') : s'.Filing P k name := by
  refine ⟨fun lidx hlidx => ?_, fun key hkey => ?_, fun pack hpack hnone => ?_, fun c hc => ?_⟩
  · rw [hfetched.lidx] at hlidx
    obtain ⟨p, hname, hp, hrestorable⟩ := h.table lidx hlidx
    exact ⟨p, hname, hp, hfetched.restorable hrestorable⟩
  · rw [hfetched.marker] at hkey
    rw [hfetched.coldPack]
    exact h.marker key hkey
  · rw [hfetched.lidx] at hnone
    rw [hfetched.marker, hfetched.coldPack]
    rcases hfetched.pack name with hsame | ⟨-, hmarker, -, c, hc, hpack'⟩
    · exact h.body pack (hsame ▸ hpack) hnone
    · exact ⟨hmarker, c, hc, some.inj (hpack'.symm.trans hpack)⟩
  · rw [hfetched.coldPack] at hc
    exact h.cold c hc

theorem Coherent.fetched (h : s.Coherent P k) (hfetched : Fetched s s') : s'.Coherent P k := by
  refine ⟨⟨fun id raw hraw => ?_, fun n => (h.filing n).fetched hfetched⟩, fun pf hpf hne => ?_,
    fun n hpack hlidx => ?_⟩
  · rw [hfetched.loose] at hraw
    exact h.loose id raw hraw
  · rw [hfetched.packs] at hpf
    rw [hfetched.lidx]
    exact h.registered pf hpf hne
  · rw [hfetched.lidx] at hlidx
    rw [hfetched.packs]
    rcases hfetched.pack n with hsame | ⟨-, -, hmem, -⟩
    · exact h.listed n (hsame ▸ hpack) hlidx
    · exact hmem

/-- `ensure_pack_local` fetches a body, or nothing. -/
theorem fetched_ensure (hpf : pf ∈ s.packs) (h : s.ensurePackLocal P pf = .ok s') :
    Fetched s s' := by
  unfold ensurePackLocal at h
  dsimp only at h
  split_ifs at h with hlocal
  · cases h
    exact Fetched.refl s
  · have hnone : (s.files pf.name).pack = none := by simpa using hlocal
    split at h
    · rename_i cold key hs hmarker
      split at h
      · cases h
      · rename_i c hlookup
        split_ifs at hlookup
        have hc : s.coldPack pf.name = some c := by rw [coldPack, hs, bind_some, hlookup]
        split at h
        · cases h
        · cases h
          refine ⟨rfl, rfl, rfl, fun n => ?_, fun n => ?_, fun n => ?_⟩
          · rw [files_setFiles]
            split_ifs with hn
            · rw [hn]
            · rfl
          · rw [files_setFiles]
            split_ifs with hn
            · rw [hn]
            · rfl
          · rw [files_setFiles]
            split_ifs with hn
            · subst hn
              exact Or.inr ⟨hnone, isSome_of_eq_some hmarker, List.mem_map_of_mem hpf, c, hc, rfl⟩
            · exact Or.inl rfl
    · cases h
      exact Fetched.refl s

/-- **`ensure_pack_local` does not fail** in a coherent store. -/
theorem Coherent.ensure (h : s.Coherent P k) (hpf : pf ∈ s.packs) :
    ∃ s', s.ensurePackLocal P pf = .ok s' ∧ Fetched s s' ∧
      ((s'.files pf.name).pack.isSome ∨ (s.files pf.name).marker = none) := by
  suffices hok : ∃ s', s.ensurePackLocal P pf = .ok s' ∧
      ((s'.files pf.name).pack.isSome ∨ (s.files pf.name).marker = none) by
    obtain ⟨s', hensure, hlocal⟩ := hok
    exact ⟨s', hensure, fetched_ensure hpf hensure, hlocal⟩
  unfold ensurePackLocal
  dsimp only
  by_cases hlocal : (s.files pf.name).pack.isSome
  · rw [if_pos hlocal]
    exact ⟨s, rfl, Or.inl hlocal⟩
  · rw [if_neg hlocal]
    cases hmarker : (s.files pf.name).marker with
    | none =>
      refine ⟨s, ?_, Or.inr rfl⟩
      cases s.cold <;> rfl
    | some key =>
      -- the marker leads to a body that is what its name says
      obtain ⟨rfl, hsome⟩ := (h.filing _).marker key hmarker
      obtain ⟨c, hc⟩ := isSome_iff_exists.mp hsome
      obtain ⟨p, hname, hbody, -⟩ := (h.filing _).cold c hc
      obtain ⟨cold, hs, hlookup⟩ := bind_eq_some_iff.mp hc
      have hverified : verifyPackBody P c.pack pf.name = .ok () := by
        rw [← hbody, ← hname]
        exact p.verified
      rw [hs]
      dsimp only
      rw [if_pos rfl, hlookup]
      dsimp only
      rw [hverified]
      refine ⟨_, rfl, Or.inl ?_⟩
      rw [files_setFiles, if_pos rfl]
      rfl

/-! ### Reading -/

theorem Coherent.backing (h : s.Coherent P k) (hpf : pf ∈ s.packs) (hne : pf.rows ≠ []) :
    ∃ p : LabelledPack P k, p.file = pf ∧ s.Restorable p.toStoredPack ∧
      (s.files pf.name).lidx = some p.lidx := by
  obtain ⟨q, hq, hlidx⟩ := h.registered pf hpf hne
  obtain ⟨p, hname, hp, hrestorable⟩ := (h.filing pf.name).table q.lidx hlidx
  have hrows : p.rows = q.rows := by
    have hread : readLidx p.lidx = readLidx q.lidx := by rw [hp]
    rw [p.readLidx_lidx, q.readLidx_lidx] at hread
    exact Except.ok.inj hread
  refine ⟨p, ?_, hrestorable, by rw [hlidx, hp]⟩
  rw [← hq] at hname ⊢
  rw [StoredPack.file, hname, hrows]
  rfl

theorem rows_ne_of_contains (h : pf.contains id = true) : pf.rows ≠ [] := by
  intro hrows
  rw [GitPackFile.contains, GitPackFile.row, hrows] at h
  cases h

theorem Coherent.read_registered (h : s.Coherent P k) (id : ObjectId) (hpf : pf ∈ s.packs)
    (hlocal : (s.files pf.name).pack.isSome ∨ (s.files pf.name).marker = none) :
    pf.read P (s.files pf.name).pack id =
        .ok (if pf.contains id then some (k.content id) else none) ∧
      (pf.contains id = true → (s.files pf.name).pack.isSome) := by
  by_cases hcontains : pf.contains id = true
  · obtain ⟨p, rfl, hrestorable, -⟩ := h.backing hpf (rows_ne_of_contains hcontains)
    have hname : p.file.name = p.name := rfl
    have hpack : (s.files p.name).pack = some p.body := by
      rcases hrestorable with hpack | ⟨hnone, hmarker, -⟩
      · exact hpack
      · rw [hname, hnone, hmarker] at hlocal
        rcases hlocal with hlocal | hlocal <;> cases hlocal
    rw [hname, hpack]
    exact ⟨p.read_file id, fun _ => rfl⟩
  · have hrow : pf.row id = none := not_isSome_iff_eq_none.mp hcontains
    rw [if_neg hcontains, GitPackFile.read, hrow]
    exact ⟨rfl, fun hin => absurd hin hcontains⟩

/-- The loop over the packs ends in one that has the object, and that is local then. -/
theorem Coherent.readPacks (h : s.Coherent P k) (id : ObjectId) (packs : List GitPackFile)
    (hsub : ∀ pf ∈ packs, pf ∈ s.packs) :
    ∃ s', readPacks P id packs s =
        (.ok (if packs.any (fun pf => pf.contains id) then some (k.content id) else none), s') ∧
      Fetched s s' ∧
      (packs.any (fun pf => pf.contains id) = true →
        ∃ pf ∈ s.packs, pf.contains id = true ∧ (s'.files pf.name).pack.isSome) := by
  induction packs generalizing s with
  | nil => exact ⟨s, rfl, Fetched.refl s, nofun⟩
  | cons pf packs ih =>
    have hpf := hsub pf mem_cons_self
    obtain ⟨s₁, hensure, hfetched, hlocal⟩ := h.ensure hpf
    have h₁ := h.fetched hfetched
    obtain ⟨hread, hpack⟩ := h₁.read_registered id (by rwa [hfetched.packs])
      (by rwa [hfetched.marker])
    rw [DiskStore.readPacks, hensure]
    dsimp only
    rw [hread, any_cons]
    by_cases hcontains : pf.contains id = true
    · rw [if_pos hcontains, hcontains, Bool.true_or]
      exact ⟨s₁, rfl, hfetched, fun _ => ⟨pf, hpf, hcontains, hpack hcontains⟩⟩
    · obtain ⟨s₂, hrest, hfetched₂, hfound⟩ := ih h₁ fun pf' hpf' => by
        rw [hfetched.packs]
        exact hsub pf' (mem_cons_of_mem _ hpf')
      rw [if_neg hcontains, Bool.eq_false_iff.mpr hcontains, Bool.false_or]
      refine ⟨s₂, hrest, hfetched.trans hfetched₂, fun hany => ?_⟩
      rw [hfetched.packs] at hfound
      exact hfound hany

/-- The object has a loose file or a pack on disk. -/
def Local (s : DiskStore) (id : ObjectId) : Prop :=
  (s.loose.lookup id).isSome ∨
    ∃ pf ∈ s.packs, pf.contains id = true ∧ (s.files pf.name).pack.isSome

theorem Local.fetched (h : s.Local id) (hfetched : Fetched s s') : s'.Local id := by
  unfold Local
  rw [hfetched.loose, hfetched.packs]
  rcases h with hloose | ⟨pf, hpf, hcontains, hpack⟩
  · exact Or.inl hloose
  · exact Or.inr ⟨pf, hpf, hcontains, hfetched.isSome_pack hpack⟩

theorem has_iff : s.has id = true ↔ (s.loose.lookup id).isSome ∨ s.packed id = true := by
  rw [has, Bool.or_eq_true]
  rfl

theorem Fetched.has (h : Fetched s s') (id : ObjectId) : s'.has id = s.has id := by
  unfold DiskStore.has
  rw [h.loose, h.packs]

/-- What a read makes of the answer of the packs. -/
def fromPacks (id : ObjectId) : Except LedgeError (Option (List UInt8)) × DiskStore →
    Except LedgeError (List UInt8) × DiskStore
  | (.error e, s) => (.error e, s)
  | (.ok (some content), s) => (.ok content, s)
  | (.ok none, s) => (.error (.notFound id), s)

theorem read_of_not_loose (h : s.loose.lookup id = none) :
    s.read P id = fromPacks id (DiskStore.readPacks P id s.packs s) := by
  unfold DiskStore.read readDepth
  rw [h]
  rfl

/-- **A coherent store reads what the catalog has.** -/
theorem Coherent.read (h : s.Coherent P k) (id : ObjectId) :
    ∃ s', s.read P id = (if s.has id then .ok (k.content id) else .error (.notFound id), s') ∧
      Fetched s s' ∧ (s.has id = true → s'.Local id) := by
  cases hraw : s.loose.lookup id with
  | some raw =>
    obtain ⟨rfl, hstorable⟩ := h.loose id raw hraw
    have hhas : s.has id = true := has_iff.mpr (Or.inl (by rw [hraw]; rfl))
    refine ⟨s, ?_, Fetched.refl s, fun _ => Or.inl (by rw [hraw]; rfl)⟩
    rw [DiskStore.read, readDepth_loose maxChain hraw, if_pos hstorable.fits, if_pos hhas]
  | none =>
    obtain ⟨s', hread, hfetched, hfound⟩ := h.readPacks id s.packs fun _ hpf => hpf
    have hhas : s.has id = s.packs.any (fun pf => pf.contains id) := by
      rw [has, hraw]
      exact Bool.false_or _
    refine ⟨s', ?_, hfetched, fun hin => ?_⟩
    · rw [read_of_not_loose hraw, hread, hhas]
      split_ifs <;> rfl
    · rw [hhas] at hin
      obtain ⟨pf, hpf, hcontains, hpack⟩ := hfound hin
      exact Or.inr ⟨pf, hfetched.packs ▸ hpf, hcontains, hpack⟩

theorem Coherent.row (h : s.Coherent P k) (hpf : pf ∈ s.packs) (hcontains : pf.contains id = true) :
    k.Storable P id ∧ pf.gitTypeOf id = some (k.gitType id) ∧ pf.sha1Of id =
      some (k.sha1 P id) := by
  obtain ⟨p, rfl, -, -⟩ := h.backing hpf (rows_ne_of_contains hcontains)
  obtain ⟨e, he⟩ := isSome_iff_exists.mp hcontains
  have hfind : p.rows.reverse.find? (fun e => e.oid = id) = some e := he
  have hmem : e ∈ p.rows := mem_reverse.mp (mem_of_find?_eq_some hfind)
  have hoid := find?_some hfind
  obtain rfl : e.oid = id := of_decide_eq_true hoid
  obtain ⟨htype, hsha1⟩ := p.labels e hmem
  refine ⟨p.storable e hmem, ?_, ?_⟩
  · rw [GitPackFile.gitTypeOf, he, map_some, htype]
  · rw [GitPackFile.sha1Of, he, map_some, hsha1]

/-- The first answer of a pack, when only those with the object answer, and all the same. -/
theorem findSome_packs {α : Type} {packs : List GitPackFile} {f : GitPackFile → Option α} {a : α}
    (hin : ∀ pf ∈ packs, pf.contains id = true → f pf = some a)
    (hout : ∀ pf, pf.contains id = false → f pf = none) :
    packs.findSome? f = if packs.any (fun pf => pf.contains id) then some a else none := by
  induction packs with
  | nil => rfl
  | cons pf packs ih =>
    rw [findSome?_cons, any_cons]
    cases hcontains : pf.contains id with
    | true =>
      rw [hin pf mem_cons_self hcontains]
      rfl
    | false =>
      rw [hout pf hcontains, ih fun pf' hpf' => hin pf' (mem_cons_of_mem _ hpf'), Bool.false_or]

theorem row_of_not_contains (h : pf.contains id = false) : pf.row id = none :=
  not_isSome_iff_eq_none.mp (Bool.eq_false_iff.mp h)

theorem Coherent.gitTypeOf (h : s.Coherent P k) (hhas : s.has id = true) :
    s.gitTypeOf id = .ok (k.gitType id) := by
  cases hraw : s.loose.lookup id with
  | some raw =>
    obtain ⟨rfl, -⟩ := h.loose id raw hraw
    exact gitTypeOf_loose hraw
  | none =>
    have hany : s.packs.any (fun pf => pf.contains id) = true := by
      rwa [has, hraw, isSome_none, Bool.false_or] at hhas
    rw [DiskStore.gitTypeOf, hraw]
    dsimp only
    rw [findSome_packs (fun pf hpf hcontains => (h.row hpf hcontains).2.1) (fun pf hnot => by
      rw [GitPackFile.gitTypeOf, row_of_not_contains hnot, map_none]), if_pos hany]

theorem Coherent.sha1Of (h : s.Coherent P k) (hhas : s.has id = true) :
    s.sha1Of id = .ok (k.sha1 P id) := by
  cases hraw : s.loose.lookup id with
  | some raw =>
    obtain ⟨rfl, -⟩ := h.loose id raw hraw
    exact sha1Of_loose hraw
  | none =>
    have hany : s.packs.any (fun pf => pf.contains id) = true := by
      rwa [has, hraw, isSome_none, Bool.false_or] at hhas
    rw [DiskStore.sha1Of, hraw]
    dsimp only
    rw [findSome_packs (fun pf hpf hcontains => (h.row hpf hcontains).2.2) (fun pf hnot => by
      rw [GitPackFile.sha1Of, row_of_not_contains hnot, map_none]), if_pos hany]

theorem Coherent.storable (h : s.Coherent P k) (hhas : s.has id = true) : k.Storable P id := by
  rcases has_iff.mp hhas with hloose | hpacked
  · obtain ⟨raw, hraw⟩ := isSome_iff_exists.mp hloose
    exact (h.loose id raw hraw).2
  · obtain ⟨pf, hpf, hcontains⟩ := List.any_eq_true.mp hpacked
    exact (h.row hpf hcontains).1

/-- What a client gets of an object. -/
structure Shows (P : Primitives) (s : DiskStore) (id : ObjectId) (content : List UInt8)
    (gitType : UInt8) (sha1 : Sha1) : Prop where
  read : (s.read P id).1 = .ok content
  gitType : s.gitTypeOf id = .ok gitType
  sha1 : s.sha1Of id = .ok sha1

theorem Coherent.read_fst (h : s.Coherent P k) (id : ObjectId) :
    (s.read P id).1 = if s.has id then .ok (k.content id) else .error (.notFound id) := by
  obtain ⟨s', hread, -⟩ := h.read id
  rw [hread]

/-- **What a coherent store shows.** -/
theorem Coherent.shows_iff (h : s.Coherent P k) {sha1 : Sha1} :
    s.Shows P id content gitType sha1 ↔
      s.has id = true ∧ content = k.content id ∧ gitType = k.gitType id ∧ sha1 = k.sha1 P id := by
  constructor
  · rintro ⟨hread, htype, hsha1⟩
    rw [h.read_fst] at hread
    split_ifs at hread with hhas
    rw [h.gitTypeOf hhas] at htype
    rw [h.sha1Of hhas] at hsha1
    exact ⟨hhas, (Except.ok.inj hread).symm, (Except.ok.inj htype).symm, (Except.ok.inj hsha1).symm⟩
  · rintro ⟨hhas, rfl, rfl, rfl⟩
    refine ⟨?_, h.gitTypeOf hhas, h.sha1Of hhas⟩
    rw [h.read_fst, if_pos hhas]

/-! ### Registering what is on disk -/

theorem Arranged.mem_openAll (h : s.Arranged P k) (horder : Lists order s.packDir) :
    pf ∈ s.openAll wanted order ↔ ∃ p : LabelledPack P k, p.file = pf ∧
      (s.files pf.name).lidx = some p.lidx ∧ wanted (s.files pf.name) = true := by
  have hopen : ∀ p : LabelledPack P k, (s.files p.name).lidx = some p.lidx →
      s.openPack p.name = .ok p.file := by
    intro p hlidx
    unfold DiskStore.openPack
    rw [hlidx]
    dsimp only
    rw [p.readLidx_lidx]
    rfl
  unfold openAll
  rw [mem_filterMap]
  constructor
  · rintro ⟨name, -, hsome⟩
    split_ifs at hsome with hwanted
    cases hlidx : (s.files name).lidx with
    | none =>
      rw [openPack, hlidx] at hsome
      cases hsome
    | some lidx =>
      obtain ⟨p, rfl, rfl, -⟩ := (h.filing name).table lidx hlidx
      rw [hopen p hlidx] at hsome
      cases hsome
      exact ⟨p, rfl, hlidx, hwanted⟩
  · rintro ⟨p, rfl, hlidx, hwanted⟩
    have hmem : p.name ∈ s.packDir := mem_packDir_of_lidx (isSome_of_eq_some hlidx)
    refine ⟨p.name, (horder.2 _).mpr hmem, ?_⟩
    rw [hopen p hlidx]
    exact if_pos hwanted

theorem Arranged.swapPacks (h : s.Arranged P k) (horder : Lists order s.packDir)
    (hwanted : ∀ f : PackFiles, f.pack.isSome → wanted f = true) :
    (s.swapPacks (s.openAll wanted order)).Coherent P k := by
  refine ⟨⟨h.loose, fun n => (h.filing n).of_same rfl rfl⟩, fun pf hpf _ => ?_, fun n hpack hlidx =>
    ?_⟩
  · obtain ⟨p, hp, hlidx, -⟩ := (h.mem_openAll horder).mp hpf
    exact ⟨p, hp, hlidx⟩
  · obtain ⟨lidx, hlidx⟩ := isSome_iff_exists.mp hlidx
    obtain ⟨p, rfl, rfl, -⟩ := (h.filing n).table lidx hlidx
    exact List.mem_map.mpr ⟨p.file, (h.mem_openAll horder).mpr ⟨p, rfl, hlidx, hwanted _ hpack⟩,
      rfl⟩

theorem Arranged.reloadPacks (h : s.Arranged P k) (horder : Lists order s.packDir) :
    (s.reloadPacks order).Coherent P k :=
  h.swapPacks horder fun f hf => by rw [hf, Bool.true_or]

theorem Arranged.reopen (h : s.Arranged P k) (horder : Lists order s.packDir) :
    (s.reopen order).Coherent P k :=
  h.swapPacks horder fun _ hf => hf

/-! ### Operations -/

theorem Coherent.writeGitObject (h : s.Coherent P k)
    (hin : (gitTypeName gitType).isSome → k.Lists P gitType content) :
    (s.writeGitObject P gitType content).2.Coherent P k := by
  unfold DiskStore.writeGitObject
  cases htype : gitTypeName gitType with
  | none => exact h
  | some typeName =>
    rw [htype] at hin
    obtain ⟨hcontent, hgitType, hsmall⟩ := hin rfl
    refine ⟨⟨fun id raw hraw => ?_, fun n => (h.filing n).of_same rfl rfl⟩, h.registered, h.listed⟩
    by_cases hid : id = P.blake3 content
    · rw [hid, Finmap.lookup_insert] at hraw
      cases hraw
      refine ⟨?_, ?_, Or.inl ?_⟩
      · rw [hid, Catalog.looseFile, Catalog.typeName, hgitType, htype, hcontent]
        rfl
      · rw [hid, hgitType, htype]
        rfl
      · rw [hid, hcontent]
        exact hsmall
    · rw [Finmap.lookup_insert_of_ne _ hid] at hraw
      exact h.loose id raw hraw

theorem Arranged.step (h : s.Arranged P k) (name : ObjectId) (hloose : s'.loose = s.loose)
    (hsame : ∀ n, n ≠ name → s'.files n = s.files n ∧ s'.coldPack n = s.coldPack n)
    (hname : s'.Filing P k name) : s'.Arranged P k := by
  refine ⟨fun id raw hraw => ?_, fun n => ?_⟩
  · rw [hloose] at hraw
    exact h.loose id raw hraw
  · by_cases hn : n = name
    · exact hn ▸ hname
    · exact (h.filing n).of_same (hsame n hn).1 (hsame n hn).2

theorem filing_of_table (p : LabelledPack P k) (hlidx : (s.files p.name).lidx = some p.lidx)
    (hrestorable : s.Restorable p.toStoredPack)
    (hmarker : ∀ key, (s.files p.name).marker = some key →
      key = bodyKey p.name ∧ (s.coldPack p.name).isSome)
    (hcold : ∀ c, s.coldPack p.name = some c →
      ∃ q : LabelledPack P k, q.name = p.name ∧ q.body = c.pack ∧ c.lidx = some q.lidx) :
    s.Filing P k p.name := by
  refine ⟨fun lidx hlidx' => ?_, hmarker, fun pack _ hnone => ?_, hcold⟩
  · exact ⟨p, rfl, some.inj (hlidx.symm.trans hlidx'), hrestorable⟩
  · rw [hlidx] at hnone
    cases hnone

theorem Arranged.tiered (h : s.Arranged P k) (p : LabelledPack P k) (hcold : s.cold.isSome) :
    ((s.setFiles p.name ⟨none, some p.lidx, some (bodyKey p.name)⟩).putCold p.name
      ⟨p.body, some p.lidx⟩).Arranged P k := by
  have hfiles := fun n => files_setFiles s p.name n ⟨none, some p.lidx, some (bodyKey p.name)⟩
  have hput := fun n =>
    coldPack_putCold (s := s.setFiles p.name ⟨none, some p.lidx, some (bodyKey p.name)⟩) hcold
      p.name n ⟨p.body, some p.lidx⟩
  refine h.step p.name rfl (fun n hn => ⟨?_, ?_⟩) (filing_of_table p ?_ ?_ ?_ ?_)
  · exact (hfiles n).trans (if_neg hn)
  · exact (hput n).trans (if_neg hn)
  · exact congrArg PackFiles.lidx ((hfiles p.name).trans (if_pos rfl))
  · refine Or.inr ⟨congrArg PackFiles.pack ((hfiles p.name).trans (if_pos rfl)),
      congrArg PackFiles.marker ((hfiles p.name).trans (if_pos rfl)), ?_⟩
    exact inCold_iff.mpr ⟨_, (hput p.name).trans (if_pos rfl), rfl⟩
  · intro key hkey
    have hown := congrArg PackFiles.marker ((hfiles p.name).trans (if_pos rfl))
    refine ⟨some.inj (hkey.symm.trans hown), ?_⟩
    rw [hput, if_pos rfl]
    rfl
  · intro c hc
    rw [hput, if_pos rfl] at hc
    cases hc
    exact ⟨p, rfl, rfl, rfl⟩

theorem Arranged.tierOne {acc : DiskStore × TierStats} (h : acc.1.Arranged P k) (name : ObjectId) :
    (tierOne acc name).1.Arranged P k := by
  obtain ⟨s, stats⟩ := acc
  unfold DiskStore.tierOne
  dsimp only at h ⊢
  cases hs : s.cold with
  | none => exact h
  | some cold =>
    cases hpack : (s.files name).pack with
    | none => exact h
    | some pack =>
      dsimp only
      split_ifs with hmarked
      · exact h
      · -- nothing was fetched, so the table of the body is there
        have hmarker : (s.files name).marker = none := by simpa using hmarked
        cases hlidx : (s.files name).lidx with
        | none =>
          have hsome := ((h.filing name).body pack hpack hlidx).1
          rw [hmarker] at hsome
          cases hsome
        | some lidx =>
          obtain ⟨p, rfl, rfl, hrestorable⟩ := (h.filing name).table lidx hlidx
          have hown : pack = p.body := by
            rcases hrestorable with hlocal | ⟨hnone, -⟩
            · exact some.inj (hpack.symm.trans hlocal)
            · rw [hpack] at hnone
              cases hnone
          subst hown
          have hput : (s.setFiles p.name ⟨none, some p.lidx, some (bodyKey p.name)⟩).cold =
              some cold := hs
          have htiered := h.tiered p (isSome_of_eq_some hs)
          rw [putCold, hput] at htiered
          exact htiered

theorem Arranged.recoverOne {acc : DiskStore × Nat} (h : acc.1.Arranged P k) (name : ObjectId) :
    (recoverOne acc name).1.Arranged P k := by
  obtain ⟨s, recovered⟩ := acc
  unfold DiskStore.recoverOne
  dsimp only at h ⊢
  cases hc : s.coldPack name with
  | none =>
    unfold coldPack at hc
    rw [hc]
    exact h
  | some c =>
    obtain ⟨p, rfl, hbody, hlidx⟩ := (h.filing name).cold c hc
    have hbind : (s.cold.bind fun cold => cold.lookup p.name).bind ColdPack.lidx = some p.lidx := by
      unfold coldPack at hc
      rw [hc, bind_some, hlidx]
    rw [hbind]
    dsimp only
    by_cases husable : (s.files p.name).lidx.isSome ∧
        ((s.files p.name).pack.isSome ∨ (s.files p.name).marker.isSome)
    · rw [if_pos husable]
      exact h
    · rw [if_neg husable]
      have hnone : (s.files p.name).lidx = none := by
        by_contra hsome
        obtain ⟨lidx, hsome⟩ := ne_none_iff_exists'.mp hsome
        obtain ⟨q, hname, -, hrestorable⟩ := (h.filing p.name).table lidx hsome
        refine husable ⟨isSome_of_eq_some hsome, ?_⟩
        rw [← hname]
        rcases hrestorable with hlocal | ⟨-, hmarker, -⟩
        · exact Or.inl (isSome_of_eq_some hlocal)
        · exact Or.inr (isSome_of_eq_some hmarker)
      refine h.step p.name rfl (fun n hn => ⟨?_, rfl⟩) (filing_of_table p ?_ ?_ ?_ ?_)
      · exact (files_setFiles ..).trans (if_neg hn)
      · rw [files_setFiles, if_pos rfl, hnone]
        rfl
      · -- a body without a table is the one in the tier
        unfold Restorable
        rw [files_setFiles, if_pos rfl]
        cases hpack : (s.files p.name).pack with
        | some pack =>
          obtain ⟨-, c', hc', rfl⟩ := (h.filing p.name).body pack hpack hnone
          cases hc.symm.trans hc'
          exact Or.inl (congrArg some hbody.symm)
        | none =>
          refine Or.inr ⟨rfl, ?_, inCold_iff.mpr ⟨c, hc, hbody.symm⟩⟩
          cases hmarker : (s.files p.name).marker with
          | none => rfl
          | some key =>
            obtain ⟨rfl, -⟩ := (h.filing p.name).marker key hmarker
            rfl
      · intro key hkey
        refine ⟨?_, isSome_of_eq_some hc⟩
        rw [files_setFiles, if_pos rfl] at hkey
        dsimp only at hkey
        cases hmarker : (s.files p.name).marker with
        | some key' =>
          rw [hmarker] at hkey
          cases hkey
          exact ((h.filing p.name).marker _ hmarker).1
        | none =>
          rw [hmarker] at hkey
          have hfresh : (if (s.files p.name).pack.isSome then none else some (bodyKey p.name)) =
              some key := hkey
          split_ifs at hfresh
          exact (some.inj hfresh).symm
      · exact (h.filing p.name).cold

/-- `tier_packs` -/
theorem Coherent.tierPacks (h : s.Coherent P k) {order' : List ObjectId}
    (horder' : Lists order' (order.foldl DiskStore.tierOne (s, ⟨0, 0⟩)).1.packDir) :
    (s.tierPacks order order').2.Coherent P k := by
  unfold DiskStore.tierPacks
  split_ifs
  · exact h
  · have hfold : (order.foldl DiskStore.tierOne (s, ⟨0, 0⟩)).1.Arranged P k :=
      foldlRecOn order DiskStore.tierOne (motive := fun acc => acc.1.Arranged P k) h.toArranged
        fun acc hacc name _ => hacc.tierOne name
    exact hfold.reloadPacks horder'

/-- `recover_from_s3` -/
theorem Coherent.recoverFromS3 (h : s.Coherent P k) {keys : List ObjectId}
    (horder : Lists order (keys.foldl DiskStore.recoverOne (s, 0)).1.packDir) :
    (s.recoverFromS3 keys order).2.Coherent P k := by
  unfold DiskStore.recoverFromS3
  split_ifs
  · exact h
  · have hfold : (keys.foldl DiskStore.recoverOne (s, 0)).1.Arranged P k :=
      foldlRecOn keys DiskStore.recoverOne (motive := fun acc => acc.1.Arranged P k) h.toArranged
        fun acc hacc name _ => hacc.recoverOne name
    exact hfold.reloadPacks horder

theorem coherent_empty {cold : Option (Finmap (fun _ : ObjectId => ColdPack))}
    (hcold : cold = none ∨ cold = some ∅) : ({ empty with cold := cold } : DiskStore).Coherent P
      k := by
  have hnone : ∀ name, ({ empty with cold := cold } : DiskStore).coldPack name = none := by
    intro name
    unfold coldPack
    rcases hcold with rfl | rfl
    · rfl
    · exact Finmap.lookup_empty name
  refine ⟨⟨nofun, fun name => ⟨nofun, nofun,
    nofun, fun c hc => ?_⟩⟩, nofun, nofun⟩
  rw [hnone] at hc
  cases hc

end DiskStore

end Ledge.Objects
