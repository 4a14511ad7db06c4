import Ledge.Objects.DiskStore

/-!
# Ledge.Objects.StoredPacks

Stores whose packs are **in order**: a registered pack has its body on disk, or in the cold tier
with a marker that leads there, and the body has the objects of the table.

A store in order reads a packed object as what it is (`Steady.readDepth_packed`), and a read depends
on nothing but the loose files and the set of packed objects (`Steady.readDepth_congr`).
-/

namespace Ledge.Objects

open Ledge.Core List

/-- A body and the table that belongs to it. `truth` says what each object is. -/
structure StoredPack (P : Primitives) (truth : ObjectId → List UInt8) where
  body : List UInt8
  rows : List LidxEntry
  verified : DiskStore.verifyPackBody P body (P.blake3 body) = .ok ()
  offsets : ∀ e ∈ rows, e.offset < 2 ^ 64
  count : rows.length < 2 ^ 32
  reads : ∀ id, GitPackFile.contains ⟨P.blake3 body, rows⟩ id = true →
    GitPackFile.read P ⟨P.blake3 body, rows⟩ (some body) id = .ok (some (truth id))

namespace StoredPack

variable {P : Primitives} {truth : ObjectId → List UInt8} (p : StoredPack P truth)

def name : ObjectId := P.blake3 p.body

def file : GitPackFile := ⟨p.name, p.rows⟩

def lidx : List UInt8 := writeLidx p.rows

theorem readLidx_lidx : readLidx p.lidx = .ok p.rows := by
  rw [lidx, readLidx_writeLidx _ p.offsets, Nat.mod_eq_of_lt p.count, take_length]

theorem length_lidx : p.lidx.length = 4 + p.rows.length * lidxRow := by
  rw [lidx, writeLidx, length_append, length_leBytes, length_flatMap_lidxEntry]

theorem readLidx_torn {bytes : List UInt8} (h : bytes <+: p.lidx) (hne : bytes ≠ p.lidx) :
    ∃ e, readLidx bytes = .error e := by
  have hshort : bytes.length < p.lidx.length := by
    refine Nat.lt_of_le_of_ne h.length_le fun heq => hne ?_
    exact h.eq_of_length heq
  unfold readLidx
  by_cases hheader : bytes.length < 4
  · rw [if_pos hheader]
    exact ⟨_, rfl⟩
  · have htake : bytes.take 4 = leBytes 4 p.rows.length := by
      obtain ⟨rest, hrest⟩ := h
      have hsame : (bytes ++ rest).take 4 = bytes.take 4 :=
        take_append_of_le_length (Nat.le_of_not_lt hheader)
      rw [← hsame, hrest, lidx, writeLidx, take_left' (length_leBytes 4 _)]
    have hcount : readLe (bytes.take 4) = p.rows.length := by
      rw [htake, readLe_leBytes]
      exact Nat.mod_eq_of_lt p.count
    rw [if_neg hheader, hcount]
    rw [p.length_lidx] at hshort
    rw [if_pos hshort]
    exact ⟨_, rfl⟩

theorem read_file (id : ObjectId) :
    p.file.read P (some p.body) id = .ok (if p.file.contains id then some (truth id) else
      none) := by
  by_cases hcontains : p.file.contains id = true
  · rw [if_pos hcontains]
    exact p.reads id hcontains
  · have hrow : p.file.row id = none := Option.not_isSome_iff_eq_none.mp hcontains
    rw [if_neg hcontains, GitPackFile.read, hrow]

end StoredPack

namespace DiskStore

variable {P : Primitives} {truth : ObjectId → List UInt8} {s s' : DiskStore}
  {p q : StoredPack P truth} {id : ObjectId}

theorem files_setFiles (s : DiskStore) (name n : ObjectId) (files : PackFiles) :
    (s.setFiles name files).files n = if n = name then files else s.files n := by
  unfold DiskStore.files setFiles
  by_cases hn : n = name
  · rw [if_pos hn, hn, Finmap.lookup_insert]
    rfl
  · rw [if_neg hn, Finmap.lookup_insert_of_ne _ hn]

/-- The cold tier has the body of the pack. -/
def InCold (s : DiskStore) (p : StoredPack P truth) : Prop :=
  ∃ cold c, s.cold = some cold ∧ cold.lookup p.name = some c ∧ c.pack = p.body

/-- The body of the pack is there, or can be fetched. -/
def Restorable (s : DiskStore) (p : StoredPack P truth) : Prop :=
  (s.files p.name).pack = some p.body ∨
    (s.files p.name).pack = none ∧ (s.files p.name).marker = some (bodyKey p.name) ∧ s.InCold p

/-- At most the body of a pack has been fetched. -/
structure Keeps (s s' : DiskStore) : Prop where
  loose : s'.loose = s.loose
  packs : s'.packs = s.packs
  cold : s'.cold = s.cold
  restorable : ∀ {P : Primitives} {truth : ObjectId → List UInt8} (p : StoredPack P truth),
    s.Restorable p → s'.Restorable p

theorem Keeps.refl (s : DiskStore) : Keeps s s := ⟨rfl, rfl, rfl, fun _ h => h⟩

theorem Keeps.trans {s'' : DiskStore} (h : Keeps s s') (h' : Keeps s' s'') : Keeps s s'' :=
  ⟨h'.loose.trans h.loose, h'.packs.trans h.packs, h'.cold.trans h.cold,
    fun p hp => h'.restorable p (h.restorable p hp)⟩

theorem keeps_fetched (hnone : (s.files p.name).pack = none) (hcold : s.InCold p)
    (lidx marker : Option (List UInt8)) :
    Keeps s (s.setFiles p.name ⟨some p.body, lidx, marker⟩) := by
  refine ⟨rfl, rfl, rfl, fun q hq => ?_⟩
  by_cases hname : q.name = p.name
  · -- the tier has one body under a name
    refine Or.inl ?_
    rw [files_setFiles, if_pos hname]
    unfold Restorable InCold at hq
    rw [hname, hnone] at hq
    rcases hq with hq | ⟨-, -, cold, c, hs, hc, hbody⟩
    · cases hq
    · obtain ⟨cold', c', hs', hc', hbody'⟩ := hcold
      cases hs.symm.trans hs'
      cases hc.symm.trans hc'
      exact congrArg some (hbody'.symm.trans hbody)
  · unfold Restorable InCold at hq ⊢
    rw [files_setFiles, if_neg hname]
    exact hq

/-- `ensure_pack_local` of a pack in order. -/
theorem Restorable.ensure (h : s.Restorable p) :
    ∃ s', s.ensurePackLocal P p.file = .ok s' ∧ (s'.files p.name).pack = some p.body ∧
      Keeps s s' := by
  have hname : p.file.name = p.name := rfl
  unfold ensurePackLocal
  rw [hname]
  dsimp only
  rcases h with hlocal | ⟨hnone, hmarker, hcold⟩
  · rw [hlocal]
    exact ⟨s, rfl, hlocal, Keeps.refl s⟩
  · obtain ⟨cold, c, hs, hc, hbody⟩ := hcold
    have hverified : verifyPackBody P p.body p.name = .ok () := p.verified
    rw [hnone, hs, hmarker]
    dsimp only
    rw [if_pos rfl, hc]
    dsimp only
    rw [hbody, hverified]
    refine ⟨_, rfl, ?_, keeps_fetched hnone ⟨cold, c, hs, hc, hbody⟩ _ _⟩
    rw [files_setFiles, if_pos rfl]

/-- **Every registered pack is in order.** -/
def Steady (P : Primitives) (truth : ObjectId → List UInt8) (s : DiskStore) : Prop :=
  ∀ pf ∈ s.packs, ∃ p : StoredPack P truth, p.file = pf ∧ s.Restorable p

/-- Some registered pack has the object. -/
def packed (s : DiskStore) (id : ObjectId) : Bool := s.packs.any (fun pf => pf.contains id)

theorem readPacks_restorable (id : ObjectId) (packs : List GitPackFile)
    (h : ∀ pf ∈ packs, ∃ p : StoredPack P truth, p.file = pf ∧ s.Restorable p) :
    ∃ s', readPacks P id packs s =
      (.ok (if packs.any (fun pf => pf.contains id) then some (truth id) else none), s') ∧
      Keeps s s' := by
  induction packs generalizing s with
  | nil => exact ⟨s, rfl, Keeps.refl s⟩
  | cons pf packs ih =>
    obtain ⟨p, rfl, hp⟩ := h pf mem_cons_self
    obtain ⟨s₁, hensure, hbody, hkeeps⟩ := hp.ensure
    have hfile : (s₁.files p.file.name).pack = some p.body := hbody
    rw [readPacks, hensure]
    dsimp only
    rw [hfile, p.read_file, any_cons]
    by_cases hcontains : p.file.contains id = true
    · rw [hcontains]
      exact ⟨s₁, rfl, hkeeps⟩
    · obtain ⟨s₂, hrest, hkeeps₂⟩ := ih (s := s₁) fun pf hpf => by
        obtain ⟨q, hq, hrestorable⟩ := h pf (mem_cons_of_mem _ hpf)
        exact ⟨q, hq, hkeeps.restorable q hrestorable⟩
      rw [Bool.eq_false_iff.mpr hcontains]
      exact ⟨s₂, hrest, hkeeps.trans hkeeps₂⟩

/-- **A packed object is read as what it is.** -/
theorem Steady.readDepth_packed (h : s.Steady P truth) (links : Nat)
    (hloose : s.loose.lookup id = none) :
    (readDepth P links s id).1 = if s.packed id then .ok (truth id) else .error (.notFound id) := by
  obtain ⟨s', hread, -⟩ := readPacks_restorable id s.packs h
  unfold readDepth
  rw [hloose]
  rw [hread, packed]
  split_ifs <;> rfl

/-- The loose file is a delta on `base` that gives the object. -/
structure DeltaFile (P : Primitives) (truth : ObjectId → List UInt8) (id base : ObjectId)
    (raw : List UInt8) : Prop where
  length : 24 ≤ raw.length
  enc : raw.getD 21 0 = encDelta
  names : ObjectId.ofSlice ((raw.drop 24).take 32) = some base
  applies : ∃ delta, P.zlibInflate (raw.drop 56) id = .ok delta ∧
    applyDelta (truth base) delta = .ok (truth id)

section

variable {base : ObjectId} {raw : List UInt8} (h : DeltaFile P truth id base raw)

include h

theorem DeltaFile.not_whole : ¬ (raw.getD 21 0 = encRaw ∨ raw.getD 21 0 = encZlib) := by
  rw [h.enc]
  decide

variable (hraw : s.loose.lookup id = some raw)

include hraw

theorem DeltaFile.readDepth_succ (links : Nat) :
    (∀ e, (readDepth P links s base).1 = .error e → (readDepth P (links + 1) s id).1 = .error e) ∧
    ((readDepth P links s base).1 = .ok (truth base) →
      (readDepth P (links + 1) s id).1 = .ok (truth id)) := by
  obtain ⟨delta, hdelta, happly⟩ := h.applies
  rcases hread : readDepth P links s base with ⟨r, s₁⟩
  unfold readDepth
  rw [hraw]
  dsimp only
  rw [if_neg (Nat.not_lt_of_le h.length), if_neg h.not_whole, if_pos h.enc, h.names]
  dsimp only
  rw [hread]
  constructor
  · rintro e rfl
    rfl
  · rintro rfl
    rw [hdelta]
    dsimp only
    rw [happly]

end

/-- **What a read depends on.** -/
theorem Steady.readDepth_congr (h : s.Steady P truth) (h' : s'.Steady P truth)
    (hloose : s'.loose = s.loose)
    (hpacked : ∀ id, s.loose.lookup id = none → s'.packed id = s.packed id) (links : Nat)
    (id : ObjectId) : (readDepth P links s' id).1 = (readDepth P links s id).1 := by
  induction links generalizing id with
  | zero =>
    cases hraw : s.loose.lookup id with
    | none =>
      have hraw' : s'.loose.lookup id = none := by rw [hloose, hraw]
      rw [h.readDepth_packed 0 hraw, h'.readDepth_packed 0 hraw', hpacked id hraw]
    | some raw =>
      unfold readDepth
      rw [hloose, hraw]
      dsimp only
      split_ifs <;> rfl
  | succ links ih =>
    cases hraw : s.loose.lookup id with
    | none =>
      have hraw' : s'.loose.lookup id = none := by rw [hloose, hraw]
      rw [h.readDepth_packed _ hraw, h'.readDepth_packed _ hraw', hpacked id hraw]
    | some raw =>
      unfold readDepth
      rw [hloose, hraw]
      dsimp only
      split_ifs
      · rfl
      · rfl
      · -- a delta: the base is read with one link less
        cases hbase : ObjectId.ofSlice ((raw.drop 24).take 32) with
        | none => rfl
        | some baseId =>
          have heq := ih baseId
          dsimp only
          cases hr : readDepth P links s baseId with
          | mk r s₁ =>
            cases hr' : readDepth P links s' baseId with
            | mk r' s₁' =>
              rw [hr, hr'] at heq
              obtain rfl : r' = r := heq
              cases r' with
              | error e => rfl
              | ok base =>
                dsimp only
                split
                · rfl
                · split <;> rfl
      · rfl

end DiskStore

end Ledge.Objects
