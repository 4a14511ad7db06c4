import Ledge.Objects.Boot

/-!
# Ledge.Objects.ColdCrash

**Crashes** inside `tier_packs` and `recover_from_s3` (`disk.rs`), write by write. A file that was
written and not yet flushed may come out of the crash with any part of its bytes from the start.

`tier_packs` flushes a marker before it removes the body. `recover_from_s3` does not flush the
tables that it writes, and it goes by which files there are: what a crash has left of a table stays
in place, and its pack is not opened again (`torn_table_stays`). `crash_recovers_iff` says what a
crash must leave for the next recovery to bring everything back.
-/

namespace Ledge.Objects

open Ledge.Core Finset List Option

namespace DiskStore

/-- What the cold tier has of a pack. -/
def coldPack (s : DiskStore) (name : ObjectId) : Option ColdPack :=
  s.cold.bind (fun cold => cold.lookup name)

/-- `put` of the cold tier -/
def putCold (s : DiskStore) (name : ObjectId) (c : ColdPack) : DiskStore :=
  { s with cold := s.cold.map (fun cold => cold.insert name c) }

theorem coldLidx_eq (s : DiskStore) (name : ObjectId) :
    s.coldLidx name = (s.coldPack name).bind ColdPack.lidx := rfl

variable {s : DiskStore}

theorem coldPack_putCold (hcold : s.cold.isSome) (name n : ObjectId) (c : ColdPack) :
    (s.putCold name c).coldPack n = if n = name then some c else s.coldPack n := by
  obtain ⟨cold, hs⟩ := isSome_iff_exists.mp hcold
  unfold coldPack putCold
  rw [hs, map_some, bind_some, bind_some]
  split_ifs with hn
  · rw [hn, Finmap.lookup_insert]
  · rw [Finmap.lookup_insert_of_ne _ hn]

theorem inCold_iff {P : Primitives} {truth : ObjectId → List UInt8} {p : StoredPack P truth} :
    s.InCold p ↔ ∃ c, s.coldPack p.name = some c ∧ c.pack = p.body := by
  unfold InCold coldPack
  cases s.cold with
  | none | some cold => simp

end DiskStore

/-! ### Writes -/

/-- One write of `tier_packs` or `recover_from_s3`. -/
inductive ColdAct
  /-- The body is uploaded, and found to be there. -/
  | putBody (name : ObjectId)
  | putLidx (name : ObjectId)
  | writeLidx (name : ObjectId)
  | writeMarker (name : ObjectId)
  /-- The marker and its directory are flushed. -/
  | syncMarker (name : ObjectId)
  | removeBody (name : ObjectId)

def ColdAct.name : ColdAct → ObjectId
  | .putBody name | .putLidx name | .writeLidx name | .writeMarker name | .syncMarker name
  | .removeBody name => name

/-- The store, and the packs whose table or marker was written and not flushed. -/
structure ColdState where
  store : DiskStore
  tables : Finset ObjectId
  markers : Finset ObjectId

namespace ColdState

def act (s : ColdState) : ColdAct → ColdState
  | .putBody name =>
    match (s.store.files name).pack with
    | some pack => { s with store := s.store.putCold name ⟨pack, s.store.coldLidx name⟩ }
    | none => s
  | .putLidx name =>
    match s.store.coldPack name, (s.store.files name).lidx with
    | some c, some lidx => { s with store := s.store.putCold name { c with lidx := some lidx } }
    | _, _ => s
  | .writeLidx name =>
    match s.store.coldLidx name with
    | some lidx =>
      { s with
        store := s.store.setFiles name { s.store.files name with lidx := some lidx }
        tables := insert name s.tables }
    | none => s
  | .writeMarker name =>
    { s with
      store := s.store.setFiles name { s.store.files name with marker := some (bodyKey name) }
      markers := insert name s.markers }
  | .syncMarker name => { s with markers := s.markers.erase name }
  | .removeBody name =>
    { s with store := s.store.setFiles name { s.store.files name with pack := none } }

end ColdState

/-- The two operations. -/
inductive ColdOp
  | tier
  | recover

/-- The writes of one turn of the loop. -/
def ColdOp.acts (s : DiskStore) (name : ObjectId) : ColdOp → List ColdAct
  | .tier =>
    if (s.files name).pack.isSome ∧ (s.files name).marker = none then
      .putBody name :: ((if (s.files name).lidx.isSome then [.putLidx name] else []) ++
        [.writeMarker name, .syncMarker name, .removeBody name])
    else []
  | .recover =>
    if (s.coldLidx name).isSome ∧
        ¬ ((s.files name).lidx.isSome ∧ ((s.files name).pack.isSome ∨
          (s.files name).marker.isSome)) then
      (if (s.files name).lidx.isSome then [] else [.writeLidx name]) ++
        (if (s.files name).pack.isSome ∨ (s.files name).marker.isSome then []
          else [.writeMarker name, .syncMarker name])
    else []

/-- The states that a crash may find, between any two writes; `order` is what the loop has to go
over. -/
inductive ColdOp.Inside (op : ColdOp) : List ObjectId → ColdState → ColdState → Prop
  | here {order : List ObjectId} {s : ColdState} : Inside op order s s
  | within {name : ObjectId} {order : List ObjectId} {s : ColdState} {acts : List ColdAct}
      (h : acts <+: op.acts s.store name) : Inside op (name :: order) s (acts.foldl ColdState.act s)
  | next {name : ObjectId} {order : List ObjectId} {s s' : ColdState}
      (h : Inside op order ((op.acts s.store name).foldl ColdState.act s) s') :
      Inside op (name :: order) s s'

/-- What every part of a turn keeps holds wherever a crash may come. -/
theorem ColdOp.Inside.invariant {op : ColdOp} {order : List ObjectId} {s s' : ColdState}
    (hinside : op.Inside order s s') (inv : ColdState → Prop) (h : inv s)
    (hturn : ∀ s name pre, inv s → pre <+: op.acts s.store name → inv (pre.foldl ColdState.act s)) :
    inv s' := by
  induction hinside with
  | here => exact h
  | within hpre => exact hturn _ _ _ h hpre
  | next _ ih => exact ih (hturn _ _ _ h prefix_rfl)

/-- A file as it comes out of a crash: as it was, or cut off if it was not flushed. -/
def Survives (unsynced : Prop) (file file' : Option (List UInt8)) : Prop :=
  file' = file ∨ unsynced ∧ ∃ full torn, file = some full ∧ file' = some torn ∧ torn <+: full

theorem Survives.isSome {unsynced : Prop} {file file' : Option (List UInt8)}
    (h : Survives unsynced file file') : file'.isSome = file.isSome := by
  rcases h with heq | ⟨-, full, torn, hfull, htorn, -⟩
  · rw [heq]
  · rw [hfull, htorn]
    rfl

/-- The disk and the cold tier after a crash. -/
structure ColdState.Crashed (s : ColdState) (d : DiskStore) : Prop where
  loose : d.loose = s.store.loose
  cold : d.cold = s.store.cold
  pack : ∀ n, (d.files n).pack = (s.store.files n).pack
  lidx : ∀ n, Survives (n ∈ s.tables) (s.store.files n).lidx (d.files n).lidx
  marker : ∀ n, Survives (n ∈ s.markers) (s.store.files n).marker (d.files n).marker

namespace ColdState

/-! ### The writes of a turn are those of the loop -/

theorem setFiles_setFiles (s : DiskStore) (name : ObjectId) (f g : PackFiles) :
    (s.setFiles name f).setFiles name g = s.setFiles name g := by
  unfold DiskStore.setFiles
  rw [Finmap.insert_insert]

theorem files_setFiles_self (s : DiskStore) (name : ObjectId) (f : PackFiles) :
    (s.setFiles name f).files name = f := by
  rw [DiskStore.files_setFiles, if_pos rfl]

/-- All writes of a turn of `recover_from_s3`. -/
theorem foldl_recover (s : ColdState) (name : ObjectId) (n : Nat) :
    ((ColdOp.recover.acts s.store name).foldl act s).store =
      (DiskStore.recoverOne (s.store, n) name).1 := by
  have hlookup : (s.store.cold.bind fun cold => cold.lookup name).bind ColdPack.lidx =
      s.store.coldLidx name := rfl
  rcases hfiles : s.store.files name with ⟨pack, lidx, marker⟩
  unfold DiskStore.recoverOne ColdOp.acts
  dsimp only
  rw [hlookup]
  cases hcold : s.store.coldLidx name with
  | none => rfl
  | some cold =>
    cases lidx with
    | none =>
      cases pack <;> cases marker <;>
        simp [act, hcold, hfiles, files_setFiles_self, setFiles_setFiles]
    | some lidx =>
      cases pack <;> cases marker <;>
        simp [act, hfiles]

theorem files_putCold (s : DiskStore) (name n : ObjectId) (c : ColdPack) :
    (s.putCold name c).files n = s.files n := rfl

theorem putCold_putCold (s : DiskStore) (name : ObjectId) (c c' : ColdPack) :
    (s.putCold name c).putCold name c' = s.putCold name c' := by
  unfold DiskStore.putCold
  cases s.cold with
  | none => rfl
  | some cold => simp

/-- All writes of a turn of `tier_packs`. -/
theorem foldl_tier (s : ColdState) (hcold : s.store.cold.isSome) (name : ObjectId)
    (stats : DiskStore.TierStats) :
    ((ColdOp.tier.acts s.store name).foldl act s).store =
      (DiskStore.tierOne (s.store, stats) name).1 := by
  obtain ⟨cold, hs⟩ := isSome_iff_exists.mp hcold
  rcases hfiles : s.store.files name with ⟨pack, lidx, marker⟩
  have hput : ∀ c, s.store.putCold name c = { s.store with cold := some (cold.insert name c) } := by
    intro c
    unfold DiskStore.putCold
    rw [hs]
    rfl
  have hlidx : s.store.coldLidx name = (cold.lookup name).bind ColdPack.lidx := by
    unfold DiskStore.coldLidx
    rw [hs]
    rfl
  unfold DiskStore.tierOne ColdOp.acts
  dsimp only
  rw [hs, hfiles]
  cases pack with
  | none => rfl
  | some pack =>
    cases marker with
    | some key => rfl
    | none =>
      cases lidx with
      | none =>
        simp only [act, hfiles, files_putCold, files_setFiles_self, setFiles_setFiles,
          isSome_some, isSome_none, and_self, if_true, Bool.false_eq_true, if_false,
          nil_append, foldl_cons, foldl_nil]
        rw [hput, hlidx]
        rfl
      | some lidx =>
        simp only [act, hfiles, files_putCold, files_setFiles_self, setFiles_setFiles,
          DiskStore.coldPack_putCold hcold, putCold_putCold, isSome_some, and_self, if_true,
          isSome_none, Bool.false_eq_true, if_false, cons_append, nil_append,
          foldl_cons, foldl_nil]
        rw [hput]
        rfl

/-! ### What holds at every write -/

variable {P : Primitives} {truth : ObjectId → List UInt8} {s s' : ColdState}
  {p : StoredPack P truth} {lib : Set (StoredPack P truth)} {a : ColdAct}

/-- The files of the pack are its own, and there is enough of them: the tier has its table and body,
or the table is on disk, with the body or with a marker that was flushed. -/
structure Kept (s : ColdState) (p : StoredPack P truth) : Prop where
  pack : ∀ b ∈ (s.store.files p.name).pack, b = p.body
  lidx : ∀ b ∈ (s.store.files p.name).lidx, b = p.lidx
  marker : ∀ key ∈ (s.store.files p.name).marker, key = bodyKey p.name
  cold : ∀ c ∈ s.store.coldPack p.name, c.pack = p.body ∧ ∀ b ∈ c.lidx, b = p.lidx
  reach : (s.store.coldLidx p.name).isSome ∨ (s.store.files p.name).lidx.isSome ∧
    ((s.store.files p.name).pack.isSome ∨ (s.store.files p.name).marker.isSome ∧
      p.name ∉ s.markers ∧ (s.store.coldPack p.name).isSome)

/-- What a write needs. -/
def Guard (s : ColdState) : ColdAct → Prop
  | .writeMarker name => (s.store.files name).marker = none
  | .removeBody name => (s.store.files name).marker.isSome ∧ name ∉ s.markers ∧
      (s.store.coldPack name).isSome
  | .putBody _ | .putLidx _ | .writeLidx _ | .syncMarker _ => True

theorem cold_act (s : ColdState) (a : ColdAct) : (s.act a).store.cold.isSome =
    s.store.cold.isSome := by
  cases a with
  | putBody name | putLidx name =>
    simp only [act]
    split
    · simp [DiskStore.putCold]
    · rfl
  | writeLidx name =>
    simp only [act]
    split <;> rfl
  | writeMarker name | syncMarker name | removeBody name => rfl

theorem loose_act (s : ColdState) (a : ColdAct) : (s.act a).store.loose = s.store.loose := by
  cases a with
  | putBody name | putLidx name | writeLidx name =>
    simp only [act]
    split <;> rfl
  | writeMarker name | syncMarker name | removeBody name => rfl

variable {order : List ObjectId} {name : ObjectId}

theorem loose_inside {op : ColdOp} (h : op.Inside order s s') : s'.store.loose = s.store.loose := by
  have hfold : ∀ (acts : List ColdAct) (s : ColdState),
      (acts.foldl act s).store.loose = s.store.loose := by
    intro acts
    induction acts with
    | nil => exact fun _ => rfl
    | cons a acts ih => exact fun s => (ih (s.act a)).trans (loose_act s a)
  refine h.invariant (fun s' => s'.store.loose = s.store.loose) rfl fun s₁ _ pre hs₁ _ => ?_
  exact (hfold pre s₁).trans hs₁

/-- Nothing is different about a pack. -/
structure SameAt (s s' : ColdState) (n : ObjectId) : Prop where
  files : s'.store.files n = s.store.files n
  cold : s'.store.coldPack n = s.store.coldPack n
  tables : n ∈ s'.tables ↔ n ∈ s.tables
  markers : n ∈ s'.markers ↔ n ∈ s.markers

theorem sameAt_act (hcold : s.store.cold.isSome) {n : ObjectId} (h : n ≠ a.name) :
    SameAt s (s.act a) n := by
  have hset : ∀ name f, n ≠ name → (s.store.setFiles name f).files n = s.store.files n := by
    intro name f hn
    rw [DiskStore.files_setFiles, if_neg hn]
  have hput : ∀ name c, n ≠ name → (s.store.putCold name c).coldPack n = s.store.coldPack n := by
    intro name c hn
    rw [DiskStore.coldPack_putCold hcold, if_neg hn]
  cases a with
  | putBody name | putLidx name =>
    simp only [act]
    split
    · exact ⟨rfl, hput name _ h, Iff.rfl, Iff.rfl⟩
    · exact ⟨rfl, rfl, Iff.rfl, Iff.rfl⟩
  | writeLidx name =>
    simp only [act]
    split
    · exact ⟨hset name _ h, rfl, mem_insert.trans (or_iff_right h), Iff.rfl⟩
    · exact ⟨rfl, rfl, Iff.rfl, Iff.rfl⟩
  | writeMarker name => exact ⟨hset name _ h, rfl, Iff.rfl, mem_insert.trans (or_iff_right h)⟩
  | syncMarker name => exact ⟨rfl, rfl, Iff.rfl, mem_erase.trans (and_iff_right h)⟩
  | removeBody name => exact ⟨hset name _ h, rfl, Iff.rfl, Iff.rfl⟩

theorem Kept.of_same (h : s.Kept p) (hsame : SameAt s s' p.name) : s'.Kept p := by
  refine ⟨?_, ?_, ?_, ?_, ?_⟩
  · rw [hsame.files]
    exact h.pack
  · rw [hsame.files]
    exact h.lidx
  · rw [hsame.files]
    exact h.marker
  · rw [hsame.cold]
    exact h.cold
  · rw [DiskStore.coldLidx_eq, hsame.files, hsame.cold, hsame.markers]
    exact h.reach

theorem Kept.coldLidx (h : s.Kept p) {b : List UInt8} (hb : s.store.coldLidx p.name = some b) :
    b = p.lidx := by
  rw [DiskStore.coldLidx_eq, bind_eq_some_iff] at hb
  obtain ⟨c, hc, hlidx⟩ := hb
  exact (h.cold c hc).2 b hlidx

theorem Kept.setFiles (h : s.Kept p) {f : PackFiles} {tables markers : Finset ObjectId}
    (hpack : ∀ b ∈ f.pack, b = p.body) (hlidx : ∀ b ∈ f.lidx, b = p.lidx)
    (hmarker : ∀ key ∈ f.marker, key = bodyKey p.name)
    (hreach : (s.store.coldLidx p.name).isSome ∨ f.lidx.isSome ∧ (f.pack.isSome ∨
      f.marker.isSome ∧ p.name ∉ markers ∧ (s.store.coldPack p.name).isSome)) :
    Kept ⟨s.store.setFiles p.name f, tables, markers⟩ p := by
  constructor <;> dsimp only
  · rwa [files_setFiles_self]
  · rwa [files_setFiles_self]
  · rwa [files_setFiles_self]
  · exact h.cold
  · rwa [files_setFiles_self]

theorem Kept.putCold (h : s.Kept p) (hcold : s.store.cold.isSome) {c : ColdPack}
    (hpack : c.pack = p.body) (hlidx : ∀ b ∈ c.lidx, b = p.lidx)
    (hreach : c.lidx.isSome ∨ (s.store.files p.name).lidx.isSome ∧
    (s.store.files p.name).pack.isSome) :
    Kept { s with store := s.store.putCold p.name c } p := by
  have hput := DiskStore.coldPack_putCold hcold p.name p.name c
  rw [if_pos rfl] at hput
  refine ⟨h.pack, h.lidx, h.marker, fun c' hc' => ?_, ?_⟩
  · cases hput.symm.trans hc'
    exact ⟨hpack, hlidx⟩
  · rw [DiskStore.coldLidx_eq, hput]
    exact hreach.imp_right fun hdisk => ⟨hdisk.1, Or.inl hdisk.2⟩

/-- **One write keeps a pack.** -/
theorem Kept.act (h : s.Kept p) (hcold : s.store.cold.isSome) (hguard : s.Guard a) :
    (s.act a).Kept p := by
  by_cases hname : p.name = a.name
  case neg => exact h.of_same (sameAt_act hcold hname)
  cases a with
  | putBody name =>
    obtain rfl : p.name = name := hname
    simp only [ColdState.act]
    split
    case h_2 => exact h
    rename_i pack hpack
    refine h.putCold hcold (h.pack pack hpack) (fun b hb => h.coldLidx hb) ?_
    exact h.reach.imp_right fun hdisk => ⟨hdisk.1, by simp [hpack]⟩
  | putLidx name =>
    obtain rfl : p.name = name := hname
    simp only [ColdState.act]
    split
    case h_2 => exact h
    rename_i c lidx hc hlidx
    refine h.putCold hcold (h.cold c hc).1 (fun b hb => ?_) (Or.inl rfl)
    cases hb
    exact h.lidx _ hlidx
  | writeLidx name =>
    obtain rfl : p.name = name := hname
    simp only [ColdState.act]
    split
    case h_2 => exact h
    rename_i lidx hlidx
    refine h.setFiles h.pack (fun b hb => ?_) h.marker (Or.inl (by simp [hlidx]))
    cases hb
    exact h.coldLidx hlidx
  | writeMarker name =>
    obtain rfl : p.name = name := hname
    have hnone : (s.store.files p.name).marker = none := hguard
    refine h.setFiles h.pack h.lidx (fun key hkey => (some.inj hkey).symm) ?_
    refine h.reach.imp_right fun hdisk => ⟨hdisk.1, Or.inl ?_⟩
    rcases hdisk.2 with hpack | ⟨hmarker, -⟩
    · exact hpack
    · rw [hnone] at hmarker
      cases hmarker
  | syncMarker name =>
    refine ⟨h.pack, h.lidx, h.marker, h.cold, h.reach.imp_right fun hdisk => ⟨hdisk.1, ?_⟩⟩
    refine hdisk.2.imp_right fun hmarker => ⟨hmarker.1, fun hmem => ?_, hmarker.2.2⟩
    exact hmarker.2.1 (Finset.mem_of_mem_erase hmem)
  | removeBody name =>
    obtain rfl : p.name = name := hname
    refine h.setFiles nofun h.lidx h.marker ?_
    exact h.reach.imp_right fun hdisk => ⟨hdisk.1, Or.inr hguard⟩

/-- The packs of a library are kept, and there are no others. -/
structure Intact (lib : Set (StoredPack P truth)) (s : ColdState) : Prop where
  tier : s.store.cold.isSome
  covers : ∀ n, s.store.files n ≠ .empty ∨ (s.store.coldPack n).isSome → ∃ p ∈ lib, p.name = n
  kept : ∀ p ∈ lib, s.Kept p

theorem Intact.act (h : Intact lib s) (hguard : s.Guard a) (hname : ∃ p ∈ lib, p.name = a.name) :
    Intact lib (s.act a) := by
  refine ⟨?_, fun n hknown => ?_, fun p hp => (h.kept p hp).act h.tier hguard⟩
  · rw [cold_act]
    exact h.tier
  · by_cases hn : n = a.name
    · rw [hn]
      exact hname
    · have hsame := sameAt_act (s := s) (a := a) h.tier hn
      rw [hsame.files, hsame.cold] at hknown
      exact h.covers n hknown

/-- Each of the writes has what it needs where it comes. -/
def Guarded (guard : ColdState → ColdAct → Prop) (name : ObjectId) (s : ColdState) : List ColdAct →
    Prop
  | [] => True
  | a :: acts => a.name = name ∧ guard s a ∧ Guarded guard name (s.act a) acts

theorem Guarded.foldl {guard : ColdState → ColdAct → Prop} {inv : ColdState → Prop}
    (hstep : ∀ s a, inv s → a.name = name → guard s a → inv (s.act a)) {acts pre : List ColdAct}
    (hguarded : Guarded guard name s acts) (h : inv s) (hpre : pre <+: acts) :
    inv (pre.foldl ColdState.act s) := by
  induction acts generalizing s pre with
  | nil =>
    obtain rfl := prefix_nil.mp hpre
    exact h
  | cons a acts ih =>
    rcases prefix_cons_iff.mp hpre with rfl | ⟨pre', rfl, hpre'⟩
    · exact h
    · obtain ⟨hname, hguard, hrest⟩ := hguarded
      rw [foldl_cons]
      exact ih hrest (hstep s a h hname hguard) hpre'

theorem guarded_marker (hcold : (s.store.coldPack name).isSome)
    (hmarker : (s.store.files name).marker = none) :
    Guarded Guard name s [.writeMarker name, .syncMarker name, .removeBody name] := by
  refine ⟨rfl, hmarker, rfl, trivial, rfl, ⟨?_, ?_, hcold⟩, trivial⟩
  · rw [show ((s.act (.writeMarker name)).act (.syncMarker name)).store.files name = _
      from files_setFiles_self ..]
    rfl
  · exact notMem_erase name _

theorem guarded_acts (hcold : s.store.cold.isSome) (op : ColdOp) (name : ObjectId) :
    Guarded Guard name s (op.acts s.store name) := by
  cases op with
  | tier =>
    unfold ColdOp.acts
    dsimp only
    split_ifs with hlocal hlidx
    · obtain ⟨hpack, hmarker⟩ := hlocal
      obtain ⟨pack, hpack⟩ := isSome_iff_exists.mp hpack
      obtain ⟨lidx, hlidx⟩ := isSome_iff_exists.mp hlidx
      have hput := DiskStore.coldPack_putCold hcold name name ⟨pack, s.store.coldLidx name⟩
      rw [if_pos rfl] at hput
      refine ⟨rfl, trivial, rfl, trivial, ?_⟩
      simp only [act, hpack, hput, files_putCold, hlidx]
      refine guarded_marker ?_ hmarker
      have hcold' : (s.store.putCold name ⟨pack, s.store.coldLidx name⟩).cold.isSome := by
        simp [DiskStore.putCold, hcold]
      rw [DiskStore.coldPack_putCold hcold', if_pos rfl]
      rfl
    · obtain ⟨hpack, hmarker⟩ := hlocal
      obtain ⟨pack, hpack⟩ := isSome_iff_exists.mp hpack
      refine ⟨rfl, trivial, ?_⟩
      simp only [act, hpack]
      refine guarded_marker ?_ hmarker
      dsimp only
      rw [DiskStore.coldPack_putCold hcold, if_pos rfl]
      rfl
    · trivial
  | recover =>
    unfold ColdOp.acts
    dsimp only
    by_cases hneeded : (s.store.coldLidx name).isSome ∧ ¬ ((s.store.files name).lidx.isSome ∧
        ((s.store.files name).pack.isSome ∨ (s.store.files name).marker.isSome))
    case neg =>
      rw [if_neg hneeded]
      trivial
    obtain ⟨lidx, hlidx⟩ := isSome_iff_exists.mp hneeded.1
    have hmarkers : ∀ s' : ColdState, s'.store.files name =
        { s.store.files name with lidx := (s'.store.files name).lidx } →
        Guarded Guard name s' (if (s.store.files name).pack.isSome ∨
          (s.store.files name).marker.isSome then []
          else [.writeMarker name, .syncMarker name]) := by
      intro s' hfiles
      split_ifs with hbody
      · trivial
      · refine ⟨rfl, ?_, rfl, trivial, trivial⟩
        rw [Guard, hfiles]
        exact not_isSome_iff_eq_none.mp (not_or.mp hbody).2
    split_ifs at hmarkers ⊢ with htable hbody hbody
    · trivial
    · exact hmarkers s rfl
    · exact ⟨rfl, trivial, trivial⟩
    · refine ⟨rfl, trivial, ?_⟩
      refine hmarkers _ ?_
      simp only [act, hlidx, files_setFiles_self]

/-- **Every state that a crash may find.** -/
theorem Intact.inside {op : ColdOp} (h : Intact lib s) (hinside : op.Inside order s s') :
    Intact lib s' := by
  refine hinside.invariant (Intact lib) h fun s name pre hs hpre => ?_
  by_cases hknown : s.store.files name ≠ .empty ∨ (s.store.coldPack name).isSome
  · have hlib := hs.covers name hknown
    refine (guarded_acts hs.tier op name).foldl (fun s a hs hname hguard => ?_) hs hpre
    exact hs.act hguard (hname ▸ hlib)
  · -- a turn without writes may be about any name
    obtain ⟨hempty, hcold⟩ := not_or.mp hknown
    have hnone : s.store.coldPack name = none := not_isSome_iff_eq_none.mp hcold
    have hnothing : op.acts s.store name = [] := by
      cases op with
      | tier =>
        unfold ColdOp.acts
        rw [not_not.mp hempty]
        rfl
      | recover =>
        unfold ColdOp.acts
        rw [DiskStore.coldLidx_eq, hnone]
        rfl
    rw [hnothing] at hpre
    obtain rfl := prefix_nil.mp hpre
    exact hs

end ColdState

/-! ### After the crash -/

namespace DiskStore

variable {P : Primitives} {truth : ObjectId → List UInt8} {s d s₂ : DiskStore}
  {p q : StoredPack P truth}
  {lib : Set (StoredPack P truth)} {order keys order' : List ObjectId} {id : ObjectId}

/-- What a crash leaves of a pack. -/
structure Left (d : DiskStore) (p : StoredPack P truth) : Prop where
  pack : ∀ b ∈ (d.files p.name).pack, b = p.body
  lidx : ∀ b ∈ (d.files p.name).lidx, b <+: p.lidx
  cold : ∀ b ∈ d.coldLidx p.name, b = p.lidx ∧ d.InCold p
  reach : (d.coldLidx p.name).isSome ∨ (d.files p.name).lidx.isSome ∧
    ((d.files p.name).pack.isSome ∨ (d.files p.name).marker.isSome ∧ d.InCold p)

/-- The table of the pack was not cut off. -/
def TableWhole (d : DiskStore) (p : StoredPack P truth) : Prop :=
  ∀ b ∈ (d.files p.name).lidx, b = p.lidx

/-- The body of the pack is there, or its marker was not cut off. -/
def BodyReached (d : DiskStore) (p : StoredPack P truth) : Prop :=
  (d.files p.name).pack.isSome ∨ ∀ key ∈ (d.files p.name).marker, key = bodyKey p.name

theorem left_of_crashed {s : ColdState} (h : s.Kept p) (hcrash : s.Crashed d) : d.Left p := by
  have hpack := hcrash.pack p.name
  have hcoldPack : d.coldPack p.name = s.store.coldPack p.name := by
    unfold coldPack
    rw [hcrash.cold]
  have hin : (d.coldPack p.name).isSome → d.InCold p := by
    intro hsome
    obtain ⟨c, hc⟩ := isSome_iff_exists.mp hsome
    exact inCold_iff.mpr ⟨c, hc, (h.cold c (hcoldPack ▸ hc)).1⟩
  refine ⟨fun b hb => ?_, fun b hb => ?_, fun b hb => ?_, ?_⟩
  · rw [hpack] at hb
    exact h.pack b hb
  · rcases hcrash.lidx p.name with heq | ⟨-, full, torn, hfull, htorn, htake⟩
    · rw [heq] at hb
      rw [h.lidx b hb]
    · cases htorn.symm.trans hb
      rw [← h.lidx full hfull]
      exact htake
  · rw [coldLidx_eq] at hb
    obtain ⟨c, hc, hown⟩ := bind_eq_some_iff.mp hb
    exact ⟨(h.cold c (hcoldPack ▸ hc)).2 b hown, hin (by rw [hc]; rfl)⟩
  · rw [coldLidx_of_cold hcrash.cold, (hcrash.lidx p.name).isSome, (hcrash.marker p.name).isSome,
      hpack]
    refine h.reach.imp_right fun hdisk => ⟨hdisk.1, hdisk.2.imp_right fun hmarked => ?_⟩
    exact ⟨hmarked.1, hin (by rw [hcoldPack]; exact hmarked.2.2)⟩

/-- The recovery leaves a table that is there, and fetches one that is not. -/
theorem recovered_lidx (h : d.Left p) :
    (d.recovered p.name).lidx = some ((d.files p.name).lidx.getD p.lidx) := by
  unfold recovered
  cases hcold : d.coldLidx p.name with
  | none =>
    have hreach := h.reach
    rw [hcold] at hreach
    obtain ⟨b, hb⟩ := isSome_iff_exists.mp (hreach.resolve_left Bool.false_ne_true).1
    rw [hb]
    rfl
  | some b =>
    obtain ⟨rfl, -⟩ := h.cold b hcold
    dsimp only
    cases hlidx : (d.files p.name).lidx with
    | none => rfl
    | some b' => split_ifs <;> simp [hlidx]

/-- It leaves a marker that is there, and writes one where the body is missing. -/
theorem recovered_marker (h : d.Left p) (hnone : (d.files p.name).pack = none) :
    (d.recovered p.name).marker = some ((d.files p.name).marker.getD (bodyKey p.name)) := by
  unfold recovered
  cases hcold : d.coldLidx p.name with
  | none =>
    have hreach := h.reach
    rw [hcold, hnone] at hreach
    have hmarked := ((hreach.resolve_left Bool.false_ne_true).2.resolve_left Bool.false_ne_true).1
    obtain ⟨key, hkey⟩ := isSome_iff_exists.mp hmarked
    rw [hkey]
    rfl
  | some b =>
    dsimp only
    cases hmarker : (d.files p.name).marker with
    | none => simp [hnone]
    | some key => split_ifs <;> simp [hmarker]

theorem body_recovered (h : d.Left p) :
    ((d.recovered p.name).pack.isSome || (d.recovered p.name).marker.isSome) = true := by
  cases hpack : (d.files p.name).pack with
  | some b =>
    rw [recovered_pack, hpack]
    rfl
  | none => rw [recovered_marker h hpack, isSome_some, Bool.or_true]

theorem Left.inCold (h : d.Left p) (hnone : (d.files p.name).pack = none) : d.InCold p := by
  rcases h.reach with hcold | ⟨-, hpack | ⟨-, hin⟩⟩
  · obtain ⟨b, hb⟩ := isSome_iff_exists.mp hcold
    exact (h.cold b hb).2
  · rw [hnone] at hpack
    cases hpack
  · exact hin

section

variable (hcold : s₂.cold = d.cold) (hfiles : ∀ n, s₂.files n = d.recovered n)

include hcold hfiles

omit hcold in
theorem openPack_recovered (h : d.Left p) {pf : GitPackFile} :
    s₂.openPack p.name = .ok pf ↔ d.TableWhole p ∧ pf = p.file := by
  unfold DiskStore.openPack
  rw [hfiles, recovered_lidx h]
  dsimp only
  have hwhole : d.TableWhole p ↔ (d.files p.name).lidx.getD p.lidx = p.lidx := by
    unfold TableWhole
    cases (d.files p.name).lidx with
    | none | some b => simp
  have htake : (d.files p.name).lidx.getD p.lidx <+: p.lidx := by
    cases hlidx : (d.files p.name).lidx with
    | none => exact prefix_rfl
    | some b => exact h.lidx b hlidx
  by_cases heq : (d.files p.name).lidx.getD p.lidx = p.lidx
  · rw [heq, p.readLidx_lidx, and_iff_right (hwhole.mpr heq)]
    exact ⟨fun hok => (Except.ok.inj hok).symm, fun hok => hok ▸ rfl⟩
  · obtain ⟨e, he⟩ := p.readLidx_torn htake heq
    rw [he]
    simp [hwhole, heq]

theorem restorable_recovered (h : d.Left p) (hreached : d.BodyReached p) : s₂.Restorable p := by
  cases hpack : (d.files p.name).pack with
  | some b =>
    refine Or.inl ?_
    rw [hfiles, recovered_pack, hpack, h.pack b hpack]
  | none =>
    refine Or.inr ⟨?_, ?_, (h.inCold hpack).of_cold hcold⟩
    · rw [hfiles, recovered_pack, hpack]
    · rw [hfiles, recovered_marker h hpack]
      unfold BodyReached at hreached
      rw [hpack] at hreached
      have hmarker := hreached.resolve_left Bool.false_ne_true
      cases hcase : (d.files p.name).marker with
      | none => rfl
      | some key => exact congrArg some (hmarker key hcase)

/-- Otherwise the body is asked for under a key that the tier does not have. -/
theorem ensurePackLocal_recovered (h : d.Left p) (hreached : ¬ d.BodyReached p) :
    ∃ e, s₂.ensurePackLocal P p.file = .error e := by
  obtain ⟨hpack, hmarker⟩ := not_or.mp hreached
  have hnone : (d.files p.name).pack = none := not_isSome_iff_eq_none.mp hpack
  push Not at hmarker
  obtain ⟨key, hkey, hne⟩ := hmarker
  have hkey' : (d.files p.name).marker = some key := hkey
  obtain ⟨cold, -, hs, -, -⟩ := h.inCold hnone
  unfold ensurePackLocal
  have hname : p.file.name = p.name := rfl
  have hbody : (s₂.files p.name).pack = none := by rw [hfiles, recovered_pack, hnone]
  have hmarked : (s₂.files p.name).marker = some key := by
    rw [hfiles, recovered_marker h hnone, hkey']
    rfl
  dsimp only
  rw [hname, hbody, hmarked, hcold, hs]
  dsimp only
  rw [if_neg hne]
  exact ⟨_, rfl⟩

end

/-- What a crash leaves of a library. -/
structure Leftover (lib : Set (StoredPack P truth)) (d : DiskStore) : Prop where
  tier : d.cold.isSome
  covers : ∀ n, d.files n ≠ .empty ∨ (d.coldLidx n).isSome → ∃ p ∈ lib, p.name = n
  left : ∀ p ∈ lib, d.Left p

theorem leftover_of_crashed {s : ColdState} (h : s.Intact lib) (hcrash : s.Crashed d) :
    d.Leftover lib := by
  refine ⟨?_, fun n hknown => h.covers n ?_, fun p hp => left_of_crashed (h.kept p hp) hcrash⟩
  · rw [hcrash.cold]
    exact h.tier
  · rcases hknown with hfiles | hlidx
    · refine Or.inl fun hempty => hfiles ?_
      have hpack := hcrash.pack n
      have hlidx := hcrash.lidx n
      have hmarker := hcrash.marker n
      simp only [hempty, PackFiles.empty, Survives, reduceCtorEq, false_and, exists_false,
        and_false, or_false] at hpack hlidx hmarker
      cases hcase : d.files n with
      | mk pack lidx marker =>
        rw [hcase] at hpack hlidx hmarker
        dsimp only at hpack hlidx hmarker
        rw [hpack, hlidx, hmarker]
        rfl
    · rw [coldLidx_of_cold hcrash.cold, coldLidx_eq] at hlidx
      refine Or.inr ?_
      cases hcase : s.store.coldPack n with
      | none => rw [hcase] at hlidx; cases hlidx
      | some c => rfl

theorem Leftover.mem_reload (h : d.Leftover lib) (hfiles : ∀ n, s₂.files n = d.recovered n)
    (horder' : Lists order' s₂.packDir) {pf : GitPackFile} :
    pf ∈ (s₂.reloadPacks order').packs ↔ ∃ p ∈ lib, d.TableWhole p ∧ p.file = pf := by
  rw [packs_reloadPacks, openAll, List.mem_filterMap]
  constructor
  · rintro ⟨n, -, hopen⟩
    split_ifs at hopen
    cases hcase : s₂.openPack n with
    | error e => rw [hcase] at hopen; cases hopen
    | ok pf' =>
      rw [hcase] at hopen
      cases hopen
      have hknown : d.files n ≠ .empty ∨ (d.coldLidx n).isSome := by
        by_contra hnone
        obtain ⟨hempty, hlidx⟩ := not_or.mp hnone
        have hnone : d.recovered n = .empty := by
          rw [recovered_of_none (not_isSome_iff_eq_none.mp hlidx), not_not.mp hempty]
        unfold DiskStore.openPack at hcase
        rw [hfiles, hnone] at hcase
        cases hcase
      obtain ⟨p, hp, rfl⟩ := h.covers n hknown
      obtain ⟨hwhole, rfl⟩ := (openPack_recovered hfiles (h.left p hp)).mp hcase
      exact ⟨p, hp, hwhole, rfl⟩
  · rintro ⟨p, hp, hwhole, rfl⟩
    have hleft := h.left p hp
    have hlidx : (s₂.files p.name).lidx.isSome := by
      rw [hfiles, recovered_lidx hleft]
      rfl
    refine ⟨p.name, (horder'.2 _).mpr (mem_packDir_of_lidx hlidx), ?_⟩
    rw [hfiles, if_pos (body_recovered hleft), (openPack_recovered hfiles hleft).mpr ⟨hwhole, rfl⟩]
    rfl

/-- A loop over packs that finds an object finds it in one that has it. -/
theorem contains_of_readPacks {packs : List GitPackFile} {content : List UInt8} {s' : DiskStore}
    (h : readPacks P id packs s = (.ok (some content), s')) : ∃ pf ∈ packs, pf.contains id =
      true := by
  induction packs generalizing s with
  | nil => cases h
  | cons pf packs ih =>
    rw [readPacks] at h
    split at h
    · cases h
    · split at h
      · cases h
      · rename_i hread
        refine ⟨pf, List.mem_cons_self, ?_⟩
        unfold GitPackFile.read at hread
        unfold GitPackFile.contains
        cases hrow : pf.row id with
        | none => rw [hrow] at hread; cases hread
        | some e => rfl
      · obtain ⟨pf', hmem, hcontains⟩ := ih h
        exact ⟨pf', List.mem_cons_of_mem _ hmem, hcontains⟩

/-- The object is in a pack of the library, or has a loose file, whole or a delta, that leads to
it. -/
inductive Resolves (lib : Set (StoredPack P truth)) (s : DiskStore) : Nat → ObjectId → Prop
  | packed {links : Nat} {id : ObjectId} {p : StoredPack P truth}
      (hloose : s.loose.lookup id = none)
      (hp : p ∈ lib) (hcontains : p.file.contains id = true) : Resolves lib s links id
  | whole {links : Nat} {id : ObjectId} {typeName : String} {gitType : UInt8}
      (hloose : s.loose.lookup id = some (P.looseFile typeName gitType (truth id)))
      (hfits : P.Fits (truth id)) : Resolves lib s links id
  | delta {links : Nat} {id base : ObjectId} {raw delta : List UInt8}
      (hloose : s.loose.lookup id = some raw) (hlength : 24 ≤ raw.length)
      (henc : raw.getD 21 0 = encDelta) (hbase : ObjectId.ofSlice ((raw.drop 24).take 32) =
        some base)
      (hdelta : P.zlibInflate (raw.drop 56) id = .ok delta)
      (happly : applyDelta (truth base) delta = .ok (truth id)) (h : Resolves lib s links base) :
      Resolves lib s (links + 1) id

/-- An object that resolves is read as what it is, if the packed objects are. -/
theorem Resolves.read {links : Nat} (h : Resolves lib s links id) (hloose : s₂.loose = s.loose)
    (hpacked : ∀ p ∈ lib, ∀ id, p.file.contains id = true → s.loose.lookup id = none →
      ∀ links, (readDepth P links s₂ id).1 = .ok (truth id)) :
    (readDepth P links s₂ id).1 = .ok (truth id) := by
  induction h with
  | packed hnone hp hcontains => exact hpacked _ hp _ hcontains hnone _
  | whole hraw hfits =>
    rw [readDepth_loose _ (by rw [hloose]; exact hraw), if_pos hfits]
  | delta hraw hlength henc hbase hdelta happly _ ih =>
    have hfile : DeltaFile P truth _ _ _ := ⟨hlength, henc, hbase, _, hdelta, happly⟩
    exact (hfile.readDepth_succ (by rw [hloose]; exact hraw) _).2 ih

/-! ### The next recovery -/

/-- `new`, `set_cold` and a `recover_from_s3` in which nothing fails, with directories and keys in
any order. -/
def RestartsTo (d d' : DiskStore) : Prop :=
  ∃ order keys order', Lists order d.packDir ∧ (∀ cold, d.cold = some cold → Lists keys cold) ∧
    Lists order' (recoverLoop .none keys (d.reopen order)).2.packDir ∧
    d' = d.boot .none order keys order'

theorem RestartsTo.reload {d' : DiskStore} (h : d.RestartsTo d') (hcold : d.cold.isSome) :
    ∃ (s₂ : DiskStore) (order' : List ObjectId), s₂.loose = d.loose ∧ s₂.cold = d.cold ∧
      (∀ n, s₂.files n = d.recovered n) ∧ Lists order' s₂.packDir ∧ d' = s₂.reloadPacks order' := by
  obtain ⟨order, keys, order', -, hkeys, horder', rfl⟩ := h
  rcases boot_cases hkeys horder' with ⟨hreached, -⟩ | ⟨-, s₂, hrecovery, hfiles, hlists, hboot⟩
  · unfold recovers at hreached
    rw [recoverLoop_none keys _ 0, hcold] at hreached
    cases hreached
  · exact ⟨s₂, order', hrecovery.loose, hrecovery.cold, hfiles, hlists, hboot⟩

theorem files_reopen (s : DiskStore) (order : List ObjectId) (n : ObjectId) :
    (s.reopen order).files n = s.files n := rfl

theorem exists_lists {β : Type} (m : Finmap (fun _ : ObjectId => β)) : ∃ order, Lists order m :=
  ⟨m.keys.toList, m.keys.nodup_toList, fun id => by rw [Finset.mem_toList, Finmap.mem_keys]⟩

theorem exists_lists_cons {β : Type} {m : Finmap (fun _ : ObjectId => β)} {name : ObjectId}
    (h : name ∈ m) : ∃ order, Lists (name :: order) m := by
  refine ⟨(m.keys.erase name).toList, ?_, fun id => ?_⟩
  · refine nodup_cons.mpr ⟨fun hmem => ?_, nodup_toList _⟩
    exact notMem_erase name _ (Finset.mem_toList.mp hmem)
  · rw [List.mem_cons, Finset.mem_toList, mem_erase, Finmap.mem_keys]
    by_cases hid : id = name
    · simp [hid, h]
    · simp [hid]

theorem exists_restart (hcold : d.cold.isSome) :
    ∃ s₂ : DiskStore, s₂.cold = d.cold ∧ (∀ n, s₂.files n = d.recovered n) ∧
      ∀ order', Lists order' s₂.packDir → d.RestartsTo (s₂.reloadPacks order') := by
  obtain ⟨order, horder⟩ := exists_lists d.packDir
  obtain ⟨cold, hs⟩ := isSome_iff_exists.mp hcold
  obtain ⟨keys, hkeys⟩ := exists_lists cold
  have hboot : ∀ order', d.boot .none order keys order' =
      (recoverLoop .none keys (d.reopen order)).2.reloadPacks order' := by
    intro order'
    have hcold : (d.reopen order).cold = some cold := hs
    unfold boot
    dsimp only
    rw [hcold, recoverLoop_none keys (d.reopen order) 0]
    exact if_neg (by simp [BootFaults.none])
  have hrestarts : ∀ order', Lists order' (recoverLoop .none keys (d.reopen order)).2.packDir →
      d.RestartsTo ((recoverLoop .none keys (d.reopen order)).2.reloadPacks order') := by
    intro order' horder'
    refine ⟨order, keys, order', horder, fun c hc => ?_, horder', (hboot order').symm⟩
    cases hs.symm.trans hc
    exact hkeys
  refine ⟨_, (recovery_recoverLoop .none keys (d.reopen order)).cold, fun n => ?_, hrestarts⟩
  obtain ⟨order', horder'⟩ := exists_lists (recoverLoop .none keys (d.reopen order)).2.packDir
  obtain ⟨s₂, order₂, -, -, hfiles, -, heq⟩ := (hrestarts order' horder').reload hcold
  exact (congrArg (fun s : DiskStore => s.files n) heq).trans (hfiles n)

theorem Leftover.exists_first (h : d.Leftover lib) (hq : q ∈ lib) (hwhole : d.TableWhole q)
    (hfiles : ∀ n, s₂.files n = d.recovered n) :
    ∃ order', Lists order' s₂.packDir ∧ ∃ packs, (s₂.reloadPacks order').packs =
      q.file :: packs := by
  have hleft := h.left q hq
  have hlidx : (s₂.files q.name).lidx.isSome := by
    rw [hfiles, recovered_lidx hleft]
    rfl
  obtain ⟨order', horder'⟩ := exists_lists_cons (mem_packDir_of_lidx hlidx)
  refine ⟨_, horder', ?_⟩
  have hopen := (openPack_recovered hfiles hleft).mpr ⟨hwhole, rfl⟩
  rw [packs_reloadPacks, openAll, filterMap_cons_some (b := q.file)]
  · exact ⟨_, rfl⟩
  · rw [hfiles, if_pos (body_recovered hleft), hopen]
    rfl

/-- **What a crash must leave.** After every crash inside one of the operations, every object of the
packs is read as what it is after the next recovery, if and only if each one without a loose file is
in a pack whose table was not cut off, and then the bodies of all these packs can be reached: a read
goes over the packs in the order of the directory, and fails at the first one whose body is
missing. -/
theorem crash_recovers_iff {op : ColdOp} {names : List ObjectId} {s₀ : DiskStore} {s : ColdState}
    (hintact : ColdState.Intact lib ⟨s₀, ∅, ∅⟩) (hinside : op.Inside names ⟨s₀, ∅, ∅⟩ s)
    (hcrash : s.Crashed d)
    (hresolves : ∀ p ∈ lib, ∀ id, p.file.contains id = true → Resolves lib s₀ maxChain id) :
    (∀ d', d.RestartsTo d' → ∀ p ∈ lib, ∀ id, p.file.contains id = true →
        (d'.read P id).1 = .ok (truth id)) ↔
      ∀ p ∈ lib, ∀ id, p.file.contains id = true → d.loose.lookup id = none →
        (∃ q ∈ lib, d.TableWhole q ∧ q.file.contains id = true) ∧
          ∀ q ∈ lib, d.TableWhole q → d.BodyReached q := by
  have hleft := leftover_of_crashed (hintact.inside hinside) hcrash
  have hloose : d.loose = s₀.loose := hcrash.loose.trans (ColdState.loose_inside hinside)
  constructor
  · intro hreads p hp id hcontains hnone
    -- a restart in which the given pack is the first one
    have hpackRead : ∀ {d' : DiskStore}, d.RestartsTo d' →
        ∃ content s', readPacks P id d'.packs d' = (.ok (some content), s') := by
      intro d' hd'
      have hread := hreads d' hd' p hp id hcontains
      obtain ⟨s₂, order', hloose₂, -, -, -, rfl⟩ := hd'.reload hleft.tier
      have hnone' : (s₂.reloadPacks order').loose.lookup id = none := by
        rw [show (s₂.reloadPacks order').loose = d.loose from hloose₂]
        exact hnone
      unfold DiskStore.read readDepth at hread
      rw [hnone'] at hread
      dsimp only at hread
      split at hread
      · cases hread
      · rename_i content s' heq
        exact ⟨content, s', heq⟩
      · cases hread
    obtain ⟨s₂, hcold, hfiles, hrestarts⟩ := exists_restart hleft.tier
    refine ⟨?_, fun q hq hwhole => ?_⟩
    · by_contra hno
      push Not at hno
      obtain ⟨order', horder'⟩ := exists_lists s₂.packDir
      obtain ⟨content, s', hread⟩ := hpackRead (hrestarts order' horder')
      obtain ⟨pf, hpf, hhas⟩ := contains_of_readPacks hread
      obtain ⟨q, hq, hwhole, rfl⟩ := (hleft.mem_reload hfiles horder').mp hpf
      exact hno q hq hwhole hhas
    · by_contra hreached
      obtain ⟨order', horder', packs, hpacks⟩ := hleft.exists_first hq hwhole hfiles
      obtain ⟨content, s', hread⟩ := hpackRead (hrestarts order' horder')
      obtain ⟨e, he⟩ : ∃ e, (s₂.reloadPacks order').ensurePackLocal P q.file = .error e :=
        ensurePackLocal_recovered hcold hfiles (hleft.left q hq) hreached
      rw [hpacks, readPacks, he] at hread
      cases hread
  · intro hcondition d' hd' p hp id hcontains
    obtain ⟨s₂, order', hloose₂, hcold, hfiles, horder', rfl⟩ := hd'.reload hleft.tier
    have hloose' : (s₂.reloadPacks order').loose = s₀.loose := hloose₂.trans hloose
    refine (hresolves p hp id hcontains).read hloose' fun p hp id hcontains hnone links => ?_
    rw [← hloose] at hnone
    obtain ⟨⟨q, hq, hwhole, hhas⟩, hreached⟩ := hcondition p hp id hcontains hnone
    have hsteady : (s₂.reloadPacks order').Steady P truth := by
      intro pf hpf
      obtain ⟨q, hq, hwhole, rfl⟩ := (hleft.mem_reload hfiles horder').mp hpf
      have hrestorable : (s₂.reloadPacks order').Restorable q :=
        restorable_recovered hcold hfiles (hleft.left q hq) (hreached q hq hwhole)
      exact ⟨q, rfl, hrestorable⟩
    have hpacked : (s₂.reloadPacks order').packed id = true := by
      rw [packed, List.any_eq_true]
      exact ⟨q.file, (hleft.mem_reload hfiles horder').mpr ⟨q, hq, hwhole, rfl⟩, hhas⟩
    rw [hsteady.readDepth_packed links (by rw [hloose', ← hloose]; exact hnone), if_pos hpacked]

end DiskStore

/-! ### A recovery that crashes -/

/-- The disk was lost, and the cold tier has the pack. -/
def wipedStore : DiskStore := { tieredStore with packDir := ∅, packs := [] }

/-- The pack comes back with all of its marker and the given part of its table. -/
def partStore (lidx : List UInt8) : DiskStore :=
  wipedStore.setFiles samplePack.name ⟨none, some lidx, some (bodyKey samplePack.name)⟩

/-- The recovery of the pack, up to its end. -/
@[irreducible]
def recoveredState : ColdState :=
  (ColdOp.recover.acts wipedStore samplePack.name).foldl ColdState.act ⟨wipedStore, ∅, ∅⟩

theorem coldPack_wipedStore (n : ObjectId) : wipedStore.coldPack n =
    if n = samplePack.name then some ⟨samplePack.body, some samplePack.lidx⟩ else none := by
  rw [DiskStore.coldPack, wipedStore, tieredStore, bind_some, lookup_singleton]

theorem files_wipedStore (n : ObjectId) : wipedStore.files n = .empty := rfl

variable {lidx : List UInt8}

theorem foldl_recover_empty {s : ColdState} {name : ObjectId} (hfiles : s.store.files name = .empty)
    (hcold : s.store.coldLidx name = some lidx) :
    ((ColdOp.recover.acts s.store name).foldl ColdState.act s).store =
      s.store.setFiles name ⟨none, some lidx, some (bodyKey name)⟩ := by
  have hlookup : (s.store.cold.bind fun cold => cold.lookup name).bind ColdPack.lidx = some lidx :=
    hcold
  rw [ColdState.foldl_recover s name 0, DiskStore.recoverOne, hlookup, hfiles]
  rfl

theorem coldLidx_wipedStore : wipedStore.coldLidx samplePack.name = some samplePack.lidx := by
  rw [DiskStore.coldLidx_eq, coldPack_wipedStore, if_pos rfl, bind_some]

theorem store_recoveredState : recoveredState.store = partStore samplePack.lidx := by
  unfold recoveredState partStore
  exact foldl_recover_empty (files_wipedStore _) coldLidx_wipedStore

theorem files_partStore (lidx : List UInt8) (n : ObjectId) : (partStore lidx).files n =
    if n = samplePack.name then ⟨none, some lidx, some (bodyKey samplePack.name)⟩ else .empty := by
  rw [partStore, DiskStore.files_setFiles]
  rfl

theorem inside_recoveredState :
    ColdOp.recover.Inside [samplePack.name] ⟨wipedStore, ∅, ∅⟩ recoveredState := by
  unfold recoveredState
  exact .within prefix_rfl

theorem mem_tables_recoveredState : samplePack.name ∈ recoveredState.tables := by decide +kernel

theorem crashed_partStore (h : lidx <+: samplePack.lidx) :
    recoveredState.Crashed (partStore lidx) := by
  refine ⟨?_, ?_, fun n => ?_, fun n => ?_, fun n => ?_⟩
  · rw [store_recoveredState]
    rfl
  · rw [store_recoveredState]
    rfl
  · rw [store_recoveredState, files_partStore, files_partStore]
    split_ifs <;> rfl
  · rw [store_recoveredState, files_partStore, files_partStore]
    by_cases hn : n = samplePack.name
    · rw [if_pos hn, if_pos hn, hn]
      exact Or.inr ⟨mem_tables_recoveredState, samplePack.lidx, lidx, rfl, rfl, h⟩
    · rw [if_neg hn, if_neg hn]
      exact Or.inl rfl
  · rw [store_recoveredState, files_partStore, files_partStore]
    split_ifs <;> exact Or.inl rfl

theorem restartsTo_partStore (lidx : List UInt8) : (partStore lidx).RestartsTo
    ((partStore lidx).boot .none [samplePack.name] [samplePack.name] [samplePack.name]) := by
  have hdir : Lists [samplePack.name] (partStore lidx).packDir := lists_singleton _ _
  refine ⟨_, _, _, hdir, fun cold hcold => ?_, ?_, rfl⟩
  · cases hcold
    exact lists_singleton _ _
  · refine ⟨nodup_singleton _, fun n => ?_⟩
    have hcold : (partStore lidx).coldLidx samplePack.name = some samplePack.lidx :=
      coldLidx_wipedStore
    have hloop : DiskStore.recoverLoop .none [samplePack.name]
        ((partStore lidx).reopen [samplePack.name]) =
        (true, (partStore lidx).reopen [samplePack.name]) := by
      have hcold' : ((partStore lidx).reopen [samplePack.name]).coldLidx samplePack.name =
          some samplePack.lidx := by
        rw [← hcold]
        exact DiskStore.coldLidx_of_cold rfl
      have hfiles : ((partStore lidx).reopen [samplePack.name]).files samplePack.name =
          ⟨none, some lidx, some (bodyKey samplePack.name)⟩ := by
        rw [DiskStore.files_reopen, files_partStore, if_pos rfl]
      rw [DiskStore.recoverLoop, hcold']
      rw [hfiles]
      rfl
    rw [hloop]
    exact hdir.2 n

/-- **A table that was cut off stays.** The recovery crashes with an empty table on disk, and after
the next one the object is not found. -/
theorem torn_table_stays :
    let d := partStore []
    let d' := d.boot .none [samplePack.name] [samplePack.name] [samplePack.name]
    ColdOp.recover.Inside [samplePack.name] ⟨wipedStore, ∅, ∅⟩ recoveredState ∧
    recoveredState.Crashed d ∧ d.RestartsTo d' ∧
    samplePack.file.contains (.fill 218) = true ∧
    (d'.read samplePrimitives (.fill 218)).1 = .error (.notFound (.fill 218)) := by
  refine ⟨inside_recoveredState, crashed_partStore List.nil_prefix, restartsTo_partStore [], ?_, ?_⟩
  · decide +kernel
  · decide +kernel

theorem intact_wipedStore : ColdState.Intact {samplePack} ⟨wipedStore, ∅, ∅⟩ := by
  refine ⟨rfl, fun n hknown => ?_, fun p hp => ?_⟩
  · rw [coldPack_wipedStore] at hknown
    by_cases hn : n = samplePack.name
    · exact ⟨samplePack, Set.mem_singleton _, hn.symm⟩
    · rw [if_neg hn] at hknown
      rcases hknown with hempty | hnone
      · exact absurd rfl hempty
      · cases hnone
  · obtain rfl := Set.mem_singleton_iff.mp hp
    have hcold := coldPack_wipedStore samplePack.name
    rw [if_pos rfl] at hcold
    refine ⟨nofun, nofun, nofun, fun c hc => ?_, Or.inl ?_⟩
    · cases hcold.symm.trans hc
      refine ⟨rfl, fun b hb => ?_⟩
      exact (some.inj hb).symm
    · exact isSome_iff_exists.mpr ⟨_, coldLidx_wipedStore⟩

/-- A crash that leaves the whole table. -/
theorem whole_table_recovers :
    let d := partStore samplePack.lidx
    (((d.boot .none [samplePack.name] [samplePack.name] [samplePack.name]).read samplePrimitives
      (.fill 218)).1 = .ok [1]) := by
  have hwhole : (partStore samplePack.lidx).TableWhole samplePack := by
    intro b hb
    rw [files_partStore, if_pos rfl] at hb
    exact (some.inj hb).symm
  have hreached : (partStore samplePack.lidx).BodyReached samplePack := by
    refine Or.inr fun key hkey => ?_
    rw [files_partStore, if_pos rfl] at hkey
    exact (some.inj hkey).symm
  refine (DiskStore.crash_recovers_iff intact_wipedStore inside_recoveredState
    (crashed_partStore prefix_rfl) fun p hp id hcontains => .packed rfl hp hcontains).mpr ?_ _
    (restartsTo_partStore _) samplePack (Set.mem_singleton _) (.fill 218) (by decide +kernel)
  intro p hp id hcontains _
  refine ⟨⟨samplePack, Set.mem_singleton _, hwhole, ?_⟩, fun q hq _ => ?_⟩
  · obtain rfl := Set.mem_singleton_iff.mp hp
    exact hcontains
  · obtain rfl := Set.mem_singleton_iff.mp hq
    exact hreached

end Ledge.Objects
