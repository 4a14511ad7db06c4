import Ledge.Objects.StoredPacks

/-!
# Ledge.Objects.Boot

**A restart** of a store with a cold tier (`main.rs`): the packs whose bodies are on disk are
opened, and then `recover_from_s3` looks for the others. The cold tier may fail at any of its calls.

The packs whose bodies are in the cold tier are registered by the last step of the recovery. If that
is not reached they are missing until the next one, also when the tier answers again
(`failed_recovery_forgets`). `restart_serves_iff` says when a restart goes unnoticed.
-/

namespace Ledge.Objects

open Ledge.Core Finmap Option

namespace DiskStore

/-! ### Recovery with failures -/

/-- The calls of the cold tier that fail: the listing, and the downloads of a pack's two tables.
That of the table for git is made if it is not on disk. -/
structure BootFaults where
  list : Bool
  lidx : ObjectId → Bool
  idx : ObjectId → Bool

/-- The table of a pack in the cold tier. -/
def coldLidx (s : DiskStore) (name : ObjectId) : Option (List UInt8) :=
  (s.cold.bind (fun cold => cold.lookup name)).bind ColdPack.lidx

/-- The loop of `recover_from_s3`, and whether it comes to its end. -/
def recoverLoop (faults : BootFaults) : List ObjectId → DiskStore → Bool × DiskStore
  | [], s => (true, s)
  | name :: keys, s =>
    match s.coldLidx name with
    | none => recoverLoop faults keys s
    | some lidx =>
      let files := s.files name
      if files.lidx.isSome ∧ (files.pack.isSome ∨ files.marker.isSome) then recoverLoop faults keys
        s
      else if files.lidx.isNone ∧ faults.lidx name = true then (false, s)
      else if faults.idx name then
        (false, s.setFiles name { files with lidx := files.lidx <|> some lidx })
      else
        recoverLoop faults keys (s.setFiles name { files with
          lidx := files.lidx <|> some lidx
          marker := files.marker <|> (if files.pack.isSome then none else some (bodyKey name)) })

/-- The recovery comes to its end. -/
def recovers (s : DiskStore) (faults : BootFaults) (order keys : List ObjectId) : Bool :=
  s.cold.isSome && !faults.list && (recoverLoop faults keys (s.reopen order)).1

/-- `new`, `set_cold` and `recover_from_s3`, whose error is only logged; `order` and `order'` list
the directory before and after, and `keys` the cold tier. -/
def boot (s : DiskStore) (faults : BootFaults) (order keys order' : List ObjectId) : DiskStore :=
  let s := s.reopen order
  if s.cold.isNone ∨ faults.list then s
  else
    match recoverLoop faults keys s with
    | (false, s) => s
    | (true, s) => s.reloadPacks order'

/-- Nothing fails. -/
def BootFaults.none : BootFaults := ⟨false, fun _ => false, fun _ => false⟩

variable {P : Primitives} {truth : ObjectId → List UInt8} {s s' : DiskStore}
  {p : StoredPack P truth}
  {faults : BootFaults} {keys order order' : List ObjectId} {name id : ObjectId}

theorem recoverLoop_none (keys : List ObjectId) (s : DiskStore) (n : Nat) :
    recoverLoop .none keys s = (true, (keys.foldl recoverOne (s, n)).1) := by
  induction keys generalizing s n with
  | nil => rfl
  | cons name keys ih =>
    rw [recoverLoop, List.foldl_cons, recoverOne]
    rw [show (s.cold.bind fun cold => cold.lookup name).bind ColdPack.lidx =
      s.coldLidx name from rfl]
    cases s.coldLidx name with
    | none => exact ih s n
    | some lidx =>
      dsimp only
      by_cases husable : (s.files name).lidx.isSome ∧
          ((s.files name).pack.isSome ∨ (s.files name).marker.isSome)
      · rw [if_pos husable, if_pos husable]
        exact ih s n
      · have hidx : ¬ BootFaults.none.idx name = true := Bool.false_ne_true
        rw [if_neg husable, if_neg husable, if_neg fun h => Bool.false_ne_true h.2]
        exact ih _ (n + 1)

/-! ### What the recovery leaves -/

/-- The files of a pack once the loop has passed it. -/
def recovered (s : DiskStore) (name : ObjectId) : PackFiles :=
  let files := s.files name
  match s.coldLidx name with
  | none => files
  | some lidx =>
    if files.lidx.isSome ∧ (files.pack.isSome ∨ files.marker.isSome) then files
    else { files with
      lidx := files.lidx <|> some lidx
      marker := files.marker <|> (if files.pack.isSome then none else some (bodyKey name)) }

theorem recovered_pack : (s.recovered name).pack = (s.files name).pack := by
  unfold recovered
  split
  · rfl
  · dsimp only
    split_ifs <;> rfl

theorem usable_recovered {lidx : List UInt8} (h : s.coldLidx name = some lidx) :
    (s.recovered name).lidx.isSome ∧
      ((s.recovered name).pack.isSome ∨ (s.recovered name).marker.isSome) := by
  unfold recovered
  rw [h]
  dsimp only
  split_ifs with husable hpack
  · exact husable
  · refine ⟨?_, Or.inl hpack⟩
    cases (s.files name).lidx <;> rfl
  · refine ⟨?_, Or.inr ?_⟩
    · cases (s.files name).lidx <;> rfl
    · cases (s.files name).marker <;> rfl

/-- The loop changes files and nothing else, and leaves bodies alone. -/
structure Recovery (s s' : DiskStore) : Prop where
  loose : s'.loose = s.loose
  packs : s'.packs = s.packs
  cold : s'.cold = s.cold
  pack : ∀ n, (s'.files n).pack = (s.files n).pack

theorem Recovery.refl (s : DiskStore) : Recovery s s := ⟨rfl, rfl, rfl, fun _ => rfl⟩

theorem Recovery.trans {s'' : DiskStore} (h : Recovery s s') (h' : Recovery s' s'') :
    Recovery s s'' :=
  ⟨h'.loose.trans h.loose, h'.packs.trans h.packs, h'.cold.trans h.cold,
    fun n => (h'.pack n).trans (h.pack n)⟩

theorem recovery_setFiles {files : PackFiles} (h : files.pack = (s.files name).pack) :
    Recovery s (s.setFiles name files) := by
  refine ⟨rfl, rfl, rfl, fun n => ?_⟩
  rw [files_setFiles]
  split_ifs with hn
  · rw [hn, h]
  · rfl

theorem recovery_recoverLoop (faults : BootFaults) (keys : List ObjectId) (s : DiskStore) :
    Recovery s (recoverLoop faults keys s).2 := by
  induction keys generalizing s with
  | nil => exact Recovery.refl s
  | cons name keys ih =>
    rw [recoverLoop]
    split
    · exact ih s
    · dsimp only
      split_ifs
      · exact ih s
      · exact Recovery.refl s
      · exact recovery_setFiles rfl
      all_goals
        refine Recovery.trans ?_ (ih _)
        exact recovery_setFiles rfl

theorem recoverLoop_cons (h : (recoverLoop faults (name :: keys) s).1 = true) :
    ∃ s₁, recoverLoop faults (name :: keys) s = recoverLoop faults keys s₁ ∧ s₁.cold = s.cold ∧
      ∀ m, s₁.files m = if m = name then s.recovered m else s.files m := by
  rw [recoverLoop] at h ⊢
  cases hcase : s.coldLidx name with
  | none =>
    refine ⟨s, rfl, rfl, fun m => ?_⟩
    by_cases hm : m = name
    · unfold recovered
      rw [if_pos hm, hm, hcase]
    · rw [if_neg hm]
  | some lidx =>
    rw [hcase] at h
    dsimp only at h ⊢
    by_cases husable : (s.files name).lidx.isSome ∧
        ((s.files name).pack.isSome ∨ (s.files name).marker.isSome)
    · rw [if_pos husable]
      refine ⟨s, rfl, rfl, fun m => ?_⟩
      by_cases hm : m = name
      · unfold recovered
        rw [if_pos hm, hm, hcase]
        exact (if_pos husable).symm
      · rw [if_neg hm]
    · rw [if_neg husable] at h ⊢
      by_cases hlidx : (s.files name).lidx.isNone ∧ faults.lidx name = true
      · rw [if_pos hlidx] at h
        cases h
      · rw [if_neg hlidx] at h ⊢
        by_cases hidx : faults.idx name = true
        · rw [if_pos hidx] at h
          cases h
        · rw [if_neg hidx]
          refine ⟨_, rfl, rfl, fun m => ?_⟩
          rw [files_setFiles]
          by_cases hm : m = name
          · unfold recovered
            rw [if_pos hm, if_pos hm, hm, hcase]
            exact (if_neg husable).symm
          · rw [if_neg hm, if_neg hm]

theorem recovered_again {s₁ : DiskStore} (hcold : s₁.cold = s.cold)
    (hfiles : s₁.files name = s.recovered name) : s₁.recovered name = s.recovered name := by
  have hlidx : s₁.coldLidx name = s.coldLidx name := by
    unfold coldLidx
    rw [hcold]
  cases hcase : s.coldLidx name with
  | none =>
    unfold recovered at hfiles ⊢
    rw [hcase] at hfiles
    rw [hlidx, hcase]
    exact hfiles
  | some lidx =>
    have husable := usable_recovered hcase
    rw [← hfiles] at husable ⊢
    unfold recovered
    rw [hlidx, hcase]
    exact if_pos husable

theorem files_recoverLoop (faults : BootFaults) (keys : List ObjectId) (s : DiskStore)
    (h : (recoverLoop faults keys s).1 = true) (n : ObjectId) :
    ((recoverLoop faults keys s).2).files n = if n ∈ keys then s.recovered n else s.files n := by
  induction keys generalizing s with
  | nil => rfl
  | cons name keys ih =>
    obtain ⟨s₁, hnext, hcold, hfiles⟩ := recoverLoop_cons h
    rw [hnext] at h ⊢
    rw [ih s₁ h]
    by_cases hn : n = name
    · subst hn
      have hfile : s₁.files n = s.recovered n := by rw [hfiles, if_pos rfl]
      rw [recovered_again hcold hfile, hfile, ite_self, if_pos List.mem_cons_self]
    · have hsame : s₁.recovered n = s.recovered n := by
        unfold recovered coldLidx
        rw [hcold, hfiles, if_neg hn]
      rw [hsame, hfiles, if_neg hn]
      simp [hn]

/-! ### The packs that are registered -/

/-- Whatever there is of the pack, on disk and in the cold tier, is its own. -/
structure Filed (s : DiskStore) (p : StoredPack P truth) : Prop where
  pack : ∀ b ∈ (s.files p.name).pack, b = p.body
  lidx : ∀ b ∈ (s.files p.name).lidx, b = p.lidx
  marker : ∀ key ∈ (s.files p.name).marker, key = bodyKey p.name
  cold : ∀ b ∈ s.coldLidx p.name, b = p.lidx ∧ s.InCold p
  reach : (s.files p.name).marker.isSome → (s.files p.name).pack = none → s.InCold p

variable (P truth) in
/-- Every pack that there is something of has its own files. -/
def Sound (s : DiskStore) : Prop :=
  ∀ name, s.files name ≠ .empty ∨ (s.coldLidx name).isSome →
    ∃ p : StoredPack P truth, p.name = name ∧ s.Filed p

theorem Filed.openPack (h : s.Filed p) {pf : GitPackFile} :
    s.openPack p.name = .ok pf ↔ (s.files p.name).lidx.isSome ∧ pf = p.file := by
  unfold DiskStore.openPack
  cases hlidx : (s.files p.name).lidx with
  | none => simp
  | some b =>
    obtain rfl := h.lidx b hlidx
    dsimp only
    rw [p.readLidx_lidx]
    constructor
    · intro heq
      exact ⟨rfl, (Except.ok.inj heq).symm⟩
    · rintro ⟨-, rfl⟩
      rfl

theorem Filed.restorable (h : s.Filed p)
    (hreach : (s.files p.name).pack.isSome ∨ (s.files p.name).marker.isSome) : s.Restorable p := by
  cases hpack : (s.files p.name).pack with
  | some b =>
    obtain rfl := h.pack b hpack
    exact Or.inl hpack
  | none =>
    rw [hpack] at hreach
    obtain hmarker := hreach.resolve_left Bool.false_ne_true
    obtain ⟨key, hkey⟩ := isSome_iff_exists.mp hmarker
    obtain rfl := h.marker key hkey
    exact Or.inr ⟨hpack, hkey, h.reach hmarker hpack⟩

theorem ne_empty_of_lidx (h : (s.files name).lidx.isSome) : s.files name ≠ .empty := by
  intro heq
  rw [heq] at h
  cases h

theorem mem_packDir_of_lidx (h : (s.files name).lidx.isSome) : name ∈ s.packDir := by
  by_contra hmem
  rw [DiskStore.files, lookup_eq_none.mpr hmem] at h
  cases h

theorem Sound.mem_openAll (h : s.Sound P truth) (horder : Lists order s.packDir)
    {wanted : PackFiles → Bool} {pf : GitPackFile} :
    pf ∈ s.openAll wanted order ↔ ∃ p : StoredPack P truth, p.file = pf ∧ s.Filed p ∧
      (s.files p.name).lidx.isSome ∧ wanted (s.files p.name) = true := by
  unfold openAll
  rw [List.mem_filterMap]
  constructor
  · rintro ⟨name, -, hopen⟩
    split_ifs at hopen with hwanted
    obtain ⟨pf', hopen'⟩ : ∃ pf', s.openPack name = .ok pf' := by
      cases hcase : s.openPack name with
      | error e => rw [hcase] at hopen; cases hopen
      | ok pf' => exact ⟨pf', rfl⟩
    have hlidx : (s.files name).lidx.isSome := by
      unfold DiskStore.openPack at hopen'
      cases hcase : (s.files name).lidx with
      | none => rw [hcase] at hopen'; cases hopen'
      | some b => rfl
    obtain ⟨p, rfl, hp⟩ := h name (Or.inl (ne_empty_of_lidx hlidx))
    obtain ⟨-, rfl⟩ := hp.openPack.mp hopen'
    rw [hopen'] at hopen
    exact ⟨p, some.inj hopen, hp, hlidx, hwanted⟩
  · rintro ⟨p, rfl, hp, hlidx, hwanted⟩
    refine ⟨p.name, (horder.2 _).mpr (mem_packDir_of_lidx hlidx), ?_⟩
    rw [if_pos hwanted, hp.openPack.mpr ⟨hlidx, rfl⟩]
    rfl

/-- Two packs with one name and one table are registered as the same. -/
theorem Filed.file_eq {q : StoredPack P truth} (hp : s.Filed p) (hq : s.Filed q)
    (hname : q.name = p.name) (hlidx : (s.files p.name).lidx.isSome) : q.file = p.file := by
  obtain ⟨b, hb⟩ := isSome_iff_exists.mp hlidx
  have hrows : readLidx p.lidx = readLidx q.lidx := by
    rw [← hp.lidx b hb, ← hq.lidx b (by rw [hname]; exact hb)]
  rw [p.readLidx_lidx, q.readLidx_lidx] at hrows
  rw [StoredPack.file, StoredPack.file, hname, Except.ok.inj hrows]

theorem InCold.of_cold (h : s.InCold p) (hcold : s'.cold = s.cold) : s'.InCold p := by
  unfold InCold
  rw [hcold]
  exact h

theorem coldLidx_of_cold (hcold : s'.cold = s.cold) : s'.coldLidx name = s.coldLidx name := by
  unfold coldLidx
  rw [hcold]

theorem Filed.recovered (h : s.Filed p) (hcold : s'.cold = s.cold)
    (hfiles : s'.files p.name = s.recovered p.name) : s'.Filed p := by
  have hpack : (s'.files p.name).pack = (s.files p.name).pack := by rw [hfiles, recovered_pack]
  refine ⟨fun b hb => ?_, fun b hb => ?_, fun key hkey => ?_, fun b hb => ?_, fun hmarker hnone =>
    ?_⟩
  · rw [hpack] at hb
    exact h.pack b hb
  · rw [hfiles] at hb
    unfold DiskStore.recovered at hb
    split at hb
    · exact h.lidx b hb
    · rename_i lidx hlidx
      dsimp only at hb
      split_ifs at hb
      · exact h.lidx b hb
      all_goals
        cases hown : (s.files p.name).lidx with
        | none =>
          rw [hown] at hb
          cases hb
          exact (h.cold _ hlidx).1
        | some b' =>
          rw [hown] at hb
          cases hb
          exact h.lidx _ hown
  · rw [hfiles] at hkey
    unfold DiskStore.recovered at hkey
    split at hkey
    · exact h.marker key hkey
    · dsimp only at hkey
      split_ifs at hkey
      · exact h.marker key hkey
      all_goals
        cases hown : (s.files p.name).marker with
        | none =>
          rw [hown] at hkey
          cases hkey <;> rfl
        | some key' =>
          rw [hown] at hkey
          cases hkey
          exact h.marker _ hown
  · rw [coldLidx_of_cold hcold] at hb
    obtain ⟨hown, hin⟩ := h.cold b hb
    exact ⟨hown, hin.of_cold hcold⟩
  · rw [hpack] at hnone
    refine InCold.of_cold ?_ hcold
    cases hcase : s.coldLidx p.name with
    | none =>
      refine h.reach ?_ hnone
      rw [hfiles] at hmarker
      unfold DiskStore.recovered at hmarker
      rw [hcase] at hmarker
      exact hmarker
    | some lidx => exact (h.cold lidx hcase).2

theorem recovered_of_none (h : s.coldLidx name = none) : s.recovered name = s.files name := by
  unfold DiskStore.recovered
  rw [h]

theorem Sound.recovered (h : s.Sound P truth) (hcold : s'.cold = s.cold)
    (hfiles : ∀ n, s'.files n = s.recovered n) : s'.Sound P truth := by
  intro name hknown
  have hbefore : s.files name ≠ .empty ∨ (s.coldLidx name).isSome := by
    cases hcase : s.coldLidx name with
    | none =>
      rw [coldLidx_of_cold hcold, hcase, hfiles, recovered_of_none hcase] at hknown
      exact hknown
    | some lidx => exact Or.inr rfl
  obtain ⟨p, rfl, hp⟩ := h name hbefore
  exact ⟨p, rfl, hp.recovered hcold (hfiles _)⟩

/-- The pack is registered by a boot: its table and its body are on disk; or, if the recovery comes
to its end, a marker takes the place of the body, or its table is in the cold tier. -/
def Served (s : DiskStore) (reached : Bool) (p : StoredPack P truth) : Prop :=
  (s.files p.name).lidx.isSome ∧
      ((s.files p.name).pack.isSome ∨ reached = true ∧ (s.files p.name).marker.isSome) ∨
    reached = true ∧ (s.coldLidx p.name).isSome

theorem usable_recovered_iff :
    ((s.recovered name).lidx.isSome ∧
        ((s.recovered name).pack.isSome || (s.recovered name).marker.isSome) = true) ↔
      (s.files name).lidx.isSome ∧ ((s.files name).pack.isSome ∨ (s.files name).marker.isSome) ∨
        (s.coldLidx name).isSome := by
  cases hcase : s.coldLidx name with
  | none =>
    rw [recovered_of_none hcase]
    simp
  | some lidx =>
    rw [Bool.or_eq_true]
    exact ⟨fun _ => Or.inr rfl, fun _ => usable_recovered hcase⟩

/-- A boot ends in the files of the whole recovery and registers by them, or it ends before. -/
theorem boot_cases (hkeys : ∀ cold, s.cold = some cold → Lists keys cold)
    (horder' : Lists order' (recoverLoop faults keys (s.reopen order)).2.packDir) :
    (s.recovers faults order keys = false ∧ Recovery (s.reopen order)
    (s.boot faults order keys order')) ∨
    (s.recovers faults order keys = true ∧ ∃ s₂, Recovery (s.reopen order) s₂ ∧
      (∀ n, s₂.files n = s.recovered n) ∧ Lists order' s₂.packDir ∧
      s.boot faults order keys order' = s₂.reloadPacks order') := by
  have hrecovery := recovery_recoverLoop faults keys (s.reopen order)
  have hfiles := files_recoverLoop faults keys (s.reopen order)
  have hcold : (s.reopen order).cold = s.cold := rfl
  unfold boot recovers
  dsimp only
  rw [hcold]
  cases hcase : s.cold with
  | none =>
    exact Or.inl ⟨rfl, Recovery.refl _⟩
  | some cold =>
    cases hlist : faults.list with
    | true =>
      exact Or.inl ⟨rfl, Recovery.refl _⟩
    | false =>
      cases hloop : recoverLoop faults keys (s.reopen order) with
      | mk reached s₂ =>
        rw [hloop] at hrecovery hfiles horder'
        cases reached with
        | false => exact Or.inl ⟨rfl, hrecovery⟩
        | true =>
          refine Or.inr ⟨rfl, s₂, hrecovery, fun n => (hfiles rfl n).trans ?_, horder', rfl⟩
          split_ifs with hmem
          · rfl
          · have hnot : n ∉ cold := fun hin => hmem (((hkeys cold hcase).2 n).mpr hin)
            have hnone : s.coldLidx n = none := by
              unfold coldLidx
              rw [hcase, bind_some, lookup_eq_none.mpr hnot]
              rfl
            exact (recovered_of_none hnone).symm

theorem packs_reloadPacks : (s.reloadPacks order).packs =
    s.openAll (fun f => f.pack.isSome || f.marker.isSome) order := rfl

theorem Sound.mem_reload {s₂ : DiskStore} (h : s.Sound P truth) (hcold : s₂.cold = s.cold)
    (hfiles : ∀ n, s₂.files n = s.recovered n) (horder' : Lists order' s₂.packDir)
    {pf : GitPackFile} :
    pf ∈ (s₂.reloadPacks order').packs ↔
      ∃ p : StoredPack P truth, p.file = pf ∧ s.Filed p ∧ s.Served true p := by
  have hserved : ∀ p : StoredPack P truth, s.Served true p ↔
      (s₂.files p.name).lidx.isSome ∧
        ((s₂.files p.name).pack.isSome || (s₂.files p.name).marker.isSome) = true := by
    intro p
    rw [hfiles, usable_recovered_iff]
    simp [Served]
  rw [packs_reloadPacks, (h.recovered hcold hfiles).mem_openAll horder']
  constructor
  · rintro ⟨p, rfl, hp, hlidx, hwanted⟩
    have hserve := (hserved p).mpr ⟨hlidx, hwanted⟩
    have hknown : s.files p.name ≠ .empty ∨ (s.coldLidx p.name).isSome := by
      rcases hserve with ⟨hlidx', -⟩ | ⟨-, hcold'⟩
      · exact Or.inl (ne_empty_of_lidx hlidx')
      · exact Or.inr hcold'
    obtain ⟨q, hname, hq⟩ := h p.name hknown
    refine ⟨q, hp.file_eq (hq.recovered hcold (hfiles _)) hname hlidx, hq, ?_⟩
    rw [Served, hname]
    exact hserve
  · rintro ⟨p, rfl, hp, hserve⟩
    obtain ⟨hlidx, hwanted⟩ := (hserved p).mp hserve
    exact ⟨p, rfl, hp.recovered hcold (hfiles _), hlidx, hwanted⟩

section

variable (hsound : s.Sound P truth) (horder : Lists order s.packDir)
  (hkeys : ∀ cold, s.cold = some cold → Lists keys cold)
  (horder' : Lists order' (recoverLoop faults keys (s.reopen order)).2.packDir)

include hsound horder hkeys horder'

/-- **The packs that are registered after a boot.** -/
theorem mem_packs_boot {pf : GitPackFile} :
    pf ∈ (s.boot faults order keys order').packs ↔
      ∃ p : StoredPack P truth, p.file = pf ∧ s.Filed p ∧
        s.Served (s.recovers faults order keys) p := by
  rcases boot_cases hkeys horder' with ⟨hreached, hrecovery⟩ | ⟨hreached, s₂, hrecovery, hfiles,
    hlists, hboot⟩
  · have hpacks : (s.boot faults order keys order').packs =
        s.openAll (fun f => f.pack.isSome) order :=
      hrecovery.packs
    rw [hpacks, hreached, hsound.mem_openAll horder]
    simp [Served]
  · rw [hboot, hreached]
    exact hsound.mem_reload hrecovery.cold hfiles hlists

theorem steady_boot : (s.boot faults order keys order').Steady P truth := by
  intro pf hpf
  rcases boot_cases hkeys horder' with ⟨-, hrecovery⟩ | ⟨-, s₂, hrecovery, hfiles, hlists, hboot⟩
  · have hpacks : (s.boot faults order keys order').packs =
        s.openAll (fun f => f.pack.isSome) order :=
      hrecovery.packs
    rw [hpacks, hsound.mem_openAll horder] at hpf
    obtain ⟨p, rfl, hp, -, hlocal⟩ := hpf
    obtain ⟨b, hb⟩ := isSome_iff_exists.mp hlocal
    refine ⟨p, rfl, Or.inl ?_⟩
    rw [hrecovery.pack]
    exact hb.trans (congrArg some (hp.pack b hb))
  · rw [hboot] at hpf ⊢
    rw [packs_reloadPacks, (hsound.recovered hrecovery.cold hfiles).mem_openAll hlists] at hpf
    obtain ⟨p, rfl, hp, -, hwanted⟩ := hpf
    rw [Bool.or_eq_true] at hwanted
    exact ⟨p, rfl, hp.restorable hwanted⟩

omit hsound horder in
theorem loose_boot : (s.boot faults order keys order').loose = s.loose := by
  rcases boot_cases hkeys horder' with ⟨-, hrecovery⟩ | ⟨-, s₂, hrecovery, -, -, hboot⟩
  · exact hrecovery.loose
  · rw [hboot]
    exact hrecovery.loose

/-- **When a restart goes unnoticed**: once the cold tier answers, every read and every `exists`
gives what it gave before, if and only if the boot registers, for every object without a loose file,
a pack that has it exactly if there was one before. -/
theorem restart_serves_iff (hsteady : s.Steady P truth) :
    (∀ id, ((s.boot faults order keys order').read P id).1 = (s.read P id).1 ∧
        (s.boot faults order keys order').has id = s.has id) ↔
      ∀ id, s.loose.lookup id = none → (s.packed id = true ↔
        ∃ p : StoredPack P truth, s.Filed p ∧ s.Served (s.recovers faults order keys) p ∧
          p.file.contains id = true) := by
  have hloose : (s.boot faults order keys order').loose = s.loose := loose_boot hkeys horder'
  have hpacked : ∀ id, (s.boot faults order keys order').packed id = true ↔
      ∃ p : StoredPack P truth, s.Filed p ∧ s.Served (s.recovers faults order keys) p ∧
        p.file.contains id = true := by
    intro id
    rw [packed, List.any_eq_true]
    constructor
    · rintro ⟨pf, hpf, hcontains⟩
      obtain ⟨p, rfl, hp, hserved⟩ := (mem_packs_boot hsound horder hkeys horder').mp hpf
      exact ⟨p, hp, hserved, hcontains⟩
    · rintro ⟨p, hp, hserved, hcontains⟩
      exact ⟨p.file, (mem_packs_boot hsound horder hkeys horder').mpr ⟨p, rfl, hp, hserved⟩,
        hcontains⟩
  constructor
  · intro hsame id hid
    have hhas := (hsame id).2
    simp only [has, hloose, hid, isSome_none, Bool.false_or] at hhas
    rw [← hpacked]
    exact (Bool.eq_iff_iff.mp hhas).symm
  · intro hiff id
    have hboth : ∀ id, s.loose.lookup id = none →
        (s.boot faults order keys order').packed id = s.packed id := by
      intro id hid
      exact Bool.eq_iff_iff.mpr ((hpacked id).trans (hiff id hid).symm)
    refine ⟨?_, ?_⟩
    · exact hsteady.readDepth_congr (steady_boot hsound horder hkeys horder') hloose hboth _ id
    · cases hraw : s.loose.lookup id with
      | some raw => simp [has, hloose, hraw]
      | none =>
        have heq := hboth id hraw
        simp only [packed] at heq
        simp [has, hloose, hraw, heq]

end

end DiskStore

/-! ### A pack in the cold tier -/

/-- A pack with one blob, before its trailer. -/
def blobPack : List UInt8 := strBytes "PACK" ++ [0, 0, 0, 2, 0, 0, 0, 1, 0x31] ++ announce [1]

def blobPackBody : List UInt8 := blobPack ++ (samplePrimitives.sha1 blobPack).bytes

def blobRows : List LidxEntry := [⟨.fill 218, .fill 246, 3, 12⟩]

/-- All objects are the blob. -/
def blobTruth (_ : ObjectId) : List UInt8 := [1]

theorem contains_blobRows {name id : ObjectId}
    (h : GitPackFile.contains ⟨name, blobRows⟩ id = true) :
    id = .fill 218 := by
  unfold GitPackFile.contains GitPackFile.row blobRows at h
  simp only [List.reverse_singleton, List.find?_singleton] at h
  split_ifs at h with hid
  · exact (of_decide_eq_true hid).symm
  · cases h

def samplePack : StoredPack samplePrimitives blobTruth where
  body := blobPackBody
  rows := blobRows
  verified := by decide +kernel
  offsets := by decide
  count := by decide
  reads id h := by
    obtain rfl := contains_blobRows h
    decide +kernel

/-- The body is in the cold tier; its table and a marker are on disk. -/
def tieredStore : DiskStore where
  loose := ∅
  packDir := singleton samplePack.name ⟨none, some samplePack.lidx, some (bodyKey samplePack.name)⟩
  packs := [samplePack.file]
  sha1Cache := none
  cold := some (singleton samplePack.name ⟨samplePack.body, some samplePack.lidx⟩)

/-- The listing of the tier fails. -/
def noListing : DiskStore.BootFaults := ⟨true, fun _ => false, fun _ => false⟩

/-- **A failed recovery forgets a pack.** The object is read before the restart, and not after
it. -/
theorem failed_recovery_forgets :
    let s' := tieredStore.boot noListing [samplePack.name] [] []
    (tieredStore.read samplePrimitives (.fill 218)).1 = .ok [1] ∧ tieredStore.has (.fill 218) =
      true ∧
    (s'.read samplePrimitives (.fill 218)).1 = .error (.notFound (.fill 218)) ∧
    s'.has (.fill 218) = false := by
  decide +kernel

theorem lookup_singleton {β : Type} (name n : ObjectId) (b : β) :
    (singleton name b : Finmap (fun _ : ObjectId => β)).lookup n =
      if n = name then some b else none := by
  split_ifs with hn
  · rw [hn, lookup_singleton_eq]
  · refine lookup_eq_none.mpr fun hmem => hn ?_
    exact mem_singleton _ _ _ |>.mp hmem

theorem lists_singleton {β : Type} (name : ObjectId) (b : β) :
    Lists [name] (singleton name b : Finmap (fun _ : ObjectId => β)) := by
  refine ⟨List.nodup_singleton _, fun n => ?_⟩
  rw [List.mem_singleton, mem_singleton]

theorem files_tieredStore (n : ObjectId) : tieredStore.files n = if n = samplePack.name then
    ⟨none, some samplePack.lidx, some (bodyKey samplePack.name)⟩ else .empty := by
  rw [DiskStore.files, tieredStore, lookup_singleton]
  split_ifs <;> rfl

theorem coldLidx_tieredStore (n : ObjectId) :
    tieredStore.coldLidx n = if n = samplePack.name then some samplePack.lidx else none := by
  rw [DiskStore.coldLidx, tieredStore, bind_some, lookup_singleton]
  split_ifs <;> rfl

theorem filed_tieredStore : tieredStore.Filed samplePack := by
  have hcold : tieredStore.InCold samplePack := ⟨_, _, rfl, lookup_singleton_eq, rfl⟩
  refine ⟨fun b hb => ?_, fun b hb => ?_, fun key hkey => ?_, fun b hb => ?_, fun _ _ => hcold⟩
  · rw [files_tieredStore, if_pos rfl] at hb
    cases hb
  · rw [files_tieredStore, if_pos rfl] at hb
    exact (some.inj hb).symm
  · rw [files_tieredStore, if_pos rfl] at hkey
    exact (some.inj hkey).symm
  · rw [coldLidx_tieredStore, if_pos rfl] at hb
    exact ⟨(some.inj hb).symm, hcold⟩

theorem sound_tieredStore : tieredStore.Sound samplePrimitives blobTruth := by
  intro name hknown
  rw [files_tieredStore, coldLidx_tieredStore] at hknown
  by_cases hname : name = samplePack.name
  · exact ⟨samplePack, hname.symm, filed_tieredStore⟩
  · rw [if_neg hname, if_neg hname] at hknown
    rcases hknown with hempty | hnone
    · exact absurd rfl hempty
    · cases hnone

theorem steady_tieredStore : tieredStore.Steady samplePrimitives blobTruth := by
  intro pf hpf
  obtain rfl := List.mem_singleton.mp hpf
  refine ⟨samplePack, rfl, filed_tieredStore.restorable (Or.inr ?_)⟩
  rw [files_tieredStore, if_pos rfl]
  rfl

/-- A restart with a tier that answers. -/
theorem healthy_restart_serves :
    let s' := tieredStore.boot .none [samplePack.name] [samplePack.name] [samplePack.name]
    (s'.read samplePrimitives (.fill 218)).1 = (tieredStore.read samplePrimitives (.fill 218)).1 ∧
      s'.has (.fill 218) = tieredStore.has (.fill 218) := by
  have hdir : (DiskStore.recoverLoop .none [samplePack.name]
      (tieredStore.reopen [samplePack.name])).2.packDir = tieredStore.packDir := by decide +kernel
  have hpacked : ∀ id, tieredStore.packed id = samplePack.file.contains id := fun id =>
    Bool.or_false _
  refine (DiskStore.restart_serves_iff sound_tieredStore (lists_singleton _ _)
    (fun cold hcold => ?_) ?_ steady_tieredStore).mpr (fun id _ => ?_) (.fill 218)
  · cases hcold
    exact lists_singleton _ _
  · rw [hdir]
    exact lists_singleton _ _
  · rw [hpacked]
    constructor
    · intro hcontains
      refine ⟨samplePack, filed_tieredStore, Or.inr ⟨by decide +kernel, ?_⟩, hcontains⟩
      rw [coldLidx_tieredStore, if_pos rfl]
      rfl
    · rintro ⟨p, hp, hserved, hcontains⟩
      have hname : p.name = samplePack.name := by
        by_contra hne
        rw [DiskStore.Served, files_tieredStore, coldLidx_tieredStore, if_neg hne,
          if_neg hne] at hserved
        rcases hserved with ⟨hlidx, -⟩ | ⟨-, hlidx⟩ <;> cases hlidx
      have hfile : p.file = samplePack.file := by
        refine filed_tieredStore.file_eq hp hname ?_
        rw [files_tieredStore, if_pos rfl]
        rfl
      rw [← hfile]
      exact hcontains

end Ledge.Objects
