import Ledge.RefStore.Store

/-!
# Ledge.RefStore.AtomicCommit

The seam for all-or-nothing commits of several refs and its single-node implementation
(`atomic_commit.rs`).

`Meets` says what a commit is for, in terms of the visible refs before and after it: all refs
move if every expectation is met and none does otherwise. A ref that is mapped more than
once moves once, to its last target.
-/

namespace Ledge.RefStore

open Ledge.Core List

/-- One ref to promote; `expected` is `none` for a ref that must be absent. -/
structure Mapping where
  name : RefName
  target : ObjectId
  expected : Option ObjectId
  deriving DecidableEq

inductive AtomicCommitResult
  /-- Every ref was advanced. -/
  | committed (entries : List (RefName × RefEntry))
  /-- No ref was advanced. -/
  | aborted (reason : String) (conflicts : List RefName)
  deriving DecidableEq

def AtomicCommitResult.isCommitted : AtomicCommitResult → Bool
  | .committed _ => true
  | .aborted .. => false

/-- The input of `commit_batch`, with one tick of the clock for each mapping. -/
def batchInput (mappings : List Mapping) (hlc : Nat → Nat) : List BatchOp :=
  mappings.mapIdx (fun i m => ⟨m.name, m.target, m.expected, hlc i⟩)

/-- `LocalAtomicCommit::commit_atomic` when no other writer disturbs it. -/
def Store.commitAtomic (s : Store) (durable : Bool) (mappings : List Mapping) (hlc : Nat → Nat) :
    Store × Except LedgeError AtomicCommitResult :=
  if mappings = [] then (s, .ok (.committed []))
  else
    match s.run durable (s.tree.commitBatch (batchInput mappings hlc)) with
    | (s', .ok applied) =>
      (s', .ok (.committed ((mappings.zip applied).map (fun (m, e) => (m.name, e)))))
    | (s', .error (.conflicts conflicts)) =>
      (s', .ok (.aborted (toString conflicts.length ++ " ref precondition(s) failed")
        (conflicts.map Prod.fst)))
    | (s', .error (.notDurable _)) => (s', .error .io)

/-! ### What a commit is for -/

/-- What readers compare: the target and the version of a ref. -/
def shown (e : Option RefEntry) : Option (ObjectId × Nat) := e.map (fun e => (e.target, e.version))

/-- Every expectation is met. -/
def Accepts (get : RefName → Option RefEntry) (mappings : List Mapping) : Prop :=
  ∀ m ∈ mappings, (get m.name).map RefEntry.target = m.expected

/-- The last mapping of a ref. -/
def lastMapping (mappings : List Mapping) (n : RefName) : Option Mapping :=
  (mappings.filter (fun m => m.name = n)).getLast?

/-- The commit of `mappings` on the refs `get` has the verdict `committed` and leaves the refs
`get'`. -/
structure Meets (get : RefName → Option RefEntry) (mappings : List Mapping) (committed : Bool)
    (get' : RefName → Option RefEntry) : Prop where
  verdict : committed = true ↔ Accepts get mappings
  moved : committed = true → ∀ n m, lastMapping mappings n = some m →
    shown (get' n) = some (m.target, nextVersion (get n))
  kept : ∀ n, committed = false ∨ lastMapping mappings n = none → shown (get' n) = shown (get n)

theorem lastMapping_concat (mappings : List Mapping) (m : Mapping) (n : RefName) :
    lastMapping (mappings ++ [m]) n = if m.name = n then some m else lastMapping mappings n := by
  rw [lastMapping, lastMapping, filter_append]
  split_ifs with hn
  · simp [hn]
  · simp [hn]

theorem Meets.agree {get get₁ get₂ : RefName → Option RefEntry} {mappings : List Mapping}
    {committed₁ committed₂ : Bool} (h₁ : Meets get mappings committed₁ get₁)
    (h₂ : Meets get mappings committed₂ get₂) :
    committed₁ = committed₂ ∧ ∀ n, shown (get₁ n) = shown (get₂ n) := by
  have hverdict : committed₁ = committed₂ :=
    Bool.eq_iff_iff.mpr (h₁.verdict.trans h₂.verdict.symm)
  subst hverdict
  refine ⟨rfl, fun n => ?_⟩
  cases hlast : lastMapping mappings n with
  | none => rw [h₁.kept n (Or.inr hlast), h₂.kept n (Or.inr hlast)]
  | some m =>
    cases committed₁ with
    | true => rw [h₁.moved rfl n m hlast, h₂.moved rfl n m hlast]
    | false => rw [h₁.kept n (Or.inl rfl), h₂.kept n (Or.inl rfl)]

/-! ### A batch meets it -/

section Batch

variable {t t' : RefTree} {mappings : List Mapping} (hlc : Nat → Nat)

variable {op : BatchOp} {ops : List BatchOp}

theorem mem_batchInput {hlc : Nat → Nat} (h : op ∈ batchInput mappings hlc) :
    ∃ m ∈ mappings, op.name = m.name ∧ op.expected = m.expected := by
  obtain ⟨i, hi, heq⟩ := mem_mapIdx.mp h
  exact ⟨mappings[i], getElem_mem hi, by rw [← heq], by rw [← heq]⟩

theorem exists_batchInput {m : Mapping} (h : m ∈ mappings) :
    ∃ op ∈ batchInput mappings hlc, op.name = m.name ∧ op.expected = m.expected := by
  obtain ⟨i, hi, heq⟩ := getElem_of_mem h
  exact ⟨_, mem_mapIdx.mpr ⟨i, hi, rfl⟩, by rw [← heq], by rw [← heq]⟩

/-- Without locks a batch has no conflicts when its expectations are met. -/
theorem batchConflicts_batchInput (hfree : ∀ n, t.lock n = none) :
    batchConflicts t (batchInput mappings hlc) = [] ↔ Accepts t.get mappings := by
  rw [batchConflicts_eq_nil_iff]
  constructor
  · intro h m hm
    obtain ⟨op, hop, hname, hexpected⟩ := exists_batchInput hlc hm
    rw [← hname, ← hexpected]
    exact (h op hop).2
  · intro h op hop
    obtain ⟨m, hm, hname, hexpected⟩ := mem_batchInput hop
    rw [hname, hexpected]
    exact ⟨hfree m.name, h m hm⟩

/-- The entry that a batch without conflicts plans last for a ref. -/
theorem lastFor_batchPlanned {n : RefName} {e : RefEntry} (hnone : batchConflicts t ops = [])
    (h : lastFor n (batchPlanned t ops) = some e) :
    ∃ op ∈ ops, op.name = n ∧ e = ⟨op.target, op.hlc, nextVersion (t.get n)⟩ := by
  rw [batchPlanned_eq hnone] at h
  obtain ⟨op, hop, heq⟩ := mem_map.mp (mem_of_lastFor h)
  obtain ⟨rfl, he⟩ := Prod.mk.inj heq
  exact ⟨op, hop, rfl, he.symm⟩

theorem exists_lastFor_batchPlanned (hnone : batchConflicts t ops = []) (hop : op ∈ ops) :
    ∃ e, lastFor op.name (batchPlanned t ops) = some e := by
  refine Option.ne_none_iff_exists'.mp (lastFor_ne_none ?_)
  rw [batchPlanned_eq hnone, map_map]
  exact mem_map_of_mem hop

theorem get_of_batch {n : RefName} (hnone : batchConflicts t ops = []) (hslot : t'.slot n =
      ((lastFor n (batchPlanned t ops)).map RefSlot.ofCommitted).or (t.slot n)) :
    t'.get n = (lastFor n (batchPlanned t ops)).or (t.get n) := by
  rw [RefTree.get, hslot]
  cases hlast : lastFor n (batchPlanned t ops) with
  | none => rfl
  | some e =>
    obtain ⟨op, -, rfl, rfl⟩ := lastFor_batchPlanned hnone hlast
    simp [RefSlot.visible, RefSlot.ofCommitted]

/-- The last entry planned for a ref is that of its last mapping. -/
theorem shown_lastFor_batchPlanned {hlc : Nat → Nat}
    (hnone : batchConflicts t (batchInput mappings hlc) = []) (n : RefName) :
    shown (lastFor n (batchPlanned t (batchInput mappings hlc))) =
      (lastMapping mappings n).map (fun m => (m.target, nextVersion (t.get n))) := by
  rw [batchPlanned_eq hnone, batchInput]
  clear hnone
  induction mappings using reverseRecOn with
  | nil => rfl
  | append_singleton mappings m ih =>
    rw [mapIdx_concat, map_append, map_singleton, lastFor_concat,
      lastMapping_concat]
    split_ifs with hn
    · rw [← hn]
      rfl
    · exact ih

theorem meets_of_batch {hlc : Nat → Nat} (hfree : ∀ n, t.lock n = none) {committed : Bool}
    (hcommitted : committed = true → batchConflicts t (batchInput mappings hlc) = [] ∧
      ∀ n, t'.slot n = ((lastFor n (batchPlanned t (batchInput mappings hlc))).map
        RefSlot.ofCommitted).or (t.slot n))
    (haborted : committed = false → batchConflicts t (batchInput mappings hlc) ≠ [] ∧ t' = t) :
    Meets t.get mappings committed t'.get := by
  have hget : committed = true → ∀ n, t'.get n =
      (lastFor n (batchPlanned t (batchInput mappings hlc))).or (t.get n) := by
    intro hc n
    obtain ⟨hnone, hslot⟩ := hcommitted hc
    exact get_of_batch hnone (hslot n)
  refine ⟨?_, fun hc n m hlast => ?_, fun n hkept => ?_⟩
  · rw [← batchConflicts_batchInput hlc hfree]
    cases committed with
    | true => exact iff_of_true rfl (hcommitted rfl).1
    | false => exact iff_of_false nofun (haborted rfl).1
  · have hplanned := shown_lastFor_batchPlanned (hcommitted hc).1 n
    rw [hlast] at hplanned
    rw [hget hc]
    cases hfor : lastFor n (batchPlanned t (batchInput mappings hlc)) with
    | none =>
      rw [hfor] at hplanned
      cases hplanned
    | some e =>
      rw [hfor] at hplanned
      exact hplanned
  · cases committed with
    | false => rw [(haborted rfl).2]
    | true =>
      have hlast := hkept.resolve_left nofun
      have hplanned := shown_lastFor_batchPlanned (hcommitted rfl).1 n
      rw [hlast] at hplanned
      rw [hget rfl, Option.map_eq_none_iff.mp hplanned]
      rfl

/-- **`LocalAtomicCommit` meets it** on a store without locks, and leaves no lock. -/
theorem Store.commitAtomic_meets (mappings : List Mapping) {s : Store}
    (hfree : ∀ n, s.tree.lock n = none) :
    ∃ s' result, s.commitAtomic true mappings hlc = (s', .ok result) ∧
      Meets s.tree.get mappings result.isCommitted s'.tree.get ∧ ∀ n, s'.tree.lock n = none := by
  by_cases hnil : mappings = []
  · subst hnil
    refine ⟨s, .committed [], rfl, ⟨?_, by simp [lastMapping], fun _ _ => rfl⟩, hfree⟩
    exact iff_of_true rfl (forall_mem_nil _)
  · rw [Store.commitAtomic, if_neg hnil, Store.run_commitBatch]
    by_cases hnone : batchConflicts s.tree (batchInput mappings hlc) = []
    · rw [if_neg (not_not.mpr hnone)]
      refine ⟨_, _, rfl, meets_of_batch hfree (fun _ => ⟨hnone, ?_⟩) (fun h => by cases h), ?_⟩
      · exact fun n => slot_foldl_insertCommitted _ _ n
      · intro n
        rw [RefTree.lock, slot_foldl_insertCommitted]
        cases lastFor n (batchPlanned s.tree (batchInput mappings hlc)) with
        | none => exact hfree n
        | some e => rfl
    · rw [if_pos hnone]
      exact ⟨_, _, rfl, meets_of_batch hfree (fun h => by cases h) (fun _ => ⟨hnone, rfl⟩),
        hfree⟩

end Batch

/-! ### What a batch reports -/

/-- What `commit_batch` returns is true of the refs right after it: each operation has the entry
reported for it, or nothing has moved. -/
structure BatchTruthful (s : Store) (durable : Bool) (ops : List BatchOp) : Prop where
  applied : ∀ s' applied, s.run durable (s.tree.commitBatch ops) = (s', .ok applied) →
    List.Forall₂ (fun op e => s'.tree.get op.name = some e) ops applied
  refused : ∀ s' blocking,
    s.run durable (s.tree.commitBatch ops) = (s', .error (.conflicts blocking)) →
    ∀ n, shown (s'.tree.get n) = shown (s.tree.get n)

/-- Operations on one ref ask for the same entry. -/
def BatchAgrees (ops : List BatchOp) : Prop :=
  ∀ op ∈ ops, ∀ op' ∈ ops, op.name = op'.name → op.target = op'.target ∧ op.hlc = op'.hlc

section Report

variable {t t' : RefTree} {ops : List BatchOp}

/-- The entries that a batch without conflicts reports are the ones that readers see when the
operations on each ref agree. -/
theorem reported_iff (hnone : batchConflicts t ops = [])
    (hslot : ∀ n, t'.slot n =
      ((lastFor n (batchPlanned t ops)).map RefSlot.ofCommitted).or (t.slot n)) :
    List.Forall₂ (fun op e => t'.get op.name = some e) ops ((batchPlanned t ops).map Prod.snd) ↔
      BatchAgrees ops := by
  have hget : ∀ op ∈ ops, ∃ op' ∈ ops, op'.name = op.name ∧
      t'.get op.name = some ⟨op'.target, op'.hlc, nextVersion (t.get op.name)⟩ := by
    intro op hop
    obtain ⟨e, he⟩ := exists_lastFor_batchPlanned hnone hop
    obtain ⟨op', hop', hname, rfl⟩ := lastFor_batchPlanned hnone he
    refine ⟨op', hop', hname, ?_⟩
    rw [get_of_batch hnone (hslot op.name), he, Option.some_or]
  rw [batchPlanned_eq hnone, map_map, forall₂_map_right_iff, forall₂_same]
  constructor
  · intro h op hop op' hop' hname
    have hop := h op hop
    have hop' := h op' hop'
    rw [hname, hop'] at hop
    simp only [Function.comp_apply, Option.some.injEq, RefEntry.mk.injEq] at hop
    exact ⟨hop.1.symm, hop.2.1.symm⟩
  · intro h op hop
    obtain ⟨op', hop', hname, hop''⟩ := hget op hop
    obtain ⟨htarget, hhlc⟩ := h op' hop' op hop hname
    rw [hop'', htarget, hhlc]
    rfl

end Report

/-- **`commit_batch` is truthful exactly when the operations on one ref agree**, in every store.
Phase 1 plans all operations on the tree before the batch, so a ref that is named twice is
reported twice and has the last of the two entries. -/
theorem commit_batch_truthful_iff (s : Store) (durable : Bool) (ops : List BatchOp) :
    BatchTruthful s durable ops ↔
      (durable = true → batchConflicts s.tree ops = [] → BatchAgrees ops) := by
  have hrun := s.run_commitBatch durable ops
  by_cases hnone : batchConflicts s.tree ops = []
  · rw [if_neg (not_not.mpr hnone)] at hrun
    have hiff := reported_iff hnone (slot_foldl_insertCommitted (batchPlanned s.tree ops) s.tree)
    cases durable with
    | true =>
      constructor
      · intro h _ _
        exact hiff.mp (h.applied _ _ hrun)
      · intro h
        refine ⟨fun s' applied hok => ?_, fun s' blocking herr => ?_⟩
        · rw [hrun] at hok
          obtain ⟨rfl, happlied⟩ := Prod.mk.inj hok
          cases happlied
          exact hiff.mpr (h rfl hnone)
        · rw [hrun] at herr
          cases (Prod.mk.inj herr).2
    | false =>
      -- the append failed, so the result is neither of the two
      refine iff_of_true ⟨fun s' applied hok => ?_, fun s' blocking herr => ?_⟩
        nofun
      · rw [hrun] at hok
        cases (Prod.mk.inj hok).2
      · rw [hrun] at herr
        cases (Prod.mk.inj herr).2
  · rw [if_pos hnone] at hrun
    refine iff_of_true ⟨fun s' applied hok => ?_, fun s' blocking herr => ?_⟩
      (fun _ h => absurd h hnone)
    · rw [hrun] at hok
      cases (Prod.mk.inj hok).2
    · rw [hrun] at herr
      cases herr
      exact fun _ => rfl

/-- A list that creates `refs/heads/a` twice, at two targets. -/
def sameRefTwice : List Mapping := [⟨.headsA, .fill 1, none⟩, ⟨.headsA, .fill 2, none⟩]

/-- Both creations are reported, and only the second one is there. -/
theorem batch_reports_overwritten :
    let s := Store.openOn []
    let result := s.run true (s.tree.commitBatch (batchInput sameRefTwice (· + 1)))
    result.2 = .ok [⟨.fill 1, 1, 1⟩, ⟨.fill 2, 2, 1⟩] ∧
      result.1.tree.get .headsA = some ⟨.fill 2, 2, 1⟩ ∧
      (s.commitAtomic true sameRefTwice (· + 1)).2 =
        .ok (.committed [(.headsA, ⟨.fill 1, 1, 1⟩), (.headsA, ⟨.fill 2, 2, 1⟩)]) := by
  decide

end Ledge.RefStore
