import Ledge.RefStore.Concurrent

/-!
# Ledge.RefStore.Linear

The ref store is a **linearizable compare-and-set map**.

`MapSpec` is the purpose of the store, without trees, loops, logs and clocks: a finite
map from ref names to a target and a version. A turn of a call on a tree is simulated
by one step of the map, and the turns of all calls take effect in one order by
`Machine.reach_linearizes`.
-/

namespace Ledge.RefStore

open Ledge.Core Ledge.Lib List Option

/-! ### The abstract store -/

/-- What the map holds for a ref: its target and its version. -/
abbrev Mark := ObjectId × Nat

abbrev RefMap := Finmap (fun _ : RefName => Mark)

/-- A refused update or deletion. -/
inductive Refusal
  | notFound (id : ObjectId)
  | conflict (current : Mark)
  | failed
  deriving DecidableEq

/-- A refused batch. -/
inductive BatchRefusal
  | conflicts (blocking : List (RefName × Mark))
  | notDurable
  deriving DecidableEq

/-- The results of calls, without clock readings. A snapshot is what it answers. -/
inductive View
  | got (current : Option Mark)
  | listed (refs : List (RefName × Mark))
  | frozen (get : RefName → Option Mark) (list : String → List (RefName × Mark))
  | updated (result : Except Refusal Mark)
  | deleted (result : Except Refusal Unit)
  | batch (result : Except BatchRefusal (List Mark))

/-- The refs of the map under `search`, in ascending order. -/
def Lists (M : RefMap) (search : String) (refs : List (RefName × Mark)) : Prop :=
  refs.Pairwise (fun x y => x.1.bytes < y.1.bytes) ∧
    ∀ x, x ∈ refs ↔ strBytes search <+: x.1.bytes ∧ M.lookup x.1 = some x.2

/-- The target of `n` is the expected one; `none` expects that there is no such ref. -/
def Expects (M : RefMap) (n : RefName) (expected : Option ObjectId) : Prop :=
  (M.lookup n).map Prod.fst = expected

instance (M : RefMap) (n : RefName) (expected : Option ObjectId) :
    Decidable (Expects M n expected) :=
  inferInstanceAs (Decidable (_ = _))

/-- The next value of `n` when it is pointed to `target`. -/
def nextMark (M : RefMap) (n : RefName) (target : ObjectId) : Mark :=
  (target, (M.lookup n).elim 1 (·.2 + 1))

def casUpdate (M : RefMap) (n : RefName) (new : ObjectId) (expected : Option ObjectId) :
    View × RefMap :=
  if Expects M n expected then (.updated (.ok (nextMark M n new)), M.insert n (nextMark M n new))
  else
    match M.lookup n with
    | some current => (.updated (.error (.conflict current)), M)
    | none => (.updated (.error (.notFound new)), M)

def casDelete (M : RefMap) (n : RefName) (expected : ObjectId) : View × RefMap :=
  if Expects M n (some expected) then (.deleted (.ok ()), M.erase n)
  else
    match M.lookup n with
    | some current => (.deleted (.error (.conflict current)), M)
    | none => (.deleted (.error (.notFound expected)), M)

/-- What is reported for an operation of a batch whose expectation fails. An absent ref is
reported with the expected target and version 0. -/
def blocking (M : RefMap) (op : BatchOp) : Option (RefName × Mark) :=
  if Expects M op.name op.expected then none
  else
    match M.lookup op.name, op.expected with
    | some current, _ => some (op.name, current)
    | none, some exp => some (op.name, (exp, 0))
    | none, none => none

def casBatch (M : RefMap) (ops : List BatchOp) : View × RefMap :=
  if ops.filterMap (blocking M) ≠ [] then
    (.batch (.error (.conflicts (ops.filterMap (blocking M)))), M)
  else
    (.batch (.ok (ops.map (fun op => nextMark M op.name op.target))),
      ops.foldl (fun M' op => M'.insert op.name (nextMark M op.name op.target)) M)

/-- **What the store is for**: the call `c` on the map `M` returns `v` and leaves `M'`. -/
def MapSpec (M : RefMap) (c : Call) (v : View) (M' : RefMap) : Prop :=
  match c with
  | .get n => v = .got (M.lookup n) ∧ M' = M
  | .list search => ∃ refs, v = .listed refs ∧ Lists M search refs ∧ M' = M
  | .snapshot =>
    ∃ get list, v = .frozen get list ∧ (∀ n, get n = M.lookup n) ∧
      (∀ search, Lists M search (list search)) ∧ M' = M
  | .update n new expected => (v, M') = casUpdate M n new expected
  | .delete n expected => (v, M') = casDelete M n expected
  | .commitBatch ops => (v, M') = casBatch M ops

/-! ### The store shows the map -/

/-- An entry without its clock reading. -/
def mark (e : RefEntry) : Mark := (e.target, e.version)

def markRefs (refs : List (RefName × RefEntry)) : List (RefName × Mark) :=
  refs.map (fun x => (x.1, mark x.2))

def refusal : LedgeError → Refusal
  | .notFound id => .notFound id
  | .conflict current => .conflict (mark current)
  | _ => .failed

def batchRefusal : CommitBatchError → BatchRefusal
  | .conflicts blocking => .conflicts (markRefs blocking)
  | .notDurable _ => .notDurable

def Resp.view : Resp → View
  | .got entry => .got (entry.map mark)
  | .listed refs => .listed (markRefs refs)
  | .snapshot frozen =>
    .frozen (fun n => (frozen.get n).map mark) (fun search => markRefs (frozen.list search))
  | .updated result => .updated ((result.map mark).mapError refusal)
  | .deleted result => .deleted (result.mapError refusal)
  | .batch result => .batch ((result.map (·.map mark)).mapError batchRefusal)

/-- The tree has no locks and shows the map. -/
structure Reflects (t : RefTree) (M : RefMap) : Prop where
  plain : t.Plain
  lookup : ∀ n, M.lookup n = (t.get n).map mark

/-- The map that a tree shows. -/
def RefTree.refMap (t : RefTree) : RefMap :=
  (t.list "").foldl (fun M x => M.insert x.1 (mark x.2)) ∅

variable {t t' : RefTree} {M M' : RefMap} {n m : RefName}

theorem lookup_insert_eq (M : RefMap) (n m : RefName) (v : Mark) :
    (M.insert n v).lookup m = if n = m then some v else M.lookup m := by
  by_cases h : n = m
  · rw [if_pos h, h, Finmap.lookup_insert]
  · rw [if_neg h, Finmap.lookup_insert_of_ne M (Ne.symm h)]

theorem lookup_erase_eq (M : RefMap) (n m : RefName) :
    (M.erase n).lookup m = if n = m then none else M.lookup m := by
  by_cases h : n = m
  · rw [if_pos h, h, Finmap.lookup_erase]
  · rw [if_neg h, Finmap.lookup_erase_ne (Ne.symm h)]

theorem lookup_foldl_insert {A : Type} (name : A → RefName) (entry : A → RefEntry) (l : List A)
    (M : RefMap) (m : RefName) :
    (l.foldl (fun M' a => M'.insert (name a) (mark (entry a))) M).lookup m =
      ((lastFor m (l.map (fun a => (name a, entry a)))).map mark).or (M.lookup m) := by
  induction l using reverseRecOn with
  | nil => rfl
  | append_singleton l a ih =>
    rw [foldl_concat, lookup_insert_eq, ih, map_append, map_singleton,
      lastFor_concat]
    by_cases ha : name a = m
    · rw [if_pos ha, if_pos ha]
      rfl
    · rw [if_neg ha, if_neg ha]

theorem reflects_refMap (h : t.Plain) : Reflects t t.refMap := by
  refine ⟨h, fun n => ?_⟩
  have hfold := lookup_foldl_insert Prod.fst Prod.snd (t.list "") ∅ n
  rw [map_id'', lastFor_list, Finmap.lookup_empty, or_none] at hfold
  · exact hfold
  · exact fun _ => rfl

variable {f : WalEntry} {expected : Option ObjectId} {c : Call} {r : Resp × Option WalEntry}

theorem Reflects.logged (h : Reflects t M) (hf : Logged t f t')
    (hM' : ∀ m, M'.lookup m = (f.effect m).elim (M.lookup m) (·.map mark)) : Reflects t' M' := by
  refine ⟨hf.plain h.plain, fun m => ?_⟩
  rw [hM', hf.get, h.lookup]
  cases f.effect m <;> rfl

theorem Reflects.expects_iff (h : Reflects t M) :
    Expects M n expected ↔ (t.get n).map RefEntry.target = expected := by
  rw [Expects, h.lookup, Option.map_map]
  rfl

theorem Reflects.nextMark (h : Reflects t M) (n : RefName) (target : ObjectId) (hlc : Nat) :
    nextMark M n target = mark ⟨target, hlc, nextVersion (t.get n)⟩ := by
  rw [RefStore.nextMark, h.lookup, nextVersion]
  cases t.get n <;> rfl

/-! ### Each call is one step of the map -/

theorem Reflects.lists (h : Reflects t M) (search : String) :
    Lists M search (markRefs (t.list search)) := by
  refine ⟨pairwise_map.mpr (t.list_sorted search), fun x => ?_⟩
  rw [markRefs, List.mem_map, h.lookup, map_eq_some_iff]
  constructor
  · rintro ⟨⟨n, e⟩, hmem, rfl⟩
    obtain ⟨hsearch, hget⟩ := RefTree.mem_list.mp hmem
    exact ⟨hsearch, e, hget, rfl⟩
  · rintro ⟨hsearch, e, hget, he⟩
    exact ⟨(x.1, e), RefTree.mem_list.mpr ⟨hsearch, hget⟩, by rw [he]⟩

theorem Reflects.answered {hlc : Nat} {r₀ : Resp} (h : Reflects t M)
    (hatt : c.attempt hlc t = .done r₀) (hspec : MapSpec M c r₀.view M)
    (hturn : c.turn hlc t = .answer r ∧ t' = t ∨ c.turn hlc t = .swap t' r) :
    ∃ M', MapSpec M c r.1.view M' ∧ Reflects t' M' := by
  simp only [Call.turn, hatt] at hturn
  rcases hturn with ⟨hanswer, rfl⟩ | hswap
  · cases hanswer
    exact ⟨M, hspec, h⟩
  · cases hswap

/-- A turn that swaps, given that the map writes what the frame says. -/
theorem Reflects.published {hlc : Nat} {t₁ : RefTree} {r₀ lost : Resp} (h : Reflects t M)
    (M' : RefMap) (hatt : c.attempt hlc t = .publish t₁ (some f) r₀ lost)
    (hspec : MapSpec M c r₀.view M')
    (hM' : ∀ m, M'.lookup m = (f.effect m).elim (M.lookup m) (·.map mark))
    (hturn : c.turn hlc t = .answer r ∧ t' = t ∨ c.turn hlc t = .swap t' r) :
    ∃ M', MapSpec M c r.1.view M' ∧ Reflects t' M' := by
  obtain ⟨f', hf', hlogged⟩ := Call.logged_of_publish hatt
  cases hf'
  simp only [Call.turn, hatt] at hturn
  rcases hturn with ⟨hanswer, -⟩ | hswap
  · cases hanswer
  · cases hswap
    exact ⟨M', hspec, h.logged hlogged hM'⟩

theorem Reflects.update (h : Reflects t M) {new : ObjectId}
    (hturn : soleTurn Call.turn t (.update n new expected) r t') :
    ∃ M', MapSpec M (.update n new expected) r.1.view M' ∧ Reflects t' M' := by
  obtain ⟨hlc, hturn⟩ := hturn
  have hatt : (Call.update n new expected).attempt hlc t =
      ((decideUpdate n new expected hlc (t.slot n)).attempt t n).map .updated := rfl
  have hlook := h.lookup n
  rw [decideUpdate_of_slot (h.plain n)] at hatt
  rcases precondition_cases (t.get n) expected with
    ⟨hpre, htarget⟩ | ⟨e, hpre, hget, hne⟩ | ⟨x, hpre, hget, rfl⟩
  · rw [hpre] at hatt
    refine h.published (M.insert n (RefStore.nextMark M n new)) hatt ?_ ?_ hturn
    · simp only [MapSpec, casUpdate, h.expects_iff, htarget, h.nextMark n new hlc]
      rfl
    · intro m
      rw [lookup_insert_eq, WalEntry.effect, h.nextMark n new hlc]
      split_ifs <;> rfl
  · rw [hpre] at hatt
    refine h.answered hatt ?_ hturn
    simp only [MapSpec, casUpdate, h.expects_iff, hget, hlook, map_some, if_neg hne]
    rfl
  · rw [hpre] at hatt
    rw [hget] at hlook
    refine h.answered hatt ?_ hturn
    simp [MapSpec, casUpdate, h.expects_iff, hget, hlook, Resp.view, refusal, Except.mapError,
      Except.map]

theorem Reflects.delete (h : Reflects t M) {expected : ObjectId}
    (hturn : soleTurn Call.turn t (.delete n expected) r t') :
    ∃ M', MapSpec M (.delete n expected) r.1.view M' ∧ Reflects t' M' := by
  obtain ⟨hlc, hturn⟩ := hturn
  have hatt : (Call.delete n expected).attempt hlc t =
      ((decideDelete n expected hlc (t.slot n)).attempt t n).map .deleted := rfl
  have hlook := h.lookup n
  rw [decideDelete_of_slot (h.plain n)] at hatt
  cases hget : t.get n with
  | none =>
    rw [hget] at hatt hlook
    refine h.answered hatt ?_ hturn
    simp [MapSpec, casDelete, h.expects_iff, hget, hlook, Resp.view, refusal, Except.mapError]
  | some e =>
    rw [hget] at hatt hlook
    by_cases he : e.target = expected
    · simp only [he, ne_eq, not_true_eq_false, if_false] at hatt
      refine h.published (M.erase n) hatt ?_ ?_ hturn
      · simp only [MapSpec, casDelete, h.expects_iff, hget, map_some, he, if_true]
        rfl
      · intro m
        rw [lookup_erase_eq, WalEntry.effect]
        split_ifs <;> rfl
    · simp only [ne_eq, he, not_false_eq_true, if_true] at hatt
      refine h.answered hatt ?_ hturn
      simp only [MapSpec, casDelete, h.expects_iff, hget, hlook, map_some,
        some.injEq, he, if_false]
      rfl

/-! ### Batches -/

theorem Reflects.blocking_eq (h : Reflects t M) (ops : List BatchOp) :
    ops.filterMap (blocking M) = markRefs (batchConflicts t ops) := by
  rw [markRefs, batchConflicts, map_filterMap]
  refine filterMap_congr fun op _ => ?_
  have hlook := h.lookup op.name
  rw [blocking, planOp_of_unlocked (h.plain.lock_eq_none op.name)]
  rcases precondition_cases (t.get op.name) op.expected with
    ⟨hpre, htarget⟩ | ⟨e, hpre, hget, hne⟩ | ⟨x, hpre, hget, hexp⟩
  · rw [if_pos (h.expects_iff.mpr htarget), hpre]
    rfl
  · have hblocks : ¬ Expects M op.name op.expected := by
      rw [h.expects_iff, hget]
      exact hne
    rw [if_neg hblocks, hpre, hlook, hget]
    rfl
  · have hblocks : ¬ Expects M op.name op.expected := by
      rw [h.expects_iff, hget, hexp]
      simp
    rw [if_neg hblocks, hlook, hget, hexp]
    rfl

theorem Reflects.commitBatch (h : Reflects t M) {ops : List BatchOp}
    (hturn : soleTurn Call.turn t (.commitBatch ops) r t') :
    ∃ M', MapSpec M (.commitBatch ops) r.1.view M' ∧ Reflects t' M' := by
  obtain ⟨hlc, hturn⟩ := hturn
  have hatt : (Call.commitBatch ops).attempt hlc t = (t.commitBatch ops).map .batch := rfl
  by_cases hnone : batchConflicts t ops = []
  · have hfree : ops.filterMap (blocking M) = [] := by
      rw [h.blocking_eq, hnone]
      rfl
    rw [RefTree.commitBatch, if_neg (not_not.mpr hnone), batchPlanned_eq hnone] at hatt
    have hnext : ∀ op : BatchOp, RefStore.nextMark M op.name op.target =
        mark ⟨op.target, op.hlc, nextVersion (t.get op.name)⟩ :=
      fun op => h.nextMark op.name op.target op.hlc
    refine h.published ((casBatch M ops).2) hatt ?_ ?_ hturn
    · simp only [MapSpec, casBatch, hfree, ne_eq, not_true_eq_false, if_false, Prod.mk.injEq,
        and_true, hnext]
      simp [Resp.view, Except.map, Except.mapError, Function.comp_def]
    · intro m
      simp only [casBatch, hfree, ne_eq, not_true_eq_false, if_false, hnext]
      rw [lookup_foldl_insert (fun op : BatchOp => op.name)
        (fun op => ⟨op.target, op.hlc, nextVersion (t.get op.name)⟩), WalEntry.effect]
      cases lastFor m _ <;> rfl
  · have hblocked : ops.filterMap (blocking M) ≠ [] := by
      rw [h.blocking_eq]
      exact fun heq => hnone (map_eq_nil_iff.mp heq)
    rw [RefTree.commitBatch, if_pos hnone] at hatt
    refine h.answered hatt ?_ hturn
    simp only [MapSpec, casBatch, if_pos hblocked]
    rw [h.blocking_eq]
    rfl

/-- **One turn of a call is one step of the map.** -/
theorem Reflects.step (h : Reflects t M) (hturn : soleTurn Call.turn t c r t') :
    ∃ M', MapSpec M c r.1.view M' ∧ Reflects t' M' := by
  cases c with
  | get n =>
    obtain ⟨hlc, hturn⟩ := hturn
    refine h.answered (show (Call.get n).attempt hlc t = _ from rfl) ⟨?_, rfl⟩ hturn
    rw [h.lookup]
    rfl
  | list search =>
    obtain ⟨hlc, hturn⟩ := hturn
    exact h.answered (show (Call.list search).attempt hlc t = _ from rfl)
      ⟨_, rfl, h.lists search, rfl⟩ hturn
  | snapshot =>
    obtain ⟨hlc, hturn⟩ := hturn
    exact h.answered (show Call.snapshot.attempt hlc t = _ from rfl)
      ⟨_, _, rfl, fun n => (h.lookup n).symm, fun search => h.lists search, rfl⟩ hturn
  | update n new expected => exact h.update hturn
  | delete n expected => exact h.delete hturn
  | commitBatch ops => exact h.commitBatch hturn

/-! ### Successful writers -/

/-- The call `c` succeeded with result `v` and replaced the target `old` of `n` by `new`. -/
inductive Wrote : Call → View → RefName → Option ObjectId → Option ObjectId → Prop
  | update {n : RefName} {new : ObjectId} {expected : Option ObjectId} {m : Mark} :
      Wrote (.update n new expected) (.updated (.ok m)) n expected (some new)
  | delete {n : RefName} {expected : ObjectId} :
      Wrote (.delete n expected) (.deleted (.ok ())) n (some expected) none
  | batch {ops : List BatchOp} {op : BatchOp} {marks : List Mark} : op ∈ ops →
      Wrote (.commitBatch ops) (.batch (.ok marks)) op.name op.expected (some op.target)

/-- A batch names each ref once. -/
def Call.Distinct : Call → Prop
  | .commitBatch ops => (ops.map BatchOp.name).Nodup
  | _ => True

/-- The map `M'` is `M` with the whole batch applied. -/
structure AppliesBatch (M : RefMap) (ops : List BatchOp) (M' : RefMap) : Prop where
  whole : ∀ op ∈ ops, M'.lookup op.name = some (nextMark M op.name op.target)
  rest : ∀ n, n ∉ ops.map BatchOp.name → M'.lookup n = M.lookup n

section

variable {c : Call} {v : View} {ops : List BatchOp} {old new : Option ObjectId}

theorem lookup_foldl_of_notMem (g : BatchOp → Mark) (hn : n ∉ ops.map BatchOp.name) :
    (ops.foldl (fun M' op => M'.insert op.name (g op)) M).lookup n = M.lookup n := by
  induction ops generalizing M with
  | nil => rfl
  | cons op ops ih =>
    rw [map_cons, mem_cons, not_or] at hn
    rw [foldl_cons, ih hn.2, lookup_insert_eq, if_neg (Ne.symm hn.1)]

variable {op : BatchOp}

theorem lookup_foldl_of_mem (g : BatchOp → Mark) (hd : (ops.map BatchOp.name).Nodup)
    (hop : op ∈ ops) :
    (ops.foldl (fun M' op => M'.insert op.name (g op)) M).lookup op.name = some (g op) := by
  induction ops generalizing M with
  | nil => cases hop
  | cons op' ops ih =>
    rw [map_cons, nodup_cons] at hd
    rw [foldl_cons]
    rcases mem_cons.mp hop with rfl | hop
    · rw [lookup_foldl_of_notMem g hd.1, lookup_insert_eq, if_pos rfl]
    · exact ih hd.2 hop

theorem expects_of_blocking_eq_none (h : blocking M op = none) : Expects M op.name op.expected := by
  by_contra hne
  rw [blocking, if_neg hne] at h
  split at h
  · cases h
  · cases h
  · next hlook hexp => exact hne (by rw [Expects, hlook, hexp]; rfl)

/-- A successful batch found every expectation met, and is applied as a whole. -/
theorem MapSpec.batch {marks : List Mark} (h : MapSpec M (.commitBatch ops) (.batch (.ok marks)) M')
    (hd : (ops.map BatchOp.name).Nodup) :
    (∀ op ∈ ops, Expects M op.name op.expected) ∧ AppliesBatch M ops M' := by
  simp only [MapSpec, casBatch] at h
  split_ifs at h with hblocked
  · cases h
  · cases h
    have hnone := filterMap_eq_nil_iff.mp (not_not.mp hblocked)
    refine ⟨fun op hop => expects_of_blocking_eq_none (hnone op hop), ?_, ?_⟩
    · exact fun op hop =>
        lookup_foldl_of_mem (fun op => nextMark M op.name op.target) hd hop
    · exact fun n hn => lookup_foldl_of_notMem (fun op => nextMark M op.name op.target) hn

theorem MapSpec.wrote (h : MapSpec M c v M') (hc : c.Distinct) (hw : Wrote c v n old new) :
    (M.lookup n).map Prod.fst = old ∧ (M'.lookup n).map Prod.fst = new := by
  cases hw with
  | update =>
    simp only [MapSpec, casUpdate] at h
    split_ifs at h with hexp
    · cases h
      exact ⟨hexp, by rw [lookup_insert_eq, if_pos rfl]; rfl⟩
    · split at h <;> cases h
  | delete =>
    simp only [MapSpec, casDelete] at h
    split_ifs at h with hexp
    · cases h
      exact ⟨hexp, by rw [lookup_erase_eq, if_pos rfl]; rfl⟩
    · split at h <;> cases h
  | batch hop =>
    obtain ⟨hexp, happ⟩ := h.batch hc
    exact ⟨hexp _ hop, by rw [happ.whole _ hop]; rfl⟩

theorem MapSpec.not_wrote (h : MapSpec M c v M') (hc : c.Distinct)
    (hw : ∀ old new, ¬ Wrote c v n old new) : M'.lookup n = M.lookup n := by
  cases c with
  | get n' => rw [h.2]
  | list search =>
    obtain ⟨refs, -, -, rfl⟩ := h
    rfl
  | snapshot =>
    obtain ⟨get, list, -, -, -, rfl⟩ := h
    rfl
  | update n' new expected =>
    simp only [MapSpec, casUpdate] at h
    split_ifs at h with hexp
    · cases h
      have hne : n' ≠ n := by
        rintro rfl
        exact hw _ _ .update
      rw [lookup_insert_eq, if_neg hne]
    · split at h <;> rw [(Prod.mk.inj h).2]
  | delete n' expected =>
    simp only [MapSpec, casDelete] at h
    split_ifs at h with hexp
    · cases h
      have hne : n' ≠ n := by
        rintro rfl
        exact hw _ _ .delete
      rw [lookup_erase_eq, if_neg hne]
    · split at h <;> rw [(Prod.mk.inj h).2]
  | commitBatch ops =>
    by_cases hblocked : ops.filterMap (blocking M) = []
    · have hspec := h
      simp only [MapSpec, casBatch, hblocked, ne_eq, not_true_eq_false, if_false] at h
      cases h
      refine (hspec.batch hc).2.rest n fun hmem => ?_
      obtain ⟨op, hop, rfl⟩ := List.mem_map.mp hmem
      exact hw _ _ (Wrote.batch hop)
    · simp only [MapSpec, casBatch, ne_eq, hblocked, not_false_eq_true, if_true] at h
      rw [(Prod.mk.inj h).2]

end

/-! ### The order of all calls -/

section

variable {I : Type}

/-- Of two successful writers of a ref with none between them, the second expects what the
first left. -/
def Chained (l : List (I × Call × View)) : Prop :=
  ∀ l₁ x l₂ y l₃ n old new old' new', l = l₁ ++ x :: (l₂ ++ y :: l₃) →
    Wrote x.2.1 x.2.2 n old new → Wrote y.2.1 y.2.2 n old' new' →
    (∀ z ∈ l₂, ∀ a b, ¬ Wrote z.2.1 z.2.2 n a b) → old' = new

/-- Calls before a successful batch see nothing of it, calls after it start from all of
it. -/
def BatchesWhole (M₀ : RefMap) (l : List (I × Call × View)) : Prop :=
  ∀ l₁ i ops marks l₂, l = l₁ ++ (i, .commitBatch ops, .batch (.ok marks)) :: l₂ →
    ∃ M M' final, Sequential MapSpec M₀ l₁ M ∧ AppliesBatch M ops M' ∧
      Sequential MapSpec M' l₂ final

variable {l : List (I × Call × View)}

theorem lookup_of_no_writer (h : Sequential MapSpec M l M') (hc : ∀ x ∈ l, x.2.1.Distinct)
    (hw : ∀ x ∈ l, ∀ a b, ¬ Wrote x.2.1 x.2.2 n a b) : M'.lookup n = M.lookup n := by
  induction h with
  | nil M => rfl
  | cons hfirst _ ih =>
    rw [forall_mem_cons] at hc hw
    rw [ih hc.2 hw.2, hfirst.not_wrote hc.1 hw.1]

theorem chained_of_sequential (h : Sequential MapSpec M l M') (hc : ∀ x ∈ l, x.2.1.Distinct) :
    Chained l := by
  rintro l₁ ⟨i, c, v⟩ l₂ ⟨j, c', v'⟩ l₃ n old new old' new' rfl hx hy hquiet
  have hcx : c.Distinct := hc (i, c, v) (by simp)
  have hcy : c'.Distinct := hc (j, c', v') (by simp)
  obtain ⟨M₁, -, hrest⟩ := h.split
  cases hrest with
  | @cons _ M₂ _ _ _ _ _ hstep hrest =>
    obtain ⟨M₃, hmid, hlast⟩ := hrest.split
    cases hlast with
    | cons hstep' _ =>
      have hkeep : M₃.lookup n = M₂.lookup n :=
        lookup_of_no_writer hmid (fun z hz => hc z (by simp [hz])) hquiet
      calc old' = (M₃.lookup n).map Prod.fst := (hstep'.wrote hcy hy).1.symm
        _ = (M₂.lookup n).map Prod.fst := by rw [hkeep]
        _ = new := (hstep.wrote hcx hx).2

theorem batchesWhole_of_sequential (h : Sequential MapSpec M l M')
    (hc : ∀ x ∈ l, x.2.1.Distinct) : BatchesWhole M l := by
  rintro l₁ i ops marks l₂ rfl
  obtain ⟨M₁, hbefore, hrest⟩ := h.split
  cases hrest with
  | @cons _ M₂ _ _ _ _ _ hstep hafter =>
    have hd : (ops.map BatchOp.name).Nodup := hc (i, .commitBatch ops, .batch (.ok marks)) (by simp)
    exact ⟨M₁, M₂, M', hbefore, (hstep.batch hd).2, hafter⟩

variable [DecidableEq I] {calls : I → Call} {wal : List WalEntry} {s : Sys I}

/-- **The ref store is linearizable.** In every run of concurrent calls, compactions and
appends, some order of the calls respects real time and is one in which the map gives the
same results. In that order the successful writers of a ref form a chain, and a batch is
one step. -/
theorem store_linearizable (hwal : ∀ f ∈ wal, f.Valid) (hcalls : ∀ i, (calls i).Distinct)
    (hrun : SysReach calls (.opened wal) s) :
    ∃ l, Linearizes MapSpec (openTree wal).refMap
        (s.mem.hist.map (Event.mapResult fun r => r.1.view)) l ∧
      Chained l ∧ BatchesWhole (openTree wal).refMap l := by
  have hreach : Reach Call.turn calls (Machine.init (openTree wal)) s.mem := hrun.mem
  have hsim : ∀ (t : RefTree) (M : RefMap) (c : Call) (r : Resp × Option WalEntry) (t' : RefTree),
      Reflects t M → soleTurn Call.turn t c r t' →
      ∃ M', MapSpec M c r.1.view M' ∧ Reflects t' M' := fun _ _ _ _ _ h hturn => h.step hturn
  have hlin := (Machine.reach_linearizes hreach).simulate hsim
    (reflects_refMap (plain_openTree hwal))
  refine ⟨_, hlin, ?_⟩
  obtain ⟨final, hseq⟩ := hlin.legal
  have hdistinct : ∀ x ∈ s.mem.order.map (fun x => (x.1, x.2.1, x.2.2.1.view)),
      x.2.1.Distinct := by
    intro x hx
    obtain ⟨y, hy, rfl⟩ := List.mem_map.mp hx
    show y.2.1.Distinct
    rw [hreach.order_calls y hy]
    exact hcalls y.1
  exact ⟨chained_of_sequential hseq hdistinct, batchesWhole_of_sequential hseq hdistinct⟩

end

/-- Create a ref, then point it twice to the target it has. -/
def rewrites : Fin 3 → Call
  | 0 => .update .headsA (.fill 1) none
  | _ => .update .headsA (.fill 1) (some (.fill 1))

/-- The two later calls are made before either returns. -/
def rewritesRun : Option (Sys (Fin 3)) :=
  (Sys.opened []).exec rewrites
    [(.call (.invoke 0), 0), (.call (.load 0), 1), (.call (.swap 0), 0), (.append 0, 0),
      (.call (.respond 0), 0), (.call (.invoke 1), 0), (.call (.invoke 2), 0),
      (.call (.load 1), 2), (.call (.load 2), 3), (.call (.swap 1), 0), (.call (.retry 2), 0),
      (.call (.load 2), 4), (.call (.swap 2), 0), (.append 0, 0), (.append 0, 0),
      (.call (.respond 1), 0), (.call (.respond 2), 0)]

/-- A successful update in a history. -/
def succeeded : Event (Fin 3) Call (Resp × Option WalEntry) → Option (Fin 3 × Mark)
  | .respond i (.updated (.ok e), _) => some (i, mark e)
  | _ => none

/-- Two concurrent calls that expect the same current target of a ref both succeed, since
the first leaves that target. -/
theorem rewrites_both_succeed :
    (∃ s, rewritesRun = some s ∧ SysReach rewrites (.opened []) s ∧
      s.mem.hist.filterMap succeeded =
        [(0, (.fill 1, 1)), (1, (.fill 1, 2)), (2, (.fill 1, 3))]) ∧
    rewrites 1 = .update .headsA (.fill 1) (some (.fill 1)) ∧ rewrites 2 = rewrites 1 := by
  refine ⟨?_, rfl, rfl⟩
  have hrun : rewritesRun.map (fun s => s.mem.hist.filterMap succeeded) =
      some [(0, (.fill 1, 1)), (1, (.fill 1, 2)), (2, (.fill 1, 3))] := by
    decide +kernel
  obtain ⟨s, hs, hhist⟩ := map_eq_some_iff.mp hrun
  exact ⟨s, hs, SysReach.of_exec hs, hhist⟩

/-- A batch of two refs, and two snapshots. -/
def batchAndReaders : Fin 3 → Call
  | 0 => .commitBatch [⟨.headsA, .fill 1, none, 1⟩, ⟨.headsB, .fill 2, none, 1⟩]
  | _ => .snapshot

/-- One snapshot is taken between the load and the swap of the batch, the other one behind it. -/
def batchRun : Option (Sys (Fin 3)) :=
  (Sys.opened []).exec batchAndReaders
    [(.call (.invoke 0), 0), (.call (.invoke 1), 0), (.call (.load 0), 1), (.call (.load 1), 0),
      (.call (.swap 0), 0), (.call (.invoke 2), 0), (.call (.load 2), 0), (.append 0, 0),
      (.call (.respond 0), 0), (.call (.respond 1), 0), (.call (.respond 2), 0)]

/-- What a snapshot shows, in a history. -/
def snapshotShown : Event (Fin 3) Call (Resp × Option WalEntry) → Option (List (RefName × ObjectId))
  | .respond _ (.snapshot t, _) => some ((t.list "").map (fun x => (x.1, x.2.target)))
  | _ => none

theorem store_linearizable_batch :
    ∃ s l, batchRun = some s ∧
      s.mem.hist.filterMap snapshotShown = [[], [(.headsA, .fill 1), (.headsB, .fill 2)]] ∧
      Linearizes MapSpec (openTree []).refMap
        (s.mem.hist.map (Event.mapResult fun r => r.1.view)) l ∧
      Chained l ∧ BatchesWhole (openTree []).refMap l := by
  have hshown : batchRun.map (fun s => s.mem.hist.filterMap snapshotShown) =
      some [[], [(.headsA, .fill 1), (.headsB, .fill 2)]] := by decide +kernel
  obtain ⟨s, hs, hhist⟩ := map_eq_some_iff.mp hshown
  have hdistinct : ∀ i, (batchAndReaders i).Distinct := by
    intro i
    unfold batchAndReaders
    split
    · show List.Nodup _
      decide
    · trivial
  have hrun : SysReach batchAndReaders (.opened []) s := SysReach.of_exec hs
  obtain ⟨l, hl⟩ := store_linearizable (fun f hf => by cases hf) hdistinct hrun
  exact ⟨s, l, hs, hhist, hl⟩

end Ledge.RefStore
