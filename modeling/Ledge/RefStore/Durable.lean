import Ledge.RefStore.Concurrent

/-!
# Ledge.RefStore.Durable

What a concurrent store **recovers from its log**.

A frame is appended after its write is published, so at any time some frames are still
to come. `Recovers` says that the log file and those frames together mean the live tree.
A publish keeps it. An append keeps it if the frame does not overtake an older frame
of a ref it writes, and a compaction keeps it if every ref with a deletion still to be
appended is in the checkpoint; neither is ensured by the store, and without it a store
whose calls have all returned can reopen to a different map.
-/

namespace Ledge.RefStore

open Ledge.Core Ledge.Lib List Option

/-! ### The log and the frames still to come -/

/-- The tree `W` of the log file, followed by the frames `F`, is the live tree `t`, and
every deletion in `F` finds its ref. -/
structure Recovers (W : RefTree) (F : List WalEntry) (t : RefTree) : Prop where
  plainLog : W.Plain
  plain : t.Plain
  valid : ∀ f ∈ F, f.Valid
  settles : ∀ n, settled n (W.get n) F = t.get n
  present : ∀ F₁ n hlc F₂, F = F₁ ++ .delete n hlc :: F₂ → settled n (W.get n) F₁ ≠ none

variable {W t t' : RefTree} {F F₁ F₂ : List WalEntry} {f : WalEntry} {n : RefName}

theorem RefTree.Plain.get_ne_none_iff (h : t.Plain) : t.get n ≠ none ↔ (t.slot n).isSome := by
  rw [h n, isSome_map, isSome_iff_ne_none]

theorem recovers_refl (h : t.Plain) : Recovers t [] t := by
  refine ⟨h, h, by simp, fun _ => rfl, ?_⟩
  intro F₁ n hlc F₂ heq
  simp at heq

theorem Recovers.publish (h : Recovers W F t) (hf : Logged t f t') :
    Recovers W (F ++ [f]) t' := by
  refine ⟨h.plainLog, hf.plain h.plain, ?_, fun n => ?_, ?_⟩
  · intro g hg
    rcases mem_append.mp hg with hg | hg
    · exact h.valid g hg
    · rw [mem_singleton.mp hg]
      exact hf.valid
  · rw [hf.get, ← h.settles]
    exact settle_concat f
  · intro F₁ n hlc F₂ heq
    rcases eq_nil_or_concat F₂ with rfl | ⟨F₂', g, rfl⟩
    · -- the new frame deletes a ref of the tree it was computed from
      obtain ⟨rfl, hlast⟩ := append_inj' heq rfl
      obtain rfl : f = .delete n hlc := by simpa using hlast
      rw [h.settles, h.plain.get_ne_none_iff]
      exact hf.present n hlc rfl
    · rw [concat_eq_append, ← cons_append, ← append_assoc] at heq
      obtain ⟨rfl, -⟩ := append_inj' heq rfl
      exact h.present F₁ n hlc F₂' rfl

theorem Recovers.append (h : Recovers W (F₁ ++ f :: F₂) t)
    (horder : ∀ n, (f.effect n).isSome → ¬ Touched (WalEntry.effect n) F₁) :
    Recovers (replayEntry W f) (F₁ ++ F₂) t := by
  have hf : Logged W f (replayEntry W f) := by
    refine logged_replayEntry (h.valid f (by simp)) fun n hlc heq => ?_
    subst heq
    -- no older frame touches the ref, so the log has it
    have hpresent := h.present F₁ n hlc F₂ rfl
    rw [settled, settle_of_not_touched (horder n (by simp [WalEntry.effect]))] at hpresent
    exact h.plainLog.get_ne_none_iff.mp hpresent
  have hmove : ∀ n F', settled n ((replayEntry W f).get n) (F₁ ++ F') =
      settled n (W.get n) (F₁ ++ f :: F') := by
    intro n F'
    rw [hf.get, settled, settled, settle_append_cons (horder n)]
  refine ⟨hf.plain h.plainLog, h.plain, ?_, fun n => ?_, ?_⟩
  · intro g hg
    refine h.valid g ?_
    rcases mem_append.mp hg with hg | hg
    · exact mem_append_left _ hg
    · exact mem_append_right _ (mem_cons_of_mem f hg)
  · rw [hmove, h.settles]
  · intro G₁ n hlc G₂ heq
    rcases append_eq_append_iff.mp heq with ⟨K, rfl, rfl⟩ | ⟨K, rfl, hK⟩
    · -- the deletion is behind the frame
      rw [hmove]
      exact h.present (F₁ ++ f :: K) n hlc G₂ (by simp)
    · cases K with
      | nil =>
        subst hK
        have hpresent := h.present (G₁ ++ [f]) n hlc G₂ (by simp)
        have hsame := hmove n []
        simp only [append_nil] at hsame hpresent
        rw [hsame]
        exact hpresent
      | cons d K =>
        -- the deletion is before the frame, which therefore leaves the ref alone
        cases hK
        have hquiet : f.effect n = none := by
          by_contra hsome
          refine horder n (isSome_iff_ne_none.mpr hsome) ?_
          exact touched_append.mpr (Or.inr (touched_cons.mpr (Or.inl (by simp [WalEntry.effect]))))
        rw [hf.get, hquiet]
        exact h.present G₁ n hlc (K ++ f :: F₂) (by simp)

theorem Recovers.checkpoint (h : Recovers W F t)
    (hlive : ∀ n hlc, .delete n hlc ∈ F → t.get n ≠ none) :
    Recovers (openTree [t.checkpoint]) F t := by
  have hget := get_openTree_checkpoint t
  refine ⟨?_, h.plain, h.valid, fun n => ?_, ?_⟩
  · intro n
    rw [hget]
    exact slot_replay_checkpoint .empty t n
  · -- frames whose writes the checkpoint contains are absorbed
    rw [hget, ← h.settles]
    exact settle_suffix (suffix_refl F)
  · intro F₁ n hlc F₂ heq
    rw [hget]
    by_cases htouched : Touched (WalEntry.effect n) F₁
    · rw [settled, settle_congr_of_touched htouched]
      exact h.present F₁ n hlc F₂ heq
    · rw [settled, settle_of_not_touched htouched]
      exact hlive n hlc (by simp [heq])

/-! ### Runs -/

section

variable {I : Type} [DecidableEq I]

/-- The log file as it is when the running compaction ends. -/
def Sys.nextWal (s : Sys I) : List WalEntry :=
  match s.compacting with
  | none => s.wal
  | some leaves => [.checkpoint leaves]

/-- The order a step has to respect. An append does not overtake an older frame of a ref
it writes. When a compaction lists the refs, those with a deletion still to be appended
exist again. -/
def InOrder (s : Sys I) : SysAct I → Prop
  | .append k => ∀ i f n, s.unlogged[k]? = some (i, f) → (f.effect n).isSome →
      ¬ Touched (WalEntry.effect n) ((s.unlogged.take k).map Prod.snd)
  | .beginCompaction => ∀ i n hlc, (i, .delete n hlc) ∈ s.unlogged → s.mem.cell.get n ≠ none
  | _ => True

/-- Every call has returned or was never made, and no compaction is running. -/
structure Quiescent (s : Sys I) : Prop where
  calls : ∀ i, (s.mem.phase i).atRest
  free : s.compacting = none

/-- Any number of steps that respect the order. -/
def OrderedReach (calls : I → Call) (s s' : Sys I) : Prop :=
  Relation.ReflTransGen (fun s s' => ∃ a, SysStep calls s a s' ∧ InOrder s a) s s'

/-- The log and the frames to come mean the live tree, and a call with a frame to come
has not returned. -/
structure Durable (s : Sys I) : Prop where
  recovers : Recovers (openTree s.nextWal) (s.unlogged.map Prod.snd) s.mem.cell
  waiting : ∀ x ∈ s.unlogged, ∃ r, s.mem.phase x.1 = .decided r

variable {calls : I → Call} {s s' : Sys I} {wal : List WalEntry}

theorem OrderedReach.reach (h : OrderedReach calls s s') : SysReach calls s s' := by
  induction h with
  | refl => exact .refl
  | tail _ hstep ih =>
    obtain ⟨a, hstep, -⟩ := hstep
    exact ih.tail ⟨a, hstep⟩

omit [DecidableEq I] in
theorem durable_opened (h : ∀ f ∈ wal, f.Valid) : Durable (Sys.opened wal : Sys I) :=
  ⟨recovers_refl (plain_openTree h), by simp [Sys.opened]⟩

theorem Durable.step {a : SysAct I} (h : Durable s)
    (hinv : Inv Call.turn calls (openTree wal) s.mem) (hstep : SysStep calls s a s')
    (horder : InOrder s a) : Durable s' := by
  obtain ⟨hrec, hwait⟩ := h
  cases hstep with
  | call hmem hswap hresp =>
    refine ⟨(hmem.cell_eq hswap).symm ▸ hrec, fun x hx => ?_⟩
    obtain ⟨r, hr⟩ := hwait x hx
    -- a call with a frame to come does not return
    exact ⟨r, hmem.decided_of_decided hr fun heq => hresp x.1 x.2 heq hx⟩
  | @publish i t r log mem' harmed hmem =>
    obtain ⟨hlc, hturn⟩ := (hinv.armed i _ _ _ harmed).2 rfl
    obtain ⟨f, rfl, hf⟩ := logged_of_turn hturn
    have hcell : mem'.cell = t := by
      cases hmem with
      | swap harmed' => exact (Phase.armed.inj (harmed.symm.trans harmed')).2.1.symm
    have hphase : mem'.phase i = .decided (r, some f) := by
      cases hmem with
      | swap harmed' =>
        rw [(Phase.armed.inj (harmed.symm.trans harmed')).2.2]
        exact Function.update_self ..
    refine ⟨?_, fun x hx => ?_⟩
    · simp only [map_some, toList_some, map_append, map_singleton, hcell]
      exact hrec.publish hf
    · rcases mem_append.mp hx with hx | hx
      · obtain ⟨r', hr'⟩ := hwait x hx
        exact ⟨r', hmem.decided_of_decided hr' nofun⟩
      · obtain rfl : x = (i, f) := by simpa using hx
        exact ⟨_, hphase⟩
  | @append k i f hfree hk =>
    refine ⟨?_, fun x hx => hwait x (mem_of_mem_eraseIdx hx)⟩
    obtain ⟨hlt, hget⟩ := List.getElem?_eq_some_iff.mp hk
    have hsplit : s.unlogged = s.unlogged.take k ++ (i, f) :: s.unlogged.drop (k + 1) := by
      rw [← hget, getElem_cons_drop, take_append_drop]
    simp only [Sys.nextWal, hfree] at hrec ⊢
    rw [hsplit, map_append] at hrec
    rw [eraseIdx_eq_take_drop_succ, map_append, openTree_eq_replay, replay_concat,
      ← openTree_eq_replay]
    exact hrec.append fun n hn => horder i f n hk hn
  | beginCompaction hfree =>
    refine ⟨?_, hwait⟩
    refine hrec.checkpoint fun n hlc hmem => ?_
    obtain ⟨⟨i, f⟩, hx, rfl⟩ := List.mem_map.mp hmem
    exact horder i n hlc hx
  | endCompaction hbusy =>
    refine ⟨?_, hwait⟩
    simp only [Sys.nextWal, hbusy] at hrec ⊢
    exact hrec

theorem OrderedReach.durable (hwal : ∀ f ∈ wal, f.Valid)
    (h : OrderedReach calls (.opened wal) s) : Durable s := by
  induction h with
  | refl => exact durable_opened hwal
  | tail hrun hstep ih =>
    obtain ⟨a, hstep, horder⟩ := hstep
    exact ih.step (OrderedReach.reach hrun).mem.inv hstep horder

/-- **What an ordered run recovers.** In every run whose appends and compactions respect
the order, once all calls have returned the store reopens from its log to the map it
serves. -/
theorem reopen_of_ordered_run (hwal : ∀ f ∈ wal, f.Valid)
    (hrun : OrderedReach calls (.opened wal) s) (hquiet : Quiescent s) (n : RefName) :
    (openTree s.wal).get n = s.mem.cell.get n := by
  obtain ⟨hrec, hwait⟩ := hrun.durable hwal
  have hlogged : s.unlogged = [] := by
    refine eq_nil_iff_forall_not_mem.mpr fun x hx => ?_
    obtain ⟨r, hr⟩ := hwait x hx
    have hrest := hquiet.calls x.1
    rw [hr] at hrest
    cases hrest
  have hsettles := hrec.settles n
  rw [hlogged] at hsettles
  simp only [Sys.nextWal, hquiet.free] at hsettles
  exact hsettles

/-- Labels that keep the order in every state: always append the oldest frame, and do not
compact. -/
def SysAct.oldestFirst : SysAct I → Bool
  | .append k => k = 0
  | .beginCompaction => false
  | _ => true

omit [DecidableEq I] in
theorem inOrder_of_oldestFirst {a : SysAct I} (ha : a.oldestFirst) : InOrder s a := by
  cases a with
  | call | endCompaction => trivial
  | beginCompaction => cases ha
  | append k =>
    obtain rfl : k = 0 := by simpa [SysAct.oldestFirst] using ha
    intro i f n _ _
    simp [Touched]

theorem OrderedReach.of_exec {script : List (SysAct I × Nat)} (h : s.exec calls script = some s')
    (hscript : ∀ x ∈ script, x.1.oldestFirst) : OrderedReach calls s s' := by
  induction script generalizing s with
  | nil =>
    cases h
    exact .refl
  | cons x script ih =>
    rw [forall_mem_cons] at hscript
    obtain ⟨s₁, hfirst, hrest⟩ := bind_eq_some_iff.mp h
    exact .head ⟨x.1, SysStep.of_step hfirst, inOrder_of_oldestFirst hscript.1⟩
      (ih hrest hscript.2)

end

/-! ### The two ways to lose a write -/

/-- Create a ref and move it. -/
def moves : Fin 2 → Call
  | 0 => .update .headsA (.fill 1) none
  | 1 => .update .headsA (.fill 2) (some (.fill 1))

/-- Both writes are published before either is logged; `first` gets the log's lock first
(index 0 is the older frame, index 1 the newer one). -/
def movesScript (first : Nat) : List (SysAct (Fin 2) × Nat) :=
  [(.call (.invoke 0), 0), (.call (.load 0), 1), (.call (.swap 0), 0), (.call (.invoke 1), 0),
    (.call (.load 1), 2), (.call (.swap 1), 0), (.append first, 0), (.append 0, 0),
    (.call (.respond 0), 0), (.call (.respond 1), 0)]

/-- Create three refs and delete the last. -/
def creates : Fin 4 → Call
  | 0 => .update .headsA (.fill 1) none
  | 1 => .update .headsB (.fill 1) none
  | 2 => .update .headsC (.fill 1) none
  | 3 => .delete .headsC (.fill 1)

/-- A compaction runs between the publish of the deletion and its append. -/
def createsScript : List (SysAct (Fin 4) × Nat) :=
  let write (i : Fin 4) : List (SysAct (Fin 4) × Nat) :=
    [(.call (.invoke i), 0), (.call (.load i), 1), (.call (.swap i), 0)]
  let finish (i : Fin 4) : List (SysAct (Fin 4) × Nat) := [(.append 0, 0), (.call (.respond i), 0)]
  write 0 ++ finish 0 ++ write 1 ++ finish 1 ++ write 2 ++ finish 2 ++
    write 3 ++ [(.beginCompaction, 0), (.endCompaction, 0)] ++ finish 3

/-- What a run serves for a ref at its end, and what it serves after reopening, if all of
its calls have returned. -/
def servedAndReopened {k : Nat} (n : RefName) (s : Sys (Fin k)) :
    Option (Option RefEntry × Option RefEntry) :=
  if (∀ i, (s.mem.phase i).atRest) ∧ s.compacting.isNone then
    some (s.mem.cell.get n, (openTree s.wal).get n)
  else none

variable {live reopened : Option RefEntry}

theorem servedAndReopened_eq_some {k : Nat} {s : Sys (Fin k)}
    (h : servedAndReopened n s = some (live, reopened)) :
    Quiescent s ∧ s.mem.cell.get n = live ∧ (openTree s.wal).get n = reopened := by
  rw [servedAndReopened] at h
  split_ifs at h with hquiet
  cases h
  exact ⟨⟨hquiet.1, isNone_iff_eq_none.mp hquiet.2⟩, rfl, rfl⟩

theorem exists_run_of_exec {k : Nat} {calls : Fin k → Call} (script : List (SysAct (Fin k) × Nat))
    (h : ((Sys.opened []).exec calls script).bind (servedAndReopened n) = some (live, reopened)) :
    ∃ s, SysReach calls (.opened []) s ∧ Quiescent s ∧ s.mem.cell.get n = live ∧
      (openTree s.wal).get n = reopened := by
  obtain ⟨s, hs, hserved⟩ := bind_eq_some_iff.mp h
  exact ⟨s, SysReach.of_exec hs, servedAndReopened_eq_some hserved⟩

/-- A frame that overtakes an older one of its ref brings the old value back; a deletion
that is logged after a compaction has left its ref out takes other refs along. -/
theorem reopen_loses_writes :
    (∃ s, SysReach moves (.opened []) s ∧ Quiescent s ∧
      s.mem.cell.get .headsA = some ⟨.fill 2, 2, 2⟩ ∧
      (openTree s.wal).get .headsA = some ⟨.fill 1, 1, 1⟩) ∧
    (∃ s, SysReach creates (.opened []) s ∧ Quiescent s ∧
      s.mem.cell.get .headsA = some ⟨.fill 1, 1, 1⟩ ∧ (openTree s.wal).get .headsA = none) := by
  constructor
  · exact exists_run_of_exec (movesScript 1) (by decide +kernel)
  · exact exists_run_of_exec createsScript (by decide +kernel)

/-- With the older frame first, the two writes are recovered. -/
theorem reopen_of_ordered_moves :
    ∃ s, OrderedReach moves (.opened []) s ∧ Quiescent s ∧
      (openTree s.wal).get .headsA = s.mem.cell.get .headsA ∧
      s.mem.cell.get .headsA = some ⟨.fill 2, 2, 2⟩ := by
  have hexec : (((Sys.opened []).exec moves (movesScript 0)).bind
      (servedAndReopened .headsA)).map Prod.fst = some (some ⟨.fill 2, 2, 2⟩) := by decide +kernel
  obtain ⟨⟨live, reopened⟩, hbind, hlive⟩ := map_eq_some_iff.mp hexec
  obtain ⟨s, hs, hserved⟩ := bind_eq_some_iff.mp hbind
  obtain ⟨hquiet, hcell, -⟩ := servedAndReopened_eq_some hserved
  have hrun : OrderedReach moves (.opened []) s := OrderedReach.of_exec hs (by decide)
  exact ⟨s, hrun, hquiet, reopen_of_ordered_run (fun f hf => by cases hf) hrun hquiet .headsA,
    hcell.trans hlive⟩

end Ledge.RefStore
