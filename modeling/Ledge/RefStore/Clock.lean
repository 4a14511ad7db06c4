import Ledge.RefStore.AtomicCommit
import Ledge.RefStore.Plain

/-!
# Ledge.RefStore.Clock

The clock (`hlc.rs`), whose ticks are distinct and increase in real time (`ticks_increase`), and
writers that **share it**: where each of them draws its timestamp, relative to the load and the swap
of its loop.

`update` draws between its load and its swap, so whatever it publishes is younger than what it
replaces. `LocalAtomicCommit` draws before its loop starts and keeps the timestamps through all
turns. What a ref shows grows in age only as long as nobody else writes a ref of a batch between
the draw and the publication (`shown_hlc_increases`).
-/

namespace Ledge.RefStore

open Ledge.Core List Option

/-! ### The clock -/

/-- `HLC::tick` when the stored value is `last` and the wall clock reads `wallMs`. Its loop
compares values, so a tick takes effect at its successful swap. -/
def tick (last wallMs : Nat) : Nat := max (wallMs * 2 ^ 20 % 2 ^ 64) ((last + 1) % 2 ^ 64)

theorem lt_tick {last : Nat} (h : last + 1 < 2 ^ 64) (wallMs : Nat) : last < tick last wallMs := by
  rw [tick, Nat.mod_eq_of_lt h]
  exact Nat.lt_of_lt_of_le (Nat.lt_succ_self last) (Nat.le_max_right _ _)

/-! ### Callers of `tick` -/

/-- A caller: outside, or in a turn of the loop, with the value that it has loaded. `before` are the
timestamps that had been returned when the call started; no caller looks at them. -/
inductive TickPc
  | idle
  | turn (before : List Nat) (last : Option Nat)

@[simp] def TickPc.before : TickPc → List Nat
  | .idle => []
  | .turn before _ => before

/-- The atomic of a clock, its callers, and the calls that have returned, the last one first: the
timestamp of each, and those returned before it started. -/
structure HlcState (I : Type) where
  value : Nat
  pc : I → TickPc
  calls : List (Nat × List Nat)

namespace HlcState

variable {I : Type} [DecidableEq I]

def goto (s : HlcState I) (i : I) (pc : TickPc) : HlcState I :=
    { s with pc := Function.update s.pc i pc }

/-- The next step of the caller `i`, when the wall clock reads `wallMs`: a call starts, loads, or
swaps if the value is still the one loaded. A swap may also fail by itself
(`compare_exchange_weak`). -/
def step (s : HlcState I) (i : I) (wallMs : Nat) (fails : Bool) : HlcState I :=
  match s.pc i with
  | .idle => s.goto i (.turn (s.calls.map Prod.fst) none)
  | .turn before none => s.goto i (.turn before (some s.value))
  | .turn before (some last) =>
    if last = s.value ∧ ¬ fails then
      { s.goto i .idle with
        value := tick last wallMs
        calls := (tick last wallMs, before) :: s.calls }
    else s.goto i (.turn before none)

end HlcState

/-- Steps of the callers in any order, as long as no value reaches `u64::MAX`. -/
inductive TickRun {I : Type} [DecidableEq I] (value : Nat) : HlcState I → Prop
  | start : TickRun value ⟨value, fun _ => .idle, []⟩
  | step {s : HlcState I} (h : TickRun value s) (hmax : s.value + 1 < 2 ^ 64) (i : I) (wallMs : Nat)
      (fails : Bool) : TickRun value (s.step i wallMs fails)

namespace HlcState

variable {I : Type} [DecidableEq I] {s : HlcState I}

/-- What was returned is not above the value, and each timestamp is above those before it. -/
structure Inv (s : HlcState I) : Prop where
  below : ∀ c ∈ s.calls, c.1 ≤ s.value
  increasing : (s.calls.map Prod.fst).Pairwise (· > ·)
  seen : ∀ i, ∀ ts ∈ (s.pc i).before, ts ≤ s.value
  later : ∀ c ∈ s.calls, ∀ ts ∈ c.2, ts < c.1

theorem Inv.goto (h : s.Inv) (i : I) {pc : TickPc} (hpc : ∀ ts ∈ pc.before, ts ≤ s.value) :
    (s.goto i pc).Inv := by
  refine ⟨h.below, h.increasing, fun j => ?_, h.later⟩
  simp only [HlcState.goto, Function.update_apply]
  split_ifs
  · exact hpc
  · exact h.seen j

/-- **One step.** A swap finds the value that was loaded, so its timestamp is above all others. -/
theorem Inv.step (h : s.Inv) (hmax : s.value + 1 < 2 ^ 64) (i : I) (wallMs : Nat) (fails : Bool) :
    (s.step i wallMs fails).Inv := by
  have hlt := lt_tick hmax wallMs
  unfold HlcState.step
  cases hpc : s.pc i with
  | idle => exact h.goto i (by simpa using h.below)
  | turn before last =>
    have hseen : ∀ ts ∈ before, ts ≤ s.value := by simpa [hpc] using h.seen i
    cases last with
    | none => exact h.goto i hseen
    | some last =>
      dsimp only
      split_ifs with hswap
      · obtain ⟨rfl, -⟩ := hswap
        have hidle : (s.goto i .idle).Inv := h.goto i nofun
        refine ⟨?_, ?_, fun j ts hts => (hidle.seen j ts hts).trans hlt.le, ?_⟩
        · simpa using fun ts before hc => (h.below (ts, before) hc).trans hlt.le
        · simpa [h.increasing] using fun ts before hc => (h.below (ts, before) hc).trans_lt hlt
        · have hlater := fun ts before hc => h.later (ts, before) hc
          simpa using ⟨fun ts hts => (hseen ts hts).trans_lt hlt, hlater⟩
      · exact h.goto i hseen

end HlcState

/-- **Ticks of any callers** are distinct, and each is above all that were returned before its call
started. -/
theorem ticks_increase {I : Type} [DecidableEq I] {value : Nat} {s : HlcState I}
    (h : TickRun value s) : (s.calls.map Prod.fst).Nodup ∧ ∀ c ∈ s.calls, ∀ ts ∈ c.2, ts < c.1 := by
  have hinv : s.Inv := by
    induction h with
    | start => exact ⟨nofun, .nil, nofun, nofun⟩
    | step _ hmax i wallMs fails ih => exact ih.step hmax i wallMs fails
  exact ⟨hinv.increasing.imp fun h => h.ne', hinv.later⟩

/-- Two callers load, the second one swaps first, and the first one needs another turn; the wall
clock jumps back. -/
theorem ticks_of_two_callers : ∃ s : HlcState Bool, TickRun 5 s ∧
    s.calls = [(2 ^ 20 + 1, []), (2 ^ 20, [])] ∧ (s.calls.map Prod.fst).Nodup ∧
    ∀ c ∈ s.calls, ∀ ts ∈ c.2, ts < c.1 := by
  have h₁ := ((@TickRun.start Bool _ 5).step (by decide) true 0 false).step (by decide) false 0
    false
  have h₂ := (h₁.step (by decide) true 0 false).step (by decide) false 0 false
  have h₃ := (h₂.step (by decide) false 1 false).step (by decide) true 0 false
  have h := (h₃.step (by decide) true 0 false).step (by decide) true 0 false
  exact ⟨_, h, by decide, ticks_increase h⟩

/-! ### Writers -/

/-- The writers of a single-node store. -/
inductive Writer
  | update (name : RefName) (new : ObjectId) (expected : Option ObjectId)
  | delete (name : RefName) (expected : ObjectId)
  | commitAtomic (mappings : List Mapping)
  deriving DecidableEq

/-- A write with its timestamp. `since` counts the entries that its ref had shown when the
timestamp was drawn; no writer looks at it. -/
structure Drawn where
  op : BatchOp
  since : Nat
  deriving DecidableEq

/-- Where a writer is. -/
inductive Pc
  | start
  /-- `commit_atomic` draws a timestamp for each mapping. -/
  | ticking (rest : List Mapping) (drawn : List Drawn)
  /-- At the head of the loop. -/
  | looping (drawn : List Drawn)
  | loaded (drawn : List Drawn) (seen : Nat) (root : RefTree)
  | armed (drawn : List Drawn) (seen : Nat) (next : RefTree)
  /-- `delete` draws the timestamp of its frame. -/
  | logging
  | returned

/-- The published root with its stamp, the clock, the writers, and for each ref the entries that
it has shown. -/
structure ClockState (I : Type) where
  cell : RefTree
  stamp : Nat
  clock : Nat
  pc : I → Pc
  history : RefName → List RefEntry

/-- The entry of `n` that becomes visible when `t'` takes the place of `t`. -/
def newly (t t' : RefTree) (n : RefName) : List RefEntry :=
  if t'.get n = t.get n then [] else (t'.get n).toList

namespace ClockState

variable {I : Type} [DecidableEq I] (calls : I → Writer)

def init (t : RefTree) (clock : Nat) : ClockState I :=
  ⟨t, 0, clock, fun _ => .start, fun n => (t.get n).toList⟩

/-- The clock is moved to `clock`, and the writer `i` goes on at `pc`. -/
def goto (s : ClockState I) (i : I) (clock : Nat) (pc : Pc) : ClockState I :=
  { s with clock := clock, pc := Function.update s.pc i pc }

/-- A successful swap. -/
def publish (s : ClockState I) (i : I) (next : RefTree) (pc : Pc) : ClockState I :=
  { s with
    cell := next
    stamp := s.stamp + 1
    pc := Function.update s.pc i pc
    history := fun n => s.history n ++ newly s.cell next n }

/-- The rest of a turn behind the load. Only a turn that publishes draws a timestamp. -/
def turn (s : ClockState I) (i : I) (wallMs : Nat) (drawn : List Drawn) (seen : Nat)
    (root : RefTree) : ClockState I :=
  match calls i with
  | .update name new expected =>
    let hlc := tick s.clock wallMs
    match (Call.update name new expected).attempt hlc root with
    | .done _ => s.goto i s.clock .returned
    | .publish next _ _ _ =>
      let drawn := [⟨⟨name, new, expected, hlc⟩, (s.history name).length⟩]
      s.goto i hlc (.armed drawn seen next)
  | .delete name expected =>
    match (Call.delete name expected).attempt 0 root with
    | .done _ => s.goto i s.clock .returned
    | .publish next _ _ _ => s.goto i s.clock (.armed [] seen next)
  | .commitAtomic _ =>
    match (Call.commitBatch (drawn.map Drawn.op)).attempt 0 root with
    | .done _ => s.goto i s.clock .returned
    | .publish next _ _ _ => s.goto i s.clock (.armed drawn seen next)

/-- The next step of the writer `i`, when the wall clock reads `wallMs`. -/
def step (s : ClockState I) (i : I) (wallMs : Nat) : ClockState I :=
  match s.pc i with
  | .start =>
    match calls i with
    | .update .. | .delete .. => s.goto i s.clock (.looping [])
    | .commitAtomic mappings =>
      s.goto i s.clock (if mappings = [] then .returned else .ticking mappings [])
  | .ticking [] drawn => s.goto i s.clock (.looping drawn)
  | .ticking (m :: rest) drawn =>
    let hlc := tick s.clock wallMs
    let d := ⟨⟨m.name, m.target, m.expected, hlc⟩, (s.history m.name).length⟩
    s.goto i hlc (.ticking rest (drawn ++ [d]))
  | .looping drawn => s.goto i s.clock (.loaded drawn s.stamp s.cell)
  | .loaded drawn seen root => s.turn calls i wallMs drawn seen root
  | .armed drawn seen next =>
    if seen = s.stamp then
      s.publish i next (match calls i with
        | .delete .. => .logging
        | .update .. | .commitAtomic _ => .returned)
    else s.goto i s.clock (.looping drawn)
  | .logging => s.goto i (tick s.clock wallMs) .returned
  | .returned => s

/-- The steps of the writers in some order, with what the wall clock reads at each. -/
def exec (s : ClockState I) (schedule : List (I × Nat)) : ClockState I :=
  schedule.foldl (fun s x => s.step calls x.1 x.2) s

/-- The clock does not wrap around, and a batch is published only when none of its refs has shown
another entry since its timestamps were drawn. -/
structure Careful (s : ClockState I) (i : I) : Prop where
  clock : s.clock + 1 < 2 ^ 64
  quiet : ∀ mappings drawn seen next, calls i = .commitAtomic mappings →
    s.pc i = .armed drawn seen next → seen = s.stamp →
    ∀ d ∈ drawn, d.since = (s.history d.op.name).length

end ClockState

/-- The states that careful steps lead to. -/
inductive ClockRun {I : Type} [DecidableEq I] (calls : I → Writer) (s₀ : ClockState I) :
    ClockState I → Prop
  | start : ClockRun calls s₀ s₀
  | step {s : ClockState I} {i : I} {wallMs : Nat} (h : ClockRun calls s₀ s)
      (hcareful : s.Careful calls i) : ClockRun calls s₀ (s.step calls i wallMs)

/-! ### The timestamps of what a turn publishes -/

/-- A call that gets the timestamp `hlc` writes `h` to `n`. -/
def Call.Stamps (hlc : Nat) (n : RefName) (h : Nat) : Call → Prop
  | .update name _ _ => name = n ∧ h = hlc
  | .commitBatch ops => ∃ op ∈ ops, op.name = n ∧ h = op.hlc
  | .get _ | .list _ | .snapshot | .delete .. => False

section Published

variable {t t' : RefTree} {n : RefName} {e : RefEntry} {hlc : Nat} {log : Option WalEntry}
  {r lost : Resp}

variable {f : WalEntry} {name : RefName} {slot : Option RefSlot}

theorem effect_of_newly (hf : Logged t f t') (he : e ∈ newly t t' n) :
    f.effect n = some (some e) := by
  unfold newly at he
  split_ifs at he with hsame
  · cases he
  · have hget := hf.get n
    cases heffect : f.effect n with
    | none =>
      rw [heffect] at hget
      exact absurd hget hsame
    | some v =>
      rw [heffect] at hget
      rw [hget, getD_some, mem_toList] at he
      rw [he]

theorem decideUpdate_log {new : ObjectId} {expected : Option ObjectId}
    (h : (decideUpdate name new expected hlc slot).log = some f) :
    ∃ version, f = .update name ⟨new, hlc, version⟩ := by
  unfold decideUpdate at h
  split at h
  · cases h
  · dsimp only at h
    split at h
    · cases h
    · cases h
    · exact ⟨_, (some.inj h).symm⟩

theorem decideDelete_log {expected : ObjectId}
    (h : (decideDelete name expected hlc slot).log = some f) : f = .delete name hlc := by
  unfold decideDelete at h
  split at h
  · cases h
  · split_ifs at h
    · cases h
    · cases h
    · cases h
    · exact (some.inj h).symm

theorem log_of_publish {R : Type} {d : Decision R} {g : R → Resp}
    (h : (d.attempt t name).map g = .publish t' log r lost) : d.log = log := by
  cases d with
  | answer => cases h
  | put s l r' lost' | remove l r' lost' => exact (Attempt.publish.inj h).2.1

theorem Call.stamps_of_newly {c : Call} (h : c.attempt hlc t = .publish t' log r lost)
    (he : e ∈ newly t t' n) : c.Stamps hlc n e.hlc := by
  obtain ⟨f, rfl, hf⟩ := Call.logged_of_publish h
  have heffect := effect_of_newly hf he
  cases c with
  | get | list | snapshot => cases h
  | update name new expected =>
    obtain ⟨version, rfl⟩ := decideUpdate_log (log_of_publish h)
    simp only [WalEntry.effect] at heffect
    split_ifs at heffect with hn
    rw [← some.inj (some.inj heffect)]
    exact ⟨hn, rfl⟩
  | delete name expected =>
    obtain rfl := decideDelete_log (log_of_publish h)
    simp only [WalEntry.effect] at heffect
    split_ifs at heffect
    cases heffect
  | commitBatch ops =>
    simp only [Call.attempt, RefTree.commitBatch] at h
    split_ifs at h with hnone
    · cases h
    · obtain ⟨-, hlog, -, -⟩ := Attempt.publish.inj h
      cases hlog
      simp only [WalEntry.effect, map_eq_some_iff, some.injEq] at heffect
      obtain ⟨e', he', rfl⟩ := heffect
      have hmem := mem_of_lastFor he'
      rw [batchPlanned_eq (not_not.mp hnone)] at hmem
      obtain ⟨op, hop, heq⟩ := List.mem_map.mp hmem
      obtain ⟨hname, rfl⟩ := Prod.mk.inj heq
      exact ⟨op, hop, hname, rfl⟩

end Published

/-! ### The invariant -/

namespace ClockState

variable {I : Type} {calls : I → Writer} {s s' : ClockState I} {i : I}

/-- A timestamp that was drawn is above all that its ref had shown by then. -/
structure Fresh (s : ClockState I) (d : Drawn) : Prop where
  hlc_le : d.op.hlc ≤ s.clock
  since_le : d.since ≤ (s.history d.op.name).length
  above : ∀ e ∈ (s.history d.op.name).take d.since, e.hlc < d.op.hlc

/-- What `next` makes visible carries the drawn timestamps; those of an update are still the
latest. -/
structure Publishes (s : ClockState I) (c : Writer) (drawn : List Drawn) (next : RefTree) :
    Prop where
  stamped : ∀ n, ∀ e ∈ newly s.cell next n, ∃ d ∈ drawn, d.op.name = n ∧ e.hlc = d.op.hlc
  latest : (∀ mappings, c ≠ .commitAtomic mappings) →
    ∀ d ∈ drawn, d.since = (s.history d.op.name).length

/-- What a writer of the call `c` knows at `pc`. A root that it has seen is the published one as
long as the stamp is the same. -/
def Knows (s : ClockState I) (c : Writer) : Pc → Prop
  | .start | .logging | .returned => True
  | .ticking _ drawn | .looping drawn => ∀ d ∈ drawn, s.Fresh d
  | .loaded drawn seen root =>
    (∀ d ∈ drawn, s.Fresh d) ∧ seen ≤ s.stamp ∧ (seen = s.stamp → root = s.cell)
  | .armed drawn seen next =>
    (∀ d ∈ drawn, s.Fresh d) ∧ seen ≤ s.stamp ∧ (seen = s.stamp → s.Publishes c drawn next)

structure Inv (calls : I → Writer) (s : ClockState I) : Prop where
  known : ∀ n, ∀ e ∈ s.history n, e.hlc ≤ s.clock
  increasing : ∀ n, ((s.history n).map RefEntry.hlc).Pairwise (· < ·)
  knows : ∀ i, s.Knows (calls i) (s.pc i)

/-- `s'` comes after `s`. Either nothing was published in between, or the stamp has moved on. -/
structure Later (s s' : ClockState I) : Prop where
  clock : s.clock ≤ s'.clock
  history : ∀ n, s.history n <+: s'.history n
  stamp : s'.stamp = s.stamp ∧ s'.cell = s.cell ∧ s'.history = s.history ∨ s.stamp < s'.stamp

theorem Fresh.later {d : Drawn} (h : s.Fresh d) (hlater : s.Later s') : s'.Fresh d := by
  obtain ⟨more, hmore⟩ := hlater.history d.op.name
  refine ⟨Nat.le_trans h.hlc_le hlater.clock, ?_, ?_⟩
  · rw [← hmore, length_append]
    exact Nat.le_trans h.since_le (Nat.le_add_right _ _)
  · rw [← hmore, take_append_of_le_length h.since_le]
    exact h.above

variable {drawn : List Drawn} {next root : RefTree} {pc : Pc} {clock hlc seen : Nat}

theorem Publishes.same {c : Writer} (h : s.Publishes c drawn next) (hcell : s'.cell = s.cell)
    (hhistory : s'.history = s.history) : s'.Publishes c drawn next := by
  refine ⟨?_, ?_⟩
  · rw [hcell]
    exact h.stamped
  · rw [hhistory]
    exact h.latest

theorem Knows.later {c : Writer} (h : s.Knows c pc) (hlater : s.Later s') : s'.Knows c pc := by
  have hstamp : ∀ {seen}, seen ≤ s.stamp → seen ≤ s'.stamp ∧
      (seen = s'.stamp → seen = s.stamp ∧ s'.cell = s.cell ∧ s'.history = s.history) := by
    intro seen hseen
    rcases hlater.stamp with ⟨hsame, hrest⟩ | hlt
    · rw [hsame]
      exact ⟨hseen, fun heq => ⟨heq, hrest⟩⟩
    · exact ⟨by omega, fun heq => by omega⟩
  cases pc with
  | start | logging | returned => trivial
  | ticking _ drawn | looping drawn => exact fun d hd => (h d hd).later hlater
  | loaded drawn seen root =>
    obtain ⟨hdrawn, hseen, hroot⟩ := h
    obtain ⟨hseen', hsame⟩ := hstamp hseen
    refine ⟨fun d hd => (hdrawn d hd).later hlater, hseen', fun heq => ?_⟩
    obtain ⟨heq, hcell, -⟩ := hsame heq
    rw [hroot heq, hcell]
  | armed drawn seen next =>
    obtain ⟨hdrawn, hseen, hnext⟩ := h
    obtain ⟨hseen', hsame⟩ := hstamp hseen
    refine ⟨fun d hd => (hdrawn d hd).later hlater, hseen', fun heq => ?_⟩
    obtain ⟨heq, hcell, hhistory⟩ := hsame heq
    exact (hnext heq).same hcell hhistory

theorem inv_init {t : RefTree} (h : ∀ n e, t.get n = some e → e.hlc ≤ clock) :
    (init t clock).Inv calls := by
  refine ⟨fun n e he => h n e (mem_toList.mp he), fun n => ?_, fun i => trivial⟩
  show ((t.get n).toList.map RefEntry.hlc).Pairwise (· < ·)
  cases t.get n with
  | none => exact .nil
  | some e => exact pairwise_singleton _ _

variable [DecidableEq I]

theorem knows_update {pcs : I → Pc} (hothers : ∀ j, s.Knows (calls j) (pcs j))
    (hpc : s.Knows (calls i) pc) (j : I) : s.Knows (calls j) (Function.update pcs i pc j) := by
  by_cases hj : j = i
  · subst hj
    rw [Function.update_self]
    exact hpc
  · rw [Function.update_of_ne hj]
    exact hothers j

theorem later_goto (hclock : s.clock ≤ clock) (pc : Pc) : s.Later (s.goto i clock pc) :=
  ⟨hclock, fun _ => prefix_refl _, Or.inl ⟨rfl, rfl, rfl⟩⟩

theorem Inv.goto (h : s.Inv calls) (hclock : s.clock ≤ clock)
    (hpc : (s.goto i clock pc).Knows (calls i) pc) : (s.goto i clock pc).Inv calls :=
  ⟨fun n e he => Nat.le_trans (h.known n e he) hclock, h.increasing,
    knows_update (fun j => (h.knows j).later (later_goto hclock pc)) hpc⟩

theorem Inv.fresh_tick (h : s.Inv calls) (hlt : s.clock < hlc) (pc : Pc) (name : RefName)
    (target : ObjectId) (expected : Option ObjectId) :
    (s.goto i hlc pc).Fresh ⟨⟨name, target, expected, hlc⟩, (s.history name).length⟩ := by
  refine ⟨Nat.le_refl _, Nat.le_refl _, fun e he => ?_⟩
  exact Nat.lt_of_le_of_lt (h.known name e (mem_of_mem_take he)) hlt

/-- **A publication** of timestamps that are still the latest keeps every ref increasing. -/
theorem Inv.publish (h : s.Inv calls) (hfresh : ∀ d ∈ drawn, s.Fresh d)
    (hstamped : ∀ n, ∀ e ∈ newly s.cell next n, ∃ d ∈ drawn, d.op.name = n ∧ e.hlc = d.op.hlc)
    (hlatest : ∀ d ∈ drawn, d.since = (s.history d.op.name).length)
    (hpc : (s.publish i next pc).Knows (calls i) pc) : (s.publish i next pc).Inv calls := by
  refine ⟨fun n e he => ?_, fun n => ?_, ?_⟩
  · rcases mem_append.mp he with he | he
    · exact h.known n e he
    · obtain ⟨d, hd, -, hhlc⟩ := hstamped n e he
      rw [hhlc]
      exact (hfresh d hd).hlc_le
  · show ((s.history n ++ newly s.cell next n).map RefEntry.hlc).Pairwise (· < ·)
    rw [map_append, pairwise_append]
    refine ⟨h.increasing n, ?_, ?_⟩
    · -- at most one entry becomes visible
      unfold newly
      split_ifs
      · exact .nil
      · cases next.get n with
        | none => exact .nil
        | some e => exact pairwise_singleton _ _
    · intro x hx y hy
      obtain ⟨old, hold, rfl⟩ := List.mem_map.mp hx
      obtain ⟨e, he, rfl⟩ := List.mem_map.mp hy
      obtain ⟨d, hd, rfl, hhlc⟩ := hstamped n e he
      rw [hhlc]
      refine (hfresh d hd).above old ?_
      rw [hlatest d hd, take_length]
      exact hold
  · refine knows_update (fun j => (h.knows j).later ⟨Nat.le_refl _, fun n => ?_, ?_⟩) hpc
    · exact prefix_append _ _
    · exact Or.inr (Nat.lt_succ_self _)

/-- The turn of an update that draws `hlc`. -/
theorem Inv.turn_update (h : s.Inv calls) (hlt : s.clock < hlc) (hseen : seen ≤ s.stamp)
    (hroot : seen = s.stamp → root = s.cell) (name : RefName) (new : ObjectId)
    (expected : Option ObjectId) :
    (match (Call.update name new expected).attempt hlc root with
      | .done _ => s.goto i s.clock .returned
      | .publish next _ _ _ =>
        s.goto i hlc (.armed [⟨⟨name, new, expected, hlc⟩, (s.history name).length⟩] seen
          next)).Inv calls := by
  cases hatt : (Call.update name new expected).attempt hlc root with
  | done r => exact h.goto (Nat.le_refl _) trivial
  | publish next log r lost =>
    refine h.goto (Nat.le_of_lt hlt) ⟨?_, hseen, fun heq => ?_⟩
    · intro d hd
      obtain rfl := mem_singleton.mp hd
      exact h.fresh_tick hlt _ name new expected
    · obtain rfl := hroot heq
      refine ⟨fun n e he => ?_, fun _ d hd => ?_⟩
      · obtain ⟨rfl, hhlc⟩ := Call.stamps_of_newly hatt he
        exact ⟨_, mem_singleton_self _, rfl, hhlc⟩
      · obtain rfl := mem_singleton.mp hd
        rfl

theorem Inv.turn (h : s.Inv calls) (hclock : s.clock + 1 < 2 ^ 64)
    (hknows : s.Knows (calls i) (.loaded drawn seen root)) (wallMs : Nat) :
    (s.turn calls i wallMs drawn seen root).Inv calls := by
  obtain ⟨hdrawn, hseen, hroot⟩ := hknows
  unfold ClockState.turn
  cases hcall : calls i with
  | update name new expected =>
    exact h.turn_update (lt_tick hclock wallMs) hseen hroot name new expected
  | delete name expected =>
    dsimp only
    cases hatt : (Call.delete name expected).attempt 0 root with
    | done r => exact h.goto (Nat.le_refl _) trivial
    | publish next log r lost =>
      refine h.goto (Nat.le_refl _) ⟨nofun, hseen, fun heq => ?_⟩
      obtain rfl := hroot heq
      refine ⟨fun n e he => ?_, fun _ d hd => ?_⟩
      · exact (Call.stamps_of_newly hatt he).elim
      · cases hd
  | commitAtomic mappings =>
    cases hatt : (Call.commitBatch (drawn.map Drawn.op)).attempt 0 root with
    | done r => exact h.goto (Nat.le_refl _) trivial
    | publish next log r lost =>
      refine h.goto (Nat.le_refl _) ⟨?_, hseen, fun heq => ?_⟩
      · exact fun d hd => (hdrawn d hd).later (later_goto (Nat.le_refl _) _)
      · obtain rfl := hroot heq
        refine ⟨fun n e he => ?_, fun hnot => ?_⟩
        · obtain ⟨op, hop, hname, hhlc⟩ := Call.stamps_of_newly hatt he
          obtain ⟨d, hd, rfl⟩ := List.mem_map.mp hop
          exact ⟨d, hd, hname, hhlc⟩
        · exact absurd hcall (hnot mappings)

/-- **One careful step.** -/
theorem Inv.step (h : s.Inv calls) (hcareful : s.Careful calls i) (wallMs : Nat) :
    (s.step calls i wallMs).Inv calls := by
  have hknows := h.knows i
  have htick := Nat.le_of_lt (lt_tick hcareful.clock wallMs)
  unfold ClockState.step
  cases hpc : s.pc i with
  | start =>
    cases calls i with
    | update | delete => exact h.goto (Nat.le_refl _) nofun
    | commitAtomic mappings =>
      dsimp only
      split_ifs
      · exact h.goto (Nat.le_refl _) trivial
      · exact h.goto (Nat.le_refl _) nofun
  | ticking rest drawn =>
    rw [hpc] at hknows
    cases rest with
    | nil =>
      exact h.goto (Nat.le_refl _) fun d hd =>
        (hknows d hd).later (later_goto (Nat.le_refl _) _)
    | cons m rest =>
      refine h.goto htick fun d hd => ?_
      rcases mem_append.mp hd with hd | hd
      · exact (hknows d hd).later (later_goto htick _)
      · obtain rfl := mem_singleton.mp hd
        exact h.fresh_tick (lt_tick hcareful.clock wallMs) _ m.name m.target m.expected
  | looping drawn =>
    rw [hpc] at hknows
    exact h.goto (Nat.le_refl _) ⟨fun d hd => (hknows d hd).later (later_goto (Nat.le_refl _) _),
      Nat.le_refl _, fun _ => rfl⟩
  | loaded drawn seen root =>
    rw [hpc] at hknows
    exact h.turn hcareful.clock hknows wallMs
  | armed drawn seen next =>
    rw [hpc] at hknows
    obtain ⟨hfresh, -, hnext⟩ := hknows
    dsimp only
    split_ifs with heq
    · obtain ⟨hstamped, hlatest⟩ := hnext heq
      have hlatest' : ∀ d ∈ drawn, d.since = (s.history d.op.name).length := by
        by_cases hbatch : ∃ mappings, calls i = .commitAtomic mappings
        · obtain ⟨mappings, hcall⟩ := hbatch
          exact hcareful.quiet mappings drawn seen next hcall hpc heq
        · exact hlatest fun mappings hcall => hbatch ⟨mappings, hcall⟩
      refine h.publish hfresh hstamped hlatest' ?_
      cases calls i <;> trivial
    · exact h.goto (Nat.le_refl _) fun d hd => (hfresh d hd).later (later_goto (Nat.le_refl _) _)
  | logging => exact h.goto htick trivial
  | returned => exact h

end ClockState

/-- **The timestamps that a ref shows increase**, in every careful run from a store that is not
ahead of the clock. -/
theorem shown_hlc_increases {I : Type} [DecidableEq I] {calls : I → Writer} {t : RefTree}
    {clock : Nat} {s : ClockState I} (hclock : ∀ n e, t.get n = some e → e.hlc ≤ clock)
    (h : ClockRun calls (.init t clock) s) (n : RefName) :
    ((s.history n).map RefEntry.hlc).Pairwise (· < ·) := by
  have hinv : s.Inv calls := by
    induction h with
    | start => exact ClockState.inv_init hclock
    | step _ hcareful ih => exact ih.step hcareful _
  exact hinv.increasing n

/-! ### A batch that is overtaken -/

/-- One writer creates a ref, one writes it again, and one moves it with a batch. -/
def overtaken : Fin 3 → Writer
  | 0 => .update .headsA (.fill 1) none
  | 1 => .update .headsA (.fill 1) (some (.fill 1))
  | 2 => .commitAtomic [⟨.headsA, .fill 2, some (.fill 1)⟩]

/-- The batch draws its timestamp, the second update runs to its end, and only then the batch is
published: the ref shows an older timestamp after a younger one. -/
theorem batch_shows_older_hlc :
    ((ClockState.init .empty 0).exec overtaken
      [(0, 0), (0, 0), (0, 0), (0, 0), (2, 0), (2, 0), (1, 0), (1, 0), (1, 0), (1, 0),
        (2, 0), (2, 0), (2, 0), (2, 0)]).history .headsA =
      [⟨.fill 1, 1, 1⟩, ⟨.fill 1, 3, 2⟩, ⟨.fill 2, 2, 3⟩] := by
  decide +kernel

section Careful

variable {I : Type} [DecidableEq I] {calls : I → Writer} {s₀ s s' : ClockState I}

/-- The condition of a careful step, as the writer could check it. -/
def ClockState.checks (calls : I → Writer) (s : ClockState I) (i : I) : Bool :=
  s.clock + 1 < 2 ^ 64 &&
    match calls i, s.pc i with
    | .commitAtomic _, .armed drawn seen _ =>
      seen ≠ s.stamp || drawn.all (fun d => d.since = (s.history d.op.name).length)
    | _, _ => true

omit [DecidableEq I] in
theorem ClockState.careful_of_checks {i : I} (h : s.checks calls i = true) :
    s.Careful calls i := by
  obtain ⟨hclock, hquiet⟩ := Bool.and_eq_true_iff.mp h
  refine ⟨of_decide_eq_true hclock, fun mappings drawn seen next hcall hpc heq d hd => ?_⟩
  rw [hcall, hpc] at hquiet
  rcases Bool.or_eq_true_iff.mp hquiet with hne | hall
  · exact absurd heq (of_decide_eq_true hne)
  · exact of_decide_eq_true (List.all_eq_true.mp hall d hd)

/-- Steps in some order, as long as they are careful. -/
def ClockState.execCareful (calls : I → Writer) (s : ClockState I) :
    List (I × Nat) → Option (ClockState I)
  | [] => some s
  | x :: schedule =>
    if s.checks calls x.1 then (s.step calls x.1 x.2).execCareful calls schedule else none

theorem ClockRun.execCareful {schedule : List (I × Nat)} (h : ClockRun calls s₀ s)
    (hexec : s.execCareful calls schedule = some s') : ClockRun calls s₀ s' := by
  induction schedule generalizing s with
  | nil =>
    cases hexec
    exact h
  | cons x schedule ih =>
    rw [ClockState.execCareful] at hexec
    split_ifs at hexec with hchecks
    exact ih (h.step (ClockState.careful_of_checks hchecks)) hexec

end Careful

/-- The batch draws its timestamp after the creation, and the second update loses its swap to
it. -/
theorem undisturbed_batch_increases : ∃ s : ClockState (Fin 3),
    ClockRun overtaken (.init .empty 0) s ∧ (s.history .headsA).map RefEntry.hlc = [1, 2] ∧
      ((s.history .headsA).map RefEntry.hlc).Pairwise (· < ·) := by
  have hexec : ((ClockState.init .empty 0).execCareful overtaken
      [(0, 0), (0, 0), (0, 0), (2, 0), (0, 0), (2, 0), (2, 0), (2, 0), (2, 0), (1, 0), (1, 0),
        (1, 0), (2, 0), (1, 0), (1, 0), (1, 0)]).any
      (fun s => (s.history .headsA).map RefEntry.hlc = [1, 2]) := by
    decide +kernel
  obtain ⟨s, hs, hhistory⟩ := (Option.any_eq_true _ _).mp hexec
  have hrun : ClockRun overtaken (.init .empty 0) s := ClockRun.start.execCareful hs
  have hempty : ∀ n e, RefTree.empty.get n = some e → e.hlc ≤ 0 := nofun
  exact ⟨s, hrun, of_decide_eq_true hhistory, shown_hlc_increases hempty hrun .headsA⟩

end Ledge.RefStore
