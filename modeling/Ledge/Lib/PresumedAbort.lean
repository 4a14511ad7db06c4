import Mathlib.Order.BooleanAlgebra.Set

/-!
# Ledge.Lib.PresumedAbort

**Two-phase commit with presumed abort**, from the point of view of one transaction.

A coordinator opens a record, locks its keys, asks for a verdict on the record, resolves
its keys by the verdict that it gets, and drops the record; it may stop at any point.
Recovery reads the verdict or, where there is none, asks for an abort. What recovery has
learnt it may use later, on any key and from any place: `mayCommit` and `mayAbort` are the
sum of what all recoverers have ever learnt. Recovery also drops records of commits.

Two things are not under the protocol's control: when recovery drops a record, and whether
others respect the locks. In a *careful* environment a record is dropped only when no key is
locked any more, and nobody else takes a lock away.

* `Honest` holds in every environment. `Honest.finished_abort`: a transaction reported as
  aborted never has a key rolled forward.
* `Inv` holds in a careful environment. `Inv.atomic`: the transaction never has one key rolled
  forward and another released. `Inv.finished_commit`: a transaction reported as committed has
  all its keys rolled forward.
-/

namespace Ledge.Lib.PresumedAbort

variable {K : Type}

/-- What a record says. -/
inductive Verdict
  | pending
  | commit
  | abort
  deriving DecidableEq

/-- Ask for a verdict: the first terminal one stays. -/
def verdict (record : Option Verdict) (commit : Bool) : Verdict :=
  match record with
  | some .commit => .commit
  | some .abort => .abort
  | some .pending | none => if commit then .commit else .abort

/-- Where the coordinator is. -/
inductive Stage (K : Type)
  | idle
  | preparing
  | sweeping (commit : Bool) (rest : List K)
  | finished (commit : Bool)
  | stopped

structure State (K : Type) where
  stage : Stage K
  keys : Set K
  record : Option Verdict
  locked : Set K
  /-- The keys that have been locked for the transaction. -/
  voted : Set K
  /-- The commit point has been passed. -/
  committed : Prop
  mayCommit : Prop
  mayAbort : Prop
  forwarded : Set K
  released : Set K

/-- The transaction has not begun. -/
def State.initial : State K := ⟨.idle, ∅, none, ∅, ∅, False, False, False, ∅, ∅⟩

/-- Resolve a key: a lock on it is rolled forward or released. -/
def State.resolve (s : State K) (k : K) (commit : Bool) : State K :=
  { s with
    locked := s.locked \ {k}
    forwarded := s.forwarded ∪ {x | commit = true ∧ x = k ∧ k ∈ s.locked}
    released := s.released ∪ {x | commit = false ∧ x = k ∧ k ∈ s.locked} }

/-- What recovery learns from a verdict. -/
def State.learn (s : State K) (v : Option Verdict) : State K :=
  { s with
    mayCommit := s.mayCommit ∨ v = some .commit
    mayAbort := s.mayAbort ∨ v = some .abort }

/-- One step of the protocol. -/
inductive Step (careful : Prop) : State K → State K → Prop
  | begin {s : State K} (keys : Set K) (hstage : s.stage = .idle) :
      Step careful s { s with stage := .preparing, keys := keys, record := some .pending }
  | lock {s : State K} {k : K} (hstage : s.stage = .preparing) (hk : k ∈ s.keys) :
      Step careful s { s with locked := insert k s.locked, voted := insert k s.voted }
  | decide {s : State K} (commit : Bool) (rest : List K) (hstage : s.stage = .preparing)
      (hvoted : commit = true → s.keys ⊆ s.voted) (hrest : ∀ k ∈ s.keys, k ∈ rest) :
      Step careful s { s with
        stage := .sweeping (verdict s.record commit = .commit) rest
        record := some (verdict s.record commit)
        committed := s.committed ∨ verdict s.record commit = .commit }
  | sweep {s : State K} {commit : Bool} {k : K} {rest : List K}
      (hstage : s.stage = .sweeping commit (k :: rest)) :
      Step careful s { s.resolve k commit with stage := .sweeping commit rest }
  | finish {s : State K} {commit : Bool} (hstage : s.stage = .sweeping commit []) :
      Step careful s { s with stage := .finished commit, record := none }
  | stop {s : State K} : Step careful s { s with stage := .stopped }
  | read {s : State K} : Step careful s (s.learn s.record)
  | presume {s : State K} (hstage : s.stage ≠ .idle) :
      Step careful s ({ s with record := some (verdict s.record false) }.learn
        (some (verdict s.record false)))
  | resolve {s : State K} {k : K} {commit : Bool}
      (hmay : if commit then s.mayCommit else s.mayAbort) : Step careful s (s.resolve k commit)
  | collect {s : State K} (hmay : s.mayCommit) (hfree : careful → s.locked = ∅) :
      Step careful s { s with record := none }
  | seize {s : State K} (k : K) (hcareless : ¬ careful) :
      Step careful s { s with locked := s.locked \ {k}, released := insert k s.released }

variable {record : Option Verdict} {commit : Bool}

theorem verdict_eq_commit (h : verdict record commit = .commit) :
    record = some .commit ∨ commit = true := by
  unfold verdict at h
  split at h
  · exact Or.inl rfl
  · cases h
  all_goals
    split_ifs at h with hcommit
    exact Or.inr hcommit

theorem verdict_ne_pending (record : Option Verdict) (commit : Bool) :
    verdict record commit ≠ .pending := by
  rcases record with _ | _ | _ | _ <;> cases commit <;> exact nofun

theorem verdict_false_eq_commit (h : verdict record false = .commit) : record = some .commit :=
  (verdict_eq_commit h).resolve_right nofun

variable {careful : Prop} {s s' : State K}

/-! ### In every environment -/

/-- Nothing is rolled forward, and nobody learns of a commit, before the commit point. -/
structure Honest (s : State K) : Prop where
  idle : s.stage = .idle → ¬ s.committed
  preparing : s.stage = .preparing → ¬ s.committed
  sweeping : ∀ commit rest, s.stage = .sweeping commit rest → (commit = true ↔ s.committed)
  finished : ∀ commit, s.stage = .finished commit → (commit = true ↔ s.committed)
  record : s.record = some .commit → s.committed
  mayCommit : s.mayCommit → s.committed
  forwarded : s.forwarded.Nonempty → s.committed

theorem honest_initial : Honest (State.initial : State K) where
  idle _ := id
  preparing := nofun
  sweeping := nofun
  finished := nofun
  record := nofun
  mayCommit h := h.elim
  forwarded h := h.elim fun _ hk => hk.elim

theorem Honest.decide (h : Honest s) (commit : Bool) (rest : List K)
    (hstage : s.stage = .preparing) :
    Honest { s with
      stage := .sweeping (verdict s.record commit = .commit) rest
      record := some (verdict s.record commit)
      committed := s.committed ∨ verdict s.record commit = .commit } where
  idle := nofun
  preparing := nofun
  sweeping commit' rest' heq := by
    cases heq
    rw [decide_eq_true_iff]
    exact (or_iff_right (h.preparing hstage)).symm
  finished := nofun
  record heq := Or.inr (Option.some.inj heq)
  mayCommit hmay := Or.inl (h.mayCommit hmay)
  forwarded hf := Or.inl (h.forwarded hf)

theorem Honest.resolve (h : Honest s) (k : K) (hcommit : commit = true → s.committed) :
    Honest (s.resolve k commit) :=
  { h with
    forwarded := by
      intro hf
      obtain ⟨x, hx | hx⟩ := hf
      · exact h.forwarded ⟨x, hx⟩
      · exact hcommit hx.1 }

/-- Every step keeps `Honest`. -/
theorem honest_step (hstep : Step careful s s') (h : Honest s) : Honest s' := by
  cases hstep with
  | begin keys hstage =>
    exact {
      idle := nofun
      preparing := fun _ => h.idle hstage
      sweeping := nofun
      finished := nofun
      record := nofun
      mayCommit := h.mayCommit
      forwarded := h.forwarded }
  | lock hstage hk | seize k hcareless => exact { h with }
  | decide commit rest hstage hvoted hrest => exact h.decide commit rest hstage
  | @sweep commit k rest hstage =>
    have hcommit := h.sweeping commit (k :: rest) hstage
    exact { h.resolve k hcommit.mp with
      idle := nofun
      preparing := nofun
      sweeping := by
        intro commit' rest' heq
        cases heq
        exact hcommit
      finished := nofun }
  | finish hstage =>
    exact { h with
      idle := nofun
      preparing := nofun
      sweeping := nofun
      finished := by
        intro commit' heq
        cases heq
        exact h.sweeping _ [] hstage
      record := nofun }
  | stop =>
    exact { h with
      idle := nofun
      preparing := nofun
      sweeping := nofun
      finished := nofun }
  | read => exact { h with mayCommit := fun hmay => hmay.elim h.mayCommit h.record }
  | presume hstage =>
    have hrecord : some (verdict s.record false) = some .commit → s.committed := fun heq =>
      h.record (verdict_false_eq_commit (Option.some.inj heq))
    exact { h with
      record := hrecord
      mayCommit := fun hmay => hmay.elim h.mayCommit hrecord }
  | @resolve k commit hmay =>
    refine h.resolve k fun hcommit => ?_
    rw [hcommit] at hmay
    exact h.mayCommit hmay
  | collect hmay hfree => exact { h with record := nofun }

/-- **Aborted means never applied.** -/
theorem Honest.finished_abort (h : Honest s) (hstage : s.stage = .finished false) :
    s.forwarded = ∅ := by
  refine Set.not_nonempty_iff_eq_empty.mp fun hf => ?_
  cases (h.finished false hstage).mpr (h.forwarded hf)

/-! ### In a careful environment -/

/-- The commit point is out of reach. -/
def Doomed (s : State K) : Prop :=
  ¬ s.committed ∧ s.stage ≠ .idle ∧ (s.stage = .preparing → s.record = some .abort)

structure Inv (s : State K) : Prop extends Honest s where
  idle_free : s.stage = .idle → s.locked = ∅ ∧ s.record = none
  preparing_locked : s.stage = .preparing → s.locked ⊆ s.keys
  sweeping_locked : ∀ commit rest, s.stage = .sweeping commit rest → ∀ k ∈ s.locked, k ∈ rest
  finished_free : ∀ commit, s.stage = .finished commit → s.locked = ∅
  /-- A committed transaction keeps its record while a key is locked. -/
  covered : s.committed → s.record = some .commit ∨ s.locked = ∅
  mayAbort : s.mayAbort → Doomed s ∨ s.committed ∧ s.locked = ∅
  released : s.released.Nonempty → Doomed s
  /-- A lock ends with a resolution. -/
  kept : ∀ k ∈ s.voted, k ∈ s.locked ∨ k ∈ s.forwarded ∨ k ∈ s.released
  whole : s.committed → s.keys ⊆ s.voted

theorem inv_initial : Inv (State.initial : State K) where
  toHonest := honest_initial
  idle_free _ := ⟨rfl, rfl⟩
  preparing_locked := nofun
  sweeping_locked := nofun
  finished_free := nofun
  covered h := h.elim
  mayAbort h := h.elim
  released h := h.elim fun _ hk => hk.elim
  kept _ hk := hk.elim
  whole h := h.elim

/-- After a recorded abort, either the transaction cannot commit or it is over. -/
theorem Inv.of_record_abort (h : Inv s) (hrecord : s.record = some .abort) :
    Doomed s ∨ s.committed ∧ s.locked = ∅ := by
  by_cases hcommitted : s.committed
  · refine Or.inr ⟨hcommitted, (h.covered hcommitted).resolve_left fun heq => ?_⟩
    rw [hrecord] at heq
    cases heq
  · refine Or.inl ⟨hcommitted, fun hidle => ?_, fun _ => hrecord⟩
    rw [(h.idle_free hidle).2] at hrecord
    cases hrecord

/-- Leaving the preparation without a commit dooms the transaction. -/
theorem Doomed.leave (h : Doomed s) (hcommitted : s'.committed → s.committed)
    (hidle : s'.stage ≠ .idle) (hpreparing : s'.stage ≠ .preparing) : Doomed s' :=
  ⟨fun hc => h.1 (hcommitted hc), hidle, fun hstage => absurd hstage hpreparing⟩

theorem Inv.begin (h : Inv s) (keys : Set K) (hstage : s.stage = .idle)
    (hhonest : Honest { s with stage := .preparing, keys := keys, record := some .pending }) :
    Inv { s with stage := .preparing, keys := keys, record := some .pending } where
  toHonest := hhonest
  idle_free := nofun
  preparing_locked _ := by
    show s.locked ⊆ keys
    rw [(h.idle_free hstage).1]
    exact Set.empty_subset keys
  sweeping_locked := nofun
  finished_free := nofun
  covered hc := absurd hc (h.idle hstage)
  mayAbort hmay := (h.mayAbort hmay).elim (fun hd => absurd hstage hd.2.1)
    (fun hc => absurd hc.1 (h.idle hstage))
  released hr := absurd hstage (h.released hr).2.1
  kept := h.kept
  whole hc := absurd hc (h.idle hstage)

theorem Inv.lock (h : Inv s) {k : K} (hstage : s.stage = .preparing) (hk : k ∈ s.keys)
    (hhonest : Honest { s with locked := insert k s.locked, voted := insert k s.voted }) :
    Inv { s with locked := insert k s.locked, voted := insert k s.voted } where
  toHonest := hhonest
  idle_free hidle := by
    rw [hstage] at hidle
    cases hidle
  preparing_locked _ := Set.insert_subset hk (h.preparing_locked hstage)
  sweeping_locked _ _ hsweep := by
    rw [hstage] at hsweep
    cases hsweep
  finished_free _ hfinished := by
    rw [hstage] at hfinished
    cases hfinished
  covered hc := absurd hc (h.preparing hstage)
  mayAbort hmay := (h.mayAbort hmay).imp id fun hc => absurd hc.1 (h.preparing hstage)
  released := h.released
  kept k' hk' := hk'.elim (fun heq => Or.inl (Or.inl heq))
    (fun hvoted => (h.kept k' hvoted).imp Or.inr id)
  whole hc := absurd hc (h.preparing hstage)

theorem Inv.decide (h : Inv s) (commit : Bool) (rest : List K) (hstage : s.stage = .preparing)
    (hvoted : commit = true → s.keys ⊆ s.voted) (hrest : ∀ k ∈ s.keys, k ∈ rest) :
    Inv { s with
      stage := .sweeping (verdict s.record commit = .commit) rest
      record := some (verdict s.record commit)
      committed := s.committed ∨ verdict s.record commit = .commit } := by
  have hcommitted := h.preparing hstage
  -- a doomed transaction has its abort on record
  have hstay : Doomed s → Doomed { s with
      stage := .sweeping (verdict s.record commit = .commit) rest
      record := some (verdict s.record commit)
      committed := s.committed ∨ verdict s.record commit = .commit } := by
    intro hd
    refine hd.leave (fun hc => hc.resolve_right fun heq => ?_) nofun
      nofun
    rw [hd.2.2 hstage] at heq
    cases heq
  exact {
    toHonest := h.toHonest.decide commit rest hstage
    idle_free := nofun
    preparing_locked := nofun
    sweeping_locked := by
      intro commit' rest' heq k hk
      cases heq
      exact hrest k (h.preparing_locked hstage hk)
    finished_free := nofun
    covered := fun hc => Or.inl (congrArg some (hc.resolve_left hcommitted))
    mayAbort := fun hmay => (h.mayAbort hmay).elim (fun hd => Or.inl (hstay hd))
      (fun hc => absurd hc.1 hcommitted)
    released := fun hr => hstay (h.released hr)
    kept := h.kept
    whole := by
      intro hc
      have hverdict := hc.resolve_left hcommitted
      exact hvoted ((verdict_eq_commit hverdict).resolve_left fun hrecord =>
        hcommitted (h.record hrecord)) }

theorem kept_resolve {k k' : K} (h : k' ∈ s.locked ∨ k' ∈ s.forwarded ∨ k' ∈ s.released) :
    k' ∈ (s.resolve k commit).locked ∨ k' ∈ (s.resolve k commit).forwarded ∨
      k' ∈ (s.resolve k commit).released := by
  rcases h with hlocked | hforwarded | hreleased
  · by_cases heq : k' = k
    · subst heq
      cases commit with
      | true => exact Or.inr (Or.inl (Or.inr ⟨rfl, rfl, hlocked⟩))
      | false => exact Or.inr (Or.inr (Or.inr ⟨rfl, rfl, hlocked⟩))
    · exact Or.inl ⟨hlocked, heq⟩
  · exact Or.inr (Or.inl (Or.inl hforwarded))
  · exact Or.inr (Or.inr (Or.inl hreleased))

theorem Inv.resolve (h : Inv s) (k : K) (hcommit : commit = true → s.committed)
    (habort : commit = false → Doomed s ∨ s.committed ∧ s.locked = ∅) :
    Inv (s.resolve k commit) := by
  have hempty : s.locked = ∅ → s.locked \ {k} = ∅ := fun he => by rw [he, Set.empty_sdiff]
  exact {
    toHonest := h.toHonest.resolve k hcommit
    idle_free := fun hidle => ⟨hempty (h.idle_free hidle).1, (h.idle_free hidle).2⟩
    preparing_locked := fun hstage _ hk' => h.preparing_locked hstage hk'.1
    sweeping_locked := fun commit' rest hstage k' hk' =>
      h.sweeping_locked commit' rest hstage k' hk'.1
    finished_free := fun commit' hstage => hempty (h.finished_free commit' hstage)
    covered := fun hc => (h.covered hc).imp id hempty
    mayAbort := fun hmay => (h.mayAbort hmay).imp id fun hc => ⟨hc.1, hempty hc.2⟩
    released := by
      intro hr
      obtain ⟨x, hx | ⟨hfalse, -, hk⟩⟩ := hr
      · exact h.released ⟨x, hx⟩
      · -- a transaction that is over has no lock to release
        refine (habort hfalse).resolve_right fun hover => ?_
        rw [hover.2] at hk
        exact hk
    kept := fun k' hk' => kept_resolve (h.kept k' hk')
    whole := h.whole }

theorem Inv.sweep (h : Inv s) {k : K} {rest : List K}
    (hstage : s.stage = .sweeping commit (k :: rest))
    (hhonest : Honest { s.resolve k commit with stage := .sweeping commit rest }) :
    Inv { s.resolve k commit with stage := .sweeping commit rest } := by
  have hcommit := h.sweeping commit (k :: rest) hstage
  have hdoomed : commit = false → Doomed s := by
    intro hfalse
    subst hfalse
    rw [Doomed, hstage]
    exact ⟨fun hc => (by cases hcommit.mpr hc), nofun,
      nofun⟩
  have hres := h.resolve k hcommit.mp (fun hfalse => Or.inl (hdoomed hfalse))
  have hstay : Doomed (s.resolve k commit) →
      Doomed { s.resolve k commit with stage := .sweeping commit rest } := fun hd =>
    hd.leave id nofun nofun
  exact {
    toHonest := hhonest
    idle_free := nofun
    preparing_locked := nofun
    sweeping_locked := by
      intro commit' rest' heq k' hk'
      cases heq
      exact (List.mem_cons.mp (h.sweeping_locked _ _ hstage k' hk'.1)).resolve_left hk'.2
    finished_free := nofun
    covered := hres.covered
    mayAbort := fun hmay => (hres.mayAbort hmay).imp hstay id
    released := fun hr => hstay (hres.released hr)
    kept := hres.kept
    whole := hres.whole }

theorem Inv.finish (h : Inv s) (hstage : s.stage = .sweeping commit [])
    (hhonest : Honest { s with stage := .finished commit, record := none }) :
    Inv { s with stage := .finished commit, record := none } := by
  have hfree : s.locked = ∅ := Set.eq_empty_iff_forall_notMem.mpr fun k hk => by
    cases h.sweeping_locked commit [] hstage k hk
  have hstay : Doomed s → Doomed { s with stage := .finished commit, record := none } := fun hd =>
    hd.leave id nofun nofun
  exact {
    toHonest := hhonest
    idle_free := nofun
    preparing_locked := nofun
    sweeping_locked := nofun
    finished_free := fun _ _ => hfree
    covered := fun _ => Or.inr hfree
    mayAbort := fun hmay => (h.mayAbort hmay).imp hstay id
    released := fun hr => hstay (h.released hr)
    kept := h.kept
    whole := h.whole }

theorem Inv.stop (h : Inv s) (hhonest : Honest { s with stage := .stopped }) :
    Inv { s with stage := .stopped } := by
  have hstay : Doomed s → Doomed { s with stage := .stopped } := fun hd =>
    hd.leave id nofun nofun
  exact {
    toHonest := hhonest
    idle_free := nofun
    preparing_locked := nofun
    sweeping_locked := nofun
    finished_free := nofun
    covered := h.covered
    mayAbort := fun hmay => (h.mayAbort hmay).imp hstay id
    released := fun hr => hstay (h.released hr)
    kept := h.kept
    whole := h.whole }

/-- Asking for an abort does not undo a commit that still has locks. -/
theorem Inv.presume (h : Inv s) (hstage : s.stage ≠ .idle) :
    Inv { s with record := some (verdict s.record false) } := by
  have hstay : Doomed s → Doomed { s with record := some (verdict s.record false) } := by
    intro hd
    refine ⟨hd.1, hd.2.1, fun hprep => ?_⟩
    show some (verdict s.record false) = _
    rw [hd.2.2 hprep]
    rfl
  exact { h with
    record := fun heq => h.record (verdict_false_eq_commit (Option.some.inj heq))
    idle_free := fun hidle => absurd hidle hstage
    covered := by
      intro hc
      refine (h.covered hc).imp (fun hrecord => ?_) id
      show some (verdict s.record false) = _
      rw [hrecord]
      rfl
    mayAbort := fun hmay => (h.mayAbort hmay).imp hstay id
    released := fun hr => hstay (h.released hr) }

theorem Inv.learn (h : Inv s) : Inv (s.learn s.record) :=
  { h with
    mayCommit := fun hmay => hmay.elim h.mayCommit h.record
    mayAbort := fun hmay => hmay.elim h.mayAbort h.of_record_abort }

theorem Inv.collect (h : Inv s) (hmay : s.mayCommit) (hfree : s.locked = ∅) :
    Inv { s with record := none } :=
  { h with
    record := nofun
    idle_free := fun hidle => absurd (h.mayCommit hmay) (h.idle hidle)
    covered := fun _ => Or.inr hfree
    mayAbort := fun _ => Or.inr ⟨h.mayCommit hmay, hfree⟩
    released := fun hr => absurd (h.mayCommit hmay) (h.released hr).1 }

theorem inv_step (hstep : Step careful s s') (hcareful : careful) (h : Inv s) : Inv s' := by
  have hhonest := honest_step hstep h.toHonest
  cases hstep with
  | begin keys hstage => exact h.begin keys hstage hhonest
  | lock hstage hk => exact h.lock hstage hk hhonest
  | decide commit rest hstage hvoted hrest => exact h.decide commit rest hstage hvoted hrest
  | sweep hstage => exact h.sweep hstage hhonest
  | finish hstage => exact h.finish hstage hhonest
  | stop => exact h.stop hhonest
  | read => exact h.learn
  | presume hstage => exact (h.presume hstage).learn
  | @resolve k commit hmay =>
    refine h.resolve k (fun htrue => ?_) (fun hfalse => ?_)
    · rw [htrue] at hmay
      exact h.mayCommit hmay
    · rw [hfalse] at hmay
      exact h.mayAbort hmay
  | collect hmay hfree => exact h.collect hmay (hfree hcareful)
  | seize k hcareless => exact absurd hcareful hcareless

/-- **Atomicity**: no key is rolled forward if another is released. -/
theorem Inv.atomic (h : Inv s) : ¬ (s.forwarded.Nonempty ∧ s.released.Nonempty) :=
  fun hboth => (h.released hboth.2).1 (h.forwarded hboth.1)

/-- **Committed means installed.** -/
theorem Inv.finished_commit (h : Inv s) (hstage : s.stage = .finished true) :
    s.keys ⊆ s.forwarded := by
  have hcommitted := (h.finished true hstage).mp rfl
  intro k hk
  rcases h.kept k (h.whole hcommitted hk) with hlocked | hforwarded | hreleased
  · rw [h.finished_free true hstage] at hlocked
    exact hlocked.elim
  · exact hforwarded
  · exact absurd hcommitted (h.released ⟨k, hreleased⟩).1

end Ledge.Lib.PresumedAbort
