import Ledge.Lib.CasLoop
import Ledge.RefStore.Checkpoint

/-!
# Ledge.RefStore.Concurrent

The ref store under **concurrent callers**.

In memory, every call is a compare-and-swap loop over the published root, so the root
with its callers is a `Ledge.Lib.Machine`. Next to it stands the log: a writer appends
its frame only after its swap, at any later time at which no compaction holds the log's
lock, and returns after that. A compaction takes the lock, lists the refs of the root,
writes the checkpoint over the log and releases the lock. The order of appends is the
order in which writers get the lock, which need not be the order of their swaps.

No append fails here.
-/

namespace Ledge.RefStore

open Ledge.Core Ledge.Lib

variable {I : Type}

/-- One turn of a call's loop. The frame to append is part of the result. -/
def Call.turn (c : Call) (hlc : Nat) (t : RefTree) : Turn RefTree (Resp × Option WalEntry) :=
  match c.attempt hlc t with
  | .done r => .answer (r, none)
  | .publish t' log r _ => .swap t' (r, log)

/-- The callers and the root, the log file, the frames of swaps that are not appended
yet in the order of the swaps, and the leaves that a running compaction has listed. -/
structure Sys (I : Type) where
  mem : Machine I Call (Resp × Option WalEntry) RefTree
  wal : List WalEntry
  unlogged : List (I × WalEntry)
  compacting : Option (List (RefName × RefEntry))

/-- A store just opened on `wal`. -/
def Sys.opened (wal : List WalEntry) : Sys I := ⟨Machine.init (openTree wal), wal, [], none⟩

/-- The labels of the system's steps. -/
inductive SysAct (I : Type) where
  | call (a : Act I)
  | append (k : Nat)
  | beginCompaction
  | endCompaction

variable [DecidableEq I] (calls : I → Call)

/-- One step of the system. -/
inductive SysStep : Sys I → SysAct I → Sys I → Prop
  /-- A call is made, loads the root, loses a swap, or returns after its append. -/
  | call {s : Sys I} {a : Act I} {mem' : Machine I Call (Resp × Option WalEntry) RefTree} :
      Step Call.turn calls s.mem a mem' → (∀ i, a ≠ .swap i) →
      (∀ i f, a = .respond i → (i, f) ∉ s.unlogged) →
      SysStep s (.call a) { s with mem := mem' }
  /-- A swap succeeds; its frame is still to be appended. -/
  | publish {s : Sys I} {i : I} {t : RefTree} {r : Resp} {log : Option WalEntry}
      {mem' : Machine I Call (Resp × Option WalEntry) RefTree} :
      s.mem.phase i = .armed s.mem.stamp t (r, log) →
      Step Call.turn calls s.mem (.swap i) mem' →
      SysStep s (.call (.swap i))
        { s with mem := mem', unlogged := s.unlogged ++ (log.map (fun f => (i, f))).toList }
  /-- The writer of the `k`-th frame that is still to be appended gets the lock. -/
  | append {s : Sys I} {k : Nat} {i : I} {f : WalEntry} :
      s.compacting = none → s.unlogged[k]? = some (i, f) →
      SysStep s (.append k)
        { s with wal := s.wal ++ [f], unlogged := s.unlogged.eraseIdx k }
  | beginCompaction {s : Sys I} : s.compacting = none →
      SysStep s .beginCompaction { s with compacting := some (s.mem.cell.list "") }
  | endCompaction {s : Sys I} {leaves : List (RefName × RefEntry)} :
      s.compacting = some leaves →
      SysStep s .endCompaction { s with wal := [.checkpoint leaves], compacting := none }

/-- The step with a given label, if there is one; `hlc` is what the clock returns to a
load. -/
def Sys.step (s : Sys I) (a : SysAct I) (hlc : Nat) : Option (Sys I) :=
  match a with
  | .call (.swap i) =>
    match s.mem.phase i with
    | .armed _ _ (_, log) =>
      (s.mem.step Call.turn calls (.swap i) hlc).map (fun mem' =>
        { s with mem := mem',
                 unlogged := s.unlogged ++ (log.map (fun f => (i, f))).toList })
    | _ => none
  | .call (.respond i) =>
    if s.unlogged.any (fun x => x.1 = i) then none
    else (s.mem.step Call.turn calls (.respond i) hlc).map (fun mem' => { s with mem := mem' })
  | .call a => (s.mem.step Call.turn calls a hlc).map (fun mem' => { s with mem := mem' })
  | .append k =>
    match s.compacting, s.unlogged[k]? with
    | none, some (_, f) =>
      some { s with wal := s.wal ++ [f], unlogged := s.unlogged.eraseIdx k }
    | _, _ => none
  | .beginCompaction =>
    match s.compacting with
    | none => some { s with compacting := some (s.mem.cell.list "") }
    | some _ => none
  | .endCompaction =>
    match s.compacting with
    | none => none
    | some leaves => some { s with wal := [.checkpoint leaves], compacting := none }

/-- A run given by its labels. -/
def Sys.exec (s : Sys I) : List (SysAct I × Nat) → Option (Sys I)
  | [] => some s
  | (a, hlc) :: script => (s.step calls a hlc).bind (fun s' => s'.exec script)

/-- Any number of steps, in any interleaving. -/
def SysReach (s s' : Sys I) : Prop :=
  Relation.ReflTransGen (fun s s' => ∃ a, SysStep calls s a s') s s'

variable {calls}

/-- The log does not interfere with the memory: a run of the system is a run of the
callers on the root. -/
theorem SysReach.mem {s s' : Sys I} (h : SysReach calls s s') :
    Reach Call.turn calls s.mem s'.mem := by
  induction h with
  | refl => exact .refl
  | tail _ hstep ih =>
    obtain ⟨a, hstep⟩ := hstep
    cases hstep with
    | call hmem _ _ | publish _ hmem => exact ih.tail ⟨_, hmem⟩
    | append | beginCompaction | endCompaction => exact ih

theorem SysStep.of_step {s s' : Sys I} {a : SysAct I} {hlc : Nat}
    (h : s.step calls a hlc = some s') : SysStep calls s a s' := by
  cases a with
  | call a =>
    cases a with
    | swap i =>
      simp only [Sys.step] at h
      split at h
      · next hphase =>
        obtain ⟨mem', hmem, rfl⟩ := Option.map_eq_some_iff.mp h
        have hstep := Step.of_step hmem
        -- the swap has found the stamp it armed with
        cases hstep with
        | swap harmed =>
          cases hphase.symm.trans harmed
          exact .publish hphase (.swap hphase)
      · cases h
    | respond i =>
      simp only [Sys.step] at h
      split_ifs at h with hwaits
      obtain ⟨mem', hmem, rfl⟩ := Option.map_eq_some_iff.mp h
      refine .call (Step.of_step hmem) nofun ?_
      intro j f heq hunlogged
      cases heq
      exact hwaits (List.any_eq_true.mpr ⟨_, hunlogged, by simp⟩)
    | invoke i | load i | retry i =>
      obtain ⟨mem', hmem, rfl⟩ := Option.map_eq_some_iff.mp h
      exact .call (Step.of_step hmem) nofun
        nofun
  | append k =>
    simp only [Sys.step] at h
    split at h
    · next hfree hk =>
      cases h
      exact .append hfree hk
    · cases h
  | beginCompaction =>
    simp only [Sys.step] at h
    split at h
    · next hfree =>
      cases h
      exact .beginCompaction hfree
    · cases h
  | endCompaction =>
    simp only [Sys.step] at h
    split at h
    · cases h
    · next hbusy =>
      cases h
      exact .endCompaction hbusy

theorem SysReach.of_exec {s s' : Sys I} {script : List (SysAct I × Nat)}
    (h : s.exec calls script = some s') : SysReach calls s s' := by
  induction script generalizing s with
  | nil =>
    cases h
    exact .refl
  | cons x script ih =>
    obtain ⟨s₁, hfirst, hrest⟩ := Option.bind_eq_some_iff.mp h
    exact .head ⟨x.1, SysStep.of_step hfirst⟩ (ih hrest)

/-- What a turn that swaps has to append: a frame for exactly what the swap changes. -/
theorem logged_of_turn {c : Call} {hlc : Nat} {t t' : RefTree} {r : Resp}
    {log : Option WalEntry} (h : c.turn hlc t = .swap t' (r, log)) :
    ∃ f, log = some f ∧ Logged t f t' := by
  rw [Call.turn] at h
  split at h
  · cases h
  · rename_i t'' log' r' lost hatt
    cases h
    exact Call.logged_of_publish hatt

end Ledge.RefStore
