import Ledge.Objects.TypedWrites

/-!
# Ledge.Objects.Sha1Index

Any number of `write_git_object` and `sha1_index` calls, interleaved **one access at a time**. A
write renames its file and then drops the cache; a call without a cached map meets the files of the
directory one by one, and then publishes the map that it has built, whatever has happened since.

A walk of the directory meets every file that was there when it began. It may or may not meet one
that is renamed meanwhile.
-/

namespace Ledge.Objects

open Ledge.Core List

/-- The git names that a map knows. -/
def sha1Keys (map : List (Sha1 × ObjectId)) : List Sha1 := map.map Prod.fst

/-- Where a call of `sha1_index` is. `owed` are the names of the objects whose writes had returned
when it started; the call does not read it. -/
inductive IndexCall
  /-- The files in `due` are still to be met. -/
  | scanning (owed : List Sha1) (due : Finset ObjectId) (map : List (Sha1 × ObjectId))
  /-- The map is in the cache. -/
  | published (owed : List Sha1) (map : List (Sha1 × ObjectId))
  | ended (owed : List Sha1) (map : List (Sha1 × ObjectId))
  deriving DecidableEq

/-- A store and the calls on it. `renamed` and `returned` are the names of the objects whose writes
have still to drop the cache, and have returned; `written` are the ids of all of them. -/
structure IndexSys where
  store : DiskStore
  written : List ObjectId
  renamed : List Sha1
  returned : List Sha1
  calls : List IndexCall

/-- One access of a write (the rename of its file, the drop of the cached map), or of a call of
`sha1_index`. -/
inductive IndexEvent
  | rename (w : TypedWrite)
  | invalidate (sha1 : Sha1)
  | start
  /-- The call at `i` meets a file. -/
  | meet (i : Nat) (id : ObjectId)
  | publish (i : Nat)
  | finish (i : Nat)

namespace IndexSys

/-- No calls yet, on any store. -/
def init (store : DiskStore) : IndexSys := ⟨store, [], [], [], []⟩

/-- The map of a call, with the packs folded in. -/
def withPacks (s : IndexSys) (map : List (Sha1 × ObjectId)) : List (Sha1 × ObjectId) :=
  (s.store.packs.flatMap (fun pf => pf.rows.map (fun e => (e.sha1, e.oid)))).reverse ++ map

variable (P : Primitives)

/-- One access, if it can happen. The contents that are written are distinct. -/
def exec (s : IndexSys) : IndexEvent → Option IndexSys
  | .rename w =>
    match w.file P, w.gitName P with
    | some file, some sha1 =>
      let id := P.blake3 w.content
      if id ∈ s.written then none
      else
        some { s with
          store := { s.store with loose := s.store.loose.insert id file }
          written := id :: s.written
          renamed := sha1 :: s.renamed }
    | _, _ => none
  | .invalidate sha1 =>
    if sha1 ∈ s.renamed then
      some { s with
        store := { s.store with sha1Cache := none }
        renamed := s.renamed.erase sha1
        returned := sha1 :: s.returned }
    else none
  | .start =>
    match s.store.sha1Cache with
    | some map => some { s with calls := s.calls ++ [.ended s.returned map] }
    | none => some { s with calls := s.calls ++ [.scanning s.returned s.store.loose.keys []] }
  | .meet i id =>
    match s.calls[i]?, s.store.loose.lookup id with
    | some (.scanning owed due map), some raw =>
      let entry := (DiskStore.headerSha1 raw).map (fun sha1 => (sha1, id))
      some { s with calls := s.calls.set i (.scanning owed (due.erase id) (entry.toList ++ map)) }
    | _, _ => none
  | .publish i =>
    match s.calls[i]? with
    | some (.scanning owed due map) =>
      if due = ∅ then
        some { s with
          store := { s.store with sha1Cache := some (s.withPacks map) }
          calls := s.calls.set i (.published owed (s.withPacks map)) }
      else none
    | _ => none
  | .finish i =>
    match s.calls[i]? with
    | some (.published owed map) => some { s with calls := s.calls.set i (.ended owed map) }
    | _ => none

/-- Accesses in their order, if each can happen. -/
def run (s : IndexSys) (events : List IndexEvent) : Option IndexSys := events.foldlM (exec P) s

/-- **Every map that was returned knows the objects whose writes had returned before.** -/
def Fresh (s : IndexSys) : Prop :=
  ∀ owed map, .ended owed map ∈ s.calls → ∀ sha1 ∈ owed, sha1 ∈ sha1Keys map

/-- A map that is published knows the objects whose writes have returned by then. -/
def Covered (s : IndexSys) : IndexEvent → Prop
  | .publish i =>
    match s.calls[i]? with
    | some (.scanning _ _ map) => ∀ sha1 ∈ s.returned, sha1 ∈ sha1Keys (s.withPacks map)
    | _ => True
  | _ => True

instance (s : IndexSys) (e : IndexEvent) : Decidable (s.Covered e) := by
  unfold Covered
  split
  · split <;> infer_instance
  · infer_instance

/-- Every access of a run is covered. -/
def CoveredRun : IndexSys → List IndexEvent → Prop
  | _, [] => True
  | s, e :: events => s.Covered e ∧ ∀ s' ∈ s.exec P e, CoveredRun s' events

instance decidableCoveredRun : ∀ (s : IndexSys) (events : List IndexEvent),
    Decidable (s.CoveredRun P events)
  | _, [] => isTrue trivial
  | s, e :: events =>
    have := fun s' => decidableCoveredRun s' events
    inferInstanceAs (Decidable (s.Covered e ∧ ∀ s' ∈ s.exec P e, s'.CoveredRun P events))

/-! ### Maps that are fresh -/

/-- The file of an object that was written has its name. -/
def Holds (s : IndexSys) (sha1 : Sha1) (id : ObjectId) : Prop :=
  id ∈ s.written ∧ ∃ raw, s.store.loose.lookup id = some raw ∧ DiskStore.headerSha1 raw = some sha1

/-- A call will have what it owes. -/
def Good (s : IndexSys) : IndexCall → Prop
  | .scanning owed due map => ∀ sha1 ∈ owed, sha1 ∈ sha1Keys map ∨ ∃ id ∈ due, s.Holds sha1 id
  | .published owed map | .ended owed map => ∀ sha1 ∈ owed, sha1 ∈ sha1Keys map

structure Inv (s : IndexSys) : Prop where
  cache : ∀ map, s.store.sha1Cache = some map → ∀ sha1 ∈ s.returned, sha1 ∈ sha1Keys map
  renamed : ∀ sha1 ∈ s.renamed, ∃ id, s.Holds sha1 id
  returned : ∀ sha1 ∈ s.returned, ∃ id, s.Holds sha1 id
  calls : ∀ call ∈ s.calls, s.Good call

variable {P} {s s' : IndexSys}

theorem Good.mono (hholds : ∀ sha1 id, s.Holds sha1 id → s'.Holds sha1 id) {call : IndexCall}
    (h : s.Good call) : s'.Good call := by
  cases call with
  | scanning owed due map =>
    intro sha1 hsha1
    refine (h sha1 hsha1).imp_right fun hdue => ?_
    obtain ⟨id, hid, hfile⟩ := hdue
    exact ⟨id, hid, hholds sha1 id hfile⟩
  | published owed map | ended owed map => exact h

theorem Inv.set (h : s.Inv) {i : Nat} {call : IndexCall} (hcall : s.Good call) :
    ∀ c ∈ s.calls.set i call, s.Good c := by
  intro c hc
  rcases mem_or_eq_of_mem_set hc with hc | rfl
  · exact h.calls c hc
  · exact hcall

theorem inv_rename {w : TypedWrite} {file : List UInt8} {sha1 : Sha1} (h : s.Inv)
    (hfile : w.file P = some file) (hsha1 : w.gitName P = some sha1)
    (hnew : P.blake3 w.content ∉ s.written) :
    Inv { s with
      store := { s.store with loose := s.store.loose.insert (P.blake3 w.content) file }
      written := P.blake3 w.content :: s.written
      renamed := sha1 :: s.renamed } := by
  -- the file is none of those that were written before
  have hmono : ∀ name id, s.Holds name id → Holds { s with
      store := { s.store with loose := s.store.loose.insert (P.blake3 w.content) file }
      written := P.blake3 w.content :: s.written
      renamed := sha1 :: s.renamed } name id := by
    intro name id hid
    obtain ⟨hwritten, raw, hraw, hheader⟩ := hid
    have hne : id ≠ P.blake3 w.content := fun heq => hnew (heq ▸ hwritten)
    refine ⟨mem_cons_of_mem _ hwritten, raw, ?_, hheader⟩
    rw [Finmap.lookup_insert_of_ne _ hne]
    exact hraw
  refine ⟨h.cache, ?_, ?_, fun call hcall => (h.calls call hcall).mono hmono⟩
  · intro name hname
    rcases mem_cons.mp hname with rfl | hname
    · refine ⟨P.blake3 w.content, mem_cons_self, file, Finmap.lookup_insert _, ?_⟩
      rw [TypedWrite.headerSha1_file hfile, hsha1]
    · obtain ⟨id, hid⟩ := h.renamed name hname
      exact ⟨id, hmono name id hid⟩
  · intro name hname
    obtain ⟨id, hid⟩ := h.returned name hname
    exact ⟨id, hmono name id hid⟩

/-- **One access keeps the cache fresh**, if what it publishes is. -/
theorem Inv.exec {e : IndexEvent} (h : s.Inv) (hcovered : s.Covered e)
    (hexec : s.exec P e = some s') : s'.Inv := by
  cases e with
  | rename w =>
    simp only [IndexSys.exec] at hexec
    split at hexec
    · rename_i file sha1 hfile hsha1
      split_ifs at hexec with hnew
      cases hexec
      exact inv_rename h hfile hsha1 hnew
    · cases hexec
  | invalidate sha1 =>
    simp only [IndexSys.exec] at hexec
    split_ifs at hexec with hrenamed
    cases hexec
    refine ⟨?_, ?_, ?_, fun call hcall => (h.calls call hcall).mono fun _ _ hid => hid⟩
    · intro map hmap
      cases hmap
    · exact fun name hname => h.renamed name (mem_of_mem_erase hname)
    · intro name hname
      rcases mem_cons.mp hname with rfl | hname
      · exact h.renamed name hrenamed
      · exact h.returned name hname
  | start =>
    simp only [IndexSys.exec] at hexec
    split at hexec
    · rename_i map hcache
      cases hexec
      refine ⟨h.cache, h.renamed, h.returned, fun call hcall => ?_⟩
      rcases mem_append.mp hcall with hcall | hcall
      · exact (h.calls call hcall).mono fun _ _ hid => hid
      · obtain rfl := mem_singleton.mp hcall
        exact h.cache map hcache
    · cases hexec
      refine ⟨h.cache, h.renamed, h.returned, fun call hcall => ?_⟩
      rcases mem_append.mp hcall with hcall | hcall
      · exact (h.calls call hcall).mono fun _ _ hid => hid
      · obtain rfl := mem_singleton.mp hcall
        -- the files of the writes that have returned are there to be met
        intro name hname
        obtain ⟨id, hwritten, raw, hraw, hheader⟩ := h.returned name hname
        exact Or.inr ⟨id, Finmap.mem_keys.mpr (Finmap.mem_iff.mpr ⟨raw, hraw⟩), hwritten, raw, hraw,
          hheader⟩
  | meet i id =>
    simp only [IndexSys.exec] at hexec
    split at hexec
    · rename_i owed due map raw hcall hraw
      cases hexec
      have hgood := h.calls _ (mem_of_getElem? hcall)
      refine ⟨h.cache, h.renamed, h.returned, h.set ?_⟩
      intro name hname
      rcases hgood name hname with hknown | ⟨id', hdue, hholds⟩
      · refine Or.inl ?_
        rw [sha1Keys, map_append]
        exact mem_append_right _ hknown
      · by_cases hid : id' = id
        · obtain rfl := hid
          obtain ⟨-, raw', hraw', hheader⟩ := hholds
          cases hraw.symm.trans hraw'
          refine Or.inl ?_
          rw [hheader]
          exact mem_cons_self
        · exact Or.inr ⟨id', Finset.mem_erase.mpr ⟨hid, hdue⟩, hholds⟩
    · cases hexec
  | publish i =>
    simp only [IndexSys.exec] at hexec
    split at hexec
    · rename_i owed due map hcall
      split_ifs at hexec with hdue
      cases hexec
      have hgood := h.calls _ (mem_of_getElem? hcall)
      refine ⟨?_, h.renamed, h.returned, h.set ?_⟩
      · intro map' hmap'
        cases hmap'
        rw [Covered, hcall] at hcovered
        exact hcovered
      · intro name hname
        rcases hgood name hname with hknown | ⟨id, hid, -⟩
        · rw [sha1Keys, withPacks, map_append]
          exact mem_append_right _ hknown
        · rw [hdue] at hid
          exact absurd hid (Finset.notMem_empty id)
    · cases hexec
  | finish i =>
    simp only [IndexSys.exec] at hexec
    split at hexec
    · rename_i owed map hcall
      cases hexec
      have hgood := h.calls _ (mem_of_getElem? hcall)
      exact ⟨h.cache, h.renamed, h.returned, h.set hgood⟩
    · cases hexec

theorem Inv.run {events : List IndexEvent} (h : s.Inv) (hcovered : s.CoveredRun P events)
    (hrun : s.run P events = some s') : s'.Inv := by
  induction events generalizing s with
  | nil =>
    cases hrun
    exact h
  | cons e events ih =>
    obtain ⟨hcover, hrest⟩ := hcovered
    obtain ⟨s₁, hexec, hrun⟩ := Option.bind_eq_some_iff.mp hrun
    exact ih (h.exec hcover hexec) (hrest s₁ hexec) hrun

theorem inv_init (store : DiskStore) : (init store).Inv where
  cache := nofun
  renamed := nofun
  returned := nofun
  calls := nofun

/-- **A map knows every object whose write returned before the call**, in every run in which what is
published knows the objects whose writes have returned by then. -/
theorem returned_maps_fresh {store : DiskStore} {events : List IndexEvent} {s : IndexSys}
    (hrun : (init store).run P events = some s) (hcovered : (init store).CoveredRun P events) :
    s.Fresh :=
  fun owed map hcall => ((inv_init store).run hcovered hrun).calls (.ended owed map) hcall

/-- A call that finds nothing, a write that returns before the call publishes what it found, and a
call that is answered from the cache. -/
def staleRun : List IndexEvent :=
  [.start, .rename ⟨3, [1]⟩, .invalidate (samplePrimitives.gitSha1 "blob" [1]), .publish 0,
    .finish 0, .start]

/-- The map that was published late is served although an object has been written since. -/
theorem published_map_stale : ∃ s, (init .empty).run samplePrimitives staleRun = some s ∧
    IndexCall.ended [samplePrimitives.gitSha1 "blob" [1]] [] ∈ s.calls ∧ ¬ s.Fresh := by
  have hcalls : ((init .empty).run samplePrimitives staleRun).map IndexSys.calls =
      some [.ended [] [], .ended [samplePrimitives.gitSha1 "blob" [1]] []] := by decide +kernel
  obtain ⟨s, hrun, hs⟩ := Option.map_eq_some_iff.mp hcalls
  have hmem : IndexCall.ended [samplePrimitives.gitSha1 "blob" [1]] [] ∈ s.calls := by
    rw [hs]
    exact mem_cons_of_mem _ mem_cons_self
  refine ⟨s, hrun, hmem, fun hfresh => ?_⟩
  cases hfresh _ _ hmem _ mem_cons_self

/-- A call after a write, and another one that is answered from its map. -/
def freshRun : List IndexEvent :=
  [.rename ⟨3, [1]⟩, .invalidate (samplePrimitives.gitSha1 "blob" [1]), .start,
    .meet 0 (samplePrimitives.blake3 [1]), .publish 0, .finish 0, .start]

theorem published_map_fresh : ∃ s, (init .empty).run samplePrimitives freshRun = some s ∧
    s.calls.length = 2 ∧ s.Fresh := by
  have hcalls : ((init .empty).run samplePrimitives freshRun).map (fun s => s.calls.length) =
      some 2 := by
    decide +kernel
  obtain ⟨s, hrun, hs⟩ := Option.map_eq_some_iff.mp hcalls
  exact ⟨s, hrun, hs, returned_maps_fresh hrun (by decide +kernel)⟩

end IndexSys

end Ledge.Objects
