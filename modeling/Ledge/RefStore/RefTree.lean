import Ledge.Core.RefName
import Ledge.RefStore.ArtIter

/-!
# Ledge.RefStore.RefTree

The ref slots (`slot.rs`) and the radix tree of slots that a published root points
to, with the reads of `store.rs` and `snapshot.rs` on it.

A `RefTree` carries the tree invariant and that its keys are ref names. All that
the store observes of it is the function `slot`: the lemmas here say what `insert`
and `delete` do to `slot`, and that `get`, `list` and `prepared_locks` depend on
nothing else.
-/

namespace Ledge.RefStore

open Ledge.Core Option

/-! ### Slots -/

/-- A prepared-but-not-committed write intent: a 2PC lock on one ref. -/
structure PreparedIntent where
  txnId : TxnId
  coordShard : Nat
  stagedTarget : ObjectId
  stagedHlc : Nat
  deriving DecidableEq

/-- One ref's stored state: the committed entry and an optional lock. -/
structure RefSlot where
  committed : RefEntry
  prepared : Option PreparedIntent
  deriving DecidableEq

namespace RefSlot

/-- `RefSlot::committed`: an unlocked slot. -/
def ofCommitted (entry : RefEntry) : RefSlot := ⟨entry, none⟩

/-- A lock is held by a different transaction than `txn`. -/
def lockedByOther (s : RefSlot) (txn : TxnId) : Bool :=
  match s.prepared with
  | some p => p.txnId != txn
  | none => false

/-- The externally visible entry: a version-0 committed value is the sentinel of a
prepared but never created ref. -/
def visible (s : RefSlot) : Option RefEntry :=
  if s.committed.version != 0 then some s.committed else none

end RefSlot

theorem nulFree_bytes (name : RefName) : NulFree name.bytes := name.nul_notMem_bytes

/-! ### Trees of slots -/

/-- A root of the ref store. -/
structure RefTree where
  root : Root RefSlot
  ok : root.Ok
  named : ∀ k s, root.lookup k = some s → ∃ name : RefName, name.bytes = k

namespace RefTree

/-- The empty namespace. -/
def empty : RefTree := ⟨none, Root.ok_none, nofun⟩

/-- `art_lookup` of a name. -/
def slot (t : RefTree) (name : RefName) : Option RefSlot := t.root.lookup name.bytes

/-- `art_insert` of a name. -/
def insert (t : RefTree) (name : RefName) (s : RefSlot) : RefTree where
  root := t.root.insert name.bytes s
  ok := t.ok.insert (nulFree_bytes name) s
  named := by
    intro k s' h
    rw [t.ok.lookup_insert (nulFree_bytes name)] at h
    split_ifs at h with hk
    · exact ⟨name, hk.symm⟩
    · exact t.named k s' h

/-- `art_delete` of a name, present or not. -/
def delete (t : RefTree) (name : RefName) : RefTree where
  root := t.root.delete name.bytes
  ok := t.ok.delete name.bytes
  named := by
    intro k s' h
    rw [t.ok.lookup_delete] at h
    refine t.named k s' ?_
    cases hd : t.root.drop name.bytes with
    | none | some a =>
      simp only [hd, deleteView] at h
      split_ifs at h
      exact h

/-- How much a deletion of `name` drops: `none` when it removes at most `name`. -/
def drop (t : RefTree) (name : RefName) : Option Nat := t.root.drop name.bytes

/-! ### Reads -/

/-- `RefStore::get` and `ArtSnapshot::get` -/
def get (t : RefTree) (name : RefName) : Option RefEntry := (t.slot name).bind RefSlot.visible

/-- The loop body of `list`: prepared-only refs are skipped. -/
def listed (x : Key × RefSlot) : Option (RefName × RefEntry) :=
  if x.2.committed.version = 0 then none
  else
    match fromUtf8 x.1 with
    | none => none
    | some str =>
      match RefName.new str with
      | .error _ => none
      | .ok name => some (name, x.2.committed)

/-- `RefStore::list` and `ArtSnapshot::list` -/
def list (t : RefTree) (search : String) : List (RefName × RefEntry) :=
  (t.root.list (strBytes search)).filterMap listed

/-- `prepared_locks` -/
def preparedLocks (t : RefTree) : List (String × PreparedIntent) :=
  (t.root.list []).filterMap (fun (key, s) =>
    match s.prepared with
    | none => none
    | some intent =>
      match fromUtf8 key with
      | none => none
      | some str => some (str, intent))

/-- The lock on a name, if there is one. -/
def lock (t : RefTree) (name : RefName) : Option PreparedIntent :=
  (t.slot name).bind RefSlot.prepared

variable {t t' : RefTree} {name n : RefName} {s : RefSlot}

/-! ### What the writes do to the slots -/

@[simp] theorem slot_empty (n : RefName) : empty.slot n = none := rfl

@[simp] theorem slot_insert (t : RefTree) (name : RefName) (s : RefSlot) (n : RefName) :
    (t.insert name s).slot n = if n = name then some s else t.slot n := by
  change (t.root.insert name.bytes s).lookup n.bytes = _
  rw [t.ok.lookup_insert (nulFree_bytes name)]
  simp only [RefName.bytes_injective.eq_iff]
  rfl

theorem slot_delete (t : RefTree) (name n : RefName) :
    (t.delete name).slot n =
      match t.drop name with
      | none => if n = name then none else t.slot n
      | some a => if name.bytes.take a <+: n.bytes then none else t.slot n := by
  change (t.root.delete name.bytes).lookup n.bytes = _
  rw [t.ok.lookup_delete, drop]
  cases t.root.drop name.bytes with
  | none =>
    simp only [deleteView, RefName.bytes_injective.eq_iff]
    rfl
  | some a => rfl

theorem drop_of_slot (h : t.slot name = some s) : t.drop name = none := t.ok.drop_of_lookup h

theorem slot_delete_of_present (h : t.slot name = some s) (n : RefName) :
    (t.delete name).slot n = if n = name then none else t.slot n := by
  rw [slot_delete, drop_of_slot h]

/-! ### Reads as functions of the slots -/

theorem get_eq_some_iff {e : RefEntry} :
    t.get n = some e ↔ ∃ s, t.slot n = some s ∧ s.committed = e ∧ e.version ≠ 0 := by
  rw [get]
  cases hs : t.slot n with
  | none => simp
  | some s =>
    simp only [bind_some, RefSlot.visible, bne_iff_ne, some.injEq,
      exists_eq_left']
    split_ifs with hv
    · constructor
      · rintro ⟨rfl⟩
        exact ⟨rfl, hv⟩
      · rintro ⟨rfl, -⟩
        rfl
    · constructor
      · exact nofun
      · rintro ⟨rfl, hne⟩
        exact absurd hne hv

theorem listed_bytes (n : RefName) (s : RefSlot) :
    listed (n.bytes, s) = s.visible.map (fun e => (n, e)) := by
  have hdec : fromUtf8 n.bytes = some n.asStr := fromUtf8_strBytes n.asStr
  by_cases hv : s.committed.version = 0
  · simp [listed, RefSlot.visible, hv]
  · simp [listed, RefSlot.visible, hv, hdec, RefName.new_asStr]

theorem exists_name_of_mem {search : Key} {x : Key × RefSlot} (hx : x ∈ t.root.list search) :
    ∃ n, x.1 = RefName.bytes n ∧ search <+: n.bytes ∧ t.slot n = some x.2 := by
  obtain ⟨hs, hlook⟩ := (t.ok.mem_list search).mp hx
  obtain ⟨n, hn⟩ := t.named x.1 x.2 hlook
  refine ⟨n, hn.symm, hn ▸ hs, ?_⟩
  rw [slot, hn]
  exact hlook

theorem mem_list {search : String} {e : RefEntry} :
    (n, e) ∈ t.list search ↔ strBytes search <+: n.bytes ∧ t.get n = some e := by
  rw [list, List.mem_filterMap]
  constructor
  · rintro ⟨⟨k, s⟩, hx, hlisted⟩
    obtain ⟨n', hk, hs, hslot⟩ := exists_name_of_mem hx
    dsimp only at hk hslot
    rw [hk, listed_bytes, map_eq_some_iff] at hlisted
    obtain ⟨e', he', heq⟩ := hlisted
    cases heq
    exact ⟨hs, by rw [get, hslot, bind_some, he']⟩
  · rintro ⟨hs, hget⟩
    rw [get, bind_eq_some_iff] at hget
    obtain ⟨s, hslot, hvis⟩ := hget
    refine ⟨(n.bytes, s), (t.ok.mem_list _).mpr ⟨hs, hslot⟩, ?_⟩
    rw [listed_bytes, hvis, map_some]

theorem list_sorted (t : RefTree) (search : String) :
    (t.list search).Pairwise (fun x y => x.1.bytes < y.1.bytes) := by
  rw [list, List.pairwise_filterMap]
  refine (t.ok.list_sorted _).imp_of_mem fun {x y} hx hy hxy => ?_
  obtain ⟨nx, hkx, -, -⟩ := exists_name_of_mem hx
  obtain ⟨ny, hky, -, -⟩ := exists_name_of_mem hy
  obtain ⟨kx, sx⟩ := x
  obtain ⟨ky, sy⟩ := y
  subst hkx hky
  simp only [listed_bytes, map_eq_some_iff]
  rintro _ ⟨ex, -, rfl⟩ _ ⟨ey, -, rfl⟩
  exact hxy

theorem list_names_nodup (t : RefTree) (search : String) :
    ((t.list search).map Prod.fst).Nodup := by
  refine List.pairwise_map.mpr ((t.list_sorted search).imp fun {x y} hxy heq => ?_)
  rw [heq] at hxy
  exact List.lt_irrefl _ hxy

theorem eq_of_list_sorted {l l' : List (RefName × RefEntry)}
    (h : l.Pairwise (fun x y => x.1.bytes < y.1.bytes))
    (h' : l'.Pairwise (fun x y => x.1.bytes < y.1.bytes)) (hmem : ∀ x, x ∈ l ↔ x ∈ l') : l = l' :=
  eq_of_ordered (fun _ _ => List.lt_asymm) h h' hmem

/-- A listing is a function of what `get` returns. -/
theorem list_congr (h : ∀ n, t.get n = t'.get n) (search : String) :
    t.list search = t'.list search := by
  refine eq_of_list_sorted (t.list_sorted search) (t'.list_sorted search) ?_
  rintro ⟨n, e⟩
  rw [mem_list, mem_list, h]

theorem mem_preparedLocks {str : String} {p : PreparedIntent} :
    (str, p) ∈ t.preparedLocks ↔
      ∃ n s, n.asStr = str ∧ t.slot n = some s ∧ s.prepared = some p := by
  rw [preparedLocks, List.mem_filterMap]
  constructor
  · rintro ⟨⟨k, s⟩, hx, hlock⟩
    obtain ⟨n, hk, -, hslot⟩ := exists_name_of_mem hx
    dsimp only at hk hslot hlock
    cases hp : s.prepared with
    | none => simp [hp] at hlock
    | some q =>
      have hdec : fromUtf8 n.bytes = some n.asStr := fromUtf8_strBytes n.asStr
      simp only [hp, hk, hdec, some.injEq, Prod.mk.injEq] at hlock
      exact ⟨n, s, hlock.1, hslot, by rw [hp, hlock.2]⟩
  · rintro ⟨n, s, rfl, hslot, hp⟩
    refine ⟨(n.bytes, s), (t.ok.mem_list []).mpr ⟨List.nil_prefix, hslot⟩, ?_⟩
    have hdec : fromUtf8 n.bytes = some n.asStr := fromUtf8_strBytes n.asStr
    simp only [hp, hdec]

end RefTree

end Ledge.RefStore
