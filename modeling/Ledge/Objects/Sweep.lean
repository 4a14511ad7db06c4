import Ledge.Core.RefEntry
import Mathlib.Data.List.Nodup

/-!
# Ledge.Objects.Sweep

The files of a store as a collection sees them, and the sweep that both collectors end with.
-/

namespace Ledge.Objects

open Ledge.Core

/-- The loose object files with their times of modification in seconds, and the objects in
packs. -/
structure Disk where
  loose : List (ObjectId × Nat)
  keyed : (loose.map Prod.fst).Nodup
  packed : List ObjectId

namespace Disk

/-- `list_all_ids`, in some order -/
def listAllIds (d : Disk) : List ObjectId := (d.loose.map Prod.fst ++ d.packed).dedup

/-- `delete`: only a loose file goes. -/
def delete (d : Disk) (id : ObjectId) : Disk where
  loose := d.loose.filter (fun x => x.1 ≠ id)
  keyed := d.keyed.sublist (List.filter_sublist.map Prod.fst)
  packed := d.packed

/-- `write_git_object`, as a collection sees it: a new file is renamed into place. -/
def write (d : Disk) (id : ObjectId) (nowUnixSecs : Nat) : Disk where
  loose := (id, nowUnixSecs) :: (d.delete id).loose
  keyed := by
    refine List.nodup_cons.mpr ⟨fun h => ?_, (d.delete id).keyed⟩
    obtain ⟨x, hx, heq⟩ := List.mem_map.mp h
    exact of_decide_eq_true (List.mem_filter.mp hx).2 heq
  packed := d.packed

/-- The time of modification of a loose object file -/
def mtime (d : Disk) (id : ObjectId) : Option Nat :=
  (d.loose.find? (fun x => x.1 = id)).map Prod.snd

/-- The sweep of one candidate: it goes if it is not kept and its file is at least `grace`
seconds old. -/
def sweepOne (d : Disk) (keep : List ObjectId) (nowUnixSecs grace : Nat) (id : ObjectId) : Disk :=
  if id ∈ keep then d
  else
    match d.loose.find? (fun x => x.1 = id) with
    | none => d
    | some (_, mtime) => if nowUnixSecs - mtime < grace then d else d.delete id

theorem mem_loose_sweepOne {d : Disk} {keep : List ObjectId} {nowUnixSecs grace : Nat}
    {id id' : ObjectId} {mtime : Nat} (hkeep : id ∈ keep) (h : (id, mtime) ∈ d.loose) :
    (id, mtime) ∈ (d.sweepOne keep nowUnixSecs grace id').loose := by
  unfold sweepOne
  split_ifs with hid
  · exact h
  · split
    · exact h
    · split_ifs
      · exact h
      · have hne : id ≠ id' := fun heq => hid (heq ▸ hkeep)
        exact List.mem_filter.mpr ⟨h, decide_eq_true hne⟩

end Disk

end Ledge.Objects
