import Mathlib.Data.Finset.Card

/-!
# Ledge.Lib.Majority

Majorities of a set that are asked for in a larger one.

A coordinator has some `peers` and waits for a majority of the peers and itself. Whether those
that answer, with the coordinator, are always a majority of a `group` that it belongs to is a
matter of counting: the peers outside the group may answer first.
-/

namespace Ledge.Lib

open Finset

variable {α : Type*} [DecidableEq α] {self : α} {group peers acked : Finset α}

theorem card_inter_insert_self (hgroup : self ∈ group) (hacked : self ∉ acked) :
    (group ∩ insert self acked).card = (group ∩ acked).card + 1 := by
  rw [inter_insert_of_mem hgroup,
    card_insert_of_notMem fun h => hacked (mem_of_mem_inter_right h)]

/-- The acks that come from the group: all but those that the others can give. -/
theorem card_le_card_inter (hsub : group ⊆ insert self peers)
    (hacked : acked ⊆ peers) :
    acked.card + group.card ≤ (group ∩ acked).card + peers.card + 1 := by
  have hunion : (group ∪ acked).card ≤ peers.card + 1 := by
    refine (card_le_card ?_).trans (card_insert_le self peers)
    exact union_subset hsub (hacked.trans (subset_insert _ _))
  have hcards := card_union_add_card_inter group acked
  omega

theorem exists_acked_outside (hnot : self ∉ peers) (hself : self ∈ group)
    (hsub : group ⊆ insert self peers) {k : Nat} (hk : k ≤ peers.card) :
    ∃ acked ⊆ peers, acked.card = k ∧
      (group ∩ acked).card = k + group.card - (peers.card + 1) := by
  have hsdiff : (peers \ group).card + group.card = peers.card + 1 := by
    have hunion : group ∪ peers = insert self peers := by
      refine Finset.Subset.antisymm (union_subset hsub (subset_insert _ _)) ?_
      exact insert_subset (mem_union_left _ hself) subset_union_right
    have hcard := card_sdiff_add_card peers group
    rw [union_comm, hunion, card_insert_of_notMem hnot] at hcard
    exact hcard
  by_cases hfew : k ≤ (peers \ group).card
  · obtain ⟨acked, hacked, hcard⟩ := exists_subset_card_eq hfew
    refine ⟨acked, hacked.trans sdiff_subset, hcard, ?_⟩
    have hnone : group ∩ acked = ∅ := by
      refine disjoint_iff_inter_eq_empty.mp ?_
      exact disjoint_of_subset_right hacked disjoint_sdiff
    rw [hnone, card_empty]
    omega
  · obtain ⟨acked, houter, hacked, hcard⟩ :=
      exists_subsuperset_card_eq (sdiff_subset : peers \ group ⊆ peers)
        (Nat.le_of_not_le hfew) hk
    refine ⟨acked, hacked, hcard, ?_⟩
    have hinter : group ∩ acked = acked \ (peers \ group) := by
      ext x
      simp only [mem_inter, mem_sdiff, not_and, not_not]
      constructor
      · intro h
        exact ⟨h.2, fun _ => h.1⟩
      · intro h
        exact ⟨h.2 (hacked h.1), h.1⟩
    rw [hinter, card_sdiff_of_subset houter]
    omega

/-- **When a majority of the peers is a majority of the group**: the group has no other member,
or all peers belong to it, up to one if their number is odd. -/
theorem majority_of_acks_iff (hnot : self ∉ peers) (hself : self ∈ group)
    (hsub : group ⊆ insert self peers) :
    (∀ acked ⊆ peers, (peers.card + 1) / 2 ≤ acked.card →
      group.card < 2 * (group ∩ insert self acked).card) ↔
      group.card = 1 ∨ 2 * (peers.card / 2) < group.card := by
  have hpos : 0 < group.card := card_pos.mpr ⟨self, hself⟩
  constructor
  · intro h
    obtain ⟨acked, hacked, hcard, hinter⟩ :=
      exists_acked_outside hnot hself hsub (k := (peers.card + 1) / 2) (by omega)
    have hmajority := h acked hacked hcard.ge
    rw [card_inter_insert_self hself fun hmem => hnot (hacked hmem)] at hmajority
    omega
  · intro h acked hacked hcard
    have hinter := card_le_card_inter hsub hacked
    rw [card_inter_insert_self hself fun hmem => hnot (hacked hmem)]
    omega

end Ledge.Lib
