import Mathlib.Data.Finset.Card
import Mathlib.Data.Fintype.Basic

/-!
# Quorums

A quorum system is a family of sets of nodes, closed under supersets, any two of which
meet. The majorities of a finite list of members are one.
-/

namespace Lib

structure QuorumSystem (ν : Type) where
  IsQuorum : (ν → Prop) → Prop
  mono : ∀ {A B : ν → Prop}, (∀ v, A v → B v) → IsQuorum A → IsQuorum B
  meet : ∀ {A B : ν → Prop}, IsQuorum A → IsQuorum B → ∃ v, A v ∧ B v

variable {ν : Type} [DecidableEq ν]

/-- More than half of the members are in the set. -/
def IsMajority (members : List ν) (A : ν → Prop) : Prop :=
  ∃ voters : List ν, voters.Nodup ∧ voters ⊆ members ∧ members.length / 2 + 1 ≤ voters.length ∧ ∀ v ∈ voters, A v

omit [DecidableEq ν] in
theorem IsMajority.mono {members : List ν} {A B : ν → Prop} (hAB : ∀ v, A v → B v) (h : IsMajority members A) :
    IsMajority members B := by
  obtain ⟨voters, hnodup, hsub, hlen, hA⟩ := h
  exact ⟨voters, hnodup, hsub, hlen, fun v hv => hAB v (hA v hv)⟩

theorem IsMajority.meet {members : List ν} {A B : ν → Prop} (hA : IsMajority members A)
    (hB : IsMajority members B) : ∃ v, A v ∧ B v := by
  obtain ⟨xs, hxs, hxsub, hxlen, hxA⟩ := hA
  obtain ⟨ys, hys, hysub, hylen, hyB⟩ := hB
  have hcard : xs.toFinset.card + ys.toFinset.card ≤
      members.toFinset.card + (xs.toFinset ∩ ys.toFinset).card := by
    rw [← Finset.card_union_add_card_inter]
    refine Nat.add_le_add_right (Finset.card_le_card ?_) _
    intro v hv
    simp only [Finset.mem_union, List.mem_toFinset] at hv ⊢
    exact hv.elim (fun h => hxsub h) fun h => hysub h
  rw [List.toFinset_card_of_nodup hxs, List.toFinset_card_of_nodup hys] at hcard
  have hmembers : members.toFinset.card ≤ members.length := List.toFinset_card_le members
  have hpos : 0 < (xs.toFinset ∩ ys.toFinset).card := by omega
  obtain ⟨v, hv⟩ := Finset.card_pos.mp hpos
  simp only [Finset.mem_inter, List.mem_toFinset] at hv
  exact ⟨v, hxA v hv.1, hyB v hv.2⟩

/-- The majorities of a list of members. -/
def majority (members : List ν) : QuorumSystem ν where
  IsQuorum := IsMajority members
  mono := IsMajority.mono
  meet := IsMajority.meet

end Lib
