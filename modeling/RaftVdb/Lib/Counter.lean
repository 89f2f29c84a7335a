import Mathlib.Data.List.Basic

/-!
# A counter that stops at zero

Events add to a counter and take from it, but never take it below zero, and some events clear
it. The level after a series of events is bounded exactly if what the events add and take is
bounded over the whole series and over every rear part of it, up to the last event that clears.
-/

namespace Lib

/-- What one event adds to the counter and takes from it; one that clears it does nothing else. -/
structure Flow where
  gained : Nat := 0
  lost : Nat := 0
  clears : Bool := false
  deriving DecidableEq, Repr

namespace Flow

def apply (level : Nat) (f : Flow) : Nat := if f.clears then 0 else level + f.gained - f.lost

def level (start : Nat) (flows : List Flow) : Nat := flows.foldl apply start

def gain : List Flow → Nat
  | [] => 0
  | f :: flows => f.gained + gain flows

def loss : List Flow → Nat
  | [] => 0
  | f :: flows => f.lost + loss flows

/-- No event of the series clears the counter. -/
def Unbroken (flows : List Flow) : Prop := ∀ f ∈ flows, f.clears = false

instance (flows : List Flow) : Decidable (Unbroken flows) := inferInstanceAs (Decidable (∀ f ∈ flows, _))

variable {f : Flow} {flows : List Flow} {start bound : Nat}

@[simp] theorem level_nil (start : Nat) : level start [] = start := rfl

@[simp] theorem level_cons (start : Nat) (f : Flow) (flows : List Flow) :
    level start (f :: flows) = level (apply start f) flows := rfl

@[simp] theorem gain_nil : gain [] = 0 := rfl

@[simp] theorem gain_cons (f : Flow) (flows : List Flow) : gain (f :: flows) = f.gained + gain flows := rfl

@[simp] theorem loss_nil : loss [] = 0 := rfl

@[simp] theorem loss_cons (f : Flow) (flows : List Flow) : loss (f :: flows) = f.lost + loss flows := rfl

theorem unbroken_cons : Unbroken (f :: flows) ↔ f.clears = false ∧ Unbroken flows := List.forall_mem_cons

/-- Every rear part of the series keeps within the bound, from zero on. -/
def RearWithin (bound : Nat) (flows : List Flow) : Prop :=
  ∀ rear, rear <:+ flows → Unbroken rear → gain rear ≤ loss rear + bound

theorem rearWithin_cons :
    RearWithin bound (f :: flows) ↔
      (Unbroken (f :: flows) → gain (f :: flows) ≤ loss (f :: flows) + bound) ∧ RearWithin bound flows := by
  constructor
  · intro h
    exact ⟨h _ List.suffix_rfl, fun rear hrear => h rear (hrear.trans (List.suffix_cons f flows))⟩
  · rintro ⟨hwhole, hrest⟩ rear hrear
    rcases List.suffix_cons_iff.mp hrear with rfl | hrear
    · exact hwhole
    · exact hrest rear hrear

instance RearWithin.decidable (bound : Nat) : (flows : List Flow) → Decidable (RearWithin bound flows)
  | [] => isTrue fun rear hrear _ => by
    rw [List.suffix_nil.mp hrear]
    exact Nat.zero_le _
  | _ :: flows =>
    have := RearWithin.decidable bound flows
    decidable_of_iff _ rearWithin_cons.symm

/-- The whole series keeps within the bound, if nothing clears the counter, and so does every rear part. -/
theorem level_le_iff (start bound : Nat) (flows : List Flow) :
    level start flows ≤ bound ↔
      (Unbroken flows → start + gain flows ≤ loss flows + bound) ∧ RearWithin bound flows := by
  induction flows generalizing start with
  | nil =>
    simp only [level_nil, gain_nil, loss_nil, Nat.add_zero, Nat.zero_add]
    constructor
    · intro h
      refine ⟨fun _ => h, fun rear hrear _ => ?_⟩
      rw [List.suffix_nil.mp hrear]
      exact Nat.zero_le _
    · exact fun h => h.1 fun f hf => by cases hf
  | cons f flows ih =>
    rw [level_cons, ih, rearWithin_cons, unbroken_cons, gain_cons, loss_cons, apply]
    cases hclears : f.clears with
    | true =>
      simp only [if_true, Bool.true_eq_false, false_and, false_imp_iff, true_and, Nat.zero_add]
      exact and_iff_right_of_imp fun hrear hunbroken => hrear flows List.suffix_rfl hunbroken
    | false =>
      simp only [Bool.false_eq_true, if_false, true_and]
      constructor
      · rintro ⟨hwhole, hrear⟩
        refine ⟨fun hunbroken => ?_, fun hunbroken => ?_, hrear⟩
        · have := hwhole hunbroken
          omega
        · have := hwhole hunbroken
          omega
      · rintro ⟨hwhole, -, hrear⟩
        refine ⟨fun hunbroken => ?_, hrear⟩
        have htotal := hwhole hunbroken
        have hrest := hrear flows List.suffix_rfl hunbroken
        omega

end Flow

end Lib
