import Mathlib.Data.List.Basic

/-!
# Runs of a partial deterministic step function

All nondeterminism of a system sits in its action type, so a schedule is a list
of actions and a run is a fold. `restrict` keeps only the steps that meet a
condition on the state before the step and on the action: a run of the
restricted system is a run whose steps all meet the condition.
-/

namespace Lib.Transition

variable {S A : Type}

/-- Execute a schedule; `none` if some action is not enabled when its turn comes. -/
def run (step : S → A → Option S) : S → List A → Option S
  | s, [] => some s
  | s, a :: as => (step s a).bind fun t => run step t as

@[simp] theorem run_nil (step : S → A → Option S) (s : S) : run step s [] = some s := rfl

theorem run_cons (step : S → A → Option S) (s : S) (a : A) (as : List A) :
    run step s (a :: as) = (step s a).bind fun t => run step t as := rfl

theorem run_cons_eq_some {step : S → A → Option S} {s t : S} {a : A} {as : List A} :
    run step s (a :: as) = some t ↔ ∃ u, step s a = some u ∧ run step u as = some t := by
  rw [run_cons, Option.bind_eq_some_iff]

theorem run_append (step : S → A → Option S) (s : S) (as bs : List A) :
    run step s (as ++ bs) = (run step s as).bind fun t => run step t bs := by
  induction as generalizing s with
  | nil => rfl
  | cons a as ih =>
    rw [List.cons_append, run_cons, run_cons, Option.bind_assoc]
    congr 1
    funext t
    exact ih t

/-- What holds at the start and is kept by the steps of a schedule holds at its end. -/
theorem run_invariant_of_mem {step : S → A → Option S} (I : S → Prop) {s t : S} {as : List A}
    (hstep : ∀ a ∈ as, ∀ s t, I s → step s a = some t → I t) (hs : I s) (h : run step s as = some t) : I t := by
  induction as generalizing s with
  | nil =>
    cases h
    exact hs
  | cons a as ih =>
    obtain ⟨u, hu, ht⟩ := run_cons_eq_some.mp h
    exact ih (fun b hb => hstep b (List.mem_cons_of_mem a hb)) (hstep a List.mem_cons_self s u hs hu) ht

/-- What holds at the start and is kept by every step holds after every run. -/
theorem run_invariant {step : S → A → Option S} (I : S → Prop)
    (hstep : ∀ s a t, I s → step s a = some t → I t) {s t : S} {as : List A}
    (hs : I s) (h : run step s as = some t) : I t :=
  run_invariant_of_mem I (fun a _ s t => hstep s a t) hs h

/-- Keep only the steps that meet a condition on the state and the action. -/
def restrict (ok : S → A → Prop) [∀ s a, Decidable (ok s a)] (step : S → A → Option S) :
    S → A → Option S :=
  fun s a => if ok s a then step s a else none

theorem restrict_eq_some {ok : S → A → Prop} [∀ s a, Decidable (ok s a)]
    {step : S → A → Option S} {s t : S} {a : A} :
    restrict ok step s a = some t ↔ ok s a ∧ step s a = some t := by
  unfold restrict
  split
  · next h => simp [h]
  · next h => simp [h]

/-- A property of the start and of every state that the steps of a schedule lead to. -/
def Throughout (step : S → A → Option S) (P : S → Prop) : S → List A → Prop
  | s, [] => P s
  | s, a :: as => P s ∧ ∀ t, step s a = some t → Throughout step P t as

/-- A condition on every step of a schedule, in the state in which it is taken. -/
def EachStep (step : S → A → Option S) (C : S → A → Prop) : S → List A → Prop
  | _, [] => True
  | s, a :: as => ∀ t, step s a = some t → C s a ∧ EachStep step C t as

instance EachStep.decidable (step : S → A → Option S) (C : S → A → Prop) [∀ s a, Decidable (C s a)] :
    (s : S) → (as : List A) → Decidable (EachStep step C s as)
  | _, [] => isTrue trivial
  | s, a :: as =>
    match h : step s a with
    | none => isTrue fun t ht => by rw [h] at ht; cases ht
    | some u =>
      have := EachStep.decidable step C u as
      decidable_of_iff (C s a ∧ EachStep step C u as) (by simp [EachStep, h])

theorem Throughout.start {step : S → A → Option S} {P : S → Prop} {s : S} {as : List A}
    (h : Throughout step P s as) : P s := by
  cases as with
  | nil => exact h
  | cons a as => exact h.1

/-- What a condition on each step and an invariant give at each step. -/
theorem EachStep.imp {step : S → A → Option S} {I : S → Prop} {C D : S → A → Prop}
    (hstep : ∀ s a t, I s → step s a = some t → C s a → D s a ∧ I t) {s : S} {as : List A}
    (h : EachStep step C s as) (hI : I s) : EachStep step D s as := by
  induction as generalizing s with
  | nil => trivial
  | cons a as ih =>
    intro t ht
    obtain ⟨hmeets, hrest⟩ := h t ht
    obtain ⟨hD, hIt⟩ := hstep s a t hI ht hmeets
    exact ⟨hD, ih hrest hIt⟩

/-- What an invariant gives at each step. -/
theorem eachStep_of_invariant {step : S → A → Option S} {I : S → Prop} {D : S → A → Prop}
    (hstep : ∀ s a t, I s → step s a = some t → D s a ∧ I t) {s : S} (hI : I s) (as : List A) :
    EachStep step D s as := by
  induction as generalizing s with
  | nil => trivial
  | cons a as ih =>
    intro t ht
    obtain ⟨hD, hIt⟩ := hstep s a t hI ht
    exact ⟨hD, ih hIt⟩

/-- If a step keeps the property exactly under a condition, a run keeps it exactly when all
its steps meet the condition. -/
theorem throughout_iff {step : S → A → Option S} {I P : S → Prop} {C : S → A → Prop}
    (hinv : ∀ s a t, I s → step s a = some t → I t)
    (hstep : ∀ s a t, I s → P s → step s a = some t → (P t ↔ C s a)) {s : S} (hI : I s) (hP : P s) (as : List A) :
    Throughout step P s as ↔ EachStep step C s as := by
  induction as generalizing s with
  | nil => exact iff_of_true hP trivial
  | cons a as ih =>
    constructor
    · intro h t ht
      have hkept := (h.2 t ht).start
      exact ⟨(hstep s a t hI hP ht).mp hkept, (ih (hinv s a t hI ht) hkept).mp (h.2 t ht)⟩
    · intro h
      refine ⟨hP, fun t ht => ?_⟩
      obtain ⟨hmeets, hrest⟩ := h t ht
      exact (ih (hinv s a t hI ht) ((hstep s a t hI hP ht).mpr hmeets)).mpr hrest

/-- What there is to see after a run that has been evaluated. -/
theorem exists_of_run {o : Option S} {P : S → Prop} [DecidablePred P] (h : (o.map fun s => decide (P s)) = some true) :
    ∃ s, o = some s ∧ P s := by
  obtain ⟨s, hs, hP⟩ := Option.map_eq_some_iff.mp h
  exact ⟨s, hs, of_decide_eq_true hP⟩

/-- A step that a fallible function takes is one that it returned. -/
theorem ok_of_toOption {ε α : Type} {x : Except ε α} {a : α} (h : x.toOption = some a) : x = .ok a := by
  cases x with
  | error e => cases h
  | ok b =>
    cases h
    rfl

end Lib.Transition
