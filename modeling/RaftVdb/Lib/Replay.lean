import Mathlib.Data.List.TakeDrop
import Mathlib.Logic.Function.Basic

/-!
# Replaying a log of writes

Every entry of a log writes at most one key: it sets a value or removes it. A state is the
list of the entries that made it, and its map is what their writes leave. A state catches
up with a log from a position on if the entries behind that position, applied on top of it,
give the map of the whole log, as soon as they reach far enough. The state may already
contain some of these entries: the last write of a key wins.
-/

namespace Lib.Replay

variable {E K V : Type} [DecidableEq K] (write : E → Option (K × Option V))

def put (m : K → Option V) (e : E) : K → Option V :=
  match write e with
  | none => m
  | some (k, v) => Function.update m k v

/-- The map that the entries leave. -/
def replay (es : List E) : K → Option V := es.foldl (put write) fun _ => none

/-- The entry writes the key. -/
def Writes (k : K) (e : E) : Prop := (write e).map Prod.fst = some k

instance (k : K) (e : E) : Decidable (Writes write k e) := inferInstanceAs (Decidable (_ = _))

variable {write} {k : K} {e : E} {m m' : K → Option V}

theorem put_of_not_writes (h : ¬ Writes write k e) : put write m e k = m k := by
  unfold put
  cases heq : write e with
  | none => rfl
  | some w =>
    have hne : k ≠ w.1 := by
      rintro rfl
      exact h (by rw [Writes, heq]; rfl)
    exact Function.update_of_ne hne w.2 m

theorem put_congr (h : Writes write k e ∨ m k = m' k) : put write m e k = put write m' e k := by
  unfold put
  cases heq : write e with
  | none =>
    refine h.resolve_left fun hw => ?_
    rw [Writes, heq] at hw
    cases hw
  | some w =>
    dsimp only
    by_cases hk : k = w.1
    · subst hk
      rw [Function.update_self, Function.update_self]
    · rw [Function.update_of_ne hk, Function.update_of_ne hk]
      refine h.resolve_left fun hw => hk ?_
      rw [Writes, heq] at hw
      exact (Option.some.inj hw).symm

theorem foldl_of_not_writes {es : List E} (h : ∀ e ∈ es, ¬ Writes write k e) : es.foldl (put write) m k = m k := by
  induction es generalizing m with
  | nil => rfl
  | cons e es ih =>
    rw [List.foldl_cons, ih fun x hx => h x (List.mem_cons_of_mem _ hx)]
    exact put_of_not_writes (h e List.mem_cons_self)

/-- A key that is written, or on which the maps agree, ends up the same. -/
theorem foldl_congr {es : List E} (h : (∃ e ∈ es, Writes write k e) ∨ m k = m' k) :
    es.foldl (put write) m k = es.foldl (put write) m' k := by
  induction es generalizing m m' with
  | nil => simpa using h
  | cons e es ih =>
    rw [List.foldl_cons, List.foldl_cons]
    refine ih ?_
    by_cases hw : Writes write k e
    · exact .inr (put_congr (.inl hw))
    · rcases h with ⟨x, hx, hxw⟩ | heq
      · rcases List.mem_cons.mp hx with rfl | hx
        · exact absurd hxw hw
        · exact .inl ⟨x, hx, hxw⟩
      · exact .inr (put_congr (.inr heq))

theorem replay_append (es fs : List E) : replay write (es ++ fs) = fs.foldl (put write) (replay write es) :=
  List.foldl_append

/-- A key that nobody writes has no value. -/
theorem replay_of_not_writes {es : List E} (h : ∀ e ∈ es, ¬ Writes write k e) : replay write es k = none :=
  foldl_of_not_writes h

variable (write)

/-- On top of `es` the entries behind `start` give the map of the log, for every prefix of
at least `top` entries. -/
def CatchesUp (log es : List E) (start top : Nat) : Prop :=
  ∀ n, top ≤ n → replay write (es ++ (log.take n).drop start) = replay write (log.take n)

variable {write} {log es : List E} {start top : Nat}

theorem CatchesUp.nil : CatchesUp write log [] 0 top := fun n _ => by simp

theorem CatchesUp.mono (h : CatchesUp write log es start top) {t : Nat} (ht : top ≤ t) : CatchesUp write log es start t :=
  fun n hn => h n (Nat.le_trans ht hn)

/-- It does no harm to begin earlier. -/
theorem CatchesUp.of_le (h : CatchesUp write log es start top) {s : Nat} (hs : s ≤ start) :
    CatchesUp write log es s top := by
  intro n hn
  have hlater : (log.take n).drop start <:+ (log.take n).drop s := List.drop_suffix_drop_left _ hs
  funext k
  by_cases hw : ∃ e ∈ (log.take n).drop s, Writes write k e
  · calc replay write (es ++ (log.take n).drop s) k
        = replay write ((log.take n).take s ++ (log.take n).drop s) k := by
          rw [replay_append, replay_append]
          exact foldl_congr (.inl hw)
      _ = replay write (log.take n) k := by rw [List.take_append_drop]
  · have hnone : ∀ e ∈ (log.take n).drop s, ¬ Writes write k e := fun e he hwe => hw ⟨e, he, hwe⟩
    calc replay write (es ++ (log.take n).drop s) k
        = replay write es k := by
          rw [replay_append]
          exact foldl_of_not_writes hnone
      _ = replay write (es ++ (log.take n).drop start) k := by
          rw [replay_append]
          exact (foldl_of_not_writes fun e he => hnone e (hlater.mem he)).symm
      _ = replay write (log.take n) k := by rw [h n hn]

/-- Apply the next entry. -/
theorem CatchesUp.concat (h : CatchesUp write log es start top) {e : E} (he : log[start]? = some e) :
    CatchesUp write log (es ++ [e]) (start + 1) (max top (start + 1)) := by
  intro n hn
  have hlt : start < n := by omega
  have hget : (log.take n)[start]? = some e := by
    rw [List.getElem?_take_of_lt hlt]
    exact he
  have hdrop : (log.take n).drop start = e :: (log.take n).drop (start + 1) := by
    obtain ⟨hi, heq⟩ := List.getElem?_eq_some_iff.mp hget
    rw [List.drop_eq_getElem_cons hi, heq]
  rw [List.append_assoc, List.singleton_append, ← hdrop]
  exact h n (by omega)

omit [DecidableEq K] in
theorem not_writes_of_not_mem {k : K} (h : k ∉ es.filterMap fun e => (write e).map Prod.fst) :
    ∀ e ∈ es, ¬ Writes write k e := by
  intro e he hw
  exact h (List.mem_filterMap.mpr ⟨e, he, hw⟩)

/-- Only the keys that somebody writes have to be compared, and no prefix beyond the log. -/
instance [DecidableEq V] : Decidable (CatchesUp write log es start top) :=
  decidable_of_iff (∀ n < max log.length top + 1, top ≤ n →
    ∀ k ∈ (es ++ log).filterMap fun e => (write e).map Prod.fst,
      replay write (es ++ (log.take n).drop start) k = replay write (log.take n) k) <| by
  constructor
  · intro h n hn
    obtain ⟨j, hj, htop, htake⟩ : ∃ j < max log.length top + 1, top ≤ j ∧ log.take n = log.take j := by
      rcases Nat.lt_or_ge n (max log.length top + 1) with hlt | hge
      · exact ⟨n, hlt, hn, rfl⟩
      · refine ⟨max log.length top, by omega, by omega, ?_⟩
        rw [List.take_of_length_le (by omega), List.take_of_length_le (by omega)]
    rw [htake]
    funext k
    by_cases hk : k ∈ (es ++ log).filterMap fun e => (write e).map Prod.fst
    · exact h j hj htop k hk
    · have hnone := not_writes_of_not_mem hk
      rw [replay_of_not_writes, replay_of_not_writes]
      · exact fun e he => hnone e (List.mem_append_right _ (List.mem_of_mem_take he))
      · intro e he
        refine hnone e ?_
        rcases List.mem_append.mp he with he | he
        · exact List.mem_append_left _ he
        · exact List.mem_append_right _ (List.mem_of_mem_take (List.mem_of_mem_drop he))
  · intro h n _ hle k _
    rw [h n hle]

end Lib.Replay
