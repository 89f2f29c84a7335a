import Mathlib.Data.List.Infix
import Mathlib.Data.List.Nodup
import Mathlib.Data.List.TakeDrop
import Mathlib.Logic.Function.Basic

/-!
# Replicated logs through the logs of the leaders

For each term that has had a leader the log of that leader is kept, as far as it has been
written. A log matches if every entry of it stands in the log of the leader of its term,
behind the same entries.
-/

namespace Lib

variable {ε : Type}

/-- The terms that have had a leader, and the logs of these leaders. -/
structure Leaders (ε : Type) where
  led : Nat → Prop
  leaderLog : Nat → List ε

namespace Leaders

variable (termOf : ε → Nat)

/-- Every entry of the log was written by the leader of its term, behind the same entries. -/
def Matches (w : Leaders ε) (l : List ε) : Prop :=
  ∀ front e, front ++ [e] <+: l → w.led (termOf e) ∧ front ++ [e] <+: w.leaderLog (termOf e)

/-- The first `k` entries of the leader log of a term. -/
def upTo (w : Leaders ε) (T k : Nat) : List ε := (w.leaderLog T).take k

/-- A term gets its leader, with the log it stood with. -/
def elect (w : Leaders ε) (T : Nat) (l : List ε) : Leaders ε where
  led U := U = T ∨ w.led U
  leaderLog := Function.update w.leaderLog T l

/-- The leader of a term writes one entry. -/
def extend (w : Leaders ε) (T : Nat) (e : ε) : Leaders ε where
  led := w.led
  leaderLog := Function.update w.leaderLog T (w.leaderLog T ++ [e])

/-- Leaders stay leaders, and their logs grow by entries of their own term. -/
def Grows (w w' : Leaders ε) : Prop :=
  ∀ T, w.led T → w'.led T ∧ ∃ es, w'.leaderLog T = w.leaderLog T ++ es ∧ ∀ e ∈ es, termOf e = T

variable {termOf} {w w' w'' : Leaders ε}

theorem Matches.nil (w : Leaders ε) : Matches termOf w [] := fun front e he => by simp at he

theorem Matches.of_le {l l' : List ε} (h : Matches termOf w l) (hl : l' <+: l) : Matches termOf w l' :=
  fun front e he => h front e (he.trans hl)

theorem Matches.led {l : List ε} (h : Matches termOf w l) {e : ε} (he : e ∈ l) : w.led (termOf e) := by
  obtain ⟨front, rest, rfl⟩ := List.append_of_mem he
  exact (h front e ⟨rest, by simp⟩).1

/-- Logs with an entry of one term at one place are the same up to it. -/
theorem Matches.take_eq {l l' : List ε} (h : Matches termOf w l) (h' : Matches termOf w l') {i : Nat}
    {e e' : ε} (he : l[i]? = some e) (he' : l'[i]? = some e') (hterm : termOf e = termOf e') :
    l.take (i + 1) = l'.take (i + 1) := by
  have hsplit : ∀ {l : List ε} {e : ε}, l[i]? = some e → l.take (i + 1) = l.take i ++ [e] := by
    intro l e he
    rw [List.take_add_one, he]
    rfl
  obtain ⟨-, hle⟩ := h (l.take i) e (hsplit he ▸ List.take_prefix _ _)
  obtain ⟨-, hle'⟩ := h' (l'.take i) e' (hsplit he' ▸ List.take_prefix _ _)
  rw [← hsplit he] at hle
  rw [← hsplit he', ← hterm] at hle'
  have hlen : ∀ {l : List ε} {e : ε}, l[i]? = some e → (l.take (i + 1)).length = i + 1 := fun he =>
    List.length_take_of_le (List.getElem?_eq_some_iff.mp he).1
  exact (List.prefix_of_prefix_length_le hle hle' (by rw [hlen he, hlen he'])).eq_of_length
    (by rw [hlen he, hlen he'])

theorem Grows.refl (w : Leaders ε) : Grows termOf w w := fun T hT => ⟨hT, [], by simp, by simp⟩

theorem Grows.trans (h : Grows termOf w w') (h' : Grows termOf w' w'') : Grows termOf w w'' := by
  intro T hT
  obtain ⟨hT', es, hes, hterm⟩ := h T hT
  obtain ⟨hT'', es', hes', hterm'⟩ := h' T hT'
  refine ⟨hT'', es ++ es', by rw [hes', hes, List.append_assoc], fun e he => ?_⟩
  rcases List.mem_append.mp he with he | he
  · exact hterm e he
  · exact hterm' e he

theorem Grows.leaderLog_le (h : Grows termOf w w') {T : Nat} (hT : w.led T) : w.leaderLog T <+: w'.leaderLog T := by
  obtain ⟨-, es, hes, -⟩ := h T hT
  exact ⟨es, hes.symm⟩

theorem Grows.matches_log (h : Grows termOf w w') {l : List ε} (hl : Matches termOf w l) : Matches termOf w' l := by
  intro front e he
  obtain ⟨hled, hlog⟩ := hl front e he
  exact ⟨(h _ hled).1, hlog.trans (h.leaderLog_le hled)⟩

theorem Grows.upTo_eq (h : Grows termOf w w') {T k : Nat} (hT : w.led T) (hk : k ≤ (w.leaderLog T).length) :
    w'.upTo T k = w.upTo T k := by
  obtain ⟨-, es, hes, -⟩ := h T hT
  rw [upTo, upTo, hes, List.take_append_of_le_length hk]

theorem mem_of_mem_upTo {T k : Nat} {e : ε} (h : e ∈ w.upTo T k) : e ∈ w.leaderLog T := List.mem_of_mem_take h

/-- The first `k + 1` entries of a leader log end in its `k`-th entry. -/
theorem upTo_succ {T k : Nat} {e : ε} (h : (w.leaderLog T)[k]? = some e) :
    w.upTo T (k + 1) = w.upTo T k ++ [e] := by
  rw [upTo, upTo, List.take_add_one, h]
  rfl

theorem grows_elect {T : Nat} {l : List ε} (hl : w.led T → l = w.leaderLog T) : Grows termOf w (w.elect T l) := by
  intro U hU
  by_cases hne : U = T
  · exact ⟨.inl hne, [], by simp [elect, hne, hl (hne ▸ hU)], by simp⟩
  · exact ⟨.inr hU, [], by simp [elect, hne], by simp⟩

theorem grows_extend {T : Nat} {e : ε} (hterm : termOf e = T) : Grows termOf w (w.extend T e) := by
  intro U hU
  by_cases hne : U = T
  · exact ⟨hU, [e], by simp [extend, hne], by simp [hne, hterm]⟩
  · exact ⟨hU, [], by simp [extend, hne], by simp⟩

/-- What the leader has written is a log like any other. -/
theorem Matches.extend {T : Nat} {e : ε} (hlog : Matches termOf w (w.leaderLog T)) (hled : w.led T)
    (hterm : termOf e = T) : Matches termOf (w.extend T e) (w.leaderLog T ++ [e]) := by
  intro front x hx
  rcases List.prefix_concat_iff.mp hx with heq | hle
  · obtain ⟨-, hxe⟩ := List.append_inj' heq rfl
    cases hxe
    refine ⟨hterm ▸ hled, ?_⟩
    simp only [Leaders.extend, hterm, Function.update_self]
    exact hx
  · exact (grows_extend hterm).matches_log hlog front x hle

theorem leaderLog_extend_self {T : Nat} {e : ε} : (w.extend T e).leaderLog T = w.leaderLog T ++ [e] :=
  Function.update_self ..

theorem leaderLog_extend_of_ne {T U : Nat} {e : ε} (h : U ≠ T) : (w.extend T e).leaderLog U = w.leaderLog U :=
  Function.update_of_ne h ..

theorem leaderLog_elect_self {T : Nat} {l : List ε} : (w.elect T l).leaderLog T = l := Function.update_self ..

theorem leaderLog_elect_of_ne {T U : Nat} {l : List ε} (h : U ≠ T) : (w.elect T l).leaderLog U = w.leaderLog U :=
  Function.update_of_ne h ..

theorem matches_leaderLog_extend {T : Nat} {e : ε} (h : ∀ U, w.led U → Matches termOf w (w.leaderLog U))
    (hled : w.led T) (hterm : termOf e = T) (U : Nat) (hU : (w.extend T e).led U) :
    Matches termOf (w.extend T e) ((w.extend T e).leaderLog U) := by
  by_cases hne : U = T
  · rw [hne, leaderLog_extend_self]
    exact (h T hled).extend hled hterm
  · rw [leaderLog_extend_of_ne hne]
    exact (grows_extend hterm).matches_log (h U hU)

theorem matches_leaderLog_elect {T : Nat} {l : List ε} (h : ∀ U, w.led U → Matches termOf w (w.leaderLog U))
    (hsame : w.led T → l = w.leaderLog T) (hl : Matches termOf w l) (U : Nat) (hU : (w.elect T l).led U) :
    Matches termOf (w.elect T l) ((w.elect T l).leaderLog U) := by
  by_cases hne : U = T
  · rw [hne, leaderLog_elect_self]
    exact (grows_elect hsame).matches_log hl
  · rw [leaderLog_elect_of_ne hne]
    exact (grows_elect hsame).matches_log (h U (hU.resolve_left hne))

/-! ## What the leaders write -/

/-- The leader logs are the old ones, but for entries put behind logs that match these. -/
def Written (termOf : ε → Nat) (w w' : Leaders ε) (new : List ε → ε → Prop) : Prop :=
  ∀ T, w'.led T → (w.led T ∧ w'.leaderLog T = w.leaderLog T) ∨
    ∃ l e, Matches termOf w l ∧ w'.leaderLog T = l ++ [e] ∧ new l e

section

variable {P P' : ε → Prop}

/-- Every entry that a leader has written is such. -/
def Everywhere (P : ε → Prop) (w : Leaders ε) : Prop := ∀ T, w.led T → ∀ e ∈ w.leaderLog T, P e

theorem Everywhere.mono (h : w.Everywhere P) (hP : ∀ e, P e → P' e) : w.Everywhere P' := fun T hT e he => hP e (h T hT e he)

theorem Everywhere.of_matches (h : w.Everywhere P) {l : List ε} (hl : Matches termOf w l) : ∀ e ∈ l, P e := by
  intro e he
  obtain ⟨front, rest, rfl⟩ := List.append_of_mem he
  obtain ⟨hled, hlog⟩ := hl front e ⟨rest, by simp⟩
  exact h _ hled e (hlog.subset (by simp))

theorem Everywhere.written (h : w.Everywhere P) {new : List ε → ε → Prop} (hw : Written termOf w w' new)
    (hnew : ∀ l e, new l e → P e) : w'.Everywhere P := by
  intro T hT e he
  rcases hw T hT with ⟨hled, hsame⟩ | ⟨l, x, hl, hlog, hx⟩
  · rw [hsame] at he
    exact h T hled e he
  · rw [hlog] at he
    rcases List.mem_append.mp he with he | he
    · exact h.of_matches hl e he
    · obtain rfl := List.mem_singleton.mp he
      exact hnew l e hx

end

section

variable {κ : Type} {key : ε → Option κ}

/-- No key stands twice in the log of a leader. -/
def Distinct (key : ε → Option κ) (w : Leaders ε) : Prop := ∀ T, w.led T → ((w.leaderLog T).filterMap key).Nodup

theorem Distinct.of_matches (h : w.Distinct key) {l : List ε} (hl : Matches termOf w l) : (l.filterMap key).Nodup := by
  rcases List.eq_nil_or_concat' l with rfl | ⟨front, e, rfl⟩
  · exact List.nodup_nil
  · obtain ⟨hled, hlog⟩ := hl front e (List.prefix_refl _)
    exact (h _ hled).sublist (hlog.sublist.filterMap key)

theorem Distinct.written (h : w.Distinct key) {new : List ε → ε → Prop} (hw : Written termOf w w' new)
    (hnew : ∀ l e, Matches termOf w l → new l e → ∀ k, key e = some k → k ∉ l.filterMap key) : w'.Distinct key := by
  intro T hT
  rcases hw T hT with ⟨hled, hsame⟩ | ⟨l, e, hl, hlog, hle⟩
  · rw [hsame]
    exact h T hled
  · rw [hlog, List.filterMap_append, List.nodup_append_comm]
    cases hkey : key e with
    | none =>
      rw [List.filterMap_cons_none hkey]
      exact h.of_matches hl
    | some k =>
      rw [List.filterMap_cons_some hkey]
      exact List.nodup_cons.mpr ⟨hnew l e hl hle k hkey, h.of_matches hl⟩

end

end Leaders

end Lib
