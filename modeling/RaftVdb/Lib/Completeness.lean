import Mathlib.Logic.Relation
import RaftVdb.Lib.LeaderLogs
import RaftVdb.Lib.Quorum

/-!
# Leader completeness

A world keeps, beside the term and the log of every node, the logs of the leaders. Nodes
stand for election, vote, win, extend their log as leader, take over other logs and
answer. An answer in a term acknowledges the log that the node had then, whoever asked.
The invariant says that every log is made of pieces of leader logs, and that a prefix a
quorum has acknowledged to the leader that wrote it is in the log of every later leader.
-/

namespace Lib

variable {ν ε : Type}

open Leaders

structure World (ν ε : Type) extends Leaders ε where
  term : ν → Nat
  log : ν → List ε
  /-- The node answered in the term while this was the front of its log. -/
  acked : ν → Nat → List ε → Prop
  /-- The node stood in the term with this log. -/
  stood : ν → Nat → List ε → Prop
  /-- The node voted in the term for a candidate, with this log of its own. -/
  voted : ν → Nat → ν → List ε → Prop

namespace World

variable (termOf : ε → Nat)

/-- The term of the last entry. -/
def lastTerm (l : List ε) : Nat := (l.getLast?.map termOf).getD 0

/-- The second log is at least as up to date as the first. -/
def UpToDate (l c : List ε) : Prop :=
  lastTerm termOf l < lastTerm termOf c ∨ (lastTerm termOf l = lastTerm termOf c ∧ l.length ≤ c.length)

/-- The front is in the log, or a leader between the two terms does not have it. -/
def CarriedTo (w : World ν ε) (T : Nat) (front : List ε) (U : Nat) (l : List ε) : Prop :=
  front <+: l ∨ ∃ V, T ≤ V ∧ V ≤ U ∧ w.led V ∧ ¬ front <+: w.leaderLog V

/-- The front ends in an entry of the term. -/
def EndsIn (T : Nat) (front : List ε) : Prop := front.getLast?.map termOf = some T

/-- What one node can do. -/
inductive Step [DecidableEq ν] (Q : QuorumSystem ν) (p : ν) (w : World ν ε) : World ν ε → Prop
  /-- It learns of a newer term. -/
  | adopt (t : Nat) (hle : w.term p ≤ t) : Step Q p w { w with term := Function.update w.term p t }
  /-- It stands in a term in which it has not stood yet. -/
  | stand (t : Nat) (hle : w.term p ≤ t) (hfresh : ∀ l, ¬ w.stood p t l) (hnew : ∀ e ∈ w.log p, termOf e < t) : Step Q p w
      { w with
        term := Function.update w.term p t
        stood := fun q T l => (q = p ∧ T = t ∧ l = w.log p) ∨ w.stood q T l
        voted := fun q T c l => (q = p ∧ T = t ∧ c = p ∧ l = w.log p) ∨ w.voted q T c l }
  | vote (c : ν) (l : List ε) (hstood : w.stood c (w.term p) l) (hlog : UpToDate termOf (w.log p) l) : Step Q p w
      { w with voted := fun q T d l => (q = p ∧ T = w.term p ∧ d = c ∧ l = w.log p) ∨ w.voted q T d l }
  | elect (hfresh : ¬ w.led (w.term p)) (hstood : w.stood p (w.term p) (w.log p))
      (hquorum : Q.IsQuorum fun v => ∃ l, w.voted v (w.term p) p l) : Step Q p w
      { w with toLeaders := w.toLeaders.elect (w.term p) (w.log p) }
  | extend (e : ε) (hled : w.led (w.term p)) (hlog : w.log p = w.leaderLog (w.term p))
      (hterm : termOf e = w.term p) : Step Q p w
      { w with
        toLeaders := w.toLeaders.extend (w.term p) e
        log := Function.update w.log p (w.log p ++ [e]) }
  /-- It takes over another log and drops nothing that it acknowledged to the leader that
  wrote it, unless a leader since then does not have it. -/
  | accept (l : List ε) (hl : Matches termOf w.toLeaders l) (hle : ∀ e ∈ l, termOf e ≤ w.term p)
      (hkeep : ∀ T f, EndsIn termOf T f → w.acked p T f → f <+: w.log p → w.CarriedTo T f (w.term p) l) : Step Q p w
      { w with log := Function.update w.log p l }
  /-- It answers. -/
  | ack : Step Q p w
      { w with acked := fun q T f => (q = p ∧ T = w.term p ∧ f <+: w.log p) ∨ w.acked q T f }

structure Inv (Q : QuorumSystem ν) (w : World ν ε) : Prop where
  logs : ∀ p, Matches termOf w.toLeaders (w.log p)
  log_le : ∀ p, ∀ e ∈ w.log p, termOf e ≤ w.term p
  leaderLogs : ∀ T, w.led T → Matches termOf w.toLeaders (w.leaderLog T)
  leaderLog_le : ∀ T, w.led T → ∀ e ∈ w.leaderLog T, termOf e ≤ T
  stood_le : ∀ p T l, w.stood p T l → T ≤ w.term p
  stood_eq : ∀ p T l l', w.stood p T l → w.stood p T l' → l = l'
  stood_log : ∀ p T l, w.stood p T l → Matches termOf w.toLeaders l ∧ ∀ e ∈ l, termOf e < T
  stood_voted : ∀ p T l, w.stood p T l → w.voted p T p l
  voted_le : ∀ v T c l, w.voted v T c l → T ≤ w.term v
  voted_log : ∀ v T c l, w.voted v T c l → Matches termOf w.toLeaders l ∧ ∃ l', w.stood c T l' ∧ UpToDate termOf l l'
  voted_acked : ∀ v U c l T f, w.voted v U c l → EndsIn termOf T f → w.acked v T f → T < U → w.CarriedTo T f U l
  acked_le : ∀ v T f, w.acked v T f → T ≤ w.term v ∧ ∀ e ∈ f, termOf e ≤ T
  acked_matches : ∀ v T f, w.acked v T f → Matches termOf w.toLeaders f
  acked_of_le : ∀ v T f f', w.acked v T f → f' <+: f → w.acked v T f'
  acked_log : ∀ v T f, EndsIn termOf T f → w.acked v T f → w.CarriedTo T f (w.term v) (w.log v)
  elected : ∀ U, w.led U → Q.IsQuorum fun v => U ≤ w.term v
  /-- A prefix that a later leader does not have can no longer be acknowledged by a quorum. -/
  complete : ∀ T U k, w.led T → w.led U → T < U → ((w.leaderLog T)[k]?.map termOf) = some T →
    w.upTo T (k + 1) <+: w.leaderLog U ∨ Q.IsQuorum fun v => T < w.term v ∧ ¬ w.acked v T (w.upTo T (k + 1))

variable {termOf} {Q : QuorumSystem ν} {w w' : World ν ε}

/-- A leader that misses a front keeps missing it. -/
theorem not_le_of_grows {x : Leaders ε} (h : Grows termOf w.toLeaders x) {V : Nat} {f : List ε}
    (hf : Matches termOf w.toLeaders f) (hV : w.led V) (hn : ¬ f <+: w.leaderLog V) : ¬ f <+: x.leaderLog V := by
  obtain ⟨-, es, hes, hterm⟩ := h V hV
  rw [hes]
  intro hle
  rcases Nat.le_total f.length (w.leaderLog V).length with hlen | hlen
  · exact hn (List.prefix_of_prefix_length_le hle (List.prefix_append _ _) hlen)
  obtain ⟨rest, rfl⟩ := List.prefix_of_prefix_length_le (List.prefix_append (w.leaderLog V) es) hle hlen
  cases rest with
  | nil =>
    rw [List.append_nil] at hn
    exact hn (List.prefix_refl _)
  | cons e rest =>
    -- the front reaches into what the leader has yet to write
    have hin : e ∈ es := by
      rw [List.prefix_append_right_inj] at hle
      exact hle.subset List.mem_cons_self
    obtain ⟨-, hwritten⟩ := hf (w.leaderLog V) e ⟨rest, by simp⟩
    rw [hterm e hin] at hwritten
    have := hwritten.length_le
    rw [List.length_append, List.length_singleton] at this
    omega

theorem CarriedTo.grows {T U U' : Nat} {f l l' : List ε} (h : w.CarriedTo T f U l) (hg : Grows termOf w.toLeaders w'.toLeaders)
    (hf : Matches termOf w.toLeaders f) (hU : U ≤ U') (hl : f <+: l → f <+: l') : w'.CarriedTo T f U' l' := by
  rcases h with h | ⟨V, hTV, hVU, hV, hn⟩
  · exact .inl (hl h)
  · exact .inr ⟨V, hTV, hVU.trans hU, (hg V hV).1, not_le_of_grows hg hf hV hn⟩

theorem endsIn_upTo {T k : Nat} (h : (w.leaderLog T)[k]?.map termOf = some T) : EndsIn termOf T (w.upTo T (k + 1)) := by
  obtain ⟨e, he, rfl⟩ := Option.map_eq_some_iff.mp h
  rw [EndsIn, upTo_succ he, List.getLast?_concat]
  rfl

/-- A log that ends in an entry of the term comes from the leader of the term. -/
theorem EndsIn.le_leaderLog {T : Nat} {f : List ε} (h : EndsIn termOf T f) (hf : Matches termOf w.toLeaders f) :
    w.led T ∧ f <+: w.leaderLog T := by
  obtain ⟨e, he, rfl⟩ := Option.map_eq_some_iff.mp h
  obtain ⟨front, rfl⟩ := List.getLast?_eq_some_iff.mp he
  exact hf front e (List.prefix_refl _)

theorem lastTerm_concat (front : List ε) (e : ε) : lastTerm termOf (front ++ [e]) = termOf e := by
  simp [lastTerm]

/-- A log that is at least as up to date as one with an acknowledged prefix has the prefix
too, if the leaders in between have it. -/
theorem UpToDate.carries (hI : Inv termOf Q w) {T U k : Nat} {l c : List ε} (hup : UpToDate termOf l c)
    (hl : Matches termOf w.toLeaders l) (hc : Matches termOf w.toLeaders c) (hcU : ∀ e ∈ c, termOf e < U) (hT : w.led T)
    (hk : (w.leaderLog T)[k]?.map termOf = some T) (hle : w.upTo T (k + 1) <+: l)
    (hall : ∀ V, T < V → V < U → w.led V → w.upTo T (k + 1) <+: w.leaderLog V) : w.upTo T (k + 1) <+: c := by
  obtain ⟨x, hx, hxT⟩ := Option.map_eq_some_iff.mp hk
  have hxl : x ∈ l := hle.subset (by rw [upTo_succ hx]; simp)
  obtain ⟨front, e, rfl⟩ := (List.eq_nil_or_concat' l).resolve_left (List.ne_nil_of_mem hxl)
  obtain ⟨hled, hlog⟩ := hl front e (List.prefix_refl _)
  have hTe : T ≤ termOf e := hxT ▸ hI.leaderLog_le _ hled x (hlog.subset hxl)
  unfold UpToDate at hup
  rw [lastTerm_concat] at hup
  have hcne : c ≠ [] := by
    rintro rfl
    simp [lastTerm] at hup
  obtain ⟨frontC, eC, rfl⟩ := (List.eq_nil_or_concat' c).resolve_left hcne
  obtain ⟨hledC, hlogC⟩ := hc frontC eC (List.prefix_refl _)
  rw [lastTerm_concat] at hup
  rcases hup with hlt | ⟨heq, hlen⟩
  · have hmid := hall (termOf eC) (by omega) (hcU eC (by simp)) hledC
    rcases Nat.le_total (w.upTo T (k + 1)).length (frontC ++ [eC]).length with hshort | hlong
    · exact List.prefix_of_prefix_length_le hmid hlogC hshort
    · have hback := List.prefix_of_prefix_length_le hlogC hmid hlong
      have hin := hI.leaderLog_le T hT eC (mem_of_mem_upTo (hback.subset (by simp)))
      omega
  · rw [← heq] at hlogC
    exact hle.trans (List.prefix_of_prefix_length_le hlog hlogC hlen)

/-- The prefixes that no quorum can acknowledge any more, seen from a new leader. -/
theorem complete_elect (hI : Inv termOf Q w) {p : ν} {T k : Nat} {l : List ε} (hfresh : ¬ w.led (w.term p))
    (hstood : w.stood p (w.term p) l) (hquorum : Q.IsQuorum fun v => ∃ l, w.voted v (w.term p) p l)
    (hT : w.led T) (hlt : T < w.term p) (hk : (w.leaderLog T)[k]?.map termOf = some T) :
    w.upTo T (k + 1) <+: l ∨ Q.IsQuorum fun v => T < w.term v ∧ ¬ w.acked v T (w.upTo T (k + 1)) := by
  by_cases hall : ∀ V, T < V → V < w.term p → w.led V → w.upTo T (k + 1) <+: w.leaderLog V
  swap
  · simp only [not_forall] at hall
    obtain ⟨V, hTV, hVU, hV, hn⟩ := hall
    exact .inr ((hI.complete T V k hT hV hTV hk).resolve_left hn)
  by_cases hle : w.upTo T (k + 1) <+: l
  · exact .inl hle
  refine .inr (Q.mono ?_ hquorum)
  rintro v ⟨lv, hv⟩
  refine ⟨Nat.lt_of_lt_of_le hlt (hI.voted_le v _ p lv hv), fun hack => hle ?_⟩
  obtain ⟨hmatch, c, hc, hup⟩ := hI.voted_log v _ p lv hv
  obtain rfl := hI.stood_eq p _ c l hc hstood
  obtain ⟨hcm, hcU⟩ := hI.stood_log p _ c hc
  refine hup.carries hI hmatch hcm hcU hT hk ?_ hall
  rcases hI.voted_acked v _ p lv T _ hv (endsIn_upTo hk) hack hlt with hcarried | ⟨V, hTV, hVU, hV, hn⟩
  · exact hcarried
  · have hne : V ≠ w.term p := fun he => hfresh (he ▸ hV)
    have hne' : T ≠ V := by
      rintro rfl
      exact hn (List.take_prefix _ _)
    exact absurd (hall V (by omega) (by omega) hV) hn

/-- Nothing has happened yet. -/
def initial (ν ε : Type) : World ν ε where
  led _ := False
  leaderLog _ := []
  term _ := 0
  log _ := []
  acked _ _ _ := False
  stood _ _ _ := False
  voted _ _ _ _ := False

theorem inv_initial (termOf : ε → Nat) (Q : QuorumSystem ν) : Inv termOf Q (initial ν ε) where
  logs _ := .nil _
  log_le _ _ he := by cases he
  leaderLogs _ hT := hT.elim
  leaderLog_le _ hT := hT.elim
  stood_le _ _ _ hs := hs.elim
  stood_eq _ _ _ _ hs := hs.elim
  stood_log _ _ _ hs := hs.elim
  stood_voted _ _ _ hs := hs.elim
  voted_le _ _ _ _ hv := hv.elim
  voted_log _ _ _ _ hv := hv.elim
  voted_acked _ _ _ _ _ _ hv := hv.elim
  acked_le _ _ _ ha := ha.elim
  acked_matches _ _ _ ha := ha.elim
  acked_of_le _ _ _ _ ha := ha.elim
  acked_log _ _ _ _ ha := ha.elim
  elected _ hU := hU.elim
  complete _ _ _ hT := hT.elim

section Steps

variable [DecidableEq ν]

theorem le_update {f : ν → Nat} {p : ν} {t : Nat} (h : f p ≤ t) (q : ν) : f q ≤ Function.update f p t q := by
  by_cases hq : q = p
  · rw [hq, Function.update_self]
    exact h
  · rw [Function.update_of_ne hq]

theorem inv_adopt (hI : Inv termOf Q w) (p : ν) (t : Nat) (hle : w.term p ≤ t) :
    Inv termOf Q { w with term := Function.update w.term p t } := by
  have hge := le_update hle
  exact {
    logs := hI.logs
    log_le := fun q e he => (hI.log_le q e he).trans (hge q)
    leaderLogs := hI.leaderLogs
    leaderLog_le := hI.leaderLog_le
    stood_le := fun q T l h => (hI.stood_le q T l h).trans (hge q)
    stood_eq := hI.stood_eq
    stood_log := hI.stood_log
    stood_voted := hI.stood_voted
    voted_le := fun v T c l h => (hI.voted_le v T c l h).trans (hge v)
    voted_log := hI.voted_log
    voted_acked := hI.voted_acked
    acked_le := fun v T f h => ⟨(hI.acked_le v T f h).1.trans (hge v), (hI.acked_le v T f h).2⟩
    acked_matches := hI.acked_matches
    acked_of_le := hI.acked_of_le
    acked_log := fun v T f hend h =>
      (hI.acked_log v T f hend h).grows (Grows.refl _) (hI.acked_matches v T f h) (hge v) id
    elected := fun U hU => Q.mono (fun v hv => Nat.le_trans hv (hge v)) (hI.elected U hU)
    complete := fun T U k hT hU hlt hk => (hI.complete T U k hT hU hlt hk).imp_right
      (Q.mono fun v hv => ⟨Nat.lt_of_lt_of_le hv.1 (hge v), hv.2⟩) }

theorem inv_stand (hI : Inv termOf Q w) (p : ν) (t : Nat) (hle : w.term p ≤ t) (hfresh : ∀ l, ¬ w.stood p t l)
    (hnew : ∀ e ∈ w.log p, termOf e < t) : Inv termOf Q
    { w with
      term := Function.update w.term p t
      stood := fun q T l => (q = p ∧ T = t ∧ l = w.log p) ∨ w.stood q T l
      voted := fun q T c l => (q = p ∧ T = t ∧ c = p ∧ l = w.log p) ∨ w.voted q T c l } := by
  have hA := inv_adopt hI p t hle
  exact {
    logs := hA.logs
    log_le := hA.log_le
    leaderLogs := hA.leaderLogs
    leaderLog_le := hA.leaderLog_le
    acked_le := hA.acked_le
    acked_matches := hA.acked_matches
    acked_of_le := hA.acked_of_le
    acked_log := hA.acked_log
    elected := hA.elected
    complete := hA.complete
    stood_le := by
      rintro q T l (⟨rfl, rfl, rfl⟩ | h)
      · simp
      · exact hA.stood_le q T l h
    stood_eq := by
      rintro q T l l' (⟨rfl, rfl, rfl⟩ | h) (⟨hq, hT, hl⟩ | h')
      · exact hl.symm
      · exact absurd h' (hfresh l')
      · subst hq hT
        exact absurd h (hfresh l)
      · exact hI.stood_eq q T l l' h h'
    stood_log := by
      rintro q T l (⟨rfl, rfl, rfl⟩ | h)
      · exact ⟨hI.logs q, hnew⟩
      · exact hI.stood_log q T l h
    stood_voted := by
      rintro q T l (⟨rfl, rfl, rfl⟩ | h)
      · exact .inl ⟨rfl, rfl, rfl, rfl⟩
      · exact .inr (hI.stood_voted q T l h)
    voted_le := by
      rintro v T c l (⟨rfl, rfl, rfl, rfl⟩ | h)
      · simp
      · exact hA.voted_le v T c l h
    voted_log := by
      rintro v T c l (⟨rfl, rfl, rfl, rfl⟩ | h)
      · exact ⟨hI.logs c, w.log c, .inl ⟨rfl, rfl, rfl⟩, .inr ⟨rfl, le_refl _⟩⟩
      · obtain ⟨hm, l', hl', hup⟩ := hI.voted_log v T c l h
        exact ⟨hm, l', .inr hl', hup⟩
    voted_acked := by
      rintro v U c l T f (⟨rfl, rfl, rfl, rfl⟩ | h) hend hack hlt
      · exact (hI.acked_log c T f hend hack).grows (Grows.refl _) (hI.acked_matches c T f hack) hle id
      · exact hI.voted_acked v U c l T f h hend hack hlt }

omit [DecidableEq ν] in
theorem inv_vote (hI : Inv termOf Q w) (v c : ν) (l : List ε) (hstood : w.stood c (w.term v) l)
    (hlog : UpToDate termOf (w.log v) l) : Inv termOf Q
    { w with voted := fun q T d l => (q = v ∧ T = w.term v ∧ d = c ∧ l = w.log v) ∨ w.voted q T d l } :=
  { logs := hI.logs
    log_le := hI.log_le
    leaderLogs := hI.leaderLogs
    leaderLog_le := hI.leaderLog_le
    stood_le := hI.stood_le
    stood_eq := hI.stood_eq
    stood_log := hI.stood_log
    acked_le := hI.acked_le
    acked_matches := hI.acked_matches
    acked_of_le := hI.acked_of_le
    acked_log := hI.acked_log
    elected := hI.elected
    complete := hI.complete
    voted_le := by
      rintro q T d l' (⟨rfl, rfl, rfl, rfl⟩ | h)
      · exact le_refl _
      · exact hI.voted_le q T d l' h
    voted_log := by
      rintro q T d l' (⟨rfl, rfl, rfl, rfl⟩ | h)
      · exact ⟨hI.logs q, l, hstood, hlog⟩
      · exact hI.voted_log q T d l' h
    stood_voted := fun q T l h => .inr (hI.stood_voted q T l h)
    voted_acked := by
      rintro q U d l' T f (⟨rfl, rfl, rfl, rfl⟩ | h) hend hack hlt
      · exact hI.acked_log q T f hend hack
      · exact hI.voted_acked q U d l' T f h hend hack hlt }

omit [DecidableEq ν] in
theorem inv_elect (hI : Inv termOf Q w) (p : ν) (hfresh : ¬ w.led (w.term p))
    (hstood : w.stood p (w.term p) (w.log p)) (hquorum : Q.IsQuorum fun v => ∃ l, w.voted v (w.term p) p l) :
    Inv termOf Q { w with toLeaders := w.toLeaders.elect (w.term p) (w.log p) } := by
  have hne : ∀ T, w.led T → T ≠ w.term p := fun T hT he => hfresh (he ▸ hT)
  have hsame : ∀ T, w.led T → (w.toLeaders.elect (w.term p) (w.log p)).leaderLog T = w.leaderLog T :=
    fun T hT => leaderLog_elect_of_ne (hne T hT)
  have hself : (w.toLeaders.elect (w.term p) (w.log p)).leaderLog (w.term p) = w.log p := leaderLog_elect_self
  have hg : Grows termOf w.toLeaders (w.toLeaders.elect (w.term p) (w.log p)) :=
    grows_elect fun h => absurd h hfresh
  obtain ⟨hmatch, hsmall⟩ := hI.stood_log p _ _ hstood
  exact {
    logs := fun q => hg.matches_log (hI.logs q)
    log_le := hI.log_le
    leaderLogs := matches_leaderLog_elect hI.leaderLogs (fun h => absurd h hfresh) hmatch
    leaderLog_le := by
      rintro T (rfl | hT) e he
      · simp only [hself] at he
        exact Nat.le_of_lt (hsmall e he)
      · simp only [hsame T hT] at he
        exact hI.leaderLog_le T hT e he
    stood_le := hI.stood_le
    stood_eq := hI.stood_eq
    stood_log := fun q T l h => ⟨hg.matches_log (hI.stood_log q T l h).1, (hI.stood_log q T l h).2⟩
    stood_voted := hI.stood_voted
    voted_le := hI.voted_le
    voted_log := fun v T c l h => ⟨hg.matches_log (hI.voted_log v T c l h).1, (hI.voted_log v T c l h).2⟩
    voted_acked := fun v U c l T f h hend hack hlt => (hI.voted_acked v U c l T f h hend hack hlt).grows hg
      (hI.acked_matches v T f hack) (le_refl _) id
    acked_le := hI.acked_le
    acked_matches := fun v T f h => hg.matches_log (hI.acked_matches v T f h)
    acked_of_le := hI.acked_of_le
    acked_log := fun v T f hend h => (hI.acked_log v T f hend h).grows hg (hI.acked_matches v T f h) (le_refl _) id
    elected := by
      rintro U (rfl | hU)
      · refine Q.mono ?_ hquorum
        rintro v ⟨l, hv⟩
        exact hI.voted_le v _ p l hv
      · exact hI.elected U hU
    complete := by
      rintro T U k (rfl | hT) hU hlt hk
      · exfalso
        simp only [hself] at hk
        obtain ⟨e, he, heT⟩ := Option.map_eq_some_iff.mp hk
        have := hsmall e (List.mem_of_getElem? he)
        omega
      · simp only [hsame T hT] at hk
        have hupTo := hg.upTo_eq hT (k := k + 1) (by
          obtain ⟨e, he, -⟩ := Option.map_eq_some_iff.mp hk
          exact (List.getElem?_eq_some_iff.mp he).1)
        rw [hupTo]
        rcases hU with rfl | hU
        · simp only [hself]
          exact complete_elect hI hfresh hstood hquorum hT hlt hk
        · simp only [hsame U hU]
          exact hI.complete T U k hT hU hlt hk }

theorem inv_extend (hI : Inv termOf Q w) (p : ν) (e : ε) (hled : w.led (w.term p))
    (hlog : w.log p = w.leaderLog (w.term p)) (hterm : termOf e = w.term p) : Inv termOf Q
    { w with
      toLeaders := w.toLeaders.extend (w.term p) e
      log := Function.update w.log p (w.log p ++ [e]) } := by
  have hg : Grows termOf w.toLeaders (w.toLeaders.extend (w.term p) e) := grows_extend hterm
  have hnew : Matches termOf (w.toLeaders.extend (w.term p) e) (w.leaderLog (w.term p) ++ [e]) :=
    (hI.leaderLogs _ hled).extend hled hterm
  have hself : (w.toLeaders.extend (w.term p) e).leaderLog (w.term p) = w.leaderLog (w.term p) ++ [e] :=
    leaderLog_extend_self
  have hother : ∀ T, T ≠ w.term p → (w.toLeaders.extend (w.term p) e).leaderLog T = w.leaderLog T :=
    fun T hT => leaderLog_extend_of_ne hT
  have hmono : ∀ v, w.log v <+: Function.update w.log p (w.log p ++ [e]) v := by
    intro v
    by_cases hv : v = p
    · rw [hv, Function.update_self]
      exact List.prefix_append _ _
    · rw [Function.update_of_ne hv]
  exact {
    logs := by
      intro q
      by_cases hq : q = p
      · simp only [hq, Function.update_self, hlog]
        exact hnew
      · simp only [Function.update_of_ne hq]
        exact hg.matches_log (hI.logs q)
    log_le := by
      intro q x hx
      by_cases hq : q = p
      · simp only [hq, Function.update_self] at hx
        rcases List.mem_append.mp hx with hx | hx
        · exact hq ▸ hI.log_le p x hx
        · rw [List.mem_singleton.mp hx, hterm, hq]
      · simp only [Function.update_of_ne hq] at hx
        exact hI.log_le q x hx
    leaderLogs := matches_leaderLog_extend hI.leaderLogs hled hterm
    leaderLog_le := by
      intro T hT x hx
      by_cases hTp : T = w.term p
      · simp only [hTp, hself] at hx
        rcases List.mem_append.mp hx with hx | hx
        · exact hTp ▸ hI.leaderLog_le _ hled x hx
        · rw [List.mem_singleton.mp hx, hterm, hTp]
      · simp only [hother T hTp] at hx
        exact hI.leaderLog_le T hT x hx
    stood_le := hI.stood_le
    stood_eq := hI.stood_eq
    stood_log := fun q T l h => ⟨hg.matches_log (hI.stood_log q T l h).1, (hI.stood_log q T l h).2⟩
    stood_voted := hI.stood_voted
    voted_le := hI.voted_le
    voted_log := fun v T c l h => ⟨hg.matches_log (hI.voted_log v T c l h).1, (hI.voted_log v T c l h).2⟩
    voted_acked := fun v U c l T f h hend hack hlt => (hI.voted_acked v U c l T f h hend hack hlt).grows hg
      (hI.acked_matches v T f hack) (le_refl _) id
    acked_le := hI.acked_le
    acked_matches := fun v T f h => hg.matches_log (hI.acked_matches v T f h)
    acked_of_le := hI.acked_of_le
    acked_log := fun v T f hend h => (hI.acked_log v T f hend h).grows hg (hI.acked_matches v T f h) (le_refl _)
      fun hle => hle.trans (hmono v)
    elected := hI.elected
    complete := by
      intro T U k hT hU hlt hk
      by_cases hlen : k < (w.leaderLog T).length
      · have hkey : (w.leaderLog T)[k]?.map termOf = some T := by
          obtain ⟨es, hes⟩ := hg.leaderLog_le hT
          rw [← hes, List.getElem?_append_left hlen] at hk
          exact hk
        rw [hg.upTo_eq hT hlen]
        exact (hI.complete T U k hT hU hlt hkey).imp_left fun hle => hle.trans (hg.leaderLog_le hU)
      · refine .inr (Q.mono (fun v hv => ⟨Nat.lt_of_lt_of_le hlt hv, ?_⟩) (hI.elected U hU))
        obtain ⟨x, hx, -⟩ := Option.map_eq_some_iff.mp hk
        intro hack
        refine not_le_of_grows hg (hI.acked_matches v T _ hack) hT (fun hle => ?_) (List.take_prefix _ _)
        have := hle.length_le
        rw [upTo, List.length_take_of_le (List.getElem?_eq_some_iff.mp hx).1] at this
        omega }

theorem inv_accept (hI : Inv termOf Q w) (p : ν) (l : List ε) (hl : Matches termOf w.toLeaders l)
    (hle : ∀ e ∈ l, termOf e ≤ w.term p)
    (hkeep : ∀ T f, EndsIn termOf T f → w.acked p T f → f <+: w.log p → w.CarriedTo T f (w.term p) l) :
    Inv termOf Q { w with log := Function.update w.log p l } :=
  { leaderLogs := hI.leaderLogs
    leaderLog_le := hI.leaderLog_le
    stood_le := hI.stood_le
    stood_eq := hI.stood_eq
    stood_log := hI.stood_log
    stood_voted := hI.stood_voted
    voted_le := hI.voted_le
    voted_log := hI.voted_log
    voted_acked := hI.voted_acked
    acked_le := hI.acked_le
    acked_matches := hI.acked_matches
    acked_of_le := hI.acked_of_le
    elected := hI.elected
    complete := hI.complete
    logs := by
      intro q
      by_cases hq : q = p
      · simp only [hq, Function.update_self]
        exact hl
      · simp only [Function.update_of_ne hq]
        exact hI.logs q
    log_le := by
      intro q x hx
      by_cases hq : q = p
      · simp only [hq, Function.update_self] at hx
        exact hq ▸ hle x hx
      · simp only [Function.update_of_ne hq] at hx
        exact hI.log_le q x hx
    acked_log := by
      intro v T f hend hack
      by_cases hv : v = p
      · subst hv
        simp only [CarriedTo, Function.update_self]
        rcases hI.acked_log v T f hend hack with hcarried | hmissed
        · exact hkeep T f hend hack hcarried
        · exact .inr hmissed
      · simp only [CarriedTo, Function.update_of_ne hv]
        exact hI.acked_log v T f hend hack }

omit [DecidableEq ν] in
theorem inv_ack (hI : Inv termOf Q w) (p : ν) : Inv termOf Q
    { w with acked := fun q T f => (q = p ∧ T = w.term p ∧ f <+: w.log p) ∨ w.acked q T f } :=
  { logs := hI.logs
    log_le := hI.log_le
    leaderLogs := hI.leaderLogs
    leaderLog_le := hI.leaderLog_le
    stood_le := hI.stood_le
    stood_eq := hI.stood_eq
    stood_log := hI.stood_log
    stood_voted := hI.stood_voted
    voted_le := hI.voted_le
    voted_log := hI.voted_log
    elected := hI.elected
    voted_acked := by
      rintro v U c l T f hv hend (⟨rfl, rfl, hf⟩ | hack) hlt
      · have := hI.voted_le v U c l hv
        omega
      · exact hI.voted_acked v U c l T f hv hend hack hlt
    acked_le := by
      rintro v T f (⟨rfl, rfl, hf⟩ | hack)
      · exact ⟨le_refl _, fun e he => hI.log_le v e (hf.subset he)⟩
      · exact hI.acked_le v T f hack
    acked_matches := by
      rintro v T f (⟨rfl, rfl, hf⟩ | hack)
      · exact (hI.logs v).of_le hf
      · exact hI.acked_matches v T f hack
    acked_of_le := by
      rintro v T f f' (⟨rfl, rfl, hf⟩ | hack) hle
      · exact .inl ⟨rfl, rfl, hle.trans hf⟩
      · exact .inr (hI.acked_of_le v T f f' hack hle)
    acked_log := by
      rintro v T f hend (⟨rfl, rfl, hf⟩ | hack)
      · exact .inl hf
      · exact hI.acked_log v T f hend hack
    complete := by
      intro T U k hT hU hlt hk
      refine (hI.complete T U k hT hU hlt hk).imp_right (Q.mono ?_)
      rintro v ⟨hterm, hnot⟩
      refine ⟨hterm, ?_⟩
      rintro (⟨rfl, rfl, -⟩ | hack)
      · exact Nat.lt_irrefl _ hterm
      · exact hnot hack }

theorem inv_step {p : ν} (hI : Inv termOf Q w) (h : Step termOf Q p w w') : Inv termOf Q w' := by
  cases h with
  | adopt t hle => exact inv_adopt hI p t hle
  | stand t hle hfresh hnew => exact inv_stand hI p t hle hfresh hnew
  | vote c l hstood hlog => exact inv_vote hI p c l hstood hlog
  | elect hfresh hstood hquorum => exact inv_elect hI p hfresh hstood hquorum
  | extend e hled hlog hterm => exact inv_extend hI p e hled hlog hterm
  | accept l hl hle hkeep => exact inv_accept hI p l hl hle hkeep
  | ack => exact inv_ack hI p

end Steps

/-- What the steps of one node leave behind: nothing that is on record is taken back, and
the other nodes stay as they are. -/
structure Onward (termOf : ε → Nat) (p : ν) (w w' : World ν ε) : Prop where
  grows : Grows termOf w.toLeaders w'.toLeaders
  acked : ∀ v T f, w.acked v T f → w'.acked v T f
  stood : ∀ q T l, w.stood q T l → w'.stood q T l
  voted : ∀ v T c l, w.voted v T c l → w'.voted v T c l
  term : w.term p ≤ w'.term p
  others : ∀ q, q ≠ p → w'.term q = w.term q ∧ w'.log q = w.log q
  stood_others : ∀ q T l, q ≠ p → w'.stood q T l → w.stood q T l

theorem Onward.refl (termOf : ε → Nat) (p : ν) (w : World ν ε) : Onward termOf p w w :=
  ⟨Grows.refl _, fun _ _ _ => id, fun _ _ _ => id, fun _ _ _ _ => id, le_refl _, fun _ _ => ⟨rfl, rfl⟩, fun _ _ _ _ => id⟩

theorem Onward.trans {w'' : World ν ε} {p : ν} (h : Onward termOf p w w') (h' : Onward termOf p w' w'') :
    Onward termOf p w w'' where
  grows := h.grows.trans h'.grows
  acked v T f hf := h'.acked v T f (h.acked v T f hf)
  stood q T l hl := h'.stood q T l (h.stood q T l hl)
  voted v T c l hl := h'.voted v T c l (h.voted v T c l hl)
  term := h.term.trans h'.term
  others q hq := ⟨(h'.others q hq).1.trans (h.others q hq).1, (h'.others q hq).2.trans (h.others q hq).2⟩
  stood_others q T l hq hl := h.stood_others q T l hq (h'.stood_others q T l hq hl)

section Runs

variable [DecidableEq ν] {p : ν}

theorem Onward.term_le (h : Onward termOf p w w') (q : ν) : w.term q ≤ w'.term q := by
  by_cases hq : q = p
  · rw [hq]
    exact h.term
  · exact (h.others q hq).1.ge

theorem Step.onward (h : Step termOf Q p w w') : Onward termOf p w w' := by
  have hother : ∀ {α : Type} (f : ν → α) (x : α) (q : ν), q ≠ p → Function.update f p x q = f q :=
    fun f x q hq => Function.update_of_ne hq ..
  have hrefl := Onward.refl termOf p w
  cases h with
  | adopt t hle =>
    exact { hrefl with
      term := by simpa using hle
      others := fun q hq => ⟨hother _ _ q hq, rfl⟩ }
  | stand t hle hfresh hnew =>
    exact { hrefl with
      stood := fun _ _ _ => .inr
      voted := fun _ _ _ _ => .inr
      term := by simpa using hle
      others := fun q hq => ⟨hother _ _ q hq, rfl⟩
      stood_others := fun q T l hq h => h.resolve_left fun hx => hq hx.1 }
  | vote c l hstood hlog => exact { hrefl with voted := fun _ _ _ _ => .inr }
  | elect hfresh hstood hquorum => exact { hrefl with grows := grows_elect fun h => absurd h hfresh }
  | extend e hled hlog hterm =>
    exact { hrefl with
      grows := grows_extend hterm
      others := fun q hq => ⟨rfl, hother _ _ q hq⟩ }
  | accept l hl hle hkeep => exact { hrefl with others := fun q hq => ⟨rfl, hother _ _ q hq⟩ }
  | ack => exact { hrefl with acked := fun _ _ _ => .inr }

/-- What one node can do in several steps. -/
def Steps (termOf : ε → Nat) (Q : QuorumSystem ν) (p : ν) : World ν ε → World ν ε → Prop :=
  Relation.ReflTransGen (Step termOf Q p)

theorem Steps.refl (w : World ν ε) : Steps termOf Q p w w := Relation.ReflTransGen.refl

theorem Steps.single (h : Step termOf Q p w w') : Steps termOf Q p w w' :=
  Relation.ReflTransGen.single h

theorem Steps.next {w'' : World ν ε} (h : Steps termOf Q p w w') (h' : Step termOf Q p w' w'') : Steps termOf Q p w w'' :=
  Relation.ReflTransGen.tail h h'

theorem Steps.trans {w'' : World ν ε} (h : Steps termOf Q p w w') (h' : Steps termOf Q p w' w'') :
    Steps termOf Q p w w'' :=
  Relation.ReflTransGen.trans h h'

theorem Steps.inv (h : Steps termOf Q p w w') (hI : Inv termOf Q w) : Inv termOf Q w' := by
  induction h with
  | refl => exact hI
  | tail _ hstep ih => exact inv_step ih hstep

theorem Steps.onward (h : Steps termOf Q p w w') : Onward termOf p w w' := by
  induction h with
  | refl => exact .refl termOf p w
  | tail _ hstep ih => exact ih.trans hstep.onward

end Runs

/-! ## Commitment -/

/-- The leader of `T` may commit its first `k` entries: the last of them is its own, and a
quorum has acknowledged them. -/
structure Committed (termOf : ε → Nat) (Q : QuorumSystem ν) (w : World ν ε) (T k : Nat) : Prop where
  led : w.led T
  own : ∃ j e, k = j + 1 ∧ (w.leaderLog T)[j]? = some e ∧ termOf e = T
  quorum : Q.IsQuorum fun v => w.acked v T (w.upTo T k)

theorem Committed.le_length {T k : Nat} (h : Committed termOf Q w T k) : k ≤ (w.leaderLog T).length := by
  obtain ⟨j, e, rfl, he, -⟩ := h.own
  exact (List.getElem?_eq_some_iff.mp he).1

theorem Committed.grows {T k : Nat} (h : Committed termOf Q w T k) (hg : Grows termOf w.toLeaders w'.toLeaders)
    (hack : ∀ v T f, w.acked v T f → w'.acked v T f) : Committed termOf Q w' T k := by
  have hk := h.le_length
  obtain ⟨j, e, rfl, he, hterm⟩ := h.own
  refine ⟨(hg T h.led).1, ⟨j, e, rfl, ?_, hterm⟩, Q.mono (fun v hv => ?_) h.quorum⟩
  · obtain ⟨es, hes⟩ := hg.leaderLog_le h.led
    rw [← hes, List.getElem?_append_left (List.getElem?_eq_some_iff.mp he).1]
    exact he
  · rw [hg.upTo_eq h.led hk]
    exact hack v T _ hv

/-- Leader completeness. -/
theorem Committed.upTo_le (hI : Inv termOf Q w) {T U k : Nat} (h : Committed termOf Q w T k) (hU : w.led U)
    (hle : T ≤ U) : w.upTo T k <+: w.leaderLog U := by
  rcases Nat.eq_or_lt_of_le hle with rfl | hlt
  · exact List.take_prefix _ _
  obtain ⟨j, e, rfl, he, hterm⟩ := h.own
  rcases hI.complete T U j h.led hU hlt (by rw [he, Option.map_some, hterm]) with hin | hquorum
  · exact hin
  · obtain ⟨v, hack, -, hnot⟩ := Q.meet h.quorum hquorum
    exact absurd hack hnot

/-- The log is the front of what a leader up to the term may commit. -/
def Sealed (termOf : ε → Nat) (Q : QuorumSystem ν) (w : World ν ε) (T : Nat) (l : List ε) : Prop :=
  l = [] ∨ ∃ U k, U ≤ T ∧ Committed termOf Q w U k ∧ l <+: w.upTo U k

theorem Sealed.nil (T : Nat) : Sealed termOf Q w T [] := .inl rfl

theorem Sealed.of_le {T : Nat} {l l' : List ε} (h : Sealed termOf Q w T l) (hle : l' <+: l) : Sealed termOf Q w T l' := by
  rcases h with rfl | ⟨U, k, hU, hk, hl⟩
  · exact .inl (List.prefix_nil.mp hle)
  · exact .inr ⟨U, k, hU, hk, hle.trans hl⟩

theorem Sealed.mono {T T' : Nat} {l : List ε} (h : Sealed termOf Q w T l) (hle : T ≤ T') : Sealed termOf Q w T' l := by
  rcases h with rfl | ⟨U, k, hU, hk, hl⟩
  · exact .nil T'
  · exact .inr ⟨U, k, hU.trans hle, hk, hl⟩

theorem Sealed.onward {p : ν} {T : Nat} {l : List ε} (h : Sealed termOf Q w T l) (ho : Onward termOf p w w') :
    Sealed termOf Q w' T l := by
  rcases h with rfl | ⟨U, k, hU, hk, hl⟩
  · exact .nil T
  · refine .inr ⟨U, k, hU, hk.grows ho.grows ho.acked, ?_⟩
    rw [ho.grows.upTo_eq hk.led hk.le_length]
    exact hl

/-- Every leader from the term on has it. -/
theorem Sealed.le_leaderLog (hI : Inv termOf Q w) {T V : Nat} {l : List ε} (h : Sealed termOf Q w T l) (hV : w.led V)
    (hle : T ≤ V) : l <+: w.leaderLog V := by
  rcases h with rfl | ⟨U, k, hU, hk, hl⟩
  · exact List.nil_prefix
  · exact hl.trans (hk.upTo_le hI hV (hU.trans hle))

theorem Sealed.matches_log (hI : Inv termOf Q w) {T : Nat} {l : List ε} (h : Sealed termOf Q w T l) :
    Matches termOf w.toLeaders l := by
  rcases h with rfl | ⟨U, k, -, hk, hl⟩
  · exact .nil _
  · exact (hI.leaderLogs U hk.led).of_le (hl.trans (List.take_prefix _ _))

theorem Sealed.term_le (hI : Inv termOf Q w) {T : Nat} {l : List ε} (h : Sealed termOf Q w T l) {e : ε} (he : e ∈ l) :
    termOf e ≤ T := by
  rcases h with rfl | ⟨U, k, hU, hk, hl⟩
  · cases he
  · exact (hI.leaderLog_le U hk.led e (mem_of_mem_upTo (hl.subset he))).trans hU

/-- What is committed anywhere is one sequence. -/
theorem Sealed.le_total (hI : Inv termOf Q w) {T T' : Nat} {l l' : List ε} (h : Sealed termOf Q w T l)
    (h' : Sealed termOf Q w T' l') : l <+: l' ∨ l' <+: l := by
  rcases h with rfl | ⟨U, k, -, hk, hl⟩
  · exact .inl List.nil_prefix
  rcases h' with rfl | ⟨U', k', -, hk', hl'⟩
  · exact .inr List.nil_prefix
  rcases Nat.le_total U U' with hle | hle
  · exact List.prefix_or_prefix_of_prefix (hl.trans (hk.upTo_le hI hk'.led hle)) (hl'.trans (List.take_prefix _ _))
  · exact List.prefix_or_prefix_of_prefix (hl.trans (List.take_prefix _ _)) (hl'.trans (hk'.upTo_le hI hk.led hle))

/-- Where every quorum has a node, the log of the node has everything that is committed. -/
theorem Sealed.le_log (hI : Inv termOf Q w) {p : ν} (hp : ∀ A, Q.IsQuorum A → A p) {T : Nat} {l : List ε}
    (h : Sealed termOf Q w T l) : l <+: w.log p := by
  rcases h with rfl | ⟨U, k, -, hk, hl⟩
  · exact List.nil_prefix
  obtain ⟨j, e, rfl, he, hterm⟩ := hk.own
  have hend : EndsIn termOf U (w.upTo U (j + 1)) := endsIn_upTo (by rw [he, Option.map_some, hterm])
  rcases hI.acked_log p U _ hend (hp _ hk.quorum) with hle | ⟨V, hUV, -, hV, hn⟩
  · exact hl.trans hle
  · exact absurd (hk.upTo_le hI hV hUV) hn

/-- The first entries of the log are committed. -/
def SealedTo (termOf : ε → Nat) (Q : QuorumSystem ν) (w : World ν ε) (T : Nat) (l : List ε) (k : Nat) : Prop :=
  k ≤ l.length ∧ Sealed termOf Q w T (l.take k)

theorem SealedTo.zero (T : Nat) (l : List ε) : SealedTo termOf Q w T l 0 := ⟨Nat.zero_le _, .nil T⟩

theorem SealedTo.mono {T T' k : Nat} {l : List ε} (h : SealedTo termOf Q w T l k) (hle : T ≤ T') :
    SealedTo termOf Q w T' l k := ⟨h.1, h.2.mono hle⟩

theorem SealedTo.onward {p : ν} {T k : Nat} {l : List ε} (h : SealedTo termOf Q w T l k) (ho : Onward termOf p w w') :
    SealedTo termOf Q w' T l k := ⟨h.1, h.2.onward ho⟩

theorem SealedTo.of_le {T k k' : Nat} {l : List ε} (h : SealedTo termOf Q w T l k) (hle : k' ≤ k) :
    SealedTo termOf Q w T l k' :=
  ⟨hle.trans h.1, h.2.of_le (List.take_prefix_take_left hle)⟩

theorem SealedTo.keep {T k : Nat} {l l' : List ε} (h : SealedTo termOf Q w T l k) (hl : l.take k <+: l') :
    SealedTo termOf Q w T l' k := by
  have hlen : (l.take k).length = k := List.length_take_of_le h.1
  have hle := hl.length_le
  have hsame := List.prefix_iff_eq_take.mp hl
  rw [hlen] at hsame
  exact ⟨by omega, hsame ▸ h.2⟩

theorem Sealed.sealedTo {T : Nat} {s l : List ε} (h : Sealed termOf Q w T s) (hle : s <+: l) :
    SealedTo termOf Q w T l s.length :=
  ⟨hle.length_le, by rw [← List.prefix_iff_eq_take.mp hle]; exact h⟩

/-- The leader of the term has the log, or it is committed. -/
def Upheld (termOf : ε → Nat) (Q : QuorumSystem ν) (w : World ν ε) (T : Nat) (l : List ε) : Prop :=
  (w.led T ∧ l <+: w.leaderLog T) ∨ Sealed termOf Q w T l

theorem Upheld.of_le {T : Nat} {l l' : List ε} (h : Upheld termOf Q w T l) (hle : l' <+: l) : Upheld termOf Q w T l' :=
  h.imp (fun hl => ⟨hl.1, hle.trans hl.2⟩) fun hs => hs.of_le hle

theorem Upheld.onward {p : ν} {T : Nat} {l : List ε} (h : Upheld termOf Q w T l) (ho : Onward termOf p w w') :
    Upheld termOf Q w' T l :=
  h.imp (fun hl => ⟨(ho.grows T hl.1).1, hl.2.trans (ho.grows.leaderLog_le hl.1)⟩) fun hs => hs.onward ho

theorem Upheld.le_total (hI : Inv termOf Q w) {T T' : Nat} {l s : List ε} (h : Upheld termOf Q w T l)
    (hs : Sealed termOf Q w T' s) (hle : T' ≤ T) : l <+: s ∨ s <+: l := by
  rcases h with ⟨hled, hl⟩ | hl
  · exact List.prefix_or_prefix_of_prefix hl (hs.le_leaderLog hI hled hle)
  · exact hl.le_total hI hs

/-- A node that keeps its log drops nothing. -/
theorem keeps_of_le {p : ν} {l : List ε} (hl : w.log p <+: l) (T : Nat) (f : List ε) (hf : f <+: w.log p) :
    w.CarriedTo T f (w.term p) l := .inl (hf.trans hl)

/-- A node that takes over what its leader upholds drops nothing that a leader has together
with that. -/
theorem Upheld.keeps (hI : Inv termOf Q w) {p : ν} {l : List ε} (h : Upheld termOf Q w (w.term p) l)
    (hkeep : ∀ f V, f <+: w.log p → f <+: w.leaderLog V → l <+: w.leaderLog V → f <+: l) (T : Nat) (f : List ε)
    (hend : EndsIn termOf T f) (hack : w.acked p T f) (hf : f <+: w.log p) : w.CarriedTo T f (w.term p) l := by
  have hle := (hI.acked_le p T f hack).1
  obtain ⟨hled, hlog⟩ := hend.le_leaderLog (hI.acked_matches p T f hack)
  have hmissed : ∀ V, T ≤ V → V ≤ w.term p → w.led V → l <+: w.leaderLog V → w.CarriedTo T f (w.term p) l := by
    intro V hTV hVp hV hl
    by_cases hin : f <+: w.leaderLog V
    · exact .inl (hkeep f V hf hin hl)
    · exact .inr ⟨V, hTV, hVp, hV, hin⟩
  rcases h with ⟨hp, hl⟩ | rfl | ⟨U, k, hU, hk, hl⟩
  · exact hmissed _ hle (le_refl _) hp hl
  · exact .inl (hkeep f T hf hlog List.nil_prefix)
  rcases Nat.le_total T U with hTU | hUT
  · exact hmissed U hTU hU hk.led (hl.trans (List.take_prefix _ _))
  · exact .inl (hkeep f T hf hlog (hl.trans (hk.upTo_le hI hled hUT)))

/-- A leader of the term disagrees with the front. -/
def Overruled (termOf : ε → Nat) (Q : QuorumSystem ν) (w : World ν ε) (T : Nat) (front : List ε) : Prop :=
  ∃ l, Upheld termOf Q w T l ∧ ¬ front <+: l ∧ ¬ l <+: front

theorem Overruled.onward {p : ν} {T : Nat} {f : List ε} (h : Overruled termOf Q w T f) (ho : Onward termOf p w w') :
    Overruled termOf Q w' T f := by
  obtain ⟨l, hl, hdiffer⟩ := h
  exact ⟨l, hl.onward ho, hdiffer⟩

/-- Two committed sequences have the same entry wherever both reach. -/
theorem Sealed.agree (hI : Inv termOf Q w) {T T' i : Nat} {l l' : List ε} {e e' : ε} (h : Sealed termOf Q w T l)
    (h' : Sealed termOf Q w T' l') (he : l[i]? = some e) (he' : l'[i]? = some e') : e = e' := by
  have hkey : ∀ {l l' : List ε} {e e' : ε}, l <+: l' → l[i]? = some e → l'[i]? = some e' → e = e' := by
    intro l l' e e' hle he he'
    obtain ⟨rest, rfl⟩ := hle
    rw [List.getElem?_append_left (List.getElem?_eq_some_iff.mp he).1, he] at he'
    exact Option.some.inj he'
  rcases h.le_total hI h' with hle | hle
  · exact hkey hle he he'
  · exact (hkey hle he' he).symm

end World

end Lib
