import Mathlib.Data.List.Infix
import Mathlib.Data.List.TakeDrop

/-!
# Repairing a log by probing

A sender brings the log of a receiver in line with its own. It keeps the next index to
send and the highest index that was acknowledged. Each round it sends one batch behind the
entry before the next index. The receiver refuses the batch if it does not have that entry,
and names the index to go on with: the end of its log, or the start of the run of entries
whose term is in conflict. Otherwise it merges the batch and acknowledges the end of its
log. The oldest entries of either side may be in a snapshot, which is sent as a whole.
-/

namespace Lib.LogRepair

variable {ε : Type}

/-- What the sender has: its log, how much of it a snapshot covers, and the size of a batch. -/
structure Sender (ε : Type) where
  log : List ε
  base : Nat
  batch : Nat

/-- The log of the receiver with the end of its snapshot, and what the sender has on record. -/
structure State (ε : Type) where
  log : List ε
  base : Nat
  next : Nat
  acked : Nat

variable (termOf : ε → Nat)

/-- Back up from an index to the first entry of a run of one term. -/
def runStart (t base : Nat) (log : List ε) : Nat → Nat
  | 0 => 0
  | i + 1 => if base < i ∧ (log[i - 1]?).map termOf = some t then runStart t base log i else i + 1

/-- The receiver walks through a batch: it skips what it has, appends what it misses, and
cuts its log at the first entry that disagrees. -/
def merge (log : List ε) (prev : Nat) : List ε → List ε
  | [] => log
  | e :: es =>
    match log[prev]? with
    | none => merge (log ++ [e]) (prev + 1) es
    | some x => if termOf x = termOf e then merge log (prev + 1) es else merge (log.take prev ++ [e]) (prev + 1) es

/-- The batch that starts behind an index. -/
def Sender.slice (s : Sender ε) (prev : Nat) : List ε := (s.log.drop prev).take s.batch

/-- The term of the entry of an index. -/
def termAt (log : List ε) (index : Nat) : Option Nat := (log[index - 1]?).map termOf

/-- One message and its answer; `none` if there is nothing to send. -/
def round (s : Sender ε) (σ : State ε) : Option (State ε) :=
  if 0 < s.base ∧ σ.next ≤ s.base then
    some { log := s.log.take s.base ++ σ.log.drop s.base, base := s.base, next := max σ.next (s.base + 1)
           acked := max σ.acked s.base }
  else if s.slice (σ.next - 1) = [] ∧ s.log.length ≤ σ.acked then none
  else if σ.log.length < σ.next - 1 then some { σ with next := σ.log.length + 1 }
  else if σ.next - 1 = 0 ∨ termAt termOf σ.log (σ.next - 1) = termAt termOf s.log (σ.next - 1) then
    let log := merge termOf σ.log (σ.next - 1) (s.slice (σ.next - 1))
    some { σ with log, next := max (σ.next + (s.slice (σ.next - 1)).length) (log.length + 1)
                  acked := max σ.acked log.length }
  else
    some { σ with next := runStart termOf ((termAt termOf σ.log (σ.next - 1)).getD 0) σ.base σ.log (σ.next - 1) }

def iterate (s : Sender ε) : Nat → State ε → State ε
  | 0, σ => σ
  | k + 1, σ => iterate s k ((round termOf s σ).getD σ)

/-- How many entries at the front of two logs have the same terms. -/
def common : List ε → List ε → Nat
  | x :: l, y :: f => if termOf x = termOf y then common l f + 1 else 0
  | _, _ => 0

/-- An entry of one index and term stands behind the same entries in both logs. -/
def Matching (l f : List ε) : Prop :=
  ∀ i x y, l[i]? = some x → f[i]? = some y → termOf x = termOf y → l.take (i + 1) = f.take (i + 1)

/-- The logs are the same up to a place, and disagree in every entry behind it. -/
structure Fork (l f : List ε) (c : Nat) : Prop where
  left : c ≤ l.length
  right : c ≤ f.length
  agree : l.take c = f.take c
  differ : ∀ i x y, c ≤ i → l[i]? = some x → f[i]? = some y → termOf x ≠ termOf y

variable {termOf} {l f : List ε} {c : Nat}

/-! ## Logs that match -/

theorem common_spec (termOf : ε → Nat) (l f : List ε) :
    common termOf l f ≤ l.length ∧ common termOf l f ≤ f.length ∧
      (∀ i x y, i < common termOf l f → l[i]? = some x → f[i]? = some y → termOf x = termOf y) ∧
      ∀ x y, l[common termOf l f]? = some x → f[common termOf l f]? = some y → termOf x ≠ termOf y := by
  induction l generalizing f with
  | nil => exact ⟨Nat.zero_le _, Nat.zero_le _, fun i x y hi => absurd hi (Nat.not_lt_zero i), fun x y hx => by cases hx⟩
  | cons a l ih =>
    cases f with
    | nil => exact ⟨Nat.zero_le _, Nat.zero_le _, fun i x y hi => absurd hi (Nat.not_lt_zero i), fun x y _ hy => by cases hy⟩
    | cons b f =>
      rw [common]
      split
      · next hterm =>
        obtain ⟨hl, hf, hsame, hdiff⟩ := ih f
        refine ⟨Nat.succ_le_succ hl, Nat.succ_le_succ hf, fun i x y hi hx hy => ?_, fun x y hx hy => ?_⟩
        · cases i with
          | zero =>
            cases hx
            cases hy
            exact hterm
          | succ i => exact hsame i x y (Nat.lt_of_succ_lt_succ hi) hx hy
        · exact hdiff x y hx hy
      · next hterm =>
        refine ⟨Nat.zero_le _, Nat.zero_le _, fun i x y hi => absurd hi (Nat.not_lt_zero i), fun x y hx hy => ?_⟩
        cases hx
        cases hy
        exact hterm

theorem Matching.fork (h : Matching termOf l f) : Fork termOf l f (common termOf l f) := by
  obtain ⟨hl, hf, hsame, hdiff⟩ := common_spec termOf l f
  refine ⟨hl, hf, ?_, fun i x y hi hx hy hterm => ?_⟩
  · cases hc : common termOf l f with
    | zero => rfl
    | succ k =>
      rw [hc] at hl hf hsame
      exact h k l[k] f[k] (List.getElem?_eq_getElem hl) (List.getElem?_eq_getElem hf)
        (hsame k _ _ (Nat.lt_succ_self k) (List.getElem?_eq_getElem hl) (List.getElem?_eq_getElem hf))
  · have htake := h i x y hx hy hterm
    have hlt : common termOf l f < i + 1 := by omega
    have hil := (List.getElem?_eq_some_iff.mp hx).1
    have hif := (List.getElem?_eq_some_iff.mp hy).1
    have hat : l[common termOf l f]? = f[common termOf l f]? := by
      rw [← List.getElem?_take_of_lt hlt, htake, List.getElem?_take_of_lt hlt]
    obtain ⟨z, hz⟩ : ∃ z, l[common termOf l f]? = some z :=
      ⟨_, List.getElem?_eq_getElem (show common termOf l f < l.length by omega)⟩
    exact hdiff z z hz (hat ▸ hz) rfl

theorem Fork.getElem? (h : Fork termOf l f c) {i : Nat} (hi : i < c) : l[i]? = f[i]? := by
  rw [← List.getElem?_take_of_lt hi, h.agree, List.getElem?_take_of_lt hi]

/-- The entry before the next index is there exactly up to the place where the logs part. -/
theorem Fork.termAt_eq_iff (h : Fork termOf l f c) {i : Nat} (hpos : 0 < i) (hl : i ≤ l.length) (hf : i ≤ f.length) :
    termAt termOf f i = termAt termOf l i ↔ i ≤ c := by
  unfold termAt
  have hx : l[i - 1]? = some l[i - 1] := List.getElem?_eq_getElem (by omega)
  have hy : f[i - 1]? = some f[i - 1] := List.getElem?_eq_getElem (by omega)
  constructor
  · intro hsame
    by_contra hgt
    rw [hx, hy] at hsame
    exact h.differ (i - 1) _ _ (by omega) hx hy (Option.some.inj hsame).symm
  · intro hle
    rw [h.getElem? (by omega)]

/-! ## Merging a batch -/

/-- The batch stands in the log behind an index. -/
def Stands (l : List ε) (prev : Nat) (es : List ε) : Prop := ∀ j e, es[j]? = some e → l[prev + j]? = some e

theorem Stands.head {prev : Nat} {e : ε} {es : List ε} (h : Stands l prev (e :: es)) : l[prev]? = some e := h 0 e rfl

theorem Stands.tail {prev : Nat} {e : ε} {es : List ε} (h : Stands l prev (e :: es)) : Stands l (prev + 1) es := by
  intro j x hx
  rw [Nat.add_assoc, Nat.add_comm 1 j]
  exact h (j + 1) x hx

theorem stands_slice (s : Sender ε) (prev : Nat) : Stands s.log prev (s.slice prev) := by
  intro j e he
  unfold Sender.slice at he
  rw [List.getElem?_take] at he
  split at he
  · rwa [List.getElem?_drop] at he
  · cases he

theorem take_succ_of_getElem? {prev : Nat} {e : ε} (h : l[prev]? = some e) : l.take (prev + 1) = l.take prev ++ [e] := by
  rw [List.take_add_one, h]
  rfl

theorem merge_append {prev : Nat} {es : List ε} (hes : Stands l prev es) (hprev : prev ≤ l.length) :
    merge termOf (l.take prev) prev es = l.take (prev + es.length) := by
  induction es generalizing prev with
  | nil => rfl
  | cons e es ih =>
    have hhead := hes.head
    rw [merge, List.getElem?_eq_none (List.length_take_le prev l)]
    dsimp only
    rw [← take_succ_of_getElem? hhead, ih hes.tail (List.getElem?_eq_some_iff.mp hhead).1, List.length_cons,
      Nat.add_assoc, Nat.add_comm 1]

/-- A batch from the common part is passed over; one that goes beyond makes the log of the
receiver a part of that of the sender. -/
theorem Fork.merge_eq (h : Fork termOf l f c) {prev : Nat} {es : List ε} (hes : Stands l prev es) (hprev : prev ≤ c) :
    merge termOf f prev es = if prev + es.length ≤ c then f else l.take (prev + es.length) := by
  induction es generalizing prev with
  | nil => rw [if_pos (show prev + ([] : List ε).length ≤ c from hprev), merge]
  | cons e es ih =>
    have hhead := hes.head
    have hlen : prev + (e :: es).length = prev + 1 + es.length := by
      rw [List.length_cons]
      omega
    rw [merge, hlen]
    rcases Nat.lt_or_ge prev c with hlt | hge
    · rw [← h.getElem? hlt, hhead]
      dsimp only
      rw [if_pos rfl]
      exact ih hes.tail hlt
    obtain rfl : prev = c := by omega
    rw [if_neg (by omega)]
    have hsucc := (List.getElem?_eq_some_iff.mp hhead).1
    cases hx : f[prev]? with
    | none =>
      have hshort : f.take prev = f := List.take_of_length_le (List.getElem?_eq_none_iff.mp hx)
      dsimp only
      rw [← hshort, ← h.agree, ← take_succ_of_getElem? hhead, merge_append hes.tail hsucc]
    | some x =>
      dsimp only
      rw [if_neg (Ne.symm (h.differ prev e x (Nat.le_refl prev) hhead hx)), ← h.agree, ← take_succ_of_getElem? hhead,
        merge_append hes.tail hsucc]

theorem take_merge (termOf : ε → Nat) (prev : Nat) (es : List ε) (hprev : prev ≤ f.length) :
    (merge termOf f prev es).take prev = f.take prev ∧ prev ≤ (merge termOf f prev es).length := by
  induction es generalizing f prev with
  | nil => exact ⟨rfl, hprev⟩
  | cons e es ih =>
    have hstep : ∀ g : List ε, g.take prev = f.take prev → prev + 1 ≤ g.length →
        (merge termOf g (prev + 1) es).take prev = f.take prev ∧ prev ≤ (merge termOf g (prev + 1) es).length := by
      intro g hg hlen
      obtain ⟨htake, hle⟩ := ih (prev + 1) hlen
      have hshort := congrArg (List.take prev) htake
      rw [List.take_take, List.take_take, Nat.min_eq_left (Nat.le_succ prev)] at hshort
      exact ⟨hshort.trans hg, by omega⟩
    rw [merge]
    split
    · next hnone =>
      have hlen : f.length = prev := Nat.le_antisymm (List.getElem?_eq_none_iff.mp hnone) hprev
      exact hstep _ (List.take_append_of_le_length hprev) (by simp [hlen])
    · next x hx =>
      have hlt := (List.getElem?_eq_some_iff.mp hx).1
      split
      · exact hstep f rfl hlt
      · refine hstep _ ?_ (by simp [List.length_take_of_le hprev])
        rw [List.take_append_of_le_length (by rw [List.length_take_of_le hprev]), List.take_take, Nat.min_self]

/-! ## The start of a run -/

theorem runStart_succ (t base : Nat) (log : List ε) (i : Nat) : runStart termOf t base log (i + 1) =
    if base < i ∧ termAt termOf log i = some t then runStart termOf t base log i else i + 1 := rfl

theorem runStart_le (termOf : ε → Nat) (t base : Nat) (log : List ε) (i : Nat) : runStart termOf t base log i ≤ i := by
  induction i with
  | zero => exact Nat.le_refl 0
  | succ i ih =>
    rw [runStart_succ]
    split <;> omega

theorem lt_runStart {t base : Nat} {log : List ε} {i : Nat} (h : base < i) : base < runStart termOf t base log i := by
  induction i with
  | zero => exact absurd h (Nat.not_lt_zero base)
  | succ i ih =>
    rw [runStart_succ]
    split
    · next hrun => exact ih hrun.1
    · exact h

/-- A run that reaches back to an index starts where the run of that index starts. -/
theorem runStart_eq_of_le {t base : Nat} {log : List ε} {d p : Nat} (hd : d ≤ p)
    (h : runStart termOf t base log p ≤ d) : runStart termOf t base log p = runStart termOf t base log d := by
  induction p with
  | zero =>
    obtain rfl : d = 0 := by omega
    rfl
  | succ p ih =>
    rcases Nat.eq_or_lt_of_le hd with rfl | hlt
    · rfl
    rw [runStart_succ] at h ⊢
    split
    · next hrun =>
      rw [if_pos hrun] at h
      exact ih (by omega) h
    · next hrun =>
      rw [if_neg hrun] at h
      omega

theorem termAt_of_runStart_le {t base : Nat} {log : List ε} {d p : Nat} (hd : d < p)
    (h : runStart termOf t base log p ≤ d) : termAt termOf log d = some t := by
  induction p with
  | zero => omega
  | succ p ih =>
    rw [runStart_succ] at h
    split at h
    · next hrun =>
      rcases Nat.eq_or_lt_of_le (Nat.lt_succ_iff.mp hd) with rfl | hlt
      · exact hrun.2
      · exact ih hlt h
    · omega

/-- If the run of an index reaches back to an earlier one, that one has the same run. -/
theorem runStart_of_le {base : Nat} {log : List ε} {d p : Nat} (hd : d ≤ p)
    (h : runStart termOf ((termAt termOf log p).getD 0) base log p ≤ d) :
    runStart termOf ((termAt termOf log d).getD 0) base log d =
      runStart termOf ((termAt termOf log p).getD 0) base log p := by
  have hterm : (termAt termOf log d).getD 0 = (termAt termOf log p).getD 0 := by
    rcases Nat.eq_or_lt_of_le hd with rfl | hlt
    · rfl
    · rw [termAt_of_runStart_le hlt h]
      rfl
  rw [hterm]
  exact (runStart_eq_of_le hd h).symm

/-- Another snapshot moves the start of a run no further than behind that snapshot. -/
theorem runStart_le_max (termOf : ε → Nat) (t base base' : Nat) (log : List ε) (i : Nat) :
    runStart termOf t base' log i ≤ max (runStart termOf t base log i) (base' + 1) := by
  induction i with
  | zero => exact Nat.zero_le _
  | succ i ih =>
    have hle := runStart_le termOf t base' log i
    rw [runStart_succ, runStart_succ]
    by_cases hterm : termAt termOf log i = some t
    · simp only [hterm, and_true]
      split_ifs <;> omega
    · simp only [hterm, and_false, if_false]
      omega

/-! ## What a round does -/

variable {s : Sender ε} {σ σ' : State ε}

/-- The four outcomes of a round. -/
inductive Stepped (termOf : ε → Nat) (s : Sender ε) (σ : State ε) : State ε → Prop
  | installed (hbase : 0 < s.base) (hnext : σ.next ≤ s.base) :
      Stepped termOf s σ { log := s.log.take s.base ++ σ.log.drop s.base, base := s.base
                           next := max σ.next (s.base + 1), acked := max σ.acked s.base }
  | short (hnext : s.base = 0 ∨ s.base < σ.next) (hlen : σ.log.length < σ.next - 1) :
      Stepped termOf s σ { σ with next := σ.log.length + 1 }
  | merged {log : List ε} (hnext : s.base = 0 ∨ s.base < σ.next) (hlen : σ.next - 1 ≤ σ.log.length)
      (hsame : σ.next - 1 = 0 ∨ termAt termOf σ.log (σ.next - 1) = termAt termOf s.log (σ.next - 1))
      (hlog : log = merge termOf σ.log (σ.next - 1) (s.slice (σ.next - 1))) :
      Stepped termOf s σ { σ with log, next := max (σ.next + (s.slice (σ.next - 1)).length) (log.length + 1)
                                  acked := max σ.acked log.length }
  | refused (hnext : s.base = 0 ∨ s.base < σ.next) (hlen : σ.next - 1 ≤ σ.log.length) (hpos : 0 < σ.next - 1)
      (hdiff : termAt termOf σ.log (σ.next - 1) ≠ termAt termOf s.log (σ.next - 1)) :
      Stepped termOf s σ
        { σ with next := runStart termOf ((termAt termOf σ.log (σ.next - 1)).getD 0) σ.base σ.log (σ.next - 1) }

theorem stepped_of_round (h : round termOf s σ = some σ') : Stepped termOf s σ σ' := by
  unfold round at h
  split at h
  · next hinstall =>
    cases h
    exact .installed hinstall.1 hinstall.2
  next hinstall =>
  have hnext : s.base = 0 ∨ s.base < σ.next := by omega
  split at h
  · cases h
  split at h
  · next hlen =>
    cases h
    exact .short hnext hlen
  next hlen =>
  split at h
  · next hsame =>
    cases h
    exact .merged hnext (Nat.le_of_not_lt hlen) hsame rfl
  · next hsame =>
    cases h
    rw [not_or] at hsame
    exact .refused hnext (Nat.le_of_not_lt hlen) (Nat.pos_of_ne_zero hsame.1) hsame.2

/-- The snapshot of the receiver is in the log of the sender, and the next index is behind it. -/
structure Rooted (s : Sender ε) (σ : State ε) : Prop where
  next : σ.base < σ.next
  left : σ.base ≤ s.log.length
  right : σ.base ≤ σ.log.length
  agree : s.log.take σ.base = σ.log.take σ.base

/-- A conflict is behind the snapshot of the receiver. -/
theorem Rooted.lt_of_conflict (h : Rooted s σ) (hpos : 0 < σ.next - 1)
    (hdiff : termAt termOf σ.log (σ.next - 1) ≠ termAt termOf s.log (σ.next - 1)) : σ.base < σ.next - 1 := by
  by_contra hge
  have hnext := h.next
  have heq : σ.next - 1 = σ.base := by omega
  refine hdiff ?_
  unfold termAt
  rw [heq, ← List.getElem?_take_of_lt (show σ.base - 1 < σ.base by omega), ← h.agree,
    List.getElem?_take_of_lt (show σ.base - 1 < σ.base by omega)]

theorem Rooted.round (h : Rooted s σ) (hs : s.base ≤ s.log.length) (hround : round termOf s σ = some σ') :
    Rooted s σ' := by
  cases stepped_of_round hround with
  | installed hbase hnext =>
    have hlen : (s.log.take s.base).length = s.base := List.length_take_of_le hs
    refine ⟨by dsimp only; omega, hs, by simp only [List.length_append, hlen]; omega, ?_⟩
    rw [List.take_append_of_le_length (Nat.le_of_eq hlen.symm), List.take_take, Nat.min_self]
  | short hnext hlen => exact ⟨by have := h.right; dsimp only; omega, h.left, h.right, h.agree⟩
  | merged hnext hlen hsame hlog =>
    obtain ⟨htake, hle⟩ := take_merge termOf (σ.next - 1) (s.slice (σ.next - 1)) hlen
    rw [← hlog] at htake hle
    have hbase : σ.base ≤ σ.next - 1 := by have := h.next; omega
    refine ⟨by have := h.next; dsimp only; omega, h.left, hbase.trans hle, ?_⟩
    have hshort := congrArg (List.take σ.base) htake
    rw [List.take_take, List.take_take, Nat.min_eq_left hbase] at hshort
    exact h.agree.trans hshort.symm
  | refused hnext hlen hpos hdiff => exact ⟨lt_runStart (h.lt_of_conflict hpos hdiff), h.left, h.right, h.agree⟩

/-- The next index is not beyond the end unless everything is acknowledged. -/
def Within (s : Sender ε) (σ : State ε) : Prop := σ.next ≤ s.log.length + 1 ∨ s.log.length ≤ σ.acked

theorem Within.round (h : Within s σ) (hs : s.base ≤ s.log.length) (hround : round termOf s σ = some σ') :
    Within s σ' := by
  unfold Within at h ⊢
  cases stepped_of_round hround with
  | installed hbase hnext =>
    dsimp only
    omega
  | short hnext hlen =>
    dsimp only
    omega
  | merged hnext hlen hsame hlog =>
    have hslice : (s.slice (σ.next - 1)).length ≤ s.log.length - (σ.next - 1) := by
      rw [Sender.slice, List.length_take, List.length_drop]
      exact Nat.min_le_right ..
    dsimp only
    omega
  | refused hnext hlen hpos hdiff =>
    have hle := runStart_le termOf ((termAt termOf σ.log (σ.next - 1)).getD 0) σ.base σ.log (σ.next - 1)
    dsimp only
    omega

/-- The receiver has the log of the sender, and the sender knows. -/
def Synced (s : Sender ε) (σ : State ε) : Prop := σ.log.take s.log.length = s.log ∧ σ.acked = s.log.length

def Eventually (termOf : ε → Nat) (s : Sender ε) (σ : State ε) : Prop := ∃ k, Synced s (iterate termOf s k σ)

theorem Eventually.now (h : Synced s σ) : Eventually termOf s σ := ⟨0, h⟩

theorem Eventually.round (h : round termOf s σ = some σ') (h' : Eventually termOf s σ') : Eventually termOf s σ := by
  obtain ⟨k, hk⟩ := h'
  refine ⟨k + 1, ?_⟩
  rw [iterate, h]
  exact hk

/-- What a round keeps, all rounds keep. -/
theorem iterate_invariant (I : State ε → Prop) (hround : ∀ σ σ', I σ → LogRepair.round termOf s σ = some σ' → I σ')
    (h : I σ) (k : Nat) : I (iterate termOf s k σ) := by
  induction k generalizing σ with
  | zero => exact h
  | succ k ih =>
    rw [iterate]
    cases hr : LogRepair.round termOf s σ with
    | none => exact ih h
    | some σ' => exact ih (hround σ σ' h hr)

/-! ## When the repair comes to an end -/

theorem length_slice (s : Sender ε) (prev : Nat) : (s.slice prev).length = min s.batch (s.log.length - prev) := by
  rw [Sender.slice, List.length_take, List.length_drop]

theorem round_install (hbase : 0 < s.base) (hnext : σ.next ≤ s.base) : round termOf s σ =
    some { log := s.log.take s.base ++ σ.log.drop s.base, base := s.base, next := s.base + 1
           acked := max σ.acked s.base } := by
  rw [round, if_pos ⟨hbase, hnext⟩, Nat.max_eq_right (by omega)]

/-- There is something to send, and no snapshot is needed for it. -/
structure Probes (s : Sender ε) (σ : State ε) : Prop where
  base : s.base = 0 ∨ s.base < σ.next
  busy : σ.next - 1 < s.log.length ∨ σ.acked < s.log.length
  batch : 0 < s.batch

theorem Probes.not_install (h : Probes s σ) : ¬ (0 < s.base ∧ σ.next ≤ s.base) := by
  have := h.base
  omega

theorem Probes.not_idle (h : Probes s σ) : ¬ (s.slice (σ.next - 1) = [] ∧ s.log.length ≤ σ.acked) := by
  rintro ⟨hnil, hacked⟩
  have hlen := length_slice s (σ.next - 1)
  rw [hnil, List.length_nil] at hlen
  have := h.busy
  have := h.batch
  omega

theorem Probes.short (h : Probes s σ) (hlen : σ.log.length < σ.next - 1) :
    round termOf s σ = some { σ with next := σ.log.length + 1 } := by
  rw [round, if_neg h.not_install, if_neg h.not_idle, if_pos hlen]

/-- A batch that starts in the common part. -/
theorem Probes.merged (h : Probes s σ) (hfork : Fork termOf s.log σ.log c) (hprev : σ.next - 1 ≤ c) {log : List ε}
    (hlog : log = if σ.next - 1 + (s.slice (σ.next - 1)).length ≤ c then σ.log
      else s.log.take (σ.next - 1 + (s.slice (σ.next - 1)).length)) :
    round termOf s σ = some { σ with log, next := max (σ.next + (s.slice (σ.next - 1)).length) (log.length + 1)
                                     acked := max σ.acked log.length } := by
  have hsame : σ.next - 1 = 0 ∨ termAt termOf σ.log (σ.next - 1) = termAt termOf s.log (σ.next - 1) := by
    rcases Nat.eq_zero_or_pos (σ.next - 1) with hzero | hpos
    · exact .inl hzero
    · exact .inr ((hfork.termAt_eq_iff hpos (hprev.trans hfork.left) (hprev.trans hfork.right)).mpr hprev)
  rw [round, if_neg h.not_install, if_neg h.not_idle, if_neg (by have := hfork.right; omega), if_pos hsame,
    hfork.merge_eq (stands_slice s _) hprev, ← hlog]

/-- A batch that starts behind it. -/
theorem Probes.refused (h : Probes s σ) (hfork : Fork termOf s.log σ.log c) (hprev : c < σ.next - 1)
    (hl : σ.next - 1 ≤ s.log.length) (hf : σ.next - 1 ≤ σ.log.length) : round termOf s σ =
    some { σ with next := runStart termOf ((termAt termOf σ.log (σ.next - 1)).getD 0) σ.base σ.log (σ.next - 1) } := by
  have hdiff : ¬ (σ.next - 1 = 0 ∨ termAt termOf σ.log (σ.next - 1) = termAt termOf s.log (σ.next - 1)) := by
    rw [hfork.termAt_eq_iff (by omega) hl hf]
    omega
  rw [round, if_neg h.not_install, if_neg h.not_idle, if_neg (by omega), if_neg hdiff]

theorem fork_take (l : List ε) {m : Nat} (hm : m ≤ l.length) : Fork termOf l (l.take m) m where
  left := hm
  right := (List.length_take_of_le hm).ge
  agree := by rw [List.take_take, Nat.min_self]
  differ i x y hi _ hy := by
    rw [List.getElem?_eq_none (by rw [List.length_take_of_le hm]; exact hi)] at hy
    cases hy

/-- A receiver with a part of the log gets the rest. -/
theorem eventually_of_part (hs : s.base ≤ s.log.length) (hbatch : 0 < s.batch) {m : Nat} (hm : m ≤ s.log.length)
    (hlog : σ.log = s.log.take m) (hnext : σ.next = m + 1) (hacked : σ.acked ≤ s.log.length) : Eventually termOf s σ := by
  induction hd : s.log.length - m using Nat.strong_induction_on generalizing σ m with
  | h d ih =>
    rcases Nat.eq_or_lt_of_le hm with rfl | hlt
    · rw [List.take_length] at hlog
      rcases Nat.eq_or_lt_of_le hacked with hdone | hopen
      · exact .now ⟨by rw [hlog, List.take_length], hdone⟩
      have hprobes : Probes s σ := ⟨by omega, .inr hopen, hbatch⟩
      have hfork : Fork termOf s.log σ.log s.log.length := by
        rw [hlog]
        exact ⟨le_rfl, le_rfl, rfl, fun i x y hi hx => by rw [List.getElem?_eq_none hi] at hx; cases hx⟩
      have hslice : (s.slice (σ.next - 1)).length = 0 := by rw [length_slice]; omega
      refine .round (hprobes.merged hfork (by omega) (if_pos (by omega)).symm) (.now ⟨?_, ?_⟩)
      · rw [hlog, List.take_length]
      · simp only [hlog]
        omega
    · have hlen : σ.log.length = m := by rw [hlog, List.length_take_of_le hm]
      by_cases hinstall : 0 < s.base ∧ σ.next ≤ s.base
      · refine .round (round_install hinstall.1 hinstall.2) (ih (s.log.length - s.base) (by omega) hs ?_ rfl ?_ rfl)
        · rw [List.drop_eq_nil_of_le (by omega), List.append_nil]
        · dsimp only
          omega
      · have hprobes : Probes s σ := ⟨by omega, .inl (by omega), hbatch⟩
        have hfork : Fork termOf s.log σ.log m := hlog ▸ fork_take s.log hm
        have hslice := length_slice s (σ.next - 1)
        refine .round (hprobes.merged hfork (by omega) rfl) ?_
        rw [if_neg (by omega)]
        have htake : σ.next - 1 + (s.slice (σ.next - 1)).length ≤ s.log.length := by omega
        refine ih (s.log.length - (σ.next - 1 + (s.slice (σ.next - 1)).length)) (by omega) htake rfl ?_ ?_ rfl
        · simp only [List.length_take_of_le htake]
          omega
        · simp only [List.length_take_of_le htake]
          omega

/-- A batch that reaches from the common part to the first conflict repairs the log. -/
theorem eventually_of_reach (hs : s.base ≤ s.log.length) (hfork : Fork termOf s.log σ.log c) (hprobes : Probes s σ)
    (hc : c < s.log.length) (hprev : σ.next - 1 ≤ c) (hnext : 0 < σ.next) (hreach : c + 1 < σ.next + s.batch)
    (hacked : σ.acked ≤ s.log.length) : Eventually termOf s σ := by
  have hslice := length_slice s (σ.next - 1)
  refine .round (hprobes.merged hfork hprev rfl) ?_
  rw [if_neg (by omega)]
  have htake : σ.next - 1 + (s.slice (σ.next - 1)).length ≤ s.log.length := by omega
  refine eventually_of_part hs hprobes.batch htake rfl ?_ ?_
  · simp only [List.length_take_of_le htake]
    omega
  · simp only [List.length_take_of_le htake]
    omega

/-- Behind a conflict nothing of the one log goes with the other. -/
theorem Fork.le_of_comparable (h : Fork termOf l f c) {n : Nat} (hn : c < n) (hl : n ≤ l.length) (hf : c < f.length)
    {g : List ε} (hg : g <+: f) (hcompare : g <+: l.take n ∨ l.take n <+: g) : g <+: l.take n ∧ g.length ≤ c := by
  have hread : ∀ {a b : List ε} {i : Nat}, a <+: b → i < a.length → a[i]? = b[i]? := by
    rintro a b i ⟨rest, rfl⟩ hi
    rw [List.getElem?_append_left hi]
  have hlen : (l.take n).length = n := List.length_take_of_le hl
  have hshort : g.length ≤ c := by
    by_contra hlong
    have hy : g[c]? = some f[c] := by
      rw [hread hg (by omega)]
      exact List.getElem?_eq_getElem hf
    have hx : l[c]? = some f[c] := by
      rw [← List.getElem?_take_of_lt hn]
      rcases hcompare with hle | hle
      · rw [← hread hle (by omega)]
        exact hy
      · rw [hread hle (by omega)]
        exact hy
    exact h.differ c _ _ (le_refl c) hx (List.getElem?_eq_getElem hf) rfl
  refine ⟨?_, hshort⟩
  have hfront : g <+: l.take c := by
    rw [h.agree]
    exact List.prefix_take_iff.mpr ⟨hg, hshort⟩
  exact hfront.trans (List.take_prefix_take_left hn.le)

/-- The log behind a snapshot of the sender, in place of what the receiver had before. -/
theorem Fork.install (h : Fork termOf l f c) {b : Nat} (hb : b ≤ l.length) (hf : b ≤ f.length) :
    Fork termOf l (l.take b ++ f.drop b) (max c b) := by
  have hlen : (l.take b).length = b := List.length_take_of_le hb
  have hafter : ∀ i, b ≤ i → (l.take b ++ f.drop b)[i]? = f[i]? := by
    intro i hi
    rw [List.getElem?_append_right (by omega), hlen, List.getElem?_drop, Nat.add_sub_cancel' hi]
  refine ⟨Nat.max_le.mpr ⟨h.left, hb⟩, ?_, ?_, fun i x y hi hx hy => ?_⟩
  · simp only [List.length_append, hlen, List.length_drop]
    have := h.right
    omega
  · refine List.ext_getElem? fun i => ?_
    rw [List.getElem?_take, List.getElem?_take]
    split
    · next hi =>
      rcases Nat.lt_or_ge i b with hlt | hge
      · rw [List.getElem?_append_left (by omega), List.getElem?_take_of_lt hlt]
      · rw [hafter i hge]
        exact h.getElem? (by omega)
    · rfl
  · rw [hafter i (by omega)] at hy
    exact h.differ i x y (by omega) hx hy

/-- A snapshot that is sent because of a conflict repairs the log if a batch behind it
reaches the conflict. -/
theorem eventually_of_install (hs : s.base ≤ s.log.length) (hbatch : 0 < s.batch) (hfork : Fork termOf s.log σ.log c)
    (hbase : 0 < s.base) (hnext : σ.next ≤ s.base) (hc : c < s.log.length) (hreach : c < s.base + s.batch)
    (hacked : σ.acked ≤ s.log.length) : Eventually termOf s σ := by
  refine .round (round_install hbase hnext) ?_
  have hlen : (s.log.take s.base).length = s.base := List.length_take_of_le hs
  rcases Nat.lt_or_ge s.base σ.log.length with hlong | hshort
  · rcases Nat.eq_or_lt_of_le hs with hall | hmore
    · refine .now ⟨?_, ?_⟩
      · dsimp only
        rw [← hall, List.take_append_of_le_length hlen.ge, List.take_take, Nat.min_self, hall, List.take_length]
      · dsimp only
        omega
    · have hprobes : Probes s { log := s.log.take s.base ++ σ.log.drop s.base, base := s.base, next := s.base + 1
                                acked := max σ.acked s.base } :=
        ⟨.inr (Nat.lt_succ_self s.base), .inl hmore, hbatch⟩
      exact eventually_of_reach hs (hfork.install hs hlong.le) hprobes (Nat.max_lt.mpr ⟨hc, hmore⟩)
        (Nat.le_max_right c s.base) (Nat.succ_pos s.base) (show max c s.base + 1 < s.base + 1 + s.batch by omega)
        (Nat.max_le.mpr ⟨hacked, hs⟩)
  · refine eventually_of_part hs hbatch hs ?_ rfl ?_
    · rw [List.drop_eq_nil_of_le hshort, List.append_nil]
    · dsimp only
      omega

/-- The index from which the entries before the first conflict are sent again: the start of
the run that has the conflict, unless a snapshot covers it. -/
def resend (termOf : ε → Nat) (s : Sender ε) (log : List ε) (base c : Nat) : Nat :=
  max (runStart termOf ((termAt termOf log (c + 1)).getD 0) base log (c + 1)) (s.base + 1)

/-- From an entry in conflict the sender comes back to the start of the run of the first
conflict. -/
theorem eventually_of_conflict (hs : s.base ≤ s.log.length) (hbatch : 0 < s.batch)
    (hfork : Fork termOf s.log σ.log c) (hc : c < s.log.length) (hcf : c < σ.log.length) (hbase : σ.base ≤ c)
    (hreach : c + 1 < resend termOf s σ.log σ.base c + s.batch) {p : Nat} (hp : c < p) (hpl : p ≤ s.log.length)
    (hpf : p ≤ σ.log.length) (hnext : σ.next = p + 1) (hacked : σ.acked < s.log.length) : Eventually termOf s σ := by
  induction p using Nat.strong_induction_on generalizing σ with
  | h p ih =>
    by_cases hinstall : 0 < s.base ∧ σ.next ≤ s.base
    · exact eventually_of_install hs hbatch hfork hinstall.1 hinstall.2 hc (by omega) hacked.le
    have hprobes : Probes s σ := ⟨by omega, .inr hacked, hbatch⟩
    have hprev : σ.next - 1 = p := by omega
    have hround := hprobes.refused hfork (by omega) (by omega) (by omega)
    rw [hprev] at hround
    generalize hstart : runStart termOf ((termAt termOf σ.log p).getD 0) σ.base σ.log p = start at hround
    have hle : start ≤ p := hstart ▸ runStart_le ..
    have hlt : σ.base < start := hstart ▸ lt_runStart (by omega)
    refine .round hround ?_
    rcases Nat.lt_or_ge (c + 1) start with hbehind | hbefore
    · exact ih (start - 1) (by omega) hfork hcf hbase hreach (by omega) (by omega) (by dsimp only; omega)
        (by dsimp only; omega) hacked
    have hrun := runStart_of_le hp (hstart ▸ hbefore)
    rw [resend, hrun, hstart] at hreach
    by_cases hinstall' : 0 < s.base ∧ start ≤ s.base
    · exact eventually_of_install hs hbatch hfork hinstall'.1 hinstall'.2 hc (by omega) hacked.le
    · have hprobes' : Probes s { σ with next := start } := ⟨show s.base = 0 ∨ s.base < start by omega, .inr hacked, hbatch⟩
      exact eventually_of_reach hs hfork hprobes' hc (show start - 1 ≤ c by omega) (show 0 < start by omega)
        (show c + 1 < start + s.batch by omega) hacked.le

/-! ## When it does not -/

/-- An acknowledgement beyond the end of the log of the sender is never taken back. -/
theorem lt_acked_of_round (h : s.log.length < σ.acked) (hround : round termOf s σ = some σ') :
    s.log.length < σ'.acked := by
  cases stepped_of_round hround with
  | installed hbase hnext => exact Nat.lt_of_lt_of_le h (Nat.le_max_left ..)
  | short hnext hlen => exact h
  | merged hnext hlen hsame hlog => exact Nat.lt_of_lt_of_le h (Nat.le_max_left ..)
  | refused hnext hlen hpos hdiff => exact h

/-- A receiver that has more than the sender acknowledges more. -/
theorem not_eventually_of_longer (hs : s.base ≤ s.log.length) (hbatch : 0 < s.batch)
    (hfork : Fork termOf s.log σ.log s.log.length) (hlong : s.log.length < σ.log.length) (hpos : 0 < s.log.length)
    (hnext : σ.next = s.log.length + 1) (hacked : σ.acked = 0) : ¬ Eventually termOf s σ := by
  rintro ⟨k, hsynced⟩
  cases k with
  | zero =>
    have : σ.acked = s.log.length := hsynced.2
    omega
  | succ k =>
    have hprobes : Probes s σ := ⟨by omega, .inr (by omega), hbatch⟩
    have hslice := length_slice s (σ.next - 1)
    have hround := hprobes.merged hfork (by omega) (if_pos (by omega)).symm
    rw [iterate, hround, Option.getD_some] at hsynced
    refine absurd hsynced.2 (Nat.ne_of_gt ?_)
    refine iterate_invariant (fun σ => s.log.length < σ.acked) (fun _ _ => lt_acked_of_round) ?_ k
    exact Nat.lt_of_lt_of_le hlong (Nat.le_max_right ..)

/-- The next index is in the conflict, or so far before it that a batch does not reach it. -/
structure Stuck (termOf : ε → Nat) (s : Sender ε) (f : List ε) (b c : Nat) (σ : State ε) : Prop where
  log : σ.log = f
  base : σ.base = b ∨ σ.base = s.base
  next : c + 1 < σ.next ∨ σ.next ≤ resend termOf s f b c

theorem Stuck.round {f : List ε} {base : Nat} (h : Stuck termOf s f base c σ) (hroot : Rooted s σ)
    (hfork : Fork termOf s.log f c) (hcf : c < f.length) (hbase : base ≤ c)
    (hshort : resend termOf s f base c + s.batch ≤ c + 1) (hround : round termOf s σ = some σ') :
    Stuck termOf s f base c σ' := by
  have hpos : s.base + 1 ≤ resend termOf s f base c := Nat.le_max_right ..
  have hbasec : σ.base ≤ c := by
    rcases h.base with heq | heq <;> omega
  cases stepped_of_round hround with
  | installed hb hnext =>
    refine ⟨?_, .inr rfl, .inr ?_⟩
    · have hsame : s.log.take s.base = f.take s.base := by
        have htake := congrArg (List.take s.base) hfork.agree
        rwa [List.take_take, List.take_take, Nat.min_eq_left (by omega)] at htake
      rw [h.log]
      dsimp only
      rw [hsame, List.take_append_drop]
    · dsimp only
      omega
  | short hnext hlen =>
    rw [h.log] at hlen ⊢
    exact ⟨rfl, h.base, .inl (show c + 1 < f.length + 1 by omega)⟩
  | merged hnext hlen hsame hlog =>
    rw [h.log] at hlen hsame hlog
    have hprev : σ.next - 1 ≤ c := by
      rcases h.next with hlt | hle
      · by_contra hgt
        rcases hsame with hzero | hsame
        · omega
        have hl : s.log.length < σ.next - 1 ∨ σ.next - 1 ≤ s.log.length := by omega
        rcases hl with hl | hl
        · unfold termAt at hsame
          rw [List.getElem?_eq_none (show s.log.length ≤ σ.next - 1 - 1 by omega),
            List.getElem?_eq_getElem (show σ.next - 1 - 1 < f.length by omega)] at hsame
          cases hsame
        · exact hgt ((hfork.termAt_eq_iff (by omega) hl hlen).mp hsame)
      · omega
    have hnext' : σ.next ≤ resend termOf s f base c := by
      rcases h.next with hlt | hle
      · omega
      · exact hle
    have hslice := length_slice s (σ.next - 1)
    rw [hfork.merge_eq (stands_slice s _) hprev, if_pos (by have := hroot.next; omega)] at hlog
    refine ⟨hlog, h.base, .inl ?_⟩
    rw [hlog]
    dsimp only
    omega
  | refused hnext hlen hp hdiff =>
    rw [h.log] at hlen hdiff ⊢
    refine ⟨rfl, h.base, ?_⟩
    have hprev : c < σ.next - 1 := by
      by_contra hle
      refine hdiff ?_
      unfold termAt
      rw [hfork.getElem? (by omega)]
    dsimp only
    generalize hstart : runStart termOf ((termAt termOf f (σ.next - 1)).getD 0) σ.base f (σ.next - 1) = start
    rcases Nat.lt_or_ge (c + 1) start with hbehind | hbefore
    · exact .inl hbehind
    right
    have hrun := runStart_of_le hprev (hstart ▸ hbefore)
    rw [← hstart, ← hrun]
    rcases h.base with heq | heq
    · rw [heq]
      exact Nat.le_max_left ..
    · rw [heq]
      exact runStart_le_max ..

theorem not_synced_of_fork (hfork : Fork termOf s.log σ.log c) (hc : c < s.log.length) : ¬ Synced s σ := by
  rintro ⟨htake, -⟩
  have hx : s.log[c]? = some s.log[c] := List.getElem?_eq_getElem hc
  refine hfork.differ c s.log[c] s.log[c] le_rfl hx ?_ rfl
  rw [← List.getElem?_take_of_lt hc, htake, hx]

/-- The repair ends if the receiver has a part of the log of the sender, or if a batch
reaches from where the sender starts again to the first conflict. -/
def Repairable (termOf : ε → Nat) (s : Sender ε) (log : List ε) (base : Nat) : Prop :=
  s.log = [] ∨ log.length = common termOf s.log log ∨
    (common termOf s.log log < s.log.length ∧
      common termOf s.log log + 1 < resend termOf s log base (common termOf s.log log) + s.batch)

theorem eventually_iff (hs : s.base ≤ s.log.length) (hbatch : 0 < s.batch) (hmatch : Matching termOf s.log σ.log)
    (hroot : Rooted s σ) (hnext : σ.next = s.log.length + 1) (hacked : σ.acked = 0) :
    Eventually termOf s σ ↔ Repairable termOf s σ.log σ.base := by
  have hfork := hmatch.fork
  have hbase : σ.base ≤ common termOf s.log σ.log := by
    by_contra hlt
    have hright := hroot.right
    have hleft := hroot.left
    have hx : s.log[common termOf s.log σ.log]? = some s.log[common termOf s.log σ.log] :=
      List.getElem?_eq_getElem (by omega)
    refine hfork.differ (common termOf s.log σ.log) _ _ le_rfl hx ?_ rfl
    rw [← hx, ← List.getElem?_take_of_lt (Nat.lt_of_not_le hlt), ← hroot.agree,
      List.getElem?_take_of_lt (Nat.lt_of_not_le hlt)]
  unfold Repairable
  generalize common termOf s.log σ.log = c at hfork hbase ⊢
  have hleft := hfork.left
  have hright := hfork.right
  have hshort : s.log.length ≠ 0 → σ.log.length < s.log.length →
      round termOf s σ = some { σ with next := σ.log.length + 1 } := fun hne hlt =>
    Probes.short ⟨by omega, .inr (by omega), hbatch⟩ (by omega)
  constructor
  · intro h
    by_contra hnot
    rw [not_or, not_or, not_and] at hnot
    obtain ⟨hne, hpart, hfar⟩ := hnot
    have hpos : 0 < s.log.length := List.length_pos_iff.mpr hne
    rcases Nat.eq_or_lt_of_le hleft with rfl | hlt
    · exact not_eventually_of_longer hs hbatch hfork (by omega) hpos hnext hacked h
    · obtain ⟨k, hk⟩ := h
      have hstuck : Rooted s (iterate termOf s k σ) ∧ Stuck termOf s σ.log σ.base c (iterate termOf s k σ) :=
        iterate_invariant (fun τ => Rooted s τ ∧ Stuck termOf s σ.log σ.base c τ)
          (fun τ τ' hτ hround => ⟨hτ.1.round hs hround,
            hτ.2.round hτ.1 hfork (by omega) hbase (Nat.le_of_not_lt (hfar hlt)) hround⟩)
          ⟨hroot, rfl, .inl rfl, .inl (by omega)⟩ k
      have hlog := hstuck.2.log
      exact not_synced_of_fork (hlog.symm ▸ hfork) hlt hk
  · rintro (hnil | hpart | ⟨hlt, hreach⟩)
    · refine .now ⟨?_, ?_⟩
      · rw [hnil]
        rfl
      · rw [hacked, hnil]
        rfl
    · have hlog : σ.log = s.log.take c := by
        rw [hfork.agree, ← hpart, List.take_length]
      rcases Nat.eq_or_lt_of_le hleft with heq | hlt
      · exact eventually_of_part hs hbatch hleft hlog (by omega) (by omega)
      · exact .round (hshort (by omega) (by omega)) (eventually_of_part hs hbatch hleft hlog (by rw [hpart]) (by
          dsimp only; omega))
    · rcases Nat.eq_or_lt_of_le hright with heq | hcf
      · have hlog : σ.log = s.log.take c := by
          rw [hfork.agree, heq, List.take_length]
        exact .round (hshort (by omega) (by omega)) (eventually_of_part hs hbatch hleft hlog (by rw [heq]) (by
          dsimp only; omega))
      · rcases Nat.lt_or_ge σ.log.length s.log.length with hless | hmore
        · refine .round (hshort (by omega) hless) (eventually_of_conflict hs hbatch hfork hlt hcf hbase hreach hcf hless.le
            le_rfl rfl ?_)
          dsimp only
          omega
        · exact eventually_of_conflict hs hbatch hfork hlt hcf hbase hreach hlt le_rfl hmore hnext (by omega)

end Lib.LogRepair
