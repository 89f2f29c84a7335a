import Mathlib.Algebra.Group.Nat.Defs
import Mathlib.Data.List.Basic
import Mathlib.Logic.Function.Iterate

/-!
# Linear feedback shift registers

A register is fed one bit at a time: the bit is added to its lowest place, the register is
shifted towards that place, and the polynomial is added for a one that falls out. Feeding is
linear in exclusive or. If the polynomial has its highest bit, it is injective, and two words
whose differences lie within the width of the register leave different registers behind.
-/

namespace Lib.ShiftRegister

variable {w : Nat}

def shift (poly s : BitVec w) : BitVec w := if s.getLsbD 0 then (s >>> 1) ^^^ poly else s >>> 1

/-- The register that has the bit in its lowest place and nothing else. -/
def lowest (w : Nat) (b : Bool) : BitVec w := BitVec.ofNat w b.toNat

def feed (poly s : BitVec w) (b : Bool) : BitVec w := shift poly (s ^^^ lowest w b)

def run (poly s : BitVec w) (word : List Bool) : BitVec w := word.foldl (feed poly) s

/-- The lowest bits of a number, the lowest one first. -/
def bits (n v : Nat) : List Bool := (List.range n).map v.testBit

variable {poly s t : BitVec w}

@[simp] theorem run_nil (poly s : BitVec w) : run poly s [] = s := rfl

@[simp] theorem run_cons (poly s : BitVec w) (b : Bool) (word : List Bool) :
    run poly s (b :: word) = run poly (feed poly s b) word := rfl

theorem run_append (poly s : BitVec w) (front rear : List Bool) :
    run poly s (front ++ rear) = run poly (run poly s front) rear := List.foldl_append ..

@[simp] theorem length_bits (n v : Nat) : (bits n v).length = n := by simp [bits]

theorem bits_succ (n v : Nat) : bits (n + 1) v = v.testBit 0 :: bits n (v / 2) := by
  simp only [bits, List.range_succ_eq_map, List.map_cons, List.map_map]
  congr 1
  refine List.map_congr_left fun i _ => ?_
  rw [Function.comp_apply, Nat.testBit_succ]

/-! ## Linearity -/

theorem xor_xor_xor_comm (a b c d : BitVec w) : a ^^^ b ^^^ (c ^^^ d) = a ^^^ c ^^^ (b ^^^ d) := by
  rw [BitVec.xor_assoc, ← BitVec.xor_assoc b c d, BitVec.xor_comm b c, BitVec.xor_assoc c b d, ← BitVec.xor_assoc]

theorem shift_eq_xor (poly s : BitVec w) : shift poly s = (s >>> 1) ^^^ if s.getLsbD 0 then poly else 0#w := by
  unfold shift
  split
  · rfl
  · rw [BitVec.xor_zero]

theorem shift_xor (poly s t : BitVec w) : shift poly (s ^^^ t) = shift poly s ^^^ shift poly t := by
  have hsum : (if (s ^^^ t).getLsbD 0 then poly else 0#w) =
      (if s.getLsbD 0 then poly else 0#w) ^^^ if t.getLsbD 0 then poly else 0#w := by
    rw [BitVec.getLsbD_xor]
    cases s.getLsbD 0 <;> cases t.getLsbD 0 <;> simp
  rw [shift_eq_xor, shift_eq_xor, shift_eq_xor, BitVec.ushiftRight_xor_distrib, hsum, xor_xor_xor_comm]

theorem lowest_xor (a b : Bool) : lowest w (a ^^ b) = lowest w a ^^^ lowest w b := by
  cases a <;> cases b <;> simp [lowest]

theorem feed_xor (poly s t : BitVec w) (a b : Bool) :
    feed poly (s ^^^ t) (a ^^ b) = feed poly s a ^^^ feed poly t b := by
  rw [feed, feed, feed, ← shift_xor, lowest_xor, xor_xor_xor_comm]

/-- What two words leave behind differs by what their difference leaves behind. -/
theorem run_xor (poly s t : BitVec w) {front rear : List Bool} (h : front.length = rear.length) :
    run poly (s ^^^ t) (List.zipWith xor front rear) = run poly s front ^^^ run poly t rear := by
  induction front generalizing s t rear with
  | nil =>
    cases rear with
    | nil => rfl
    | cons b rear => cases h
  | cons a front ih =>
    cases rear with
    | nil => cases h
    | cons b rear =>
      simp only [List.zipWith_cons_cons, run_cons]
      rw [show (a ^^ b) = Bool.xor a b from rfl, feed_xor]
      exact ih (feed poly s a) (feed poly t b) (Nat.succ.inj h)

/-! ## A word that is fed at once -/

theorem shift_even (h : s.getLsbD 0 = false) : shift poly s = s >>> 1 := by
  rw [shift, h, if_neg Bool.false_ne_true]

theorem ofNat_eq_xor (v : Nat) : BitVec.ofNat w v = lowest w (v.testBit 0) ^^^ BitVec.ofNat w (2 * (v / 2)) := by
  refine BitVec.eq_of_getLsbD_eq fun i hi => ?_
  simp only [lowest, BitVec.getLsbD_xor, BitVec.getLsbD_ofNat, hi, decide_true, Bool.true_and]
  cases i with
  | zero =>
    have heven : (2 * (v / 2)).testBit 0 = false := by simp [Nat.testBit_zero]
    rw [heven]
    cases v.testBit 0 <;> simp
  | succ i =>
    have hhalf : 2 * (v / 2) / 2 = v / 2 := by omega
    rw [Nat.testBit_succ, Nat.testBit_succ, Nat.testBit_succ, hhalf]
    cases v.testBit 0 <;> simp

/-- Adding a short word to the register and shifting is feeding its bits one after the other. -/
theorem iterate_shift (poly s : BitVec w) {n v : Nat} (hn : n ≤ w) (hv : v < 2 ^ n) :
    (shift poly)^[n] (s ^^^ BitVec.ofNat w v) = run poly s (bits n v) := by
  induction n generalizing s v with
  | zero =>
    have hzero : v = 0 := by omega
    simp [hzero, bits]
  | succ n ih =>
    have hhalf : (BitVec.ofNat w (2 * (v / 2))) >>> 1 = BitVec.ofNat w (v / 2) := by
      have hle : 2 ^ (n + 1) ≤ 2 ^ w := Nat.pow_le_pow_right (by omega) hn
      refine BitVec.eq_of_toNat_eq ?_
      rw [BitVec.toNat_ushiftRight, BitVec.toNat_ofNat, BitVec.toNat_ofNat, Nat.shiftRight_eq_div_pow,
        Nat.mod_eq_of_lt (by omega), Nat.mod_eq_of_lt (by omega)]
      omega
    have heven : (BitVec.ofNat w (2 * (v / 2))).getLsbD 0 = false := by
      rw [BitVec.getLsbD_ofNat, Nat.testBit_zero]
      simp
    rw [Function.iterate_succ_apply, bits_succ, run_cons, ofNat_eq_xor, ← BitVec.xor_assoc, shift_xor,
      shift_even heven, hhalf]
    exact ih (feed poly s (v.testBit 0)) (by omega) (by omega)

/-! ## Bursts -/

/-- The lowest bit is zero before a shift that leaves the highest bits zero. -/
theorem lt_of_shift (hpoly : poly.msb = true) {k : Nat} (hk : k < w) (h : (shift poly s).toNat < 2 ^ k) :
    s.getLsbD 0 = false ∧ s.toNat < 2 ^ (k + 1) := by
  have heven : s.getLsbD 0 = false := by
    by_contra hodd
    rw [Bool.not_eq_false] at hodd
    have hmsb : (shift poly s).msb = true := by
      rw [shift, if_pos hodd, BitVec.msb_xor, hpoly, BitVec.msb_ushiftRight]
      simp
    have hlarge := BitVec.toNat_ge_of_msb_true hmsb
    have hle : 2 ^ k ≤ 2 ^ (w - 1) := Nat.pow_le_pow_right (by omega) (by omega)
    omega
  refine ⟨heven, ?_⟩
  rw [shift_even heven, BitVec.toNat_ushiftRight, Nat.shiftRight_eq_div_pow] at h
  rw [Nat.pow_succ]
  omega

theorem eq_zero_of_shift (hpoly : poly.msb = true) (hw : 0 < w) (h : shift poly s = 0#w) : s = 0#w := by
  have hsmall : (shift poly s).toNat < 2 ^ 0 := by simp [h]
  obtain ⟨heven, hlt⟩ := lt_of_shift hpoly hw hsmall
  refine BitVec.eq_of_toNat_eq ?_
  rw [BitVec.getLsbD, Nat.testBit_zero, decide_eq_false_iff_not] at heven
  rw [BitVec.toNat_ofNat, Nat.zero_mod]
  omega

theorem run_replicate_false (hpoly : poly.msb = true) (hw : 0 < w) {n : Nat}
    (h : run poly s (List.replicate n false) = 0#w) : s = 0#w := by
  induction n generalizing s with
  | zero => exact h
  | succ n ih =>
    have hfed := ih (s := feed poly s false) h
    have hsame : s ^^^ lowest w false = s := by simp [lowest]
    rw [feed, hsame] at hfed
    exact eq_zero_of_shift hpoly hw hfed

theorem xor_lowest_lt {k : Nat} (hk : 0 < k) (b : Bool) (h : (s ^^^ lowest w b).toNat < 2 ^ k) : s.toNat < 2 ^ k := by
  have hlow : (lowest w b).toNat < 2 ^ k := by
    have hle : 2 ^ 1 ≤ 2 ^ k := Nat.pow_le_pow_right (by omega) hk
    have hmod := Nat.mod_le b.toNat (2 ^ w)
    have hbool := b.toNat_lt
    rw [lowest, BitVec.toNat_ofNat]
    omega
  have hback : s = s ^^^ lowest w b ^^^ lowest w b := by rw [BitVec.xor_assoc, BitVec.xor_self, BitVec.xor_zero]
  rw [hback, BitVec.toNat_xor]
  exact Nat.xor_lt_two_pow h hlow

/-- A word that makes a register small was not much larger before. -/
theorem lt_of_run (hpoly : poly.msb = true) {word : List Bool} {k : Nat} (hk : k + word.length ≤ w)
    (h : (run poly s word).toNat < 2 ^ k) : s.toNat < 2 ^ (k + word.length) := by
  induction word generalizing s with
  | nil => exact h
  | cons b word ih =>
    rw [List.length_cons] at hk ⊢
    have hfed := ih (s := feed poly s b) (by omega) h
    exact xor_lowest_lt (by omega) b (lt_of_shift hpoly (by omega) hfed).2

/-- A one, with less than the width of the register behind it, does not leave zero behind. -/
theorem run_true_ne_zero (hpoly : poly.msb = true) {word : List Bool} (hlength : word.length < w) :
    run poly 0#w (true :: word) ≠ 0#w := by
  intro h
  have hfed : (feed poly 0#w true).toNat < 2 ^ (0 + word.length) :=
    lt_of_run hpoly (by omega) (by rw [run_cons] at h; simp [h])
  have heven := (lt_of_shift hpoly (by omega) hfed).1
  have hpos : 0 < w := by omega
  simp [lowest, hpos] at heven

/-- The words differ only within some window of the given length. -/
def Within (len : Nat) (front rear : List Bool) : Prop :=
  ∃ start, ∀ i, front[i]? ≠ rear[i]? → start ≤ i ∧ i < start + len

theorem Within.tail {len : Nat} {a b : Bool} {front rear : List Bool} (h : Within len (a :: front) (b :: rear)) :
    Within len front rear := by
  obtain ⟨start, hstart⟩ := h
  refine ⟨start - 1, fun i hi => ?_⟩
  have hsucc := hstart (i + 1) hi
  omega

/-- Behind the first difference the words differ only near their front. -/
theorem Within.rest {len : Nat} {a b : Bool} {front rear : List Bool} (h : Within len (a :: front) (b :: rear))
    (hab : a ≠ b) {i : Nat} (hi : len ≤ i + 1) : front[i]? = rear[i]? := by
  obtain ⟨start, hstart⟩ := h
  have hzero := hstart 0 (by simpa using hab)
  by_contra hne
  have hsucc := hstart (i + 1) hne
  omega

/-- Words of one length with a burst of differences leave different registers behind. -/
theorem run_ne_of_within (hpoly : poly.msb = true) (hw : 0 < w) {front rear : List Bool}
    (hlength : front.length = rear.length) (hne : front ≠ rear) (h : Within w front rear) (s : BitVec w) :
    run poly s front ≠ run poly s rear := by
  induction front generalizing s rear with
  | nil =>
    cases rear with
    | nil => exact absurd rfl hne
    | cons b rear => cases hlength
  | cons a front ih =>
    cases rear with
    | nil => cases hlength
    | cons b rear =>
      have hrest : front.length = rear.length := Nat.succ.inj hlength
      by_cases hab : a = b
      · subst hab
        exact ih hrest (fun heq => hne (by rw [heq])) h.tail (feed poly s a)
      · intro heq
        have hzero : run poly 0#w (true :: List.zipWith xor front rear) = 0#w := by
          have hdiff := run_xor poly s s (show (a :: front).length = (b :: rear).length from hlength)
          have htrue : xor a b = true := by cases a <;> cases b <;> simp_all
          rw [BitVec.xor_self, heq, BitVec.xor_self, List.zipWith_cons_cons, htrue] at hdiff
          exact hdiff
        have hfalse : (List.zipWith xor front rear).drop (w - 1) =
            List.replicate ((List.zipWith xor front rear).drop (w - 1)).length false := by
          refine List.eq_replicate_iff.mpr ⟨rfl, fun c hc => ?_⟩
          obtain ⟨j, hj⟩ := List.mem_iff_getElem?.mp hc
          rw [List.getElem?_drop, List.getElem?_zipWith_eq_some] at hj
          obtain ⟨x, y, hx, hy, rfl⟩ := hj
          have hsame : front[w - 1 + j]? = rear[w - 1 + j]? := h.rest hab (by omega)
          rw [hx, hy] at hsame
          rw [Option.some.inj hsame, Bool.xor_self]
        rw [← List.take_append_drop (w - 1) (List.zipWith xor front rear), ← List.cons_append, run_append, hfalse] at hzero
        refine run_true_ne_zero hpoly ?_ (run_replicate_false hpoly hw hzero)
        rw [List.length_take]
        omega

end Lib.ShiftRegister
