import Mathlib.Data.List.Basic

/-!
# Input file streams

A file opened for reading: its bytes, the read position and the two flags that a short
read sets. Every operation but `clear` fails on a stream that is not good.
-/

namespace Lib

structure InputStream (α : Type) where
  bytes : List α
  pos : Nat := 0
  eof : Bool := false
  fail : Bool := false
  deriving DecidableEq, Repr

namespace InputStream

variable {α : Type}

def good (s : InputStream α) : Bool := !s.eof && !s.fail

def clear (s : InputStream α) : InputStream α := { s with eof := false, fail := false }

/-- The read position, none on a stream that is not good. -/
def tellg (s : InputStream α) : Option Nat := if s.good then some s.pos else none

/-- Read up to `n` bytes. A short read reaches the end of the file and fails. -/
def read (s : InputStream α) (n : Nat) : InputStream α × List α :=
  if s.good then
    let got := (s.bytes.drop s.pos).take n
    ({ s with pos := s.pos + got.length, eof := got.length < n, fail := got.length < n }, got)
  else ({ s with fail := true }, [])

/-- Look at the next byte, if the stream is good and there is one. -/
def peek (s : InputStream α) : InputStream α × Option α :=
  if s.good then
    match s.bytes[s.pos]? with
    | some a => (s, some a)
    | none => ({ s with eof := true }, none)
  else ({ s with fail := true }, none)

@[simp] theorem good_clear (s : InputStream α) : s.clear.good = true := rfl

@[simp] theorem tellg_clear (s : InputStream α) : s.clear.tellg = some s.pos := rfl

theorem read_clear (s : InputStream α) (n : Nat) :
    s.clear.read n =
      ({ bytes := s.bytes, pos := s.pos + ((s.bytes.drop s.pos).take n).length
         eof := ((s.bytes.drop s.pos).take n).length < n, fail := ((s.bytes.drop s.pos).take n).length < n },
        (s.bytes.drop s.pos).take n) := rfl

/-- After a read, the next byte is missing exactly if the read took all that was left. -/
theorem peek_read_clear (s : InputStream α) (n : Nat) :
    (s.clear.read n).1.peek.2 = none ↔ s.bytes.drop s.pos = (s.bytes.drop s.pos).take n := by
  rw [read_clear, peek, good]
  by_cases hshort : ((s.bytes.drop s.pos).take n).length < n
  · simp only [hshort, decide_true, Bool.not_true, Bool.and_self, Bool.false_eq_true, if_false, true_iff]
    rw [List.length_take] at hshort
    rw [List.take_of_length_le (by omega)]
  · simp only [hshort, decide_false, Bool.not_false, Bool.and_self, if_true]
    have hfull : ((s.bytes.drop s.pos).take n).length = n := by
      rw [List.length_take] at hshort ⊢
      omega
    rw [hfull]
    have hnext : s.bytes[s.pos + n]? = (s.bytes.drop s.pos)[n]? := by rw [List.getElem?_drop]
    rw [hnext]
    cases hget : (s.bytes.drop s.pos)[n]? with
    | none =>
      simp only [true_iff]
      rw [List.take_of_length_le (List.getElem?_eq_none_iff.mp hget)]
    | some a =>
      simp only [reduceCtorEq, false_iff]
      intro heq
      have hlen := (List.getElem?_eq_some_iff.mp hget).1
      rw [heq, hfull] at hlen
      exact Nat.lt_irrefl _ hlen

/-- Looking ahead moves nothing. -/
theorem peek_frame (s : InputStream α) : s.peek.1.bytes = s.bytes ∧ s.peek.1.pos = s.pos := by
  unfold peek
  split
  · split
    · exact ⟨rfl, rfl⟩
    · exact ⟨rfl, rfl⟩
  · exact ⟨rfl, rfl⟩

end InputStream

end Lib
