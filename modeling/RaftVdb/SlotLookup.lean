import RaftVdb.Lib.ProbeTable

/-!
# The lookup from keys to slots

`slot_lookup_` of `index_dense_gt` is a `flat_hash_multi_set_gt`. Its number of cells is a power of
two, so that `&` with the number less one takes a hash, and the cell after the last one, round the
table. `populated_slots_` is the number of live cells. Memory never runs out.
-/

namespace RaftVdb

open Lib

abbrev SlotLookup := ProbeTable Nat Nat

/-- `hash_gt`, which is `std::hash`: an integer is its own hash. -/
def lookupKeyHash (key : Nat) : Nat := key

def slotsPerBucket : Nat := 64

/-- The next power of two; the number is not zero. -/
def ceil2 (v : Nat) : Nat :=
  let v := v - 1
  let v := v ||| v >>> 1
  let v := v ||| v >>> 2
  let v := v ||| v >>> 4
  let v := v ||| v >>> 8
  let v := v ||| v >>> 16
  let v := v ||| v >>> 32
  v + 1

namespace SlotLookup

def newSlots (capacity : Nat) : Nat :=
  (ceil2 (capacity * 3 / 2) + slotsPerBucket - 1) / slotsPerBucket * slotsPerBucket

def tryReserve (t : SlotLookup) (capacity : Nat) : SlotLookup :=
  if capacity * 3 ≤ t.cells.length * 2 then t else t.rehash lookupKeyHash (newSlots capacity)

def tryEmplace (t : SlotLookup) (e : Nat × Nat) : SlotLookup :=
  let t := if t.size * 3 ≥ t.cells.length * 2 then t.tryReserve (t.size + 1) else t
  t.place lookupKeyHash e

/-- The slots that an iterator from the first to the second of `equal_range` comes to; `none` if it
never gets there. -/
def equalRange (t : SlotLookup) (key : Nat) : Option (List Nat) :=
  let found := t.found lookupKeyHash key
  if t.hasEmpty then some found
  -- Both searches come back to the start. If the first one does not leave it the range is empty,
  -- and else the iterator passes the start, which does not match, again and again.
  else if found = [] ∨ ((t.probe lookupKeyHash key).head?.bind (t.valueAt key)).isSome then some []
  else none

/-! ## What the calls leave -/

variable {t : SlotLookup} {key n : Nat} {l : List Nat}

theorem le_ceil2 (n : Nat) : n ≤ ceil2 n := by
  have hor : ∀ v k, v ≤ v ||| v >>> k := fun v k => Nat.left_le_or
  unfold ceil2
  dsimp only
  have h := ((((hor (n - 1) 1).trans (hor _ 2)).trans (hor _ 4)).trans (hor _ 8)).trans (hor _ 16) |>.trans (hor _ 32)
  omega

theorem le_newSlots (n : Nat) : n ≤ newSlots n := by
  have h := le_ceil2 (n * 3 / 2)
  unfold newSlots slotsPerBucket
  omega

theorem tryReserve_spec (h : t.Placed lookupKeyHash) (hn : t.size ≤ n) :
    (t.tryReserve n).Placed lookupKeyHash ∧ (t.tryReserve n).entries.Perm t.entries := by
  unfold tryReserve
  split
  · exact ⟨h, .refl _⟩
  · obtain ⟨hplaced, hentries, -⟩ := ProbeTable.rehash_spec lookupKeyHash t (hn.trans (le_newSlots n))
    exact ⟨hplaced, hentries⟩

theorem tryReserve_empty (n : Nat) :
    (tryReserve {} n).Placed lookupKeyHash ∧ (tryReserve {} n).entries = [] := by
  obtain ⟨hplaced, hentries⟩ := tryReserve_spec (t := {}) (n := n) (fun i e hi => by simp at hi) (Nat.zero_le n)
  exact ⟨hplaced, List.Perm.eq_nil hentries⟩

theorem tryEmplace_spec (h : t.Placed lookupKeyHash) (e : Nat × Nat) :
    (t.tryEmplace e).Placed lookupKeyHash ∧ (t.tryEmplace e).entries.Perm (e :: t.entries) := by
  unfold tryEmplace
  dsimp only
  split
  · next hfull =>
    have hgrow : ¬ (t.size + 1) * 3 ≤ t.cells.length * 2 := by omega
    obtain ⟨hplaced, hentries, hlength⟩ :=
      ProbeTable.rehash_spec lookupKeyHash t ((Nat.le_succ t.size).trans (le_newSlots (t.size + 1)))
    rw [tryReserve, if_neg hgrow]
    have hroom : (t.rehash lookupKeyHash (newSlots (t.size + 1))).size <
        (t.rehash lookupKeyHash (newSlots (t.size + 1))).cells.length := by
      have hle := le_newSlots (t.size + 1)
      have hsize : (t.rehash lookupKeyHash (newSlots (t.size + 1))).size = t.size := hentries.length_eq
      omega
    exact ⟨hplaced.place e, (ProbeTable.perm_entries_place lookupKeyHash hroom e).trans (hentries.cons e)⟩
  · next hroom => exact ⟨h.place e, ProbeTable.perm_entries_place lookupKeyHash (by omega) e⟩

theorem foldl_tryEmplace_spec (h : t.Placed lookupKeyHash) (es : List (Nat × Nat)) :
    (es.foldl tryEmplace t).Placed lookupKeyHash ∧ (es.foldl tryEmplace t).entries.Perm (es ++ t.entries) := by
  induction es generalizing t with
  | nil => exact ⟨h, .refl _⟩
  | cons e es ih =>
    obtain ⟨hplaced, hentries⟩ := tryEmplace_spec h e
    obtain ⟨hplaced', hentries'⟩ := ih hplaced
    exact ⟨hplaced', hentries'.trans ((hentries.append_left es).trans List.perm_middle)⟩

/-- Where the keys have one slot each, a search finds the slot of the key. -/
theorem found_eq_singleton (h : t.Placed lookupKeyHash) (hnodup : (t.entries.map Prod.fst).Nodup) {slot : Nat}
    (hs : (key, slot) ∈ t.entries) : t.found lookupKeyHash key = [slot] := by
  refine List.perm_singleton.mp ((h.found_perm key).trans ?_)
  have hone : (t.entries.filter fun e => e.1 = key).Perm [(key, slot)] := by
    refine (List.perm_ext_iff_of_nodup (hnodup.of_map.filter _) (List.nodup_singleton _)).mpr fun e => ?_
    rw [List.mem_filter, decide_eq_true_eq, List.mem_singleton]
    constructor
    · rintro ⟨he, rfl⟩
      exact List.inj_on_of_nodup_map hnodup he hs rfl
    · rintro rfl
      exact ⟨hs, rfl⟩
  exact hone.map Prod.snd

theorem found_eq_nil (h : t.Placed lookupKeyHash) : t.found lookupKeyHash key = [] ↔ ∀ slot, (key, slot) ∉ t.entries := by
  have hperm := h.found_perm key
  constructor
  · intro hnil slot hs
    rw [hnil] at hperm
    have hmem : slot ∈ (t.entries.filter fun e => e.1 = key).map Prod.snd :=
      List.mem_map.mpr ⟨_, List.mem_filter.mpr ⟨hs, decide_eq_true rfl⟩, rfl⟩
    exact absurd (hperm.mem_iff.mpr hmem) List.not_mem_nil
  · intro hnone
    refine List.Perm.eq_nil (hperm.trans ?_)
    rw [List.filter_eq_nil_iff.mpr]
    · exact .refl _
    · intro e he hkey
      obtain rfl := of_decide_eq_true hkey
      exact hnone e.2 he

/-- A search for the key ends at an empty cell, or does not find it anyway. -/
def Ends (t : SlotLookup) (key : Nat) : Prop := ∀ e ∈ t.entries, e.1 = key → t.hasEmpty

instance (t : SlotLookup) (key : Nat) : Decidable (t.Ends key) := inferInstanceAs (Decidable (∀ e ∈ t.entries, _))

theorem equalRange_eq_some (h : t.equalRange key = some l) : l = t.found lookupKeyHash key ∨ l = [] := by
  unfold equalRange at h
  dsimp only at h
  split at h
  · exact .inl (Option.some.inj h).symm
  · split at h
    · exact .inr (Option.some.inj h).symm
    · cases h

theorem equalRange_of_ends (hplaced : t.Placed lookupKeyHash) (h : t.Ends key) :
    t.equalRange key = some (t.found lookupKeyHash key) := by
  unfold equalRange
  dsimp only
  split
  · rfl
  · next hempty =>
    have hnone : t.found lookupKeyHash key = [] :=
      (found_eq_nil hplaced).mpr fun slot hs => hempty (h _ hs rfl)
    rw [if_pos (.inl hnone), hnone]

end SlotLookup

end RaftVdb
