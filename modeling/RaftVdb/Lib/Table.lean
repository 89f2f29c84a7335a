import Mathlib.Data.List.Nodup
import Mathlib.Data.List.Perm.Subperm

/-!
# Finite tables in iteration order

A table is a list of key/value rows whose keys are distinct. The list order is
the order in which a loop over the table visits its rows. Updating a key keeps
its place; a fresh key is appended. The distinctness of the keys is a field, so
no operation can build a table with two rows for one key.
-/

namespace Lib

structure Table (κ α : Type) where
  rows : List (κ × α)
  nodup : (rows.map Prod.fst).Nodup

namespace Table

variable {κ α : Type}

instance [DecidableEq κ] [DecidableEq α] : DecidableEq (Table κ α) := fun s t =>
  decidable_of_iff (s.rows = t.rows)
    ⟨fun h => by cases s; cases t; simpa using h, fun h => by rw [h]⟩

def empty : Table κ α := ⟨[], by simp⟩

instance : EmptyCollection (Table κ α) := ⟨empty⟩

instance : Inhabited (Table κ α) := ⟨empty⟩

def keys (t : Table κ α) : List κ := t.rows.map Prod.fst

def size (t : Table κ α) : Nat := t.rows.length

theorem size_eq_keys (t : Table κ α) : t.size = t.keys.length := by rw [size, keys, List.length_map]

theorem size_ne_zero_of_mem {t : Table κ α} {k : κ} (h : k ∈ t.keys) : t.size ≠ 0 := by
  obtain ⟨r, hr, -⟩ := List.mem_map.mp h
  exact Nat.ne_of_gt (List.length_pos_of_mem hr)

/-- Rewrite every value in place, with its key at hand. -/
def mapValues (t : Table κ α) (f : κ → α → α) : Table κ α where
  rows := t.rows.map fun r => (r.1, f r.1 r.2)
  nodup := by simpa [Function.comp_def] using t.nodup

@[simp] theorem keys_mapValues (t : Table κ α) (f : κ → α → α) : (t.mapValues f).keys = t.keys := by
  simp [keys, mapValues, Function.comp_def]

/-- Erase the rows that fail a test. -/
def filter (t : Table κ α) (p : κ → α → Bool) : Table κ α where
  rows := t.rows.filter fun r => p r.1 r.2
  nodup := (List.Sublist.map _ List.filter_sublist).nodup t.nodup

@[simp] theorem rows_filter (t : Table κ α) (p : κ → α → Bool) :
    (t.filter p).rows = t.rows.filter fun r => p r.1 r.2 := rfl

variable [DecidableEq κ]

def find? (t : Table κ α) (k : κ) : Option α := t.rows.lookup k

def contains (t : Table κ α) (k : κ) : Bool := (t.find? k).isSome

/-- Rewrite the value of one key in place; nothing happens if it is absent. -/
def adjust (t : Table κ α) (k : κ) (f : α → α) : Table κ α :=
  t.mapValues fun k' a => if k' = k then f a else a

def erase (t : Table κ α) (k : κ) : Table κ α where
  rows := t.rows.filter fun r => r.1 ≠ k
  nodup := (List.Sublist.map _ List.filter_sublist).nodup t.nodup

theorem lookup_cons (r : κ × α) (rows : List (κ × α)) (k : κ) :
    (r :: rows).lookup k = if k = r.1 then some r.2 else rows.lookup k := by
  obtain ⟨k', a⟩ := r
  rw [List.lookup_cons]
  by_cases hk : k = k'
  · rw [if_pos hk, beq_iff_eq.mpr hk]
  · rw [if_neg hk, beq_eq_false_iff_ne.mpr hk]

theorem find?_isSome (t : Table κ α) (k : κ) : (t.find? k).isSome ↔ k ∈ t.keys := by
  obtain ⟨rows, h⟩ := t
  simp only [find?, keys]
  clear h
  induction rows with
  | nil => simp
  | cons r rows ih =>
    by_cases hk : k = r.1
    · simp [lookup_cons, hk]
    · simp [lookup_cons, ih, hk]

theorem find?_eq_none (t : Table κ α) (k : κ) : t.find? k = none ↔ k ∉ t.keys := by
  rw [← find?_isSome]
  cases t.find? k <;> simp

theorem find?_eq_some (t : Table κ α) (k : κ) (a : α) : t.find? k = some a ↔ (k, a) ∈ t.rows := by
  obtain ⟨rows, h⟩ := t
  simp only [find?]
  induction rows with
  | nil => simp
  | cons r rows ih =>
    have hr := List.nodup_cons.mp h
    by_cases hk : k = r.1
    · have hnot : (k, a) ∉ rows := fun hm => hr.1 (by rw [← hk]; exact List.mem_map.mpr ⟨_, hm, rfl⟩)
      simp only [lookup_cons, hk, if_true, Option.some.injEq, List.mem_cons]
      rw [← hk]
      simp only [hnot, or_false]
      exact ⟨fun he => by rw [hk, ← he], fun he => (congrArg Prod.snd he).symm⟩
    · have hne : (k, a) ≠ r := fun he => hk (congrArg Prod.fst he)
      simp [lookup_cons, hk, ih hr.2, hne]

/-- Append a row for an absent key. -/
def append (t : Table κ α) (k : κ) (a : α) (h : k ∉ t.keys) : Table κ α where
  rows := t.rows ++ [(k, a)]
  nodup := by
    rw [List.map_append, List.map_singleton]
    exact t.nodup.append (List.nodup_singleton k) (by simpa [keys] using h)

/-- Insert only if the key is absent. -/
def tryEmplace (t : Table κ α) (k : κ) (a : α) : Table κ α :=
  if h : k ∈ t.keys then t else t.append k a h

/-- Rewrite the value of a key through `operator[]`: an absent key first gets the default. -/
def modify (t : Table κ α) (k : κ) (d : α) (f : α → α) : Table κ α :=
  (t.tryEmplace k d).adjust k f

/-- Overwrite or insert, as an assignment through `operator[]` does. -/
def insert (t : Table κ α) (k : κ) (a : α) : Table κ α := t.modify k a fun _ => a

@[simp] theorem find?_empty (k : κ) : (∅ : Table κ α).find? k = none := rfl

theorem adjust_id (t : Table κ α) (k : κ) : t.adjust k id = t := by
  cases t with
  | mk rows nodup => simp [adjust, mapValues]

@[simp] theorem keys_adjust (t : Table κ α) (k : κ) (f : α → α) : (t.adjust k f).keys = t.keys :=
  keys_mapValues ..

theorem mem_keys_tryEmplace (t : Table κ α) (k x : κ) (a : α) :
    x ∈ (t.tryEmplace k a).keys ↔ x = k ∨ x ∈ t.keys := by
  unfold tryEmplace
  split
  · next h => exact ⟨Or.inr, fun hx => hx.elim (fun he => he ▸ h) id⟩
  · simp [append, keys, or_comm]

@[simp] theorem mem_keys_modify (t : Table κ α) (k x : κ) (d : α) (f : α → α) :
    x ∈ (t.modify k d f).keys ↔ x = k ∨ x ∈ t.keys := by
  rw [modify, keys_adjust, mem_keys_tryEmplace]

@[simp] theorem mem_keys_insert (t : Table κ α) (k x : κ) (a : α) :
    x ∈ (t.insert k a).keys ↔ x = k ∨ x ∈ t.keys :=
  mem_keys_modify ..

@[simp] theorem find?_mapValues (t : Table κ α) (f : κ → α → α) (k : κ) :
    (t.mapValues f).find? k = (t.find? k).map (f k) := by
  obtain ⟨rows, h⟩ := t
  simp only [find?, mapValues]
  clear h
  induction rows with
  | nil => simp
  | cons r rows ih =>
    by_cases hk : k = r.1
    · simp [lookup_cons, hk]
    · simp [lookup_cons, hk, ih]

@[simp] theorem find?_adjust_self (t : Table κ α) (k : κ) (f : α → α) :
    (t.adjust k f).find? k = (t.find? k).map f := by
  simp [adjust]

theorem find?_adjust_other (t : Table κ α) (k x : κ) (f : α → α) (h : x ≠ k) :
    (t.adjust k f).find? x = t.find? x := by
  simp [adjust, h]

theorem find?_tryEmplace_of_mem (t : Table κ α) (k : κ) (a : α) (h : k ∈ t.keys) :
    t.tryEmplace k a = t := by
  simp [tryEmplace, h]

theorem find?_append (t : Table κ α) (k x : κ) (a : α) (h : k ∉ t.keys) :
    (t.append k a h).find? x = if x = k then some a else t.find? x := by
  obtain ⟨rows, hd⟩ := t
  simp only [find?, append, List.lookup_append]
  by_cases hx : x = k
  · have hn : rows.lookup x = none := (find?_eq_none ⟨rows, hd⟩ x).mpr (by rw [hx]; exact h)
    rw [hn, if_pos hx, hx]
    simp
  · simp [lookup_cons, hx]

theorem find?_tryEmplace (t : Table κ α) (k x : κ) (a : α) :
    (t.tryEmplace k a).find? x = if x = k then some ((t.find? k).getD a) else t.find? x := by
  by_cases h : k ∈ t.keys
  · rw [find?_tryEmplace_of_mem _ _ _ h]
    split
    · next hx =>
      obtain ⟨b, hb⟩ := Option.isSome_iff_exists.mp ((find?_isSome t k).mpr h)
      rw [hx, hb, Option.getD_some]
    · rfl
  · rw [tryEmplace, dif_neg h, find?_append, (find?_eq_none t k).mpr h, Option.getD_none]

theorem find?_modify (t : Table κ α) (k x : κ) (d : α) (f : α → α) :
    (t.modify k d f).find? x = if x = k then some (f ((t.find? k).getD d)) else t.find? x := by
  rw [modify]
  split
  · next h => rw [h, find?_adjust_self, find?_tryEmplace, if_pos rfl, Option.map_some]
  · next h => rw [find?_adjust_other _ _ _ _ h, find?_tryEmplace, if_neg h]

theorem find?_insert (t : Table κ α) (k x : κ) (a : α) :
    (t.insert k a).find? x = if x = k then some a else t.find? x :=
  find?_modify ..

theorem find?_erase (t : Table κ α) (k x : κ) (a : α) : (t.erase k).find? x = some a ↔ x ≠ k ∧ t.find? x = some a := by
  rw [find?_eq_some, find?_eq_some]
  simp [erase, and_comm]

theorem find?_erase_eq (t : Table κ α) (k x : κ) : (t.erase k).find? x = if x = k then none else t.find? x := by
  ext a
  rw [find?_erase]
  split
  · next h => simp [h]
  · next h => simp [h]

/-- Tables with the same rows have as many of them, whatever their order. -/
theorem size_eq_of_find?_eq {s t : Table κ α} (h : ∀ k, s.find? k = t.find? k) : s.size = t.size := by
  apply List.Perm.length_eq
  rw [List.perm_ext_iff_of_nodup (.of_map _ s.nodup) (.of_map _ t.nodup)]
  intro r
  rw [← find?_eq_some, ← find?_eq_some, h]

/-- A fresh key goes to the end. -/
theorem rows_insert_of_not_mem (t : Table κ α) {k : κ} (a : α) (h : k ∉ t.keys) :
    (t.insert k a).rows = t.rows ++ [(k, a)] := by
  have hrest : t.rows.map (fun r => (r.1, if r.1 = k then a else r.2)) = t.rows := by
    rw [List.map_congr_left (g := id), List.map_id]
    intro r hr
    have hne : r.1 ≠ k := fun heq => h (heq ▸ List.mem_map.mpr ⟨r, hr, rfl⟩)
    simp [hne]
  simp [insert, modify, tryEmplace, h, append, adjust, mapValues, hrest]

/-! ## Sizes -/

/-- Rows that are in another table are no more than that table has. -/
theorem size_le_of_find? {s t : Table κ α} (h : ∀ k a, s.find? k = some a → t.find? k = some a) : s.size ≤ t.size := by
  rw [size_eq_keys, size_eq_keys]
  refine (List.subperm_of_subset s.nodup fun k hk => ?_).length_le
  obtain ⟨a, ha⟩ := Option.isSome_iff_exists.mp ((find?_isSome s k).mpr hk)
  exact (find?_isSome t k).mp (by rw [h k a ha]; rfl)

/-- If they are as many, they are all of them. -/
theorem find?_eq_of_size_le {s t : Table κ α} (h : ∀ k a, s.find? k = some a → t.find? k = some a)
    (hsize : t.size ≤ s.size) (k : κ) : s.find? k = t.find? k := by
  have hsub : List.Subperm s.keys t.keys := by
    refine List.subperm_of_subset s.nodup fun x hx => ?_
    obtain ⟨a, ha⟩ := Option.isSome_iff_exists.mp ((find?_isSome s x).mpr hx)
    exact (find?_isSome t x).mp (by rw [h x a ha]; rfl)
  rw [size_eq_keys, size_eq_keys] at hsize
  have hperm := hsub.perm_of_length_le hsize
  cases hs : s.find? k with
  | some a => exact (h k a hs).symm
  | none =>
    refine ((find?_eq_none t k).mpr fun hk => ?_).symm
    exact (find?_eq_none s k).mp hs (hperm.mem_iff.mpr hk)

theorem size_erase {t : Table κ α} {k : κ} (h : k ∈ t.keys) : (t.erase k).size + 1 = t.size := by
  have hkeys : (t.erase k).keys = t.keys.erase k := by
    have hnodup : t.keys.Nodup := t.nodup
    rw [hnodup.erase_eq_filter, keys, erase, keys, List.filter_map]
    congr 1
    refine List.filter_congr fun r _ => ?_
    by_cases hr : r.1 = k <;> simp [hr]
  rw [size_eq_keys, size_eq_keys, hkeys, List.length_erase_of_mem h]
  exact Nat.sub_add_cancel (List.length_pos_of_mem h)

theorem size_insert (t : Table κ α) (k : κ) (a : α) :
    (t.insert k a).size = if k ∈ t.keys then t.size else t.size + 1 := by
  by_cases hk : k ∈ t.keys
  · rw [if_pos hk, insert, modify, tryEmplace, dif_pos hk, size_eq_keys, keys_adjust, size_eq_keys]
  · rw [if_neg hk, size, rows_insert_of_not_mem t a hk, List.length_append]
    rfl

end Table

end Lib
