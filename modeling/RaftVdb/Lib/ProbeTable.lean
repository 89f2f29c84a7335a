import Mathlib.Data.List.Nodup
import Mathlib.Data.List.Perm.Basic
import Mathlib.Data.List.Rotate

/-!
# Linear probing with tombstones

A multimap in a ring of cells. A search for a key starts at the cell of its hash and goes round
until it meets an empty cell. Erasing leaves a tombstone that later entries may take, but only a
rehash makes a cell empty again.
-/

namespace Lib

variable {κ ι : Type}

inductive Cell (ε : Type) where
  | empty
  | live (entry : ε)
  | deleted
  deriving DecidableEq, Repr

namespace Cell

def isEmpty {ε : Type} : Cell ε → Bool
  | .empty => true
  | _ => false

/-- A new entry may take the cell. -/
def isVacant {ε : Type} : Cell ε → Bool
  | .live _ => false
  | _ => true

def entry? {ε : Type} : Cell ε → Option ε
  | .live e => some e
  | _ => none

/-- The value of an entry with the key. -/
def value? [DecidableEq κ] (key : κ) : Cell (κ × ι) → Option ι
  | .live e => if e.1 = key then some e.2 else none
  | _ => none

end Cell

structure ProbeTable (κ ι : Type) where
  cells : List (Cell (κ × ι)) := []
  deriving DecidableEq, Repr

namespace ProbeTable

def entries (t : ProbeTable κ ι) : List (κ × ι) := t.cells.filterMap Cell.entry?

def size (t : ProbeTable κ ι) : Nat := t.entries.length

def hasEmpty (t : ProbeTable κ ι) : Bool := t.cells.any Cell.isEmpty

def blank (n : Nat) : ProbeTable κ ι := ⟨List.replicate n .empty⟩

def isEmptyAt (t : ProbeTable κ ι) (i : Nat) : Bool := t.cells[i]?.any Cell.isEmpty

def isVacantAt (t : ProbeTable κ ι) (i : Nat) : Bool := t.cells[i]?.any Cell.isVacant

section Search

variable [DecidableEq κ] (hash : κ → Nat) (t : ProbeTable κ ι) (key : κ)

def valueAt (i : Nat) : Option ι := t.cells[i]?.bind (Cell.value? key)

/-- The cells in the order of a search for the key. -/
def probe : List Nat := (List.range t.cells.length).rotate (hash key)

/-- The cells before the first empty one. -/
def reached : List Nat := (t.probe hash key).takeWhile fun i => !t.isEmptyAt i

/-- The values that a search meets, in its order. -/
def found : List ι := (t.reached hash key).filterMap (t.valueAt key)

def contains : Bool := (t.reached hash key).any fun i => (t.valueAt key i).isSome

/-- A tombstone in each cell where a search meets the key. -/
def erase : ProbeTable κ ι :=
  ⟨t.cells.mapIdx fun i c => if (c.value? key).isSome ∧ i ∈ t.reached hash key then .deleted else c⟩

/-- Put an entry into the first vacant cell of its search. -/
def place (e : κ × ι) : ProbeTable κ ι :=
  match (t.probe hash e.1).find? t.isVacantAt with
  | some i => ⟨t.cells.set i (.live e)⟩
  | none => t

/-- The entries in a table of `n` cells without tombstones. -/
def rehash (n : Nat) : ProbeTable κ ι := t.entries.foldl (place hash) (blank n)

/-- A search for the key of an entry gets as far as the entry. -/
def Placed : Prop := ∀ i e, t.cells[i]? = some (.live e) → i ∈ t.reached hash e.1

end Search

/-! ## Where a search gets -/

variable {hash : κ → Nat} {t u : ProbeTable κ ι} {key : κ} {e : κ × ι} {i n : Nat} {v : ι}

theorem perm_probe (hash : κ → Nat) (t : ProbeTable κ ι) (key : κ) :
    (t.probe hash key).Perm (List.range t.cells.length) :=
  List.rotate_perm _ _

theorem takeWhile_mono {p q : Nat → Bool} (hpq : ∀ i, p i → q i) {l : List Nat} (h : i ∈ l.takeWhile p) :
    i ∈ l.takeWhile q := by
  induction l with
  | nil => exact h
  | cons x l ih =>
    rw [List.takeWhile_cons] at h ⊢
    by_cases hx : p x
    · rw [if_pos hx] at h
      rw [if_pos (hpq x hx)]
      rcases List.mem_cons.mp h with rfl | hi
      · exact List.mem_cons_self
      · exact List.mem_cons_of_mem _ (ih hi)
    · rw [if_neg hx] at h
      cases h

/-- A search gets at least as far in a table with no more empty cells. -/
theorem reached_mono (hlen : u.cells.length = t.cells.length) (hempty : ∀ i, u.isEmptyAt i → t.isEmptyAt i)
    (h : i ∈ t.reached hash key) : i ∈ u.reached hash key := by
  unfold reached probe at h ⊢
  rw [hlen]
  refine takeWhile_mono (fun j hj => ?_) h
  cases hu : u.isEmptyAt j with
  | false => rfl
  | true => simp [hempty j hu] at hj

theorem isEmptyAt_eq_false_of_live (h : t.cells[i]? = some (.live e)) : t.isEmptyAt i = false := by
  rw [isEmptyAt, h]
  rfl

/-! ## Placing an entry -/

/-- Placing finds a vacant cell unless every cell holds an entry. -/
theorem exists_vacant (hash : κ → Nat) (h : t.size < t.cells.length) (key : κ) :
    ∃ i, (t.probe hash key).find? t.isVacantAt = some i := by
  rw [← Option.isSome_iff_exists, List.find?_isSome]
  by_contra hnone
  have hlive : ∀ c ∈ t.cells, c.entry?.isSome := by
    intro c hc
    obtain ⟨i, hi⟩ := List.mem_iff_getElem?.mp hc
    cases c with
    | live e => rfl
    | empty =>
      refine absurd ⟨i, ?_, ?_⟩ hnone
      · rw [(perm_probe hash t key).mem_iff, List.mem_range]
        exact (List.getElem?_eq_some_iff.mp hi).1
      · rw [isVacantAt, hi]
        rfl
    | deleted =>
      refine absurd ⟨i, ?_, ?_⟩ hnone
      · rw [(perm_probe hash t key).mem_iff, List.mem_range]
        exact (List.getElem?_eq_some_iff.mp hi).1
      · rw [isVacantAt, hi]
        rfl
  have hall : t.size = t.cells.length := by
    rw [size, entries, List.length_filterMap_eq_countP, List.countP_eq_length]
    exact hlive
  omega

theorem length_place (hash : κ → Nat) (t : ProbeTable κ ι) (e : κ × ι) :
    (t.place hash e).cells.length = t.cells.length := by
  unfold place
  split
  · exact List.length_set
  · rfl

theorem Placed.place (h : t.Placed hash) (e : κ × ι) : (t.place hash e).Placed hash := by
  unfold ProbeTable.place
  cases hfind : (t.probe hash e.1).find? t.isVacantAt with
  | none => exact h
  | some i =>
    obtain ⟨-, front, back, hprobe, hfront⟩ := List.find?_eq_some_iff_append.mp hfind
    have hlen : (t.cells.set i (.live e)).length = t.cells.length := List.length_set
    have hempty : ∀ j, (ProbeTable.mk (t.cells.set i (.live e))).isEmptyAt j → t.isEmptyAt j := by
      intro j hj
      unfold isEmptyAt at hj ⊢
      rw [List.getElem?_set] at hj
      split at hj
      · split at hj
        · cases hj
        · cases hj
      · exact hj
    intro j x hj
    by_cases hij : i = j
    · subst hij
      have hlt : i < t.cells.length := by simpa using (List.getElem?_eq_some_iff.mp hj).1
      obtain rfl : e = x := by simpa [hlt] using hj
      -- The cells before it hold entries.
      have hstay : ∀ k ∈ front, (!(ProbeTable.mk (t.cells.set i (.live e))).isEmptyAt k) = true := by
        intro k hk
        cases he : (ProbeTable.mk (t.cells.set i (.live e))).isEmptyAt k with
        | false => rfl
        | true =>
          have hvacant : t.isVacantAt k = true := by
            have hold := hempty k he
            unfold isEmptyAt at hold
            unfold isVacantAt
            cases hc : t.cells[k]? with
            | none => simp [hc] at hold
            | some c => cases c with
              | empty => rfl
              | live y => simp [hc, Cell.isEmpty] at hold
              | deleted => rfl
          simpa [hvacant] using hfront k hk
      have hself : (!(ProbeTable.mk (t.cells.set i (.live e))).isEmptyAt i) = true := by
        rw [isEmptyAt_eq_false_of_live hj]
        rfl
      unfold reached
      have hsame : (ProbeTable.mk (t.cells.set i (.live e))).probe hash e.1 = front ++ i :: back := by
        rw [← hprobe, probe, probe, hlen]
      rw [hsame, List.takeWhile_append_of_pos hstay, List.takeWhile_cons, if_pos hself]
      simp
    · refine reached_mono hlen hempty (h j x ?_)
      rwa [List.getElem?_set_ne hij] at hj

theorem perm_filterMap_set {ε β : Type} {f : ε → Option β} {l : List ε} {i : Nat} {x y : ε} {b : β}
    (hi : l[i]? = some x) (hx : f x = none) (hy : f y = some b) :
    ((l.set i y).filterMap f).Perm (b :: l.filterMap f) := by
  induction l generalizing i with
  | nil => cases hi
  | cons a l ih =>
    cases i with
    | zero =>
      obtain rfl : a = x := by simpa using hi
      simp [hx, hy]
    | succ i =>
      have hrest := ih (i := i) (by simpa using hi)
      rw [List.set_cons_succ, List.filterMap_cons, List.filterMap_cons]
      cases f a with
      | none => exact hrest
      | some c => exact (hrest.cons c).trans (List.Perm.swap b c _)

theorem perm_entries_place (hash : κ → Nat) (h : t.size < t.cells.length) (e : κ × ι) :
    (t.place hash e).entries.Perm (e :: t.entries) := by
  obtain ⟨i, hfind⟩ := exists_vacant hash h e.1
  unfold place
  rw [hfind]
  have hvacant := List.find?_some hfind
  unfold isVacantAt at hvacant
  cases hc : t.cells[i]? with
  | none => simp [hc] at hvacant
  | some c =>
    refine perm_filterMap_set hc ?_ rfl
    cases c with
    | live x => simp [hc, Cell.isVacant] at hvacant
    | empty => rfl
    | deleted => rfl

/-! ## Starting anew -/

theorem entries_blank (n : Nat) : (blank n : ProbeTable κ ι).entries = [] := by
  simp [blank, entries, Cell.entry?]

theorem placed_blank (hash : κ → Nat) (n : Nat) : (blank n : ProbeTable κ ι).Placed hash := by
  intro i e hi
  simp [blank, List.getElem?_replicate] at hi

/-- What placing entries one after the other leaves. -/
theorem Placed.foldl_place (h : t.Placed hash) {es : List (κ × ι)} (hroom : t.size + es.length ≤ t.cells.length) :
    (es.foldl (ProbeTable.place hash) t).Placed hash ∧ (es.foldl (ProbeTable.place hash) t).entries.Perm (es ++ t.entries) ∧
      (es.foldl (ProbeTable.place hash) t).cells.length = t.cells.length := by
  induction es generalizing t with
  | nil => exact ⟨h, .refl _, rfl⟩
  | cons e es ih =>
    rw [List.length_cons] at hroom
    have hspace : t.size < t.cells.length := by omega
    have hperm := perm_entries_place hash hspace e
    have hsize : (t.place hash e).size = t.size + 1 := hperm.length_eq
    obtain ⟨hplaced, hentries, hlen⟩ := ih (h.place e) (by rw [hsize, length_place]; omega)
    refine ⟨hplaced, hentries.trans ?_, hlen.trans (length_place ..)⟩
    exact (hperm.append_left es).trans List.perm_middle

theorem rehash_spec (hash : κ → Nat) (t : ProbeTable κ ι) (h : t.size ≤ n) :
    (t.rehash hash n).Placed hash ∧ (t.rehash hash n).entries.Perm t.entries ∧ (t.rehash hash n).cells.length = n := by
  have hblank : (blank n : ProbeTable κ ι).cells.length = n := List.length_replicate
  have hroom : (blank n : ProbeTable κ ι).size + t.entries.length ≤ (blank n : ProbeTable κ ι).cells.length := by
    rw [size, entries_blank, hblank]
    simpa [size] using h
  obtain ⟨hplaced, hentries, hlen⟩ := (placed_blank hash n).foldl_place hroom
  rw [entries_blank, List.append_nil] at hentries
  exact ⟨hplaced, hentries, hlen.trans hblank⟩

/-! ## The entries that a search meets -/

theorem filterMap_range {ε β : Type} (l : List ε) (f : ε → Option β) :
    (List.range l.length).filterMap (fun i => l[i]?.bind f) = l.filterMap f := by
  have hmap : (List.range l.length).map (fun i => l[i]?) = l.map some := by
    refine List.ext_getElem? fun i => ?_
    by_cases hi : i < l.length
    · simp [hi]
    · simp [Nat.le_of_not_lt hi]
  have hsplit : (List.range l.length).filterMap (fun i => l[i]?.bind f) =
      ((List.range l.length).map fun i => l[i]?).filterMap (·.bind f) := by
    rw [List.filterMap_map]
    rfl
  rw [hsplit, hmap, List.filterMap_map]
  rfl

variable [DecidableEq κ]

theorem valueAt_eq_some : t.valueAt key i = some v ↔ t.cells[i]? = some (.live (key, v)) := by
  unfold valueAt
  rw [Option.bind_eq_some_iff]
  constructor
  · rintro ⟨c, hc, hv⟩
    cases c with
    | empty => cases hv
    | deleted => cases hv
    | live e =>
      obtain ⟨rfl, rfl⟩ : e.1 = key ∧ e.2 = v := by simpa [Cell.value?] using hv
      exact hc
  · intro hc
    exact ⟨_, hc, by simp [Cell.value?]⟩

/-- The values of the key in the whole table. -/
theorem filterMap_value? (t : ProbeTable κ ι) (key : κ) :
    t.cells.filterMap (Cell.value? key) = (t.entries.filter fun e => e.1 = key).map Prod.snd := by
  unfold entries
  induction t.cells with
  | nil => rfl
  | cons c cells ih =>
    cases c with
    | empty => exact ih
    | deleted => exact ih
    | live e =>
      by_cases he : e.1 = key
      · simp [Cell.value?, Cell.entry?, he, ih]
      · simp [Cell.value?, Cell.entry?, he, ih]

/-- A search meets all the values of the key. -/
theorem Placed.found_perm (h : t.Placed hash) (key : κ) :
    (t.found hash key).Perm ((t.entries.filter fun e => e.1 = key).map Prod.snd) := by
  have hnodup : (t.probe hash key).Nodup := (perm_probe hash t key).nodup_iff.mpr List.nodup_range
  have hsplit : t.reached hash key ++ (t.probe hash key).dropWhile (fun i => !t.isEmptyAt i) = t.probe hash key :=
    List.takeWhile_append_dropWhile
  have hrest : ((t.probe hash key).dropWhile fun i => !t.isEmptyAt i).filterMap (t.valueAt key) = [] := by
    rw [List.filterMap_eq_nil_iff]
    intro i hi
    rw [Option.eq_none_iff_forall_ne_some]
    intro v hv
    rw [← hsplit] at hnodup
    exact (List.disjoint_of_nodup_append hnodup) (h i _ (valueAt_eq_some.mp hv)) hi
  have hall : (t.probe hash key).filterMap (t.valueAt key) = t.found hash key := by
    rw [← hsplit, List.filterMap_append, hrest, List.append_nil]
    rfl
  have hrange : (List.range t.cells.length).filterMap (t.valueAt key) = t.cells.filterMap (Cell.value? key) :=
    filterMap_range t.cells (Cell.value? key)
  rw [← filterMap_value?, ← hall, ← hrange]
  exact (perm_probe hash t key).filterMap _

theorem contains_eq_false : t.contains hash key = false ↔ t.found hash key = [] := by
  unfold contains found
  rw [List.any_eq_false, List.filterMap_eq_nil_iff]
  refine forall_congr' fun i => imp_congr_right fun _ => ?_
  cases t.valueAt key i with
  | none => simp
  | some v => simp

/-! ## Erasing -/

theorem isEmptyAt_erase (hash : κ → Nat) (t : ProbeTable κ ι) (key : κ) (i : Nat) :
    (t.erase hash key).isEmptyAt i = t.isEmptyAt i := by
  unfold isEmptyAt erase
  rw [List.getElem?_mapIdx]
  cases t.cells[i]? with
  | none => rfl
  | some c =>
    simp only [Option.map_some, Option.any_some]
    split
    · next h =>
      cases c with
      | empty => simp [Cell.value?] at h
      | live e => rfl
      | deleted => rfl
    · rfl

theorem Placed.erase (h : t.Placed hash) (key : κ) : (t.erase hash key).Placed hash := by
  intro i e hi
  have hold : t.cells[i]? = some (.live e) := by
    simp only [ProbeTable.erase, List.getElem?_mapIdx, Option.map_eq_some_iff] at hi
    obtain ⟨c, hc, hif⟩ := hi
    split at hif
    · cases hif
    · rw [hc, hif]
  refine reached_mono (by simp [ProbeTable.erase]) (fun j hj => ?_) (h i e hold)
  rwa [isEmptyAt_erase] at hj

/-- Erasing takes all entries of the key. -/
theorem Placed.entries_erase (h : t.Placed hash) (key : κ) :
    (t.erase hash key).entries = t.entries.filter fun e => e.1 ≠ key := by
  have hcells : (t.erase hash key).cells = t.cells.map fun c => if (c.value? key).isSome then .deleted else c := by
    refine List.ext_getElem? fun i => ?_
    simp only [ProbeTable.erase, List.getElem?_mapIdx, List.getElem?_map]
    cases hi : t.cells[i]? with
    | none => rfl
    | some c =>
      simp only [Option.map_some, Option.some.injEq]
      cases hv : c.value? key with
      | none => simp
      | some v =>
        have hlive : t.cells[i]? = some (.live (key, v)) := valueAt_eq_some.mp (by simp [valueAt, hi, hv])
        simp [h i _ hlive]
  unfold entries
  rw [hcells, List.filterMap_map, List.filter_filterMap]
  refine List.filterMap_congr fun c _ => ?_
  cases c with
  | empty => rfl
  | deleted => rfl
  | live e =>
    by_cases he : e.1 = key
    · simp [Cell.value?, Cell.entry?, Option.filter, he]
    · simp [Cell.value?, Cell.entry?, Option.filter, he]

theorem Placed.found_erase (h : t.Placed hash) (key : κ) : (t.erase hash key).found hash key = [] := by
  have hperm := (h.erase key).found_perm key
  rw [h.entries_erase, List.filter_filter] at hperm
  refine List.Perm.eq_nil (hperm.trans ?_)
  simp

end ProbeTable

end Lib
