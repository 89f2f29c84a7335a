import Mathlib.Data.Finset.Card
import Mathlib.Data.List.Perm.Subperm
import RaftVdb.VectorIndex

/-!
# The slot counts of the vector index

`VectorIndex` keeps a count of deleted slots of its own beside the ring of free slots in
`index_dense_gt`: `Upsert` foresees whether a slot is used again, `Compact` sets the count
to zero, and a load takes it from the header of the file.
-/

namespace RaftVdb

open Lib

variable {α : Type}

/-! ## Snapshots of the index -/

/-- The file that `save` writes: the part of its header that a load uses, and the nodes. -/
structure IndexFile (α : Type) where
  dimensions : Nat
  countPresent : Nat
  countDeleted : Nat
  slots : List (Slot α)
  deriving DecidableEq, Repr

namespace IndexDense

/-- `reindex_keys_` after a load: the lookup and the ring that the keys in the slots stand for. -/
def reindexKeys (slots : List (Slot α)) : IndexDense α :=
  let present := (slots.zipIdx.filter fun e => e.1.key ≠ freeKey).map fun e => (e.1.key, e.2)
  { slots := slots
    slotLookup := present.foldl SlotLookup.tryEmplace (SlotLookup.tryReserve {} present.length)
    freeKeys := (slots.zipIdx.filter fun e => e.1.key = freeKey).map Prod.snd }

def save (ix : IndexDense α) (dimensions : Nat) : IndexFile α where
  dimensions := dimensions
  countPresent := ix.size
  countDeleted := ix.slots.length - ix.size
  slots := ix.slots

end IndexDense

namespace VectorIndex

def size (vi : VectorIndex α) : Nat := vi.index.size

def totalSlots (vi : VectorIndex α) : Nat := vi.index.size + vi.deletedCount

/-- The clone that is saved has the slots and the ring of the index. -/
def saveSnapshot (vi : VectorIndex α) : IndexFile α := vi.index.save vi.dim

/-- The configured metric and scalar kind are those of the file. -/
def loadFromSnapshot (cfg : VectorConfig) (file : IndexFile α) : Except String (VectorIndex α) := do
  validateCreateConfig cfg
  if file.dimensions ≠ cfg.dim then .error "快照维度与当前配置不一致"
  else
    let reserveMembers := max cfg.initialCapacity (file.countPresent + file.countDeleted)
    .ok { dim := cfg.dim
          index := (IndexDense.reindexKeys file.slots).tryReserve reserveMembers
          deletedCount := file.countDeleted }

end VectorIndex

/-! ## The index and the ids it should hold -/

/-- The index beside the ids whose last operation was an `Upsert`. -/
structure Tally (α : Type) where
  index : VectorIndex α
  live : Finset Nat := ∅

namespace Tally

inductive Action (α : Type) where
  | call (call : VectorIndex.Call α)
  | reload (cfg : VectorConfig)

/-- The ids after a call. An `Upsert` that refuses its vector is no operation on the id. -/
def note (t : Tally α) : VectorIndex.Call α → Finset Nat
  | .upsert id vec _ => if t.index.Accepts vec then insert id t.live else t.live
  | .delete id => t.live.erase id
  | .compact _ _ => t.live
  | .isolate => t.live

def act (t : Tally α) : Action α → Option (Tally α)
  | .call call => (t.index.step call).map fun index => ⟨index, t.note call⟩
  | .reload cfg => (VectorIndex.loadFromSnapshot cfg t.index.saveSnapshot).toOption.map fun index => { t with index }

/-- The three counts are those of the underlying index and of the ids. -/
structure Exact (t : Tally α) : Prop where
  deletedCount : t.index.deletedCount = t.index.index.freeKeys.length
  totalSlots : t.index.totalSlots = t.index.index.slots.length
  size : t.index.size = t.live.card

/-- The search for the id ends and a new node has a place, a compaction finds no free slot and moves
no slot of the lookup, and the id of the tombstone key is not live when the index is saved. -/
def Settled (t : Tally α) : Action α → Prop
  | .call (.compact _ order) => t.index.index.KeepsLiveSlots order ∧ t.index.index.freeKeys = []
  | .call call => t.index.Kept call
  | .reload _ => freeKey ∉ t.live

instance (t : Tally α) : (a : Action α) → Decidable (t.Settled a)
  | .call (.compact _ _) => inferInstanceAs (Decidable (_ ∧ _))
  | .call (.upsert id vec level) => inferInstanceAs (Decidable (t.index.Kept (.upsert id vec level)))
  | .call (.delete id) => inferInstanceAs (Decidable (t.index.Kept (.delete id)))
  | .call .isolate => inferInstanceAs (Decidable (t.index.Kept .isolate))
  | .reload _ => inferInstanceAs (Decidable (freeKey ∉ t.live))

end Tally

/-! ## What the lookup and the ring share out -/

namespace IndexDense

/-- Every slot is in the lookup or in the ring, and the slots in the ring are free. -/
structure Shared (ix : IndexDense α) : Prop where
  placed : ix.slotLookup.Placed lookupKeyHash
  parts : (ix.slotLookup.entries.map Prod.snd ++ ix.freeKeys).Perm (List.range ix.slots.length)
  free : ∀ slot ∈ ix.freeKeys, ix.IsFree slot

/-- The lookup has one slot for a key, which holds the key. -/
structure Named (ix : IndexDense α) : Prop where
  nodup : (ix.slotLookup.entries.map Prod.fst).Nodup
  key : ∀ e ∈ ix.slotLookup.entries, (ix.slots[e.2]?).map Slot.key = some e.1

variable {ix ix' : IndexDense α} {key level : Nat} {vector : List α} {removed : IndexDense α × Nat}

theorem Shared.length (h : ix.Shared) : ix.slotLookup.entries.length + ix.freeKeys.length = ix.slots.length := by
  have hlength := h.parts.length_eq
  rwa [List.length_append, List.length_map, List.length_range] at hlength

theorem Shared.nodup (h : ix.Shared) : (ix.slotLookup.entries.map Prod.snd ++ ix.freeKeys).Nodup :=
  h.parts.nodup_iff.mpr List.nodup_range

theorem Shared.size_eq (h : ix.Shared) : ix.size = ix.slotLookup.entries.length := by
  have hlength := h.length
  unfold size
  omega

theorem Shared.size_le (h : ix.Shared) : ix.slotLookup.size ≤ ix.slots.length := by
  have hlength := h.length
  unfold ProbeTable.size
  omega

theorem Shared.lt_length (h : ix.Shared) {e : Nat × Nat} (he : e ∈ ix.slotLookup.entries) : e.2 < ix.slots.length := by
  have hmem := h.parts.mem_iff.mp (List.mem_append_left _ (List.mem_map_of_mem he))
  simpa using hmem

/-! Removing a key moves its slots from the lookup to the ring. -/

theorem length_foldl_markFree (matching : List Nat) (slots : List (Slot α)) :
    (matching.foldl markFree slots).length = slots.length := by
  induction matching generalizing slots with
  | nil => rfl
  | cons slot matching ih => rw [List.foldl_cons, ih, markFree, List.length_modify]

/-- A slot is free after some were marked if it was before or is one of them. -/
theorem isFree_foldl_markFree {matching : List Nat} {slots : List (Slot α)} {i : Nat} (hlt : i < slots.length)
    (h : i ∈ matching ∨ ∃ s, slots[i]? = some s ∧ s.key = freeKey) :
    ∃ s, (matching.foldl markFree slots)[i]? = some s ∧ s.key = freeKey := by
  induction matching generalizing slots with
  | nil => exact h.resolve_left (by simp)
  | cons slot matching ih =>
    rw [List.foldl_cons]
    refine ih (by rwa [markFree, List.length_modify]) ?_
    by_cases hi : slot = i
    · exact .inr ⟨_, getElem?_modify_eq_some.mpr (.inr ⟨hi, _, List.getElem?_eq_getElem hlt, rfl⟩), rfl⟩
    · cases h with
      | inl hmem => exact .inl ((List.mem_cons.mp hmem).resolve_left (Ne.symm hi))
      | inr hfree =>
        obtain ⟨s, hs, hkey⟩ := hfree
        exact .inr ⟨s, getElem?_modify_eq_some.mpr (.inl ⟨hi, hs⟩), hkey⟩

theorem getElem?_foldl_markFree {matching : List Nat} {slots : List (Slot α)} {i : Nat} (h : i ∉ matching) :
    (matching.foldl markFree slots)[i]? = slots[i]? := by
  induction matching generalizing slots with
  | nil => rfl
  | cons slot matching ih =>
    rw [List.mem_cons, not_or] at h
    rw [List.foldl_cons, ih h.2, markFree, List.getElem?_modify_ne _ _ (Ne.symm h.1)]

/-- The slots of the other keys beside those of the key. -/
theorem Shared.split (h : ix.Shared) (key : Nat) :
    ((ix.slotLookup.erase lookupKeyHash key).entries.map Prod.snd ++ ix.slotLookup.found lookupKeyHash key).Perm
      (ix.slotLookup.entries.map Prod.snd) := by
  have hneg : (ix.slotLookup.entries.filter fun e => e.1 ≠ key) =
      ix.slotLookup.entries.filter fun e => !decide (e.1 = key) := by
    simp
  rw [h.placed.entries_erase, hneg]
  refine ((h.placed.found_perm key).append_left _).trans ?_
  rw [← List.map_append]
  exact (List.perm_append_comm.trans (List.filter_append_perm _ ix.slotLookup.entries)).map Prod.snd

/-- What `remove` does to the lookup and the ring, and that the number it returns is that of the slots. -/
theorem Shared.remove (h : ix.Shared) (hremove : ix.remove key = some removed) :
    removed.1.Shared ∧ removed.1.freeKeys.length = ix.freeKeys.length + removed.2 ∧
      removed.1.slotLookup.entries.length + removed.2 = ix.slotLookup.entries.length := by
  rcases remove_cases hremove with ⟨-, rfl⟩ | ⟨-, -, rfl⟩
  · exact ⟨h, rfl, rfl⟩
  · have hsplit := h.split key
    have hlt : ∀ slot ∈ ix.slotLookup.found lookupKeyHash key, slot < ix.slots.length := fun slot hslot => by
      obtain ⟨e, he, rfl⟩ := List.mem_map.mp (hsplit.mem_iff.mp (List.mem_append_right _ hslot))
      exact h.lt_length he
    refine ⟨⟨h.placed.erase key, ?_, fun slot hslot => ?_⟩, List.length_append, ?_⟩
    · dsimp only
      rw [length_foldl_markFree]
      refine List.Perm.trans ?_ h.parts
      rw [← List.append_assoc]
      refine List.Perm.trans ?_ (hsplit.append_right ix.freeKeys)
      rw [List.append_assoc, List.append_assoc]
      exact List.perm_append_comm.append_left _
    · cases List.mem_append.mp hslot with
      | inl hold =>
        obtain ⟨s, hs, hkey⟩ := h.free slot hold
        exact isFree_foldl_markFree (List.getElem?_eq_some_iff.mp hs).1 (.inr ⟨s, hs, hkey⟩)
      | inr hnew => exact isFree_foldl_markFree (hlt slot hnew) (.inl hnew)
    · have hlength := hsplit.length_eq
      rwa [List.length_append, List.length_map, List.length_map] at hlength

/-- A removal whose search ends leaves the other keys. -/
theorem Shared.remove_entries (h : ix.Shared) (hends : ix.slotLookup.Ends key) (hremove : ix.remove key = some removed) :
    removed.1.slotLookup.entries = ix.slotLookup.entries.filter fun e => e.1 ≠ key := by
  rcases remove_cases hremove with ⟨hrange, rfl⟩ | ⟨-, -, rfl⟩
  · rw [SlotLookup.equalRange_of_ends h.placed hends, Option.some.injEq, SlotLookup.found_eq_nil h.placed] at hrange
    refine (List.filter_eq_self.mpr fun e he => ?_).symm
    rw [decide_eq_true_eq]
    rintro rfl
    exact hrange e.2 he
  · exact h.placed.entries_erase key

theorem Named.remove (hn : ix.Named) (h : ix.Shared) (hremove : ix.remove key = some removed) : removed.1.Named := by
  rcases remove_cases hremove with ⟨-, rfl⟩ | ⟨-, -, rfl⟩
  · exact hn
  · have hentries := h.placed.entries_erase key
    constructor
    · dsimp only
      rw [hentries]
      exact (List.Sublist.map _ List.filter_sublist).nodup hn.nodup
    · intro e he
      dsimp only at he ⊢
      have hother : e.2 ∉ ix.slotLookup.found lookupKeyHash key := by
        have hnodup := (h.split key).nodup_iff.mpr h.nodup.of_append_left
        exact List.disjoint_of_nodup_append hnodup (List.mem_map_of_mem he)
      rw [getElem?_foldl_markFree hother]
      rw [hentries] at he
      exact hn.key e (List.mem_filter.mp he).1

/-! Adding a key takes a slot out of the ring if there is one. -/

theorem Shared.not_mem_of_contains (h : ix.Shared) (hnew : ix.contains key = false) (slot : Nat) :
    (key, slot) ∉ ix.slotLookup.entries :=
  (SlotLookup.found_eq_nil h.placed).mp (ProbeTable.contains_eq_false.mp hnew) slot

theorem Shared.add (h : ix.Shared) (hadd : ix.add key vector level = some (.ok ix')) :
    ix'.Shared ∧ ix'.freeKeys.length = ix.freeKeys.length - 1 ∧
      ∃ slot, ix'.slotLookup.entries.Perm ((key, slot) :: ix.slotLookup.entries) := by
  obtain ⟨-, ⟨slot, rest, hring, rfl⟩ | ⟨hring, rfl⟩⟩ := add_cases hadd
  · obtain ⟨hplaced, hentries⟩ := SlotLookup.tryEmplace_spec h.placed (key, slot)
    have hparts := h.parts
    have hnodup := h.nodup
    rw [hring] at hparts hnodup
    refine ⟨⟨hplaced, ?_, fun i hi => ?_⟩, by simp [hring], slot, hentries⟩
    · dsimp only
      rw [List.length_modify]
      refine List.Perm.trans ?_ hparts
      exact ((hentries.map Prod.snd).append_right rest).trans List.perm_middle.symm
    · obtain ⟨s, hs, hkey⟩ := h.free i (by rw [hring]; exact List.mem_cons_of_mem _ hi)
      refine ⟨s, getElem?_modify_eq_some.mpr (.inl ⟨?_, hs⟩), hkey⟩
      rintro rfl
      exact (List.nodup_cons.mp hnodup.of_append_right).1 hi
  · obtain ⟨hplaced, hentries⟩ := SlotLookup.tryEmplace_spec h.placed (key, ix.slots.length)
    have hparts := h.parts
    rw [hring, List.append_nil] at hparts
    refine ⟨⟨hplaced, ?_, fun i hi => ?_⟩, by simp [hring], ix.slots.length, hentries⟩
    · dsimp only
      rw [hring, List.append_nil, List.length_append, List.length_singleton, List.range_succ]
      refine (hentries.map Prod.snd).trans ?_
      exact (List.perm_append_singleton _ _).symm.trans (hparts.append_right _)
    · dsimp only at hi
      rw [hring] at hi
      cases hi

theorem Named.nodup_cons (hn : ix.Named) (hnew : ∀ slot, (key, slot) ∉ ix.slotLookup.entries) (slot : Nat) :
    (((key, slot) :: ix.slotLookup.entries).map Prod.fst).Nodup := by
  rw [List.map_cons, List.nodup_cons]
  refine ⟨fun hmem => ?_, hn.nodup⟩
  obtain ⟨e, he, rfl⟩ := List.mem_map.mp hmem
  exact hnew e.2 he

theorem Named.add (hn : ix.Named) (h : ix.Shared) (hadd : ix.add key vector level = some (.ok ix')) : ix'.Named := by
  obtain ⟨hnew, ⟨slot, rest, hring, rfl⟩ | ⟨hring, rfl⟩⟩ := add_cases hadd
  · obtain ⟨-, hentries⟩ := SlotLookup.tryEmplace_spec h.placed (key, slot)
    have hslot : slot ∈ ix.freeKeys := by
      rw [hring]
      exact List.mem_cons_self
    obtain ⟨s, hs, -⟩ := h.free slot hslot
    refine ⟨(hentries.map Prod.fst).nodup_iff.mpr (hn.nodup_cons (h.not_mem_of_contains hnew) slot), fun e he => ?_⟩
    rcases List.mem_cons.mp (hentries.mem_iff.mp he) with rfl | hold
    · simp [hs]
    · have hne : slot ≠ e.2 := by
        rintro rfl
        exact (List.disjoint_of_nodup_append h.nodup) (List.mem_map_of_mem hold) hslot
      simpa [hne] using hn.key e hold
  · obtain ⟨-, hentries⟩ := SlotLookup.tryEmplace_spec h.placed (key, ix.slots.length)
    refine ⟨(hentries.map Prod.fst).nodup_iff.mpr (hn.nodup_cons (h.not_mem_of_contains hnew) _), fun e he => ?_⟩
    rcases List.mem_cons.mp (hentries.mem_iff.mp he) with rfl | hold
    · simp
    · dsimp only
      rw [List.getElem?_append_left (h.lt_length hold)]
      exact hn.key e hold

/-! A compaction permutes the slots. -/

theorem length_compact {order : List Nat} (hperm : order.Perm (List.range ix.slots.length)) :
    (ix.compact order).slots.length = ix.slots.length := by
  have hin : ∀ old ∈ order, ((ix.slots[old]?).isSome : Prop) := fun old hold => by
    simpa using hperm.mem_iff.mp hold
  rw [IndexDense.compact, List.length_filterMap_eq_countP, List.countP_eq_length.mpr hin, hperm.length_eq,
    List.length_range]

/-- If no slot is free a compaction that keeps the live ones keeps all. -/
theorem Shared.slots_compact (h : ix.Shared) {order : List Nat} (hperm : order.Perm (List.range ix.slots.length))
    (hkeep : ix.KeepsLiveSlots order) (hring : ix.freeKeys = []) : (ix.compact order).slots = ix.slots := by
  refine List.ext_getElem? fun i => ?_
  rw [getElem?_compact hperm]
  rcases Nat.lt_or_ge i ix.slots.length with hlt | hge
  · have hmem : i ∈ ix.slotLookup.entries.map Prod.snd ++ ix.freeKeys := h.parts.mem_iff.mpr (List.mem_range.mpr hlt)
    rw [hring, List.append_nil] at hmem
    obtain ⟨e, he, rfl⟩ := List.mem_map.mp hmem
    rw [hkeep e he]
    rfl
  · have hlength : order.length = ix.slots.length := by simpa using hperm.length_eq
    rw [List.getElem?_eq_none (hlength ▸ hge), List.getElem?_eq_none hge]
    rfl

/-! A load shares the slots out by their keys. -/

theorem reindexKeys_spec (slots : List (Slot α)) :
    (reindexKeys slots).slotLookup.Placed lookupKeyHash ∧ (reindexKeys slots).slotLookup.entries.Perm
      ((slots.zipIdx.filter fun e => e.1.key ≠ freeKey).map fun e => (e.1.key, e.2)) := by
  obtain ⟨hplaced, hnone⟩ :=
    SlotLookup.tryReserve_empty ((slots.zipIdx.filter fun e => e.1.key ≠ freeKey).map fun e => (e.1.key, e.2)).length
  obtain ⟨hplaced', hentries⟩ := SlotLookup.foldl_tryEmplace_spec hplaced
    ((slots.zipIdx.filter fun e => e.1.key ≠ freeKey).map fun e => (e.1.key, e.2))
  rw [hnone, List.append_nil] at hentries
  exact ⟨hplaced', hentries⟩

theorem mem_reindexKeys {slots : List (Slot α)} {e : Nat × Nat} :
    e ∈ (reindexKeys slots).slotLookup.entries ↔ (slots[e.2]?).map Slot.key = some e.1 ∧ e.1 ≠ freeKey := by
  rw [(reindexKeys_spec slots).2.mem_iff, List.mem_map, Option.map_eq_some_iff]
  constructor
  · rintro ⟨x, hx, rfl⟩
    obtain ⟨hx, hkey⟩ := List.mem_filter.mp hx
    exact ⟨⟨x.1, List.mem_zipIdx_iff_getElem?.mp hx, rfl⟩, of_decide_eq_true hkey⟩
  · rintro ⟨⟨s, hs, hkey⟩, hne⟩
    refine ⟨(s, e.2), List.mem_filter.mpr ⟨List.mem_zipIdx_iff_getElem?.mpr hs, ?_⟩, Prod.ext hkey rfl⟩
    exact decide_eq_true (hkey ▸ hne)

theorem mem_freeKeys_reindexKeys {slots : List (Slot α)} {i : Nat} :
    i ∈ (reindexKeys slots).freeKeys ↔ (reindexKeys slots).IsFree i := by
  simp only [reindexKeys, IsFree, List.mem_map, List.mem_filter, decide_eq_true_eq]
  constructor
  · rintro ⟨e, ⟨he, hkey⟩, rfl⟩
    exact ⟨e.1, List.mem_zipIdx_iff_getElem?.mp he, hkey⟩
  · rintro ⟨s, hs, hkey⟩
    exact ⟨(s, i), ⟨List.mem_zipIdx_iff_getElem?.mpr hs, hkey⟩, rfl⟩

theorem shared_reindexKeys (slots : List (Slot α)) : (reindexKeys slots).Shared where
  placed := (reindexKeys_spec slots).1
  parts := by
    have hneg : (slots.zipIdx.filter fun e => e.1.key ≠ freeKey) =
        slots.zipIdx.filter fun e => !decide (e.1.key = freeKey) := by
      simp
    have hsplit := (List.perm_append_comm.trans
      (List.filter_append_perm (fun e => decide (e.1.key = freeKey)) slots.zipIdx)).map Prod.snd
    rw [List.map_append, ← hneg, List.zipIdx_map_snd, ← List.range_eq_range'] at hsplit
    refine List.Perm.trans ?_ hsplit
    refine List.Perm.append_right _ (((reindexKeys_spec slots).2.map Prod.snd).trans ?_)
    rw [List.map_map]
    exact .refl _
  free _ hslot := mem_freeKeys_reindexKeys.mp hslot

/-- Unless the tombstone key is in use, a load finds the lookup that was there. -/
theorem Shared.reindexKeys_perm (h : ix.Shared) (hn : ix.Named) (hfree : ∀ slot, (freeKey, slot) ∉ ix.slotLookup.entries) :
    (reindexKeys ix.slots).slotLookup.entries.Perm ix.slotLookup.entries := by
  have hnodup : (reindexKeys ix.slots).slotLookup.entries.Nodup :=
    List.Nodup.of_map Prod.snd (shared_reindexKeys ix.slots).nodup.of_append_left
  refine (List.perm_ext_iff_of_nodup hnodup (List.Nodup.of_map Prod.snd h.nodup.of_append_left)).mpr fun e => ?_
  rw [mem_reindexKeys]
  constructor
  · rintro ⟨hkey, hne⟩
    have hlt : e.2 ∈ List.range ix.slots.length := by
      obtain ⟨s, hs, -⟩ := Option.map_eq_some_iff.mp hkey
      exact List.mem_range.mpr (List.getElem?_eq_some_iff.mp hs).1
    rcases List.mem_append.mp (h.parts.mem_iff.mpr hlt) with hheld | hring
    · obtain ⟨x, hx, hslot⟩ := List.mem_map.mp hheld
      have hxkey := hn.key x hx
      rw [hslot, hkey, Option.some.injEq] at hxkey
      rwa [Prod.ext hxkey.symm hslot] at hx
    · obtain ⟨s, hs, hsfree⟩ := h.free _ hring
      rw [hs] at hkey
      exact absurd ((Option.some.inj hkey).symm.trans hsfree) hne
  · intro he
    refine ⟨hn.key e he, ?_⟩
    rintro hkey
    exact hfree e.2 (by rwa [← hkey])

theorem Refines.reindexKeys {m : VectorMap α} (h : ix.Refines m) : (reindexKeys ix.slots).Refines m := by
  have hnodup : (IndexDense.reindexKeys ix.slots).slotLookup.entries.Nodup :=
    List.Nodup.of_map Prod.snd (shared_reindexKeys ix.slots).nodup.of_append_left
  refine ⟨(shared_reindexKeys ix.slots).placed, fun key slot => ?_, ?_, fun slot => mem_freeKeys_reindexKeys,
    (shared_reindexKeys ix.slots).nodup.of_append_right, h.map⟩
  · rw [mem_reindexKeys, Option.map_eq_some_iff]
    constructor
    · rintro ⟨⟨s, hs, rfl⟩, hne⟩
      exact ⟨s.vector, hne, s.level, hs⟩
    · rintro ⟨vector, hne, level, hs⟩
      exact ⟨⟨_, hs, rfl⟩, hne⟩
  · have hkeys : (ix.slots.zipIdx.filter fun e => e.1.key ≠ freeKey).map (fun e => e.1.key) = ix.eligible.map Prod.fst := by
      have hslots : ix.slots = ix.slots.zipIdx.map Prod.fst := (List.zipIdx_map_fst 0 ix.slots).symm
      rw [eligible, hslots, List.filter_map, ← hslots]
      simp only [List.map_map, Function.comp_def]
    rw [((reindexKeys_spec ix.slots).2.map Prod.fst).nodup_iff, List.map_map]
    exact hkeys ▸ VectorIndex.nodup_eligible h

theorem Refines.tryReserve {m : VectorMap α} (h : ix.Refines m) {members : Nat} (hroom : ix.slotLookup.size ≤ members) :
    (ix.tryReserve members).Refines m := by
  obtain ⟨hplaced, hentries⟩ := SlotLookup.tryReserve_spec h.placed hroom
  exact ⟨hplaced, fun key slot => hentries.mem_iff.trans (h.lookup key slot), (hentries.map Prod.fst).nodup_iff.mpr h.nodup,
    h.free, h.freeNodup, h.map⟩

theorem Shared.tryReserve (h : ix.Shared) {members : Nat} (hroom : ix.slots.length ≤ members) :
    (ix.tryReserve members).Shared ∧ (ix.tryReserve members).slotLookup.entries.Perm ix.slotLookup.entries := by
  obtain ⟨hplaced, hentries⟩ := SlotLookup.tryReserve_spec h.placed (h.size_le.trans hroom)
  exact ⟨⟨hplaced, ((hentries.map Prod.snd).append_right _).trans h.parts, h.free⟩, hentries⟩

theorem shared_created (cfg : VectorConfig) : (VectorIndex.created cfg : VectorIndex α).index.Shared := by
  obtain ⟨hplaced, hnone⟩ := SlotLookup.tryReserve_empty cfg.initialCapacity
  refine ⟨hplaced, ?_, fun slot hslot => by cases hslot⟩
  simp [VectorIndex.created, IndexDense.tryReserve, hnone]

end IndexDense

/-- A load that succeeds counts the slots of the file by their keys, and takes the ring's
number from the header. -/
theorem VectorIndex.loadFromSnapshot_saveSnapshot {vi loaded : VectorIndex α} {cfg : VectorConfig}
    (h : loadFromSnapshot cfg vi.saveSnapshot = .ok loaded) :
    loaded.dim = vi.dim ∧ loaded.deletedCount = vi.index.slots.length - vi.index.size ∧
      ∃ members, vi.index.slots.length ≤ members ∧ loaded.index = (IndexDense.reindexKeys vi.index.slots).tryReserve members := by
  unfold VectorIndex.loadFromSnapshot at h
  cases hcfg : validateCreateConfig cfg with
  | error e =>
    rw [hcfg] at h
    cases h
  | ok _ =>
    rw [hcfg] at h
    by_cases hdim : vi.saveSnapshot.dimensions = cfg.dim
    · simp only [Except.bind, bind, hdim, ne_eq, not_true_eq_false, if_false] at h
      cases h
      refine ⟨hdim.symm, rfl, _, ?_, rfl⟩
      have hcount : vi.saveSnapshot.countPresent + vi.saveSnapshot.countDeleted = vi.index.slots.length := by
        simp only [saveSnapshot, IndexDense.save, IndexDense.size]
        omega
      rw [hcount]
      exact Nat.le_max_right _ _
    · simp only [Except.bind, bind, ne_eq, hdim, not_false_eq_true, if_true] at h
      cases h

theorem IndexDense.Refines.load {vi loaded : VectorIndex α} {m : VectorMap α} {cfg : VectorConfig} (h : vi.index.Refines m)
    (hload : VectorIndex.loadFromSnapshot cfg vi.saveSnapshot = .ok loaded) : loaded.index.Refines m := by
  obtain ⟨-, -, members, hmembers, hindex⟩ := VectorIndex.loadFromSnapshot_saveSnapshot hload
  rw [hindex]
  exact h.reindexKeys.tryReserve ((shared_reindexKeys vi.index.slots).size_le.trans hmembers)

namespace Tally

variable {t u : Tally α}

/-- The lookup has the live ids, and the count of deleted slots is that of the ring. -/
structure Ledgered (t : Tally α) : Prop where
  shared : t.index.index.Shared
  named : t.index.index.Named
  live : ∀ id, id ∈ t.live ↔ ∃ slot, (id, slot) ∈ t.index.index.slotLookup.entries
  deletedCount : t.index.deletedCount = t.index.index.freeKeys.length

theorem Ledgered.exact (h : t.Ledgered) : t.Exact := by
  have hlength := h.shared.length
  have hsize := h.shared.size_eq
  have hlive : t.live = (t.index.index.slotLookup.entries.map Prod.fst).toFinset := by
    ext id
    simp [h.live]
  refine ⟨h.deletedCount, ?_, ?_⟩
  · rw [VectorIndex.totalSlots, hsize, h.deletedCount, hlength]
  · rw [VectorIndex.size, hsize, hlive, List.toFinset_card_of_nodup h.named.nodup, List.length_map]

/-- A removal whose search ends takes the id from the lookup. -/
theorem Ledgered.remove (h : t.Ledgered) {id : Nat} (hends : t.index.index.slotLookup.Ends id)
    {removed : IndexDense α × Nat} (hremove : t.index.index.remove id = some removed) :
    Ledgered ⟨{ t.index with index := removed.1, deletedCount := t.index.deletedCount + removed.2 }, t.live.erase id⟩ := by
  obtain ⟨hshared, hring, -⟩ := h.shared.remove hremove
  refine ⟨hshared, h.named.remove h.shared hremove, fun key => ?_, ?_⟩
  · rw [Finset.mem_erase, h.live]
    simp only [h.shared.remove_entries hends hremove, List.mem_filter, decide_eq_true_eq]
    exact ⟨fun ⟨hne, slot, hs⟩ => ⟨slot, hs, hne⟩, fun ⟨slot, hs, hne⟩ => ⟨hne, slot, hs⟩⟩
  · dsimp only
    rw [hring, h.deletedCount]

theorem Ledgered.add (h : t.Ledgered) {id level : Nat} {vector : List α} {index : IndexDense α}
    (hadd : t.index.index.add id vector level = some (.ok index)) :
    Ledgered ⟨{ t.index with index, deletedCount := t.index.deletedCount - 1 }, insert id t.live⟩ := by
  obtain ⟨hshared, hring, slot, hentries⟩ := h.shared.add hadd
  refine ⟨hshared, h.named.add h.shared hadd, fun key => ?_, ?_⟩
  · rw [Finset.mem_insert, h.live]
    simp only [hentries.mem_iff, List.mem_cons, Prod.mk.injEq]
    constructor
    · rintro (rfl | ⟨i, hi⟩)
      · exact ⟨slot, .inl ⟨rfl, rfl⟩⟩
      · exact ⟨i, .inr hi⟩
    · rintro ⟨i, ⟨rfl, rfl⟩ | hi⟩
      · exact .inl rfl
      · exact .inr ⟨i, hi⟩
  · dsimp only
    rw [hring, h.deletedCount]

theorem Ledgered.upsert (h : t.Ledgered) {id level : Nat} {vec : Option (List α)} (hkept : t.index.Kept (.upsert id vec level))
    {vi : VectorIndex α} (hstep : t.index.step (.upsert id vec level) = some vi) :
    Ledgered ⟨vi, t.note (.upsert id vec level)⟩ := by
  by_cases hvec : t.index.Accepts vec
  · rw [note, if_pos hvec]
    obtain ⟨hends, -⟩ := hkept hvec
    obtain ⟨v, rfl, hlength⟩ := hvec
    obtain ⟨removed, hremove, ⟨index, hadd, rfl⟩ | ⟨hheld, -⟩⟩ := VectorIndex.upsert_cases hlength hstep
    · have hadded := (h.remove hends hremove).add hadd
      have hinsert : insert id (t.live.erase id) = insert id t.live := by
        ext x
        by_cases hx : x = id
        · simp [hx]
        · simp [hx]
      rwa [hinsert] at hadded
    · -- The search has ended, so the lookup has the id no more.
      have hremoved := h.remove hends hremove
      have hgone : removed.1.contains id = false := by
        refine ProbeTable.contains_eq_false.mpr ((SlotLookup.found_eq_nil hremoved.shared.placed).mpr fun slot hs => ?_)
        exact absurd ((hremoved.live id).mpr ⟨slot, hs⟩) (Finset.notMem_erase id t.live)
      rw [hgone] at hheld
      cases hheld
  · rw [VectorIndex.upsert_refused hvec] at hstep
    cases hstep
    rw [note, if_neg hvec]
    exact h

theorem Ledgered.compact (h : t.Ledgered) {order : List Nat}
    (hperm : order.Perm (List.range t.index.index.slots.length)) (hkeep : t.index.index.KeepsLiveSlots order)
    (hring : t.index.index.freeKeys = []) : Ledgered ⟨t.index.compact order, t.live⟩ := by
  have hslots := h.shared.slots_compact hperm hkeep hring
  refine ⟨⟨h.shared.placed, ?_, fun slot hslot => ?_⟩, ⟨h.named.nodup, fun e he => ?_⟩, h.live, ?_⟩
  · rw [VectorIndex.compact, hslots]
    exact h.shared.parts
  · rw [VectorIndex.compact, show (t.index.index.compact order).freeKeys = [] from hring] at hslot
    cases hslot
  · rw [VectorIndex.compact, hslots]
    exact h.named.key e he
  · rw [VectorIndex.compact, show (t.index.index.compact order).freeKeys = [] from hring]
    rfl

theorem Ledgered.reload (h : t.Ledgered) (hfree : freeKey ∉ t.live) {cfg : VectorConfig} {loaded : VectorIndex α}
    (hload : VectorIndex.loadFromSnapshot cfg t.index.saveSnapshot = .ok loaded) : Ledgered ⟨loaded, t.live⟩ := by
  obtain ⟨-, hdeleted, members, hmembers, hindex⟩ := VectorIndex.loadFromSnapshot_saveSnapshot hload
  have hnew := IndexDense.shared_reindexKeys t.index.index.slots
  have hperm := h.shared.reindexKeys_perm h.named fun slot hs => hfree ((h.live freeKey).mpr ⟨slot, hs⟩)
  obtain ⟨hshared, hentries⟩ := hnew.tryReserve hmembers
  rw [← hindex] at hshared hentries
  have hsame := hentries.trans hperm
  refine ⟨hshared, ⟨(hsame.map Prod.fst).nodup_iff.mpr h.named.nodup, fun e he => ?_⟩, fun id => ?_, ?_⟩
  · rw [hindex]
    exact h.named.key e (hsame.mem_iff.mp he)
  · simp only [hsame.mem_iff, h.live]
  · have hlength := hshared.length
    have hold := h.shared.length
    have hsize := h.shared.size_eq
    have hslots : loaded.index.slots = t.index.index.slots := by
      rw [hindex]
      rfl
    rw [hslots, hsame.length_eq] at hlength
    dsimp only
    omega

theorem Ledgered.act (h : t.Ledgered) {a : Action α} (hsettled : t.Settled a) (ha : t.act a = some u) : u.Ledgered := by
  cases a with
  | call call =>
    obtain ⟨index, hstep, rfl⟩ := Option.map_eq_some_iff.mp ha
    cases call with
    | upsert id vec level => exact h.upsert hsettled hstep
    | delete id =>
      obtain ⟨removed, hremove, rfl⟩ := VectorIndex.delete_cases hstep
      exact h.remove hsettled hremove
    | compact cluster order =>
      obtain ⟨horder, rfl⟩ := VectorIndex.compact_cases hstep
      exact h.compact horder.1 hsettled.1 hsettled.2
    | isolate =>
      cases hstep
      exact h
  | reload cfg =>
    obtain ⟨loaded, hload, rfl⟩ := Option.map_eq_some_iff.mp ha
    exact h.reload hsettled (Transition.ok_of_toOption hload)

theorem ledgered_created (cfg : VectorConfig) : Ledgered (⟨.created cfg, ∅⟩ : Tally α) := by
  obtain ⟨-, hnone⟩ := SlotLookup.tryReserve_empty cfg.initialCapacity
  have hentries : (VectorIndex.created cfg : VectorIndex α).index.slotLookup.entries = [] := hnone
  exact ⟨IndexDense.shared_created cfg, ⟨by simp [hentries], by simp [hentries]⟩, by simp [hentries], rfl⟩

/-- In every run of settled steps the counts are exact, and a further such call returns. -/
theorem counts_exact (cfg : VectorConfig) (actions : List (Action α)) (t : Tally α)
    (hrun : Transition.run (Transition.restrict Settled act) ⟨.created cfg, ∅⟩ actions = some t) :
    t.Exact ∧ ∀ call, t.Settled (.call call) → t.index.Sorted call → (t.act (.call call)).isSome := by
  have h : t.Ledgered := by
    refine Transition.run_invariant Ledgered (fun t a u h ha => ?_) (ledgered_created cfg) hrun
    obtain ⟨hsettled, ha⟩ := Transition.restrict_eq_some.mp ha
    exact h.act hsettled ha
  refine ⟨h.exact, fun call hsettled hsorted => ?_⟩
  have hkept : t.index.Kept call := by
    cases call with
    | compact cluster order => exact hsettled.1
    | upsert id vec level => exact hsettled
    | delete id => exact hsettled
    | isolate => trivial
  rw [act, Option.isSome_map]
  exact VectorIndex.isSome_step h.shared.placed hkept hsorted

/-- The id of the tombstone key is upserted and deleted, its slot is used again, and the index is
compacted, isolated, saved and loaded. -/
def tombstoneActions : List (Action Nat) :=
  [.call (.upsert freeKey (some [10]) 1), .call (.upsert 1 (some [20]) 1), .call (.delete freeKey),
    .call (.upsert 2 (some [30]) 0), .call (.compact (fun _ => 0) [0, 1]), .call .isolate, .reload VectorIndex.smallConfig,
    .call (.delete 1), .reload VectorIndex.smallConfig, .call (.upsert 2 (some [40]) 0)]

theorem counts_exact_with_tombstone_id :
    ∃ t : Tally Nat, Transition.run (Transition.restrict Settled act) ⟨.created VectorIndex.smallConfig, ∅⟩ tombstoneActions = some t ∧
      t.index.totalSlots = 2 ∧ t.index.deletedCount = 1 ∧
      (t.Exact ∧ ∀ call, t.Settled (.call call) → t.index.Sorted call → (t.act (.call call)).isSome) := by
  obtain ⟨t, hrun, htotal, hdeleted⟩ := Transition.exists_of_run
    (o := Transition.run (Transition.restrict Settled act) ⟨.created VectorIndex.smallConfig, ∅⟩ tombstoneActions)
    (P := fun t => t.index.totalSlots = 2 ∧ t.index.deletedCount = 1) (by decide +kernel)
  exact ⟨t, hrun, htotal, hdeleted, counts_exact VectorIndex.smallConfig tombstoneActions t hrun⟩

/-- The compaction counts the deleted slot no more, although the ring still has it. -/
theorem compact_forgets_free_slot :
    ∃ t : Tally Nat, Transition.run act ⟨.created VectorIndex.smallConfig, ∅⟩
        [.call (.upsert 1 (some [10]) 0), .call (.delete 1), .call (.compact (fun _ => 0) [0])] = some t ∧
      t.index.deletedCount = 0 ∧ t.index.index.freeKeys.length = 1 ∧
      t.index.totalSlots = 0 ∧ t.index.index.slots.length = 1 :=
  Transition.exists_of_run (by decide +kernel)

end Tally

end RaftVdb
