import Mathlib.Algebra.Group.Nat.Defs
import Mathlib.Data.List.Nodup
import Mathlib.Data.List.Perm.Basic
import RaftVdb.Lib.Transition
import RaftVdb.SlotLookup

/-!
# The vector index over its slots

`IndexDense` is the key bookkeeping of `index_dense_gt`: the slot array, the hash table
`slot_lookup_` from keys to slots, and the ring `free_keys_` of slots to reuse. The HNSW
graph only decides the level of a fresh node and, in `compact`, the order in which the
nodes are laid out again; both are inputs. Memory and capacity never run out. A call that
does not return, or writes past a buffer, has no result.
-/

namespace RaftVdb

open Lib

variable {α : Type}

structure VectorConfig where
  dim : Nat := 1024
  metric : String := "ip"
  dataType : String := "f32"
  initialCapacity : Nat := 100000
  connectivity : Nat := 16
  expansionAdd : Nat := 128
  expansionSearch : Nat := 64
  deriving DecidableEq, Repr

def validateCreateConfig (cfg : VectorConfig) : Except String Unit :=
  if cfg.dim = 0 then .error "vector.dim 必须大于 0"
  else if cfg.initialCapacity = 0 then .error "vector.initial_capacity 必须大于 0"
  else if cfg.connectivity < 2 then .error "vector.connectivity 必须大于等于 2"
  else if cfg.expansionAdd = 0 ∨ cfg.expansionSearch = 0 then .error "vector 扩展参数必须大于 0"
  else .ok ()

/-- `free_key_`, the key of a removed slot. -/
def freeKey : Nat := 2 ^ 64 - 1

structure Slot (α : Type) where
  key : Nat
  level : Nat
  vector : List α
  deriving DecidableEq, Repr

structure IndexDense (α : Type) where
  slots : List (Slot α) := []
  slotLookup : SlotLookup := {}
  freeKeys : List Nat := []
  /-- `compact` leaves a `nodes_` of `size()` pointers, and `nodes_capacity_` as it was. -/
  nodesShrunk : Bool := false
  deriving DecidableEq, Repr

namespace IndexDense

def size (ix : IndexDense α) : Nat := ix.slots.length - ix.freeKeys.length

def contains (ix : IndexDense α) (key : Nat) : Bool := ix.slotLookup.contains lookupKeyHash key

def tryReserve (ix : IndexDense α) (members : Nat) : IndexDense α :=
  { ix with slotLookup := ix.slotLookup.tryReserve members }

def markFree (slots : List (Slot α)) (slot : Nat) : List (Slot α) :=
  slots.modify slot fun s => { s with key := freeKey }

/-- The index without the slots in the range of the key, and their number. -/
def remove (ix : IndexDense α) (key : Nat) : Option (IndexDense α × Nat) :=
  match ix.slotLookup.equalRange key with
  | none => none
  | some [] => some (ix, 0)
  | some matchingSlots =>
    some ({ ix with slots := matchingSlots.foldl markFree ix.slots
                    slotLookup := ix.slotLookup.erase lookupKeyHash key
                    freeKeys := ix.freeKeys ++ matchingSlots }, matchingSlots.length)

/-- `add_`: reuse the oldest free slot, else append a node of the given level. -/
def add (ix : IndexDense α) (key : Nat) (vector : List α) (level : Nat) : Option (Except String (IndexDense α)) :=
  if ix.contains key then some (.error "Duplicate keys not allowed in high-level wrappers")
  else match ix.freeKeys with
  | slot :: rest =>
    some (.ok { ix with slots := ix.slots.modify slot fun s => { s with key, vector }
                        slotLookup := ix.slotLookup.tryEmplace (key, slot)
                        freeKeys := rest })
  | [] =>
    -- The new pointer is stored after the last one.
    if ix.nodesShrunk then none
    else some (.ok { ix with slots := ix.slots ++ [⟨key, level, vector⟩]
                             slotLookup := ix.slotLookup.tryEmplace (key, ix.slots.length) })

/-- Higher levels first, then by the cluster that the graph search found for the slot. -/
def compactBefore (ix : IndexDense α) (cluster : Nat → Nat) (a b : Nat) : Prop :=
  let level := fun slot => (ix.slots[slot]?).elim 0 Slot.level
  if level a = level b then cluster a ≤ cluster b else level a > level b

instance (ix : IndexDense α) (cluster : Nat → Nat) (a b : Nat) : Decidable (ix.compactBefore cluster a b) := by
  unfold compactBefore
  infer_instance

/-- The orders `std::sort` may leave in `slots_and_levels`: position `i` names the old slot. -/
def CompactOrder (ix : IndexDense α) (cluster : Nat → Nat) (order : List Nat) : Prop :=
  order.Perm (List.range ix.slots.length) ∧ order.Pairwise (ix.compactBefore cluster)

instance (ix : IndexDense α) (cluster : Nat → Nat) (order : List Nat) :
    Decidable (ix.CompactOrder cluster order) := by
  unfold CompactOrder
  infer_instance

/-- `compact` moves nodes and vectors to their new slots; the lookup and the ring stay. -/
def compact (ix : IndexDense α) (order : List Nat) : IndexDense α :=
  { ix with slots := order.filterMap fun old => ix.slots[old]?
            nodesShrunk := true }

/-- What `search` may return. -/
def eligible (ix : IndexDense α) : List (Nat × List α) :=
  (ix.slots.filter fun s => s.key ≠ freeKey).map fun s => (s.key, s.vector)

end IndexDense

structure VectorIndex (α : Type) where
  dim : Nat
  index : IndexDense α := {}
  deletedCount : Nat := 0
  deriving DecidableEq, Repr

namespace VectorIndex

/-- A null pointer is `none`. -/
def validateVectorArgument (vec : Option (List α)) (expectedDim : Nat) (operation : String) :
    Except String (List α) :=
  match vec with
  | none => .error (operation ++ " 的向量指针不能为空")
  | some v => if v.length ≠ expectedDim then .error (operation ++ " 的向量维度与配置不一致") else .ok v

/-- The index after `Create`. -/
def created (cfg : VectorConfig) : VectorIndex α :=
  { dim := cfg.dim, index := ({} : IndexDense α).tryReserve cfg.initialCapacity }

/-- An error of USearch is thrown once it has been copied into the result. -/
def upsert (vi : VectorIndex α) (id : Nat) (vec : Option (List α)) (level : Nat) :
    Option (Except String Unit × VectorIndex α) :=
  match validateVectorArgument vec vi.dim "Upsert" with
  | .error e => some (.error e, vi)
  | .ok v => do
    let removed ← vi.index.remove id
    let deleted := vi.deletedCount + removed.2
    match ← removed.1.add id v level with
    | .error e => some (.error ("写入向量失败: " ++ e), { vi with index := removed.1, deletedCount := deleted })
    | .ok index => some (.ok (), { vi with index, deletedCount := deleted - 1 })

def delete (vi : VectorIndex α) (id : Nat) : Option (VectorIndex α) := do
  let removed ← vi.index.remove id
  some { vi with index := removed.1, deletedCount := vi.deletedCount + removed.2 }

def compact (vi : VectorIndex α) (order : List Nat) : VectorIndex α :=
  { vi with index := vi.index.compact order, deletedCount := 0 }

/-- `Isolate` only drops graph edges. -/
def isolate (vi : VectorIndex α) : VectorIndex α := vi

inductive Call (α : Type) where
  | upsert (id : Nat) (vec : Option (List α)) (level : Nat)
  | delete (id : Nat)
  | compact (cluster : Nat → Nat) (order : List Nat)
  | isolate

def step (vi : VectorIndex α) : Call α → Option (VectorIndex α)
  | .upsert id vec level => (vi.upsert id vec level).map Prod.snd
  | .delete id => vi.delete id
  | .compact cluster order => if vi.index.CompactOrder cluster order then some (vi.compact order) else none
  | .isolate => some vi.isolate

end VectorIndex

/-! ## What a call does if it returns -/

namespace IndexDense

theorem remove_cases {ix : IndexDense α} {key : Nat} {removed : IndexDense α × Nat} (h : ix.remove key = some removed) :
    (ix.slotLookup.equalRange key = some [] ∧ removed = (ix, 0)) ∨
      (ix.slotLookup.equalRange key = some (ix.slotLookup.found lookupKeyHash key) ∧
        ix.slotLookup.found lookupKeyHash key ≠ [] ∧
        removed = ({ ix with slots := (ix.slotLookup.found lookupKeyHash key).foldl markFree ix.slots
                             slotLookup := ix.slotLookup.erase lookupKeyHash key
                             freeKeys := ix.freeKeys ++ ix.slotLookup.found lookupKeyHash key },
          (ix.slotLookup.found lookupKeyHash key).length)) := by
  unfold remove at h
  split at h
  · cases h
  · next hrange => exact .inl ⟨hrange, (Option.some.inj h).symm⟩
  · next matchingSlots hne hrange =>
    rcases SlotLookup.equalRange_eq_some hrange with rfl | rfl
    · exact .inr ⟨hrange, hne, (Option.some.inj h).symm⟩
    · exact absurd rfl hne

/-- A removal whose search ends returns, and leaves a free slot if there was one or the key had one. -/
theorem remove_of_ends {ix : IndexDense α} {key : Nat} (hplaced : ix.slotLookup.Placed lookupKeyHash)
    (hends : ix.slotLookup.Ends key) :
    ∃ removed, ix.remove key = some removed ∧ removed.1.nodesShrunk = ix.nodesShrunk ∧
      (ix.freeKeys ≠ [] ∨ (∃ e ∈ ix.slotLookup.entries, e.1 = key) → removed.1.freeKeys ≠ []) := by
  unfold remove
  rw [SlotLookup.equalRange_of_ends hplaced hends]
  cases hfound : ix.slotLookup.found lookupKeyHash key with
  | nil =>
    refine ⟨_, rfl, rfl, fun hor => hor.resolve_right ?_⟩
    rintro ⟨e, he, rfl⟩
    exact (SlotLookup.found_eq_nil hplaced).mp hfound e.2 he
  | cons slot rest => exact ⟨_, rfl, rfl, fun _ => by simp⟩

theorem add_cases {ix ix' : IndexDense α} {key level : Nat} {vector : List α} (h : ix.add key vector level = some (.ok ix')) :
    ix.contains key = false ∧
      ((∃ slot rest, ix.freeKeys = slot :: rest ∧
          ix' = { ix with slots := ix.slots.modify slot fun s => { s with key, vector }
                          slotLookup := ix.slotLookup.tryEmplace (key, slot)
                          freeKeys := rest }) ∨
        (ix.freeKeys = [] ∧
          ix' = { ix with slots := ix.slots ++ [⟨key, level, vector⟩]
                          slotLookup := ix.slotLookup.tryEmplace (key, ix.slots.length) })) := by
  unfold add at h
  split at h
  · cases h
  · next hnew =>
    refine ⟨by simpa using hnew, ?_⟩
    split at h
    · next slot rest hring =>
      cases h
      exact .inl ⟨slot, rest, hring, rfl⟩
    · next hring =>
      split at h
      · cases h
      · cases h
        exact .inr ⟨hring, by simp [hring]⟩

theorem add_refused {ix : IndexDense α} {key level : Nat} {vector : List α} {e : String}
    (h : ix.add key vector level = some (.error e)) : ix.contains key = true := by
  unfold add at h
  split at h
  · next hheld => exact hheld
  · split at h
    · cases h
    · split at h
      · cases h
      · cases h

end IndexDense

namespace VectorIndex

/-- `Upsert` does not refuse the vector. -/
def Accepts (vi : VectorIndex α) (vec : Option (List α)) : Prop := ∃ v, vec = some v ∧ v.length = vi.dim

instance (vi : VectorIndex α) : (vec : Option (List α)) → Decidable (vi.Accepts vec)
  | none => isFalse fun ⟨_, h, _⟩ => by cases h
  | some v => decidable_of_iff (v.length = vi.dim) (by simp [Accepts])

variable {vi vi' : VectorIndex α} {id level : Nat} {vec : Option (List α)}

theorem upsert_refused (h : ¬ vi.Accepts vec) (id level : Nat) : vi.step (.upsert id vec level) = some vi := by
  cases vec with
  | none => rfl
  | some v =>
    have hlength : v.length ≠ vi.dim := fun heq => h ⟨v, rfl, heq⟩
    simp [step, upsert, validateVectorArgument, hlength]

theorem upsert_cases {v : List α} (hlength : v.length = vi.dim) (h : vi.step (.upsert id (some v) level) = some vi') :
    ∃ removed, vi.index.remove id = some removed ∧
      ((∃ index, removed.1.add id v level = some (.ok index) ∧
          vi' = { vi with index, deletedCount := vi.deletedCount + removed.2 - 1 }) ∨
        (removed.1.contains id = true ∧
          vi' = { vi with index := removed.1, deletedCount := vi.deletedCount + removed.2 })) := by
  simp only [step, upsert, validateVectorArgument, hlength, ne_eq, not_true_eq_false, if_false] at h
  obtain ⟨result, hresult, rfl⟩ := Option.map_eq_some_iff.mp h
  obtain ⟨removed, hremove, hresult⟩ := Option.bind_eq_some_iff.mp hresult
  obtain ⟨added, hadd, hresult⟩ := Option.bind_eq_some_iff.mp hresult
  refine ⟨removed, hremove, ?_⟩
  cases added with
  | ok index =>
    cases hresult
    exact .inl ⟨index, hadd, rfl⟩
  | error e =>
    cases hresult
    exact .inr ⟨IndexDense.add_refused hadd, rfl⟩

theorem delete_cases (h : vi.step (.delete id) = some vi') :
    ∃ removed, vi.index.remove id = some removed ∧
      vi' = { vi with index := removed.1, deletedCount := vi.deletedCount + removed.2 } := by
  obtain ⟨removed, hremove, hresult⟩ := Option.bind_eq_some_iff.mp h
  cases hresult
  exact ⟨removed, hremove, rfl⟩

/-- The order of a compaction is one that `std::sort` may leave. -/
def Sorted (vi : VectorIndex α) : Call α → Prop
  | .compact cluster order => vi.index.CompactOrder cluster order
  | _ => True

theorem compact_cases {cluster : Nat → Nat} {order : List Nat} (h : vi.step (.compact cluster order) = some vi') :
    vi.index.CompactOrder cluster order ∧ vi' = vi.compact order := by
  simp only [step] at h
  split at h
  · next horder => exact ⟨horder, (Option.some.inj h).symm⟩
  · cases h

end VectorIndex

/-- A key-to-vector map, which is what the index is for. -/
abbrev VectorMap (α : Type) := Nat → Option (List α)

namespace VectorMap

def apply (dim : Nat) (m : VectorMap α) : VectorIndex.Call α → VectorMap α
  | .upsert id vec _ => fun k => if k = id then (vec.filter fun v => v.length = dim) <|> m k else m k
  | .delete id => fun k => if k = id then none else m k
  | .compact _ _ => m
  | .isolate => m

/-- The fold of the upserts and deletes. -/
def fold (dim : Nat) (calls : List (VectorIndex.Call α)) : VectorMap α := calls.foldl (apply dim) fun _ => none

end VectorMap

namespace IndexDense

/-- The slot holds this key and vector, and is not a removed one. -/
def Holds (ix : IndexDense α) (slot key : Nat) (vector : List α) : Prop :=
  key ≠ freeKey ∧ ∃ level, ix.slots[slot]? = some ⟨key, level, vector⟩

/-- The slot exists and is removed. -/
def IsFree (ix : IndexDense α) (slot : Nat) : Prop :=
  ∃ s, ix.slots[slot]? = some s ∧ s.key = freeKey

/-- Lookup, ring and slots agree, and together they stand for the map. -/
structure Refines (ix : IndexDense α) (m : VectorMap α) : Prop where
  placed : ix.slotLookup.Placed lookupKeyHash
  lookup : ∀ key slot, (key, slot) ∈ ix.slotLookup.entries ↔ ∃ vector, ix.Holds slot key vector
  nodup : (ix.slotLookup.entries.map Prod.fst).Nodup
  free : ∀ slot, slot ∈ ix.freeKeys ↔ ix.IsFree slot
  freeNodup : ix.freeKeys.Nodup
  map : ∀ key vector, m key = some vector ↔ ∃ slot, ix.Holds slot key vector

theorem Holds.vector_eq {ix : IndexDense α} {slot k k' : Nat} {v v' : List α} (h : ix.Holds slot k v)
    (h' : ix.Holds slot k' v') : k = k' ∧ v = v' := by
  obtain ⟨-, l, hl⟩ := h
  obtain ⟨-, l', hl'⟩ := h'
  rw [hl] at hl'
  cases hl'
  exact ⟨rfl, rfl⟩

theorem Holds.not_free {ix : IndexDense α} {slot k : Nat} {v : List α} (h : ix.Holds slot k v) :
    ¬ ix.IsFree slot := by
  rintro ⟨s, hs, hfree⟩
  obtain ⟨hne, l, hl⟩ := h
  rw [hl] at hs
  cases hs
  exact hne hfree

/-- A key has at most one slot. -/
theorem Refines.slot_eq {ix : IndexDense α} {m : VectorMap α} (h : ix.Refines m) {k i j : Nat}
    (hi : (k, i) ∈ ix.slotLookup.entries) (hj : (k, j) ∈ ix.slotLookup.entries) : i = j :=
  congrArg Prod.snd (List.inj_on_of_nodup_map h.nodup hi hj rfl)

theorem Refines.not_mem_lookup {ix : IndexDense α} {m : VectorMap α} (h : ix.Refines m) {key : Nat}
    (hnew : m key = none) (slot : Nat) : (key, slot) ∉ ix.slotLookup.entries := by
  intro hs
  obtain ⟨v, hv⟩ := (h.lookup key slot).mp hs
  rw [(h.map key v).mpr ⟨slot, hv⟩] at hnew
  cases hnew

theorem getElem?_modify_eq_some {β : Type} {xs : List β} {f : β → β} {i j : Nat} {y : β} :
    (xs.modify i f)[j]? = some y ↔ (i ≠ j ∧ xs[j]? = some y) ∨ (i = j ∧ ∃ x, xs[j]? = some x ∧ f x = y) := by
  rw [List.getElem?_modify]
  by_cases hij : i = j
  · cases xs[j]? <;> simp [hij]
  · cases xs[j]? <;> simp [hij]

/-- Clearing the slot of a key takes that key out of the map. -/
theorem Refines.clear {ix ix' : IndexDense α} {m : VectorMap α} (h : ix.Refines m) {key slot : Nat}
    (hslot : (key, slot) ∈ ix.slotLookup.entries) (herase : ix'.slotLookup = ix.slotLookup.erase lookupKeyHash key)
    (hfree : ix'.freeKeys = ix.freeKeys ++ [slot]) (hslots : ix'.slots = markFree ix.slots slot) :
    ix'.Refines fun k => if k = key then none else m k := by
  obtain ⟨vector, hheld⟩ := (h.lookup key slot).mp hslot
  have hlookup : ix'.slotLookup.entries = ix.slotLookup.entries.filter fun e => e.1 ≠ key := by
    rw [herase, h.placed.entries_erase]
  have hholds : ∀ i k v, ix'.Holds i k v ↔ k ≠ key ∧ ix.Holds i k v := by
    intro i k v
    unfold Holds
    rw [hslots, markFree]
    constructor
    · rintro ⟨hk, level, hl⟩
      rcases getElem?_modify_eq_some.mp hl with ⟨hi, hl⟩ | ⟨-, s, -, hs⟩
      · refine ⟨?_, hk, level, hl⟩
        rintro rfl
        exact hi (h.slot_eq hslot ((h.lookup k i).mpr ⟨v, hk, level, hl⟩))
      · exact absurd (congrArg Slot.key hs).symm hk
    · rintro ⟨hne, hk, level, hl⟩
      refine ⟨hk, level, getElem?_modify_eq_some.mpr (.inl ⟨?_, hl⟩)⟩
      rintro rfl
      exact hne (hheld.vector_eq ⟨hk, level, hl⟩).1.symm
  have hisFree : ∀ i, ix'.IsFree i ↔ i = slot ∨ ix.IsFree i := by
    intro i
    unfold IsFree
    rw [hslots, markFree]
    constructor
    · rintro ⟨s, hs, hk⟩
      rcases getElem?_modify_eq_some.mp hs with ⟨-, hs⟩ | ⟨hi, -⟩
      · exact .inr ⟨s, hs, hk⟩
      · exact .inl hi.symm
    · rintro (rfl | ⟨s, hs, hk⟩)
      · obtain ⟨-, level, hl⟩ := hheld
        exact ⟨_, getElem?_modify_eq_some.mpr (.inr ⟨rfl, _, hl, rfl⟩), rfl⟩
      · refine ⟨s, getElem?_modify_eq_some.mpr (.inl ⟨?_, hs⟩), hk⟩
        rintro rfl
        exact hheld.not_free ⟨s, hs, hk⟩
  constructor
  · rw [herase]
    exact h.placed.erase key
  · intro k i
    simp only [hlookup, List.mem_filter, h.lookup, hholds, decide_eq_true_eq]
    exact ⟨fun ⟨⟨v, hv⟩, hk⟩ => ⟨v, hk, hv⟩, fun ⟨v, hk, hv⟩ => ⟨⟨v, hv⟩, hk⟩⟩
  · rw [hlookup]
    exact (List.Sublist.map _ List.filter_sublist).nodup h.nodup
  · intro i
    rw [hfree, hisFree, List.mem_append, List.mem_singleton, h.free, or_comm]
  · rw [hfree]
    refine h.freeNodup.append (List.nodup_singleton slot) ?_
    rw [List.disjoint_singleton]
    exact fun hmem => hheld.not_free ((h.free slot).mp hmem)
  · intro k v
    simp only [hholds, exists_and_left, ← h.map]
    by_cases hk : k = key
    · simp [hk]
    · simp [hk]

/-- A removal whose search ends takes the key out of the map. -/
theorem Refines.remove {ix : IndexDense α} {m : VectorMap α} (h : ix.Refines m) {key : Nat} {removed : IndexDense α × Nat}
    (hends : ix.slotLookup.Ends key) (hremove : ix.remove key = some removed) :
    removed.1.Refines fun k => if k = key then none else m k := by
  rcases remove_cases hremove with ⟨hrange, rfl⟩ | ⟨-, hne, rfl⟩
  · rw [SlotLookup.equalRange_of_ends h.placed hends, Option.some.injEq, SlotLookup.found_eq_nil h.placed] at hrange
    have hnone : m key = none := by
      rw [Option.eq_none_iff_forall_ne_some]
      intro v hv
      obtain ⟨slot, hs⟩ := (h.map key v).mp hv
      exact hrange slot ((h.lookup key slot).mpr ⟨v, hs⟩)
    have hmap : (fun k => if k = key then none else m k) = m := by
      funext k
      split
      · next hk => rw [hk, hnone]
      · rfl
    rw [hmap]
    exact h
  · rw [ne_eq, SlotLookup.found_eq_nil h.placed] at hne
    obtain ⟨slot, hslot⟩ := not_forall_not.mp hne
    rw [SlotLookup.found_eq_singleton h.placed h.nodup hslot]
    exact h.clear hslot rfl rfl rfl

/-- Writing a key that has no slot into a slot that holds no key adds it to the map. -/
theorem Refines.write {ix ix' : IndexDense α} {m : VectorMap α} (h : ix.Refines m) {key slot : Nat}
    {vector : List α} (level : Nat) (hkey : key ≠ freeKey) (hnew : m key = none)
    (hemplace : ix'.slotLookup = ix.slotLookup.tryEmplace (key, slot))
    (hfree : ∀ i, i ∈ ix'.freeKeys ↔ i ≠ slot ∧ i ∈ ix.freeKeys) (hfreeNodup : ix'.freeKeys.Nodup)
    (hempty : ∀ k v, ¬ ix.Holds slot k v) (hself : ix'.slots[slot]? = some ⟨key, level, vector⟩)
    (hother : ∀ i, i ≠ slot → ix'.slots[i]? = ix.slots[i]?) :
    ix'.Refines fun k => if k = key then some vector else m k := by
  obtain ⟨hplaced, hentries⟩ := SlotLookup.tryEmplace_spec h.placed (key, slot)
  rw [← hemplace] at hplaced hentries
  have hholds : ∀ i k v, ix'.Holds i k v ↔ (i = slot ∧ k = key ∧ v = vector) ∨ ix.Holds i k v := by
    intro i k v
    by_cases hi : i = slot
    · subst hi
      simp only [hempty, or_false, true_and]
      constructor
      · rintro ⟨-, l, hl⟩
        rw [hself] at hl
        cases hl
        exact ⟨rfl, rfl⟩
      · rintro ⟨rfl, rfl⟩
        exact ⟨hkey, level, hself⟩
    · simp only [Holds, hother i hi, hi, false_and, false_or]
  have hisFree : ∀ i, ix'.IsFree i ↔ i ≠ slot ∧ ix.IsFree i := by
    intro i
    by_cases hi : i = slot
    · subst hi
      simp only [IsFree, hself, Option.some.injEq, exists_eq_left', ne_eq, not_true_eq_false, false_and,
        iff_false]
      exact hkey
    · simp only [IsFree, hother i hi, ne_eq, hi, not_false_eq_true, true_and]
  constructor
  · exact hplaced
  · intro k i
    simp only [hentries.mem_iff, List.mem_cons, h.lookup, Prod.mk.injEq, hholds]
    constructor
    · rintro (⟨rfl, rfl⟩ | ⟨v, hv⟩)
      · exact ⟨vector, .inl ⟨rfl, rfl, rfl⟩⟩
      · exact ⟨v, .inr hv⟩
    · rintro ⟨v, ⟨rfl, rfl, rfl⟩ | hv⟩
      · exact .inl ⟨rfl, rfl⟩
      · exact .inr ⟨v, hv⟩
  · rw [(hentries.map Prod.fst).nodup_iff, List.map_cons, List.nodup_cons]
    refine ⟨fun hmem => ?_, h.nodup⟩
    obtain ⟨e, he, rfl⟩ := List.mem_map.mp hmem
    exact h.not_mem_lookup hnew e.2 he
  · intro i
    rw [hfree, hisFree, h.free]
  · exact hfreeNodup
  · intro k v
    simp only [hholds, exists_or, ← h.map]
    by_cases hk : k = key
    · subst hk
      simp [hnew, eq_comm]
    · simp [hk]

theorem Refines.add {ix ix' : IndexDense α} {m : VectorMap α} (h : ix.Refines m) {key level : Nat}
    {vector : List α} (hkey : key ≠ freeKey) (hnew : m key = none)
    (hadd : ix.add key vector level = some (.ok ix')) : ix'.Refines fun k => if k = key then some vector else m k := by
  obtain ⟨-, ⟨slot, rest, hring, rfl⟩ | ⟨hring, rfl⟩⟩ := add_cases hadd
  · have hnodup : slot ∉ rest ∧ rest.Nodup := by
      have hn := h.freeNodup
      rwa [hring, List.nodup_cons] at hn
    have hslot : ix.IsFree slot := (h.free slot).mp (by rw [hring]; exact List.mem_cons_self)
    obtain ⟨s, hs, -⟩ := id hslot
    refine h.write s.level hkey hnew rfl (fun i => ?_) hnodup.2 (fun k v hv => hv.not_free hslot) ?_ (fun i hi => ?_)
    · rw [hring, List.mem_cons]
      exact ⟨fun hi => ⟨fun he => hnodup.1 (he ▸ hi), .inr hi⟩, fun ⟨hi, hm⟩ => hm.resolve_left hi⟩
    · simp [hs]
    · simp [Ne.symm hi]
  · refine h.write level hkey hnew rfl (fun i => ?_) h.freeNodup (fun k v hv => ?_) ?_ (fun i hi => ?_)
    · simp [hring]
    · obtain ⟨-, l, hl⟩ := hv
      simp at hl
    · simp
    · by_cases hlt : i < ix.slots.length
      · rw [List.getElem?_append_left hlt]
      · have hn : ix.slots.length + 1 ≤ i := by omega
        rw [List.getElem?_eq_none (by simpa using hn), List.getElem?_eq_none (by omega)]

/-- The order leaves every slot that the lookup names where it is. -/
def KeepsLiveSlots (ix : IndexDense α) (order : List Nat) : Prop :=
  ∀ e ∈ ix.slotLookup.entries, order[e.2]? = some e.2

instance (ix : IndexDense α) (order : List Nat) : Decidable (ix.KeepsLiveSlots order) := by
  unfold KeepsLiveSlots
  infer_instance

theorem getElem?_compact {ix : IndexDense α} {order : List Nat}
    (hperm : order.Perm (List.range ix.slots.length)) (i : Nat) :
    (ix.compact order).slots[i]? = (order[i]?).bind fun old => ix.slots[old]? := by
  have hin : ∀ old ∈ order, old < ix.slots.length := fun old ho => by simpa using hperm.mem_iff.mp ho
  simp only [compact]
  clear hperm
  induction order generalizing i with
  | nil => simp
  | cons old order ih =>
    have hold : old < ix.slots.length := hin old (by simp)
    rw [List.filterMap_cons_some (List.getElem?_eq_getElem hold)]
    cases i with
    | zero => simp [hold]
    | succ i => simpa using ih i fun o ho => hin o (by simp [ho])

theorem Refines.compact {ix : IndexDense α} {m : VectorMap α} (h : ix.Refines m) {order : List Nat}
    (hperm : order.Perm (List.range ix.slots.length)) (hkeep : ix.KeepsLiveSlots order) :
    (ix.compact order).Refines m := by
  have hnodup : order.Nodup := hperm.nodup_iff.mpr List.nodup_range
  have hstays : ∀ {i k v}, ix.Holds i k v → order[i]? = some i := fun {i k v} hv =>
    hkeep (k, i) ((h.lookup k i).mpr ⟨v, hv⟩)
  have hsame : ∀ {i old k v}, order[i]? = some old → ix.Holds old k v → i = old := fun {i old k v} hi hv =>
    (List.getElem?_inj (List.getElem?_eq_some_iff.mp hi).1 hnodup).mp (hi.trans (hstays hv).symm)
  have hholds : ∀ i k v, (ix.compact order).Holds i k v ↔ ix.Holds i k v := by
    intro i k v
    constructor
    · rintro ⟨hk, level, hl⟩
      rw [getElem?_compact hperm] at hl
      obtain ⟨old, hold, hl⟩ := Option.bind_eq_some_iff.mp hl
      rw [hsame hold ⟨hk, level, hl⟩]
      exact ⟨hk, level, hl⟩
    · intro hv
      obtain ⟨hk, level, hl⟩ := id hv
      refine ⟨hk, level, ?_⟩
      rw [getElem?_compact hperm, hstays hv]
      exact hl
  have hlength : order.length = ix.slots.length := by simpa using hperm.length_eq
  have hisFree : ∀ i, (ix.compact order).IsFree i ↔ ix.IsFree i := by
    intro i
    constructor
    · rintro ⟨s, hs, hfree⟩
      rw [getElem?_compact hperm] at hs
      obtain ⟨old, hold, hs⟩ := Option.bind_eq_some_iff.mp hs
      have hlt : i < ix.slots.length := hlength ▸ (List.getElem?_eq_some_iff.mp hold).1
      refine ⟨ix.slots[i], List.getElem?_eq_getElem hlt, ?_⟩
      by_contra hne
      have hv : ix.Holds i ix.slots[i].key ix.slots[i].vector :=
        ⟨hne, ix.slots[i].level, List.getElem?_eq_getElem hlt⟩
      have hio : i = old := Option.some.inj ((hstays hv).symm.trans hold)
      exact hv.not_free ⟨s, hio ▸ hs, hfree⟩
    · rintro ⟨s, hs, hfree⟩
      have hlt : i < order.length := hlength ▸ (List.getElem?_eq_some_iff.mp hs).1
      have hold : order[i] < ix.slots.length := by
        simpa using hperm.mem_iff.mp (List.getElem_mem hlt)
      have hi : order[i]? = some order[i] := List.getElem?_eq_getElem hlt
      refine ⟨ix.slots[order[i]], ?_, ?_⟩
      · rw [getElem?_compact hperm, hi]
        exact List.getElem?_eq_getElem hold
      · by_contra hne
        have hv : ix.Holds order[i] ix.slots[order[i]].key ix.slots[order[i]].vector :=
          ⟨hne, ix.slots[order[i]].level, List.getElem?_eq_getElem hold⟩
        exact hv.not_free ⟨s, hsame hi hv ▸ hs, hfree⟩
  constructor
  · exact h.placed
  · intro k i
    simp only [hholds]
    exact h.lookup k i
  · exact h.nodup
  · intro i
    rw [hisFree]
    exact h.free i
  · exact h.freeNodup
  · intro k v
    simp only [hholds]
    exact h.map k v

end IndexDense

namespace VectorIndex

/-- The node of the id will be one that is there, or there is a place for a new one. -/
def HasPlace (vi : VectorIndex α) (id : Nat) : Prop :=
  vi.index.nodesShrunk → vi.index.freeKeys ≠ [] ∨ ∃ e ∈ vi.index.slotLookup.entries, e.1 = id

instance (vi : VectorIndex α) (id : Nat) : Decidable (vi.HasPlace id) :=
  inferInstanceAs (Decidable (_ → _ ∨ ∃ e ∈ vi.index.slotLookup.entries, _))

/-- The search for the id ends, a new node has a place, and a compaction does not move a live slot. -/
def Kept (vi : VectorIndex α) : Call α → Prop
  | .upsert id vec _ => vi.Accepts vec → vi.index.slotLookup.Ends id ∧ vi.HasPlace id
  | .delete id => vi.index.slotLookup.Ends id
  | .compact _ order => vi.index.KeepsLiveSlots order
  | .isolate => True

instance (vi : VectorIndex α) (c : Call α) : Decidable (vi.Kept c) := by
  cases c <;> unfold Kept <;> infer_instance

/-- The key of the call is not the tombstone. -/
def Call.ValidId : Call α → Prop
  | .upsert id _ _ => id ≠ freeKey
  | .delete id => id ≠ freeKey
  | _ => True

instance (c : Call α) : Decidable c.ValidId := by
  cases c <;> unfold Call.ValidId <;> infer_instance

/-- A call under the condition returns. -/
theorem isSome_step {vi : VectorIndex α} {c : Call α} (hplaced : vi.index.slotLookup.Placed lookupKeyHash)
    (hkept : vi.Kept c) (hsorted : vi.Sorted c) : (vi.step c).isSome := by
  cases c with
  | upsert id vec level =>
    by_cases hvec : vi.Accepts vec
    · obtain ⟨hends, hplace⟩ := hkept hvec
      obtain ⟨v, rfl, hlength⟩ := hvec
      obtain ⟨removed, hremove, hshrunk, hring⟩ := IndexDense.remove_of_ends hplaced hends
      have hadd : ∃ added, removed.1.add id v level = some added := by
        unfold IndexDense.add
        split
        · exact ⟨_, rfl⟩
        · split
          · exact ⟨_, rfl⟩
          · next hnone =>
            have hwhole : removed.1.nodesShrunk ≠ true := fun hs => hring (hplace (hshrunk ▸ hs)) hnone
            exact ⟨_, if_neg hwhole⟩
      obtain ⟨added, hadd⟩ := hadd
      cases added with
      | ok index => simp [step, upsert, validateVectorArgument, hlength, hremove, hadd]
      | error e => simp [step, upsert, validateVectorArgument, hlength, hremove, hadd]
    · rw [upsert_refused hvec]
      rfl
  | delete id =>
    obtain ⟨removed, hremove, -⟩ := IndexDense.remove_of_ends hplaced hkept
    simp [step, delete, hremove]
  | compact cluster order => exact Option.isSome_iff_exists.mpr ⟨_, if_pos hsorted⟩
  | isolate => rfl

theorem refines_upsert {vi vi' : VectorIndex α} {m : VectorMap α} (h : vi.index.Refines m) {id level : Nat}
    {vec : Option (List α)} (hid : id ≠ freeKey) (hkept : vi.Kept (.upsert id vec level))
    (hs : vi.step (.upsert id vec level) = some vi') :
    vi'.dim = vi.dim ∧ vi'.index.Refines (VectorMap.apply vi.dim m (.upsert id vec level)) := by
  by_cases hvec : vi.Accepts vec
  · obtain ⟨hends, -⟩ := hkept hvec
    obtain ⟨v, rfl, hlength⟩ := hvec
    have hnew : (fun k => if k = id then none else m k) id = none := if_pos rfl
    obtain ⟨removed, hremove, ⟨index, hadd, rfl⟩ | ⟨hheld, -⟩⟩ := upsert_cases hlength hs
    · have hmap : VectorMap.apply vi.dim m (.upsert id (some v) level) =
          fun k => if k = id then some v else (fun k => if k = id then none else m k) k := by
        funext k
        by_cases hk : k = id
        · simp [VectorMap.apply, hk, hlength]
        · simp [VectorMap.apply, hk]
      rw [hmap]
      exact ⟨rfl, (h.remove hends hremove).add hid hnew hadd⟩
    · -- The search has ended, so the lookup has the id no more.
      have hremoved := h.remove hends hremove
      have hgone : removed.1.contains id = false :=
        ProbeTable.contains_eq_false.mpr ((SlotLookup.found_eq_nil hremoved.placed).mpr (hremoved.not_mem_lookup hnew))
      rw [hgone] at hheld
      cases hheld
  · have hmap : VectorMap.apply vi.dim m (.upsert id vec level) = m := by
      have hnone : (vec.filter fun v => v.length = vi.dim) = none := by
        cases vec with
        | none => rfl
        | some v => simpa [Option.filter, Accepts] using hvec
      funext k
      simp [VectorMap.apply, hnone]
    rw [upsert_refused hvec] at hs
    cases hs
    rw [hmap]
    exact ⟨rfl, h⟩

theorem refines_step {vi vi' : VectorIndex α} {m : VectorMap α} {c : Call α} (h : vi.index.Refines m)
    (hid : c.ValidId) (hkept : vi.Kept c) (hs : vi.step c = some vi') :
    vi'.dim = vi.dim ∧ vi'.index.Refines (VectorMap.apply vi.dim m c) := by
  cases c with
  | upsert id vec level => exact refines_upsert h hid hkept hs
  | delete id =>
    obtain ⟨removed, hremove, rfl⟩ := delete_cases hs
    exact ⟨rfl, h.remove hkept hremove⟩
  | compact cluster order =>
    obtain ⟨horder, rfl⟩ := compact_cases hs
    exact ⟨rfl, h.compact horder.1 hkept⟩
  | isolate =>
    cases hs
    exact ⟨rfl, h⟩

theorem refines_run {dim : Nat} {calls : List (Call α)} {vi vi' : VectorIndex α} {m : VectorMap α}
    (hdim : vi.dim = dim) (h : vi.index.Refines m) (hids : ∀ c ∈ calls, c.ValidId)
    (hrun : Transition.run (Transition.restrict Kept step) vi calls = some vi') :
    vi'.index.Refines (calls.foldl (VectorMap.apply dim) m) := by
  induction calls generalizing vi m with
  | nil =>
    cases hrun
    exact h
  | cons c calls ih =>
    obtain ⟨mid, hstep, hrest⟩ := Transition.run_cons_eq_some.mp hrun
    obtain ⟨hkept, hstep⟩ := Transition.restrict_eq_some.mp hstep
    obtain ⟨hmid, hrefines⟩ := refines_step h (hids c (by simp)) hkept hstep
    rw [List.foldl_cons, ← hdim]
    rw [hdim] at hmid ⊢
    exact ih hmid (hdim ▸ hrefines) (fun c hc => hids c (by simp [hc])) hrest

theorem refines_created (cfg : VectorConfig) : (created cfg : VectorIndex α).index.Refines fun _ => none := by
  obtain ⟨hplaced, hentries⟩ := SlotLookup.tryReserve_empty cfg.initialCapacity
  constructor
  · exact hplaced
  all_goals simp [created, IndexDense.tryReserve, hentries, IndexDense.Holds, IndexDense.IsFree]

/-- In a refined index the pairs a search may return are the pairs of the map. -/
theorem mem_eligible {ix : IndexDense α} {m : VectorMap α} (h : ix.Refines m) (p : Nat × List α) :
    p ∈ ix.eligible ↔ m p.1 = some p.2 := by
  rw [h.map, IndexDense.eligible, List.mem_map]
  constructor
  · rintro ⟨s, hs, rfl⟩
    obtain ⟨hs, hkey⟩ := List.mem_filter.mp hs
    obtain ⟨i, hi⟩ := List.mem_iff_getElem?.mp hs
    exact ⟨i, by simpa using hkey, s.level, hi⟩
  · rintro ⟨i, hkey, level, hi⟩
    refine ⟨⟨p.1, level, p.2⟩, List.mem_filter.mpr ⟨List.mem_of_getElem? hi, ?_⟩, rfl⟩
    simpa using hkey

/-- No key is eligible through two slots. -/
theorem nodup_eligible {ix : IndexDense α} {m : VectorMap α} (h : ix.Refines m) :
    (ix.eligible.map Prod.fst).Nodup := by
  have hkeys : ix.slots.Pairwise fun a b => a.key ≠ freeKey → b.key ≠ freeKey → a.key ≠ b.key := by
    rw [List.pairwise_iff_getElem]
    intro i j hi hj hij ha hb he
    have hheld : ∀ n (hn : n < ix.slots.length), ix.slots[n].key ≠ freeKey →
        (ix.slots[n].key, n) ∈ ix.slotLookup.entries := fun n hn hne =>
      (h.lookup _ n).mpr ⟨_, hne, ix.slots[n].level, List.getElem?_eq_getElem hn⟩
    have hsame : i = j := h.slot_eq (hheld i hi ha) (he ▸ hheld j hj hb)
    omega
  rw [IndexDense.eligible, List.map_map, List.Nodup, List.pairwise_map, List.pairwise_filter]
  refine hkeys.imp fun hab ha hb => ?_
  exact hab (by simpa using ha) (by simpa using hb)

/-- Along every run whose searches end, whose new nodes have a place and whose compactions leave the
live slots where they are, the pairs eligible for search are the fold of the upserts and deletes, one
slot for each key, and a further such call returns. -/
theorem eligible_eq_fold (cfg : VectorConfig) (calls : List (Call α)) (vi : VectorIndex α)
    (hids : ∀ c ∈ calls, c.ValidId)
    (hrun : Transition.run (Transition.restrict Kept step) (created cfg) calls = some vi) :
    (∀ p, p ∈ vi.index.eligible ↔ VectorMap.fold cfg.dim calls p.1 = some p.2) ∧
      (vi.index.eligible.map Prod.fst).Nodup ∧
      ∀ c, vi.Kept c → vi.Sorted c → (vi.step c).isSome := by
  have h : vi.index.Refines (VectorMap.fold cfg.dim calls) := refines_run rfl (refines_created cfg) hids hrun
  exact ⟨mem_eligible h, nodup_eligible h, fun c => isSome_step h.placed⟩

/-- An index with 64 cells in its lookup. -/
def smallConfig : VectorConfig := { dim := 1, initialCapacity := 8 }

/-- Two slots are freed and one is reused; the compaction swaps only free slots. -/
def sampleCalls : List (Call Nat) :=
  [.upsert 1 (some [10]) 2, .upsert 2 (some [20]) 0, .upsert 3 (some [30]) 1, .delete 2, .delete 3,
    .compact (fun _ => 0) [0, 2, 1], .upsert 1 (some [11]) 0]

theorem eligible_eq_fold_swap :
    ∃ vi : VectorIndex Nat, Transition.run (Transition.restrict Kept step) (created smallConfig) sampleCalls = some vi ∧
      vi.index.eligible = [(1, [11])] ∧
      (∀ p, p ∈ vi.index.eligible ↔ VectorMap.fold 1 sampleCalls p.1 = some p.2) ∧
        (vi.index.eligible.map Prod.fst).Nodup ∧ ∀ c, vi.Kept c → vi.Sorted c → (vi.step c).isSome := by
  obtain ⟨vi, hrun, heligible⟩ := Transition.exists_of_run
    (o := Transition.run (Transition.restrict Kept step) (created smallConfig) sampleCalls)
    (P := fun vi => vi.index.eligible = [(1, [11])]) (by decide +kernel)
  exact ⟨vi, hrun, heligible, eligible_eq_fold smallConfig sampleCalls vi (by decide) hrun⟩

/-- The second node has the higher level, so the compaction swaps the two live slots and
deleting the first key removes the second one. -/
theorem delete_after_compact_removes_other_key :
    ∃ vi : VectorIndex Nat, Transition.run step (created smallConfig)
      [.upsert 1 (some [10]) 0, .upsert 2 (some [20]) 1, .compact (fun _ => 0) [1, 0], .delete 1] = some vi ∧
      vi.index.eligible = [(1, [10])] ∧
      ¬ ∀ p, p ∈ vi.index.eligible ↔ VectorMap.fold 1 [.upsert 1 (some [10]) 0, .upsert 2 (some [20]) 1,
        .compact (fun _ => 0) [1, 0], .delete 1] p.1 = some p.2 := by
  obtain ⟨vi, hrun, heligible⟩ := Transition.exists_of_run
    (o := Transition.run step (created smallConfig)
      [.upsert 1 (some [10]) 0, .upsert 2 (some [20]) 1, .compact (fun _ => 0) [1, 0], .delete 1])
    (P := fun vi => vi.index.eligible = [(1, [10])]) (by decide +kernel)
  refine ⟨vi, hrun, heligible, fun h => ?_⟩
  have hdeleted := (h (1, [10])).mp (by rw [heligible]; decide)
  exact absurd hdeleted (by decide)

end VectorIndex

end RaftVdb
