import RaftVdb.Lib.Counter
import RaftVdb.SlotCounts

/-!
# The check of the index maintenance

`IndexMaintenance::Check` reads `TotalSlots()`, `Size()` and `DeletedCount()` one after the
other, without a lock over the three, and derives from them the two ratios that start a
compaction or an isolation. What other threads do to the index in between makes the second
and the third number be of another index than the first.
-/

namespace RaftVdb

open Lib

variable {α : Type}

/-- The thresholds of the configuration. -/
structure IndexMaintenanceConfig where
  compactDeleteRatioThreshold : Rat := 1 / 5
  isolateFragmentationThreshold : Rat := 1 / 10

inductive MaintenanceState where
  | idle
  | isolating
  | compacting
  deriving DecidableEq, Repr

/-- The first three locals of `Check`. -/
structure Readings where
  totalSlots : Nat
  size : Nat
  deleted : Nat
  deriving DecidableEq, Repr

def safeRatio (numerator denominator : Nat) : Rat := if denominator = 0 then 0 else numerator / denominator

/-- The difference of two values of type `size_t`. -/
def subSizeT (a b : Nat) : Nat := (a + (2 ^ 64 - b % 2 ^ 64)) % 2 ^ 64

namespace Readings

def deleteRatio (r : Readings) : Rat := safeRatio r.deleted r.totalSlots

def fragmentationRatio (r : Readings) : Rat := safeRatio (subSizeT r.totalSlots r.size) r.totalSlots

/-- `Check` after its reads. Whether a compaction is overdue depends on the time only. -/
def check (cfg : IndexMaintenanceConfig) (compactOverdue : Bool) (state : MaintenanceState) (r : Readings) :
    MaintenanceState :=
  if state ≠ .idle then state
  else if r.deleteRatio > cfg.compactDeleteRatioThreshold ∨ compactOverdue then .compacting
  else if r.fragmentationRatio > cfg.isolateFragmentationThreshold then .isolating
  else .idle

/-- The difference does not wrap, and neither ratio exceeds 1. -/
structure Sound (r : Readings) : Prop where
  size_le : r.size ≤ r.totalSlots
  deleted_le : r.deleted ≤ r.totalSlots
  deleteRatio_le : r.deleteRatio ≤ 1
  fragmentationRatio_le : r.fragmentationRatio ≤ 1

end Readings

namespace VectorIndex

/-- `TotalSlots()`, then the first calls, `Size()`, the second calls, and `DeletedCount()`. The last
takes no lock, but every call stores the count once, at its end. -/
def readings (vi : VectorIndex α) (first second : List (Call α)) : Option Readings :=
  (Transition.run step vi first).bind fun between =>
    (Transition.run step between second).map fun last =>
      { totalSlots := vi.totalSlots, size := between.size, deleted := last.deletedCount }

/-- The slots that `remove` frees. -/
def freed (vi : VectorIndex α) (id : Nat) : Nat := ((vi.index.slotLookup.equalRange id).getD []).length

/-- The slot that `add` takes, unless `remove` has left the id in the lookup. -/
def taken (vi : VectorIndex α) (id : Nat) : Nat := if vi.freed id = 0 ∧ vi.index.contains id then 0 else 1

/-- The slots that a call frees and the slot that it takes. -/
def flow (vi : VectorIndex α) : Call α → Flow
  | .upsert id vec _ => if vi.Accepts vec then { gained := vi.freed id, lost := vi.taken id } else {}
  | .delete id => { gained := vi.freed id }
  | .compact _ _ => { clears := true }
  | .isolate => {}

def flows (vi : VectorIndex α) : List (Call α) → List Flow
  | [] => []
  | call :: calls => vi.flow call :: (vi.step call).elim [] fun vi' => vi'.flows calls

/-- The calls between the reads do not outrun the first read: before `Size()` no more slots are
taken than freed and deleted before, and before `DeletedCount()` no more are freed than taken and in use. -/
structure Within (vi : VectorIndex α) (first second : List (Call α)) : Prop where
  taken : Flow.loss (vi.flows first) ≤ Flow.gain (vi.flows first) + vi.deletedCount
  freed : Flow.Unbroken (vi.flows (first ++ second)) →
    Flow.gain (vi.flows (first ++ second)) ≤ Flow.loss (vi.flows (first ++ second)) + vi.size
  rear : Flow.RearWithin vi.totalSlots (vi.flows (first ++ second))

instance (vi : VectorIndex α) (first second : List (Call α)) : Decidable (vi.Within first second) :=
  decidable_of_iff
    (Flow.loss (vi.flows first) ≤ Flow.gain (vi.flows first) + vi.deletedCount ∧
      (Flow.Unbroken (vi.flows (first ++ second)) →
        Flow.gain (vi.flows (first ++ second)) ≤ Flow.loss (vi.flows (first ++ second)) + vi.size) ∧
      Flow.RearWithin vi.totalSlots (vi.flows (first ++ second)))
    ⟨fun h => ⟨h.1, h.2.1, h.2.2⟩, fun h => ⟨h.taken, h.freed, h.rear⟩⟩

end VectorIndex

/-! ## The ratios -/

theorem safeRatio_le_one {numerator denominator : Nat} (h : numerator ≤ denominator) :
    safeRatio numerator denominator ≤ 1 := by
  unfold safeRatio
  split
  · exact (by decide : (0 : Rat) ≤ 1)
  · next hne =>
    have hpos : (0 : Rat) < denominator := Rat.natCast_pos.mpr (Nat.pos_of_ne_zero hne)
    rw [← Rat.not_lt, Rat.lt_div_iff hpos, Rat.one_mul, Rat.not_lt]
    exact Rat.natCast_le_natCast.mpr h

theorem subSizeT_le {a b : Nat} (h : b ≤ a) : subSizeT a b ≤ a := by
  unfold subSizeT
  omega

namespace Readings

variable {r : Readings}

theorem sound_iff : r.Sound ↔ r.size ≤ r.totalSlots ∧ r.deleted ≤ r.totalSlots :=
  ⟨fun h => ⟨h.size_le, h.deleted_le⟩, fun ⟨hsize, hdeleted⟩ =>
    ⟨hsize, hdeleted, safeRatio_le_one hdeleted, safeRatio_le_one (subSizeT_le hsize)⟩⟩

end Readings

/-! ## Every slot is in the lookup or in the ring -/

namespace IndexDense

structure Balanced (ix : IndexDense α) : Prop where
  placed : ix.slotLookup.Placed lookupKeyHash
  length : ix.slotLookup.entries.length + ix.freeKeys.length = ix.slots.length

variable {ix ix' : IndexDense α} {key level : Nat} {vector : List α} {removed : IndexDense α × Nat}

theorem Balanced.size_eq (h : ix.Balanced) : ix.size = ix.slotLookup.entries.length := by
  have hlength := h.length
  unfold size
  omega

theorem Shared.balanced (h : ix.Shared) : ix.Balanced := ⟨h.placed, h.length⟩

/-- The number that `remove` returns is that of the slots in the range, and only if it is zero may the
lookup still have the key. -/
theorem Balanced.remove (h : ix.Balanced) (hremove : ix.remove key = some removed) :
    removed.1.Balanced ∧ removed.1.slotLookup.entries.length + removed.2 = ix.slotLookup.entries.length ∧
      ((ix.slotLookup.equalRange key).getD []).length = removed.2 ∧
      removed.1.contains key = (decide (removed.2 = 0) && ix.contains key) := by
  rcases remove_cases hremove with ⟨hrange, rfl⟩ | ⟨hrange, hne, rfl⟩
  · exact ⟨h, rfl, by rw [hrange]; rfl, by simp⟩
  · have hsplit : ((ix.slotLookup.erase lookupKeyHash key).entries).length +
        (ix.slotLookup.found lookupKeyHash key).length = ix.slotLookup.entries.length := by
      have hcount := List.length_eq_length_filter_add (l := ix.slotLookup.entries) fun e => e.1 = key
      have hneg : (ix.slotLookup.entries.filter fun e => e.1 ≠ key) =
          ix.slotLookup.entries.filter fun e => !decide (e.1 = key) := by
        simp
      rw [h.placed.entries_erase, (h.placed.found_perm key).length_eq, List.length_map, hneg]
      omega
    have hgone : (ix.slotLookup.erase lookupKeyHash key).contains lookupKeyHash key = false :=
      ProbeTable.contains_eq_false.mpr (h.placed.found_erase key)
    have hlength := h.length
    refine ⟨⟨h.placed.erase key, ?_⟩, hsplit, by rw [hrange]; rfl, ?_⟩
    · dsimp only
      rw [length_foldl_markFree, List.length_append]
      omega
    · rw [contains, hgone]
      simp [hne]

theorem Balanced.add (h : ix.Balanced) (hadd : ix.add key vector level = some (.ok ix')) :
    ix'.Balanced ∧ ix'.slotLookup.entries.length = ix.slotLookup.entries.length + 1 := by
  have hlength := h.length
  obtain ⟨-, ⟨slot, rest, hring, rfl⟩ | ⟨hring, rfl⟩⟩ := add_cases hadd
  · obtain ⟨hplaced, hentries⟩ := SlotLookup.tryEmplace_spec h.placed (key, slot)
    have hone := hentries.length_eq
    rw [hring, List.length_cons] at hlength
    rw [List.length_cons] at hone
    refine ⟨⟨hplaced, ?_⟩, hone⟩
    dsimp only
    rw [List.length_modify]
    omega
  · obtain ⟨hplaced, hentries⟩ := SlotLookup.tryEmplace_spec h.placed (key, ix.slots.length)
    have hone := hentries.length_eq
    rw [List.length_cons] at hone
    refine ⟨⟨hplaced, ?_⟩, hone⟩
    dsimp only
    rw [List.length_append, List.length_singleton]
    omega

theorem Balanced.compact (h : ix.Balanced) {order : List Nat} (hperm : order.Perm (List.range ix.slots.length)) :
    (ix.compact order).Balanced :=
  ⟨h.placed, h.length.trans (length_compact hperm).symm⟩

end IndexDense

/-! ## One call -/

namespace VectorIndex

variable {vi vi' : VectorIndex α} {call : Call α}

/-- What a call does to the two counts. -/
structure Counted (vi vi' : VectorIndex α) (f : Flow) : Prop where
  balanced : vi'.index.Balanced
  size : vi'.size + f.gained = vi.size + f.lost
  deletedCount : vi'.deletedCount = Flow.apply vi.deletedCount f

theorem counted_upsert (h : vi.index.Balanced) {id level : Nat} {vec : Option (List α)}
    (hstep : vi.step (.upsert id vec level) = some vi') : Counted vi vi' (vi.flow (.upsert id vec level)) := by
  by_cases hvec : vi.Accepts vec
  · have hflow : vi.flow (.upsert id vec level) = { gained := vi.freed id, lost := vi.taken id } := if_pos hvec
    obtain ⟨v, rfl, hlength⟩ := hvec
    rw [hflow]
    obtain ⟨removed, hremove, ⟨index, hadd, rfl⟩ | ⟨hheld, rfl⟩⟩ := upsert_cases hlength hstep
    · obtain ⟨hbalanced, hsplit, hfreed, hkey⟩ := h.remove hremove
      obtain ⟨hbalanced', hone⟩ := hbalanced.add hadd
      have hnew := (IndexDense.add_cases hadd).1
      have hfreed' : vi.freed id = removed.2 := hfreed
      have htaken : vi.taken id = 1 := by
        refine if_neg fun hleft => ?_
        rw [hfreed'] at hleft
        rw [hkey, hleft.2, hleft.1] at hnew
        cases hnew
      refine ⟨hbalanced', ?_, ?_⟩
      · have hsize : index.size = index.slotLookup.entries.length := hbalanced'.size_eq
        rw [size, size, hsize, h.size_eq]
        dsimp only
        omega
      · simp [Flow.apply, hfreed', htaken]
    · obtain ⟨hbalanced, hsplit, hfreed, hkey⟩ := h.remove hremove
      have hfreed' : vi.freed id = removed.2 := hfreed
      rw [hkey, Bool.and_eq_true, decide_eq_true_eq] at hheld
      have htaken : vi.taken id = 0 := if_pos ⟨hfreed'.trans hheld.1, hheld.2⟩
      refine ⟨hbalanced, ?_, ?_⟩
      · have hsize : removed.1.size = removed.1.slotLookup.entries.length := hbalanced.size_eq
        rw [size, size, hsize, h.size_eq]
        dsimp only
        omega
      · simp [Flow.apply, hfreed', htaken]
  · rw [upsert_refused hvec] at hstep
    cases hstep
    rw [flow, if_neg hvec]
    exact ⟨h, rfl, rfl⟩

theorem counted_delete (h : vi.index.Balanced) {id : Nat} (hstep : vi.step (.delete id) = some vi') :
    Counted vi vi' (vi.flow (.delete id)) := by
  obtain ⟨removed, hremove, rfl⟩ := delete_cases hstep
  obtain ⟨hbalanced, hsplit, hfreed, -⟩ := h.remove hremove
  have hfreed' : vi.freed id = removed.2 := hfreed
  refine ⟨hbalanced, ?_, by simp [flow, Flow.apply, hfreed']⟩
  have hsize : removed.1.size = removed.1.slotLookup.entries.length := hbalanced.size_eq
  rw [size, size, hsize, h.size_eq, flow]
  dsimp only
  omega

theorem counted_step (h : vi.index.Balanced) (hstep : vi.step call = some vi') : Counted vi vi' (vi.flow call) := by
  cases call with
  | upsert id vec level => exact counted_upsert h hstep
  | delete id => exact counted_delete h hstep
  | compact cluster order =>
    obtain ⟨horder, rfl⟩ := compact_cases hstep
    exact ⟨h.compact horder.1, congrArg (· - vi.index.freeKeys.length) (IndexDense.length_compact horder.1), rfl⟩
  | isolate =>
    cases hstep
    exact ⟨h, rfl, rfl⟩

/-! ## Calls in a row -/

theorem counted_run (h : vi.index.Balanced) {calls : List (Call α)} (hrun : Transition.run step vi calls = some vi') :
    vi'.index.Balanced ∧ vi'.size + Flow.gain (vi.flows calls) = vi.size + Flow.loss (vi.flows calls) ∧
      vi'.deletedCount = Flow.level vi.deletedCount (vi.flows calls) := by
  induction calls generalizing vi with
  | nil =>
    cases hrun
    exact ⟨h, rfl, rfl⟩
  | cons call calls ih =>
    obtain ⟨next, hstep, hrest⟩ := Transition.run_cons_eq_some.mp hrun
    have hcounted := counted_step h hstep
    obtain ⟨hbalanced, hsize, hdeleted⟩ := ih hcounted.balanced hrest
    have hflows : vi.flows (call :: calls) = vi.flow call :: next.flows calls := by
      rw [flows, hstep]
      rfl
    rw [hflows, Flow.gain_cons, Flow.loss_cons, Flow.level_cons, ← hcounted.deletedCount]
    have hone := hcounted.size
    exact ⟨hbalanced, by omega, hdeleted⟩

theorem sound_iff_within (h : vi.index.Balanced) {first second : List (Call α)} {r : Readings}
    (hread : vi.readings first second = some r) : r.Sound ↔ vi.Within first second := by
  obtain ⟨between, hfirst, hrest⟩ := Option.bind_eq_some_iff.mp hread
  obtain ⟨last, hsecond, rfl⟩ := Option.map_eq_some_iff.mp hrest
  have hrun : Transition.run step vi (first ++ second) = some last := by
    rw [Transition.run_append, hfirst]
    exact hsecond
  obtain ⟨-, hsize, -⟩ := counted_run h hfirst
  obtain ⟨-, -, hdeleted⟩ := counted_run h hrun
  have hsizes : between.size ≤ vi.totalSlots ↔
      Flow.loss (vi.flows first) ≤ Flow.gain (vi.flows first) + vi.deletedCount := by
    have htotal : vi.totalSlots = vi.size + vi.deletedCount := rfl
    omega
  have hcounts : last.deletedCount ≤ vi.totalSlots ↔
      (Flow.Unbroken (vi.flows (first ++ second)) →
        Flow.gain (vi.flows (first ++ second)) ≤ Flow.loss (vi.flows (first ++ second)) + vi.size) ∧
      Flow.RearWithin vi.totalSlots (vi.flows (first ++ second)) := by
    rw [hdeleted, Flow.level_le_iff]
    refine and_congr_left' (imp_congr_right fun _ => ?_)
    have htotal : vi.totalSlots = vi.size + vi.deletedCount := rfl
    omega
  rw [Readings.sound_iff]
  exact ⟨fun ⟨hle, hle'⟩ => ⟨hsizes.mp hle, (hcounts.mp hle').1, (hcounts.mp hle').2⟩,
    fun h => ⟨hsizes.mpr h.taken, hcounts.mpr ⟨h.freed, h.rear⟩⟩⟩

end VectorIndex

namespace Tally

variable {t u : Tally α}

theorem balanced_act (h : t.index.index.Balanced) {a : Action α} (ha : t.act a = some u) : u.index.index.Balanced := by
  cases a with
  | call call =>
    obtain ⟨index, hstep, rfl⟩ := Option.map_eq_some_iff.mp ha
    exact (VectorIndex.counted_step h hstep).balanced
  | reload cfg =>
    obtain ⟨loaded, hload, rfl⟩ := Option.map_eq_some_iff.mp ha
    obtain ⟨-, -, members, hmembers, hindex⟩ :=
      VectorIndex.loadFromSnapshot_saveSnapshot (Transition.ok_of_toOption hload)
    dsimp only
    rw [hindex]
    exact ((IndexDense.shared_reindexKeys _).tryReserve hmembers).1.balanced

/-- After any history, the check gets sound readings exactly if the calls between its reads keep
within what the first read has counted. -/
theorem check_sound_iff {cfg : VectorConfig} {history : List (Action α)}
    (hrun : Transition.run act ⟨.created cfg, ∅⟩ history = some t) {first second : List (VectorIndex.Call α)} {r : Readings}
    (hread : t.index.readings first second = some r) : r.Sound ↔ t.index.Within first second :=
  VectorIndex.sound_iff_within
    (Transition.run_invariant (fun t => t.index.index.Balanced) (fun _ _ _ h ha => balanced_act h ha)
      (IndexDense.shared_created cfg).balanced hrun) hread

/-- An index of one vector and one deleted slot. -/
def sampleHistory : List (Action Nat) :=
  [.call (.upsert 1 (some [10]) 0), .call (.upsert 2 (some [20]) 0), .call (.delete 1)]

def sampleTally : Tally Nat := (Transition.run act ⟨.created VectorIndex.smallConfig, ∅⟩ sampleHistory).getD ⟨.created VectorIndex.smallConfig, ∅⟩

/-- A vector is written for the first time and another is deleted while the check reads. -/
theorem check_sound_between_writes :
    Transition.run act ⟨.created VectorIndex.smallConfig, ∅⟩ sampleHistory = some sampleTally ∧
    sampleTally.index.readings [.upsert 3 (some [30]) 0] [.delete 2, .isolate] = some ⟨2, 2, 1⟩ ∧
    Readings.Sound ⟨2, 2, 1⟩ := by
  have hrun : Transition.run act ⟨.created VectorIndex.smallConfig, ∅⟩ sampleHistory = some sampleTally := rfl
  have hread : sampleTally.index.readings [.upsert 3 (some [30]) 0] [.delete 2, .isolate] = some ⟨2, 2, 1⟩ := rfl
  exact ⟨hrun, hread, (check_sound_iff hrun hread).mpr (by decide)⟩

/-- A second vector is written between `TotalSlots()` and `Size()`, and an index without a deleted
slot is isolated. -/
theorem write_between_reads_wraps : ∃ (t : Tally Nat) (r : Readings),
    Transition.run act ⟨.created VectorIndex.smallConfig, ∅⟩ [.call (.upsert 1 (some [10]) 0)] = some t ∧
    t.index.readings [.upsert 2 (some [20]) 0] [] = some r ∧ r.totalSlots = 1 ∧ r.size = 2 ∧
    subSizeT r.totalSlots r.size = 2 ^ 64 - 1 ∧ 1 < r.fragmentationRatio ∧ ¬ r.Sound ∧
    r.check {} false .idle = .isolating := by
  refine ⟨_, _, rfl, rfl, rfl, rfl, rfl, by decide +kernel, fun h => ?_, by decide +kernel⟩
  exact absurd h.size_le (by decide)

end Tally

end RaftVdb
