import RaftVdb.SlotCounts
import RaftVdb.WriteOrder

/-!
# What a search may find

The vector index of a node has had the commands carried out on it that the node has executed.
In between it has been compacted and isolated, saved into a file and loaded from one, which may
have come from another node. What it makes of the commands is a map from ids to vectors, and
by this a search goes.
-/

namespace RaftVdb

open Lib

def WriteCall.id : WriteCall → Nat
  | .upsert id _ => id
  | .delete id => id

namespace Command

def id : Command → Nat
  | .upsert cmd => cmd.id
  | .delete cmd => cmd.id

/-- What the id has after the command. -/
def vector : Command → Option (List Nat)
  | .upsert cmd => some cmd.vector
  | .delete _ => none

/-- How the command is executed; a new node of the graph gets the level. -/
def call (level : Nat) : Command → VectorIndex.Call Nat
  | .upsert cmd => .upsert cmd.id (some cmd.vector) level
  | .delete cmd => .delete cmd.id

end Command

/-- An index that these commands have been carried out on. The tombstone key is no id, the searches
of the lookup end, and compactions leave the live slots in place. -/
inductive CarriesOut (cfg : VectorConfig) : List Command → VectorIndex Nat → Prop
  | create : CarriesOut cfg [] (.created cfg)
  | execute {commands : List Command} {cmd : Command} {level : Nat} {vi vi' : VectorIndex Nat} (h : CarriesOut cfg commands vi)
      (hid : cmd.id ≠ freeKey) (hkept : vi.Kept (cmd.call level)) (hs : vi.step (cmd.call level) = some vi') :
      CarriesOut cfg (commands ++ [cmd]) vi'
  | compact {commands : List Command} {cluster : Nat → Nat} {order : List Nat} {vi vi' : VectorIndex Nat}
      (h : CarriesOut cfg commands vi) (hkept : vi.Kept (.compact cluster order)) (hs : vi.step (.compact cluster order) = some vi') :
      CarriesOut cfg commands vi'
  | isolate {commands : List Command} {vi : VectorIndex Nat} (h : CarriesOut cfg commands vi) : CarriesOut cfg commands vi.isolate
  | reload {commands : List Command} {vi vi' : VectorIndex Nat} (h : CarriesOut cfg commands vi)
      (hload : VectorIndex.loadFromSnapshot cfg vi.saveSnapshot = .ok vi') : CarriesOut cfg commands vi'

/-- The map that the commands make. -/
def stored (dim : Nat) (commands : List Command) : VectorMap Nat := VectorMap.fold dim (commands.map (Command.call 0))

variable {cfg : VectorConfig} {commands : List Command} {vi vi' : VectorIndex Nat} {dim : Nat}

theorem stored_concat (dim : Nat) (commands : List Command) (cmd : Command) (level : Nat) :
    stored dim (commands ++ [cmd]) = VectorMap.apply dim (stored dim commands) (cmd.call level) := by
  unfold stored VectorMap.fold
  rw [List.map_append, List.foldl_append]
  cases cmd <;> rfl

theorem CarriesOut.refines (h : CarriesOut cfg commands vi) :
    vi.dim = cfg.dim ∧ vi.index.Refines (stored cfg.dim commands) := by
  induction h with
  | create => exact ⟨rfl, VectorIndex.refines_created cfg⟩
  | @execute commands cmd level vi vi' _ hid hkept hs ih =>
    have hvalid : (cmd.call level).ValidId := by cases cmd <;> exact hid
    obtain ⟨hdim, hrefines⟩ := VectorIndex.refines_step ih.2 hvalid hkept hs
    rw [ih.1] at hrefines
    exact ⟨hdim.trans ih.1, stored_concat .. ▸ hrefines⟩
  | @compact commands cluster order vi vi' _ hkept hs ih =>
    have hvalid : (VectorIndex.Call.compact (α := Nat) cluster order).ValidId := trivial
    obtain ⟨hdim, hrefines⟩ := VectorIndex.refines_step ih.2 hvalid hkept hs
    exact ⟨hdim.trans ih.1, hrefines⟩
  | isolate _ ih => exact ih
  | reload _ hload ih => exact ⟨(VectorIndex.loadFromSnapshot_saveSnapshot hload).1.trans ih.1, ih.2.load hload⟩

/-- A search may find the vectors of the map, each through one slot. -/
theorem CarriesOut.mem_eligible (h : CarriesOut cfg commands vi) (id : Nat) (vector : List Nat) :
    (id, vector) ∈ vi.index.eligible ↔ stored cfg.dim commands id = some vector :=
  VectorIndex.mem_eligible h.refines.2 (id, vector)

namespace Cluster

end Cluster

namespace Service

variable {codec : CommandCodec} {s s' : Service}

end Service

end RaftVdb
