import RaftVdb.Execution
import RaftVdb.PendingRecords

/-!
# What stands behind the records

A committed record says at which index the request was executed, and how that ended. The
table of a node gets such records from `ApplyCommittedEntries`, from `dedup.bin` after a
restart and from an installed snapshot. What holds of a record when it is made, and holds on
as the cluster goes on, holds of every record that is found anywhere.
-/

namespace RaftVdb

open Lib

/-- How an outcome is recorded: success, and the error text. -/
def recorded : Except String Unit → Bool × String
  | .ok _ => (true, "")
  | .error err => (false, err)

/-- A property of a request, of the index of its entry and of what is recorded of it. -/
abbrev RecordProperty := String → Nat → Bool × String → Prop

/-- The property holds of a row. -/
abbrev RecordProperty.Of (P : RecordProperty) (r : String × DedupEntry) : Prop := P r.1 r.2.logIndex (r.2.success, r.2.error)

namespace DedupTable

variable {t t' : DedupTable} {requestId : String} {entry : DedupEntry} {P Q : RecordProperty}

/-- The property holds of every committed record. -/
def Vouches (P : RecordProperty) (t : DedupTable) : Prop :=
  ∀ id e, t.table.find? id = some e → e.committed = true → P.Of (id, e)

theorem Vouches.empty (P : RecordProperty) (windowSize : Nat) : Vouches P { windowSize } := fun id e h => by cases h

theorem Vouches.mono (h : t.Vouches P) (hPQ : ∀ id k answer, P id k answer → Q id k answer) : t.Vouches Q :=
  fun id e he hcommitted => hPQ id _ _ (h id e he hcommitted)

theorem Vouches.insertOrUpdate (h : t.Vouches P) (hnew : entry.committed = true → P.Of (requestId, entry)) :
    (t.insertOrUpdate requestId entry).Vouches P := by
  intro id e he hcommitted
  rcases find?_of_insertOrUpdate he with ⟨rfl, rfl⟩ | hold
  · exact hnew hcommitted
  · exact h id e hold hcommitted

theorem Vouches.trackPending (h : t.Vouches P) (requestId : String) (logIndex : Nat) :
    (t.trackPending requestId logIndex).Vouches P := by
  unfold DedupTable.trackPending
  split
  · exact h
  split
  · exact h
  · exact h.insertOrUpdate fun hpending => by cases hpending

theorem Vouches.record (h : t.Vouches P) {logIndex : Nat} {success : Bool} {error : String}
    (hnew : P requestId logIndex (success, error)) : (t.record requestId logIndex success error).Vouches P := by
  unfold DedupTable.record
  split
  · exact h
  · exact h.insertOrUpdate fun _ => hnew

theorem Vouches.loadFrom {records : List (String × DedupEntry)} (hrecords : ∀ r ∈ records, P.Of r)
    (h : t.loadFrom records = .ok t') : t'.Vouches P := by
  have hfold : ∀ (rows : List (String × DedupEntry)) (t : DedupTable), (∀ r ∈ rows, P.Of r) → t.Vouches P →
      (rows.foldl (fun t r => t.insertOrUpdate r.1 { r.2 with committed := true }) t).Vouches P := by
    intro rows
    induction rows with
    | nil => exact fun t _ ht => ht
    | cons r rows ih =>
      intro t hrows ht
      exact ih _ (fun x hx => hrows x (List.mem_cons_of_mem r hx)) (ht.insertOrUpdate fun _ => hrows r List.mem_cons_self)
  unfold DedupTable.loadFrom at h
  split at h
  · cases h
  cases h
  exact hfold _ _ (fun r hr => hrecords r ((List.mem_insertionSort recordLe).mp hr)) (.empty P _)

theorem Vouches.saveTo (h : t.Vouches P) : ∀ r ∈ t.saveTo, P.Of r := by
  intro r hr
  obtain ⟨hrow, hcommitted⟩ := List.mem_filter.mp ((List.mem_insertionSort recordLe).mp hr)
  exact h r.1 r.2 ((t.table.find?_eq_some _ _).mpr hrow) hcommitted

end DedupTable

namespace Node.Machine

variable {codec : CommandCodec} {P Q : RecordProperty} {x : Machine}

/-- The property holds of the records of the machine, and of those that it has saved. -/
structure Vouches (P : RecordProperty) (x : Machine) : Prop where
  table : x.dedup.Vouches P
  saved : ∀ s ∈ x.snapshot, ∀ r ∈ s.dedup, P.Of r

theorem Vouches.mono (h : x.Vouches P) (hPQ : ∀ id k answer, P id k answer → Q id k answer) : x.Vouches Q :=
  ⟨h.table.mono hPQ, fun s hs r hr => hPQ _ _ _ (h.saved s hs r hr)⟩

theorem Vouches.apply (h : x.Vouches P) {e : LogEntry} {outcome : Except String Unit}
    (he : ∀ cmd, e.command codec = some cmd → P cmd.requestId (x.appliedIndex + 1) (recorded outcome)) :
    (x.apply codec e outcome).Vouches P := by
  refine ⟨?_, h.saved⟩
  unfold Machine.apply
  dsimp only
  split
  · exact h.table
  next cmd hcmd =>
  have hnew := he cmd hcmd
  split
  · exact h.table.record hnew
  · exact h.table.record hnew

theorem Vouches.restore (windowSize : Nat) {snapshot : Option Snapshot} (h : ∀ s ∈ snapshot, ∀ r ∈ s.dedup, P.Of r) :
    (restore windowSize snapshot).Vouches P := by
  refine ⟨?_, h⟩
  cases snapshot with
  | none => exact .empty P windowSize
  | some s =>
    show (((DedupTable.loadFrom { windowSize } s.dedup).toOption.getD { windowSize }).Vouches P)
    cases hload : DedupTable.loadFrom { windowSize } s.dedup with
    | error err => exact .empty P windowSize
    | ok t => exact .loadFrom (h s rfl) hload

end Node.Machine

namespace Cluster

variable {codec : CommandCodec} {c c' : Cluster} {a : Action} {P P' : Nat → RecordProperty}

/-- The property, which may go by the term of the node, holds of every committed record, also of
a snapshot on its way. -/
structure Vouched (P : Nat → RecordProperty) (c : Cluster) : Prop where
  node : ∀ p, (c.nodes p).machine.Vouches (P (c.nodes p).currentTerm)
  install : ∀ call ∈ c.calls, ∀ r, call.request = .install r → ∀ row ∈ r.snapshot.dedup, (P r.leaderTerm).Of row

/-- It is enough that the property holds of what the step records, and holds on. -/
theorem Vouched.step (h : c.Vouched P) (hcfg : c.Configured) (hanswered : c.Answered) (hs : c.step codec a = some c')
    (hgrow : ∀ T T', T ≤ T' → ∀ id k answer, P T id k answer → P' T' id k answer)
    (hnew : ∀ p outcome e cmd, a = .apply p outcome → (c.nodes p).appliedIndex < (c.nodes p).commitIndex →
      (c.nodes p).log.read ((c.nodes p).appliedIndex + 1) = .ok e → e.command codec = some cmd →
        P' (c'.nodes p).currentTerm cmd.requestId ((c.nodes p).appliedIndex + 1) (recorded outcome)) : c'.Vouched P' := by
  have hterm := (onward_of_moves hanswered (moves_of_step hs)).term
  refine ⟨fun p => ?_, fun call hcall r hr row hrow => ?_⟩
  · have hnode := (h.node p).mono (hgrow _ _ (hterm p))
    cases drives_of_step hs p with
    | idle hm =>
      rw [hm]
      exact hnode
    | asked ha hcheck hm =>
      rw [hm]
      exact ⟨hnode.table, hnode.saved⟩
    | noted hm =>
      rw [hm]
      exact ⟨hnode.table.trackPending _ _, hnode.saved⟩
    | applied ha hlt hread hm =>
      rw [hm]
      exact hnode.apply fun cmd hcmd => hnew p _ _ cmd ha hlt hread hcmd
    | saved ha ht hm =>
      rw [hm]
      refine ⟨hnode.table, fun s hs => ?_⟩
      cases hs
      exact hnode.table.saveTo
    | @installed call r hcall hr hle hm =>
      have hinstall := fun row hrow => hgrow _ _ hle _ _ _ (h.install call hcall r hr row hrow)
      refine ⟨?_, fun s hs => ?_⟩
      · rcases hm.dedup with hold | hload
        · show (c'.nodes p).dedup.Vouches _
          rw [hold]
          exact hnode.table
        · exact .loadFrom hinstall hload
      · have hs : s ∈ (c'.nodes p).snapshot := hs
        rw [hm.snapshot] at hs
        cases hs
        exact hinstall
    | restarted hm =>
      rw [hm]
      exact .restore _ hnode.saved
  · rcases install_of_step hcfg hs hcall hr with ⟨old, hold, hrequest⟩ | ⟨p, hsnapshot, hsame⟩
    · exact hgrow _ _ (le_refl _) _ _ _ (h.install old hold r hrequest row hrow)
    · exact hgrow _ _ hsame.ge _ _ _ ((h.node p).saved _ hsnapshot row hrow)

end Cluster

end RaftVdb
