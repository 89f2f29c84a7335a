import Mathlib.Data.List.Sort
import Mathlib.Data.String.Basic
import RaftVdb.Lib.Table

/-!
# The table of client requests

`DedupTable` maps a request id to what is known of the request. Every insertion or
update also queues the pair of log index and request id; eviction works off the queue
and skips pairs that no longer stand for the current record.
-/

namespace RaftVdb

open Lib

structure DedupEntry where
  committed : Bool := false
  success : Bool := false
  error : String := ""
  logIndex : Nat := 0
  deriving DecidableEq, Repr

structure DedupTable where
  windowSize : Nat
  table : Table String DedupEntry := ∅
  orderQueue : List (Nat × String) := []
  deriving DecidableEq

inductive CheckResult where
  | notFound
  | pendingCommit (entry : DedupEntry)
  | alreadyCommitted (entry : DedupEntry)
  deriving DecidableEq, Repr

namespace DedupTable

def check (t : DedupTable) (requestId : String) : CheckResult :=
  match t.table.find? requestId with
  | none => .notFound
  | some entry => if entry.committed then .alreadyCommitted entry else .pendingCommit entry

/-- The loop of `EvictIfNeededLocked`, over the queue. -/
def evictLoop (windowSize : Nat) (table : Table String DedupEntry) :
    List (Nat × String) → Table String DedupEntry × List (Nat × String)
  | [] => (table, [])
  | (logIndex, requestId) :: rest =>
    if table.size ≤ windowSize then (table, (logIndex, requestId) :: rest)
    else if (table.find? requestId).map DedupEntry.logIndex = some logIndex then
      evictLoop windowSize (table.erase requestId) rest
    else evictLoop windowSize table rest

def insertOrUpdate (t : DedupTable) (requestId : String) (entry : DedupEntry) : DedupTable :=
  let evicted := evictLoop t.windowSize (t.table.insert requestId entry) (t.orderQueue ++ [(entry.logIndex, requestId)])
  { t with table := evicted.1, orderQueue := evicted.2 }

def trackPending (t : DedupTable) (requestId : String) (logIndex : Nat) : DedupTable :=
  if requestId = "" then t
  else match t.table.find? requestId with
    | some _ => t
    | none => t.insertOrUpdate requestId { logIndex }

def record (t : DedupTable) (requestId : String) (logIndex : Nat) (success : Bool) (error : String) : DedupTable :=
  if requestId = "" then t
  else t.insertOrUpdate requestId { committed := true, success, error, logIndex }

/-- The order in which records are saved and loaded. -/
def recordLe (a b : String × DedupEntry) : Prop :=
  if a.2.logIndex = b.2.logIndex then a.1 ≤ b.1 else a.2.logIndex < b.2.logIndex

instance : DecidableRel recordLe := fun a b => by
  unfold recordLe
  infer_instance

/-- The committed records that `SaveTo` writes into `dedup.bin`. -/
def saveTo (t : DedupTable) : List (String × DedupEntry) :=
  (t.table.rows.filter fun r => r.2.committed).insertionSort recordLe

def loadFrom (t : DedupTable) (records : List (String × DedupEntry)) : Except String DedupTable :=
  if records.any fun r => r.1 = "" then .error "DedupSnapshot 中存在空 request_id"
  else .ok ((records.insertionSort recordLe).foldl (fun t r => t.insertOrUpdate r.1 { r.2 with committed := true })
    { windowSize := t.windowSize })

/-- What every operation leaves behind: no more rows than the window, each with its pair in
the queue, and no empty request id. -/
structure Bounded (t : DedupTable) : Prop where
  size_le : t.table.size ≤ t.windowSize
  queued : ∀ id e, t.table.find? id = some e → (e.logIndex, id) ∈ t.orderQueue
  named : ∀ e, t.table.find? "" ≠ some e

theorem Bounded.empty (windowSize : Nat) : Bounded { windowSize } where
  size_le := Nat.zero_le _
  queued := fun id e h => by cases h
  named := fun e h => by cases h

/-- The loop removes rows, in the end enough of them, and none that keeps its pair. -/
theorem evictLoop_spec {w : Nat} {table : Table String DedupEntry} {queue : List (Nat × String)}
    (h : ∀ id e, table.find? id = some e → (e.logIndex, id) ∈ queue) :
    (evictLoop w table queue).1.size ≤ w ∧
      ∀ id e, (evictLoop w table queue).1.find? id = some e →
        table.find? id = some e ∧ (e.logIndex, id) ∈ (evictLoop w table queue).2 := by
  induction queue generalizing table with
  | nil =>
    have hempty : table.size = 0 := by
      by_contra hne
      obtain ⟨r, hr⟩ := List.exists_mem_of_length_pos (Nat.pos_of_ne_zero hne)
      exact absurd (h r.1 r.2 ((table.find?_eq_some _ _).mpr hr)) List.not_mem_nil
    refine ⟨?_, fun id e he => ⟨he, h id e he⟩⟩
    show table.size ≤ w
    omega
  | cons pair rest ih =>
    obtain ⟨logIndex, requestId⟩ := pair
    rw [evictLoop]
    split
    · next hle => exact ⟨hle, fun id e he => ⟨he, h id e he⟩⟩
    split
    · next hcurrent =>
      have hrest : ∀ id e, (table.erase requestId).find? id = some e → (e.logIndex, id) ∈ rest := by
        intro id e he
        obtain ⟨hne, hfind⟩ := (table.find?_erase requestId id e).mp he
        rcases List.mem_cons.mp (h id e hfind) with hpair | hmem
        · cases hpair
          exact absurd rfl hne
        · exact hmem
      obtain ⟨hsize, hrows⟩ := ih hrest
      refine ⟨hsize, fun id e he => ?_⟩
      obtain ⟨hfind, hpair⟩ := hrows id e he
      exact ⟨((table.find?_erase requestId id e).mp hfind).2, hpair⟩
    · next hstale =>
      have hrest : ∀ id e, table.find? id = some e → (e.logIndex, id) ∈ rest := by
        intro id e he
        rcases List.mem_cons.mp (h id e he) with hpair | hmem
        · cases hpair
          exact absurd (by rw [he]; rfl) hstale
        · exact hmem
      exact ih hrest

section

variable {t : DedupTable} {requestId id : String} {entry e : DedupEntry}

theorem Bounded.queued_insert (h : t.Bounded) (he : (t.table.insert requestId entry).find? id = some e) :
    (e.logIndex, id) ∈ t.orderQueue ++ [(entry.logIndex, requestId)] := by
  rw [Table.find?_insert] at he
  split at he
  · next heq =>
    cases he
    rw [heq]
    simp
  · exact List.mem_append_left _ (h.queued id e he)

/-- A row after an insertion is the new one or an old one. -/
theorem Bounded.find?_insertOrUpdate (h : t.Bounded)
    (he : (t.insertOrUpdate requestId entry).table.find? id = some e) :
    id = requestId ∧ e = entry ∨ id ≠ requestId ∧ t.table.find? id = some e := by
  have hfind := ((evictLoop_spec fun id e => h.queued_insert).2 id e he).1
  rw [Table.find?_insert] at hfind
  split at hfind
  · next heq =>
    cases hfind
    exact .inl ⟨heq, rfl⟩
  · next hne => exact .inr ⟨hne, hfind⟩

theorem Bounded.insertOrUpdate (h : t.Bounded) (hid : requestId ≠ "") : (t.insertOrUpdate requestId entry).Bounded := by
  obtain ⟨hsize, hrows⟩ := evictLoop_spec (w := t.windowSize) fun id e => h.queued_insert
  refine ⟨hsize, fun id e he => (hrows id e he).2, fun e he => ?_⟩
  rcases h.find?_insertOrUpdate he with ⟨heq, -⟩ | ⟨-, hold⟩
  · exact hid heq.symm
  · exact h.named e hold

theorem Bounded.trackPending (h : t.Bounded) (requestId : String) (logIndex : Nat) :
    (t.trackPending requestId logIndex).Bounded := by
  unfold DedupTable.trackPending
  split
  · exact h
  next hid =>
  split
  · exact h
  · exact h.insertOrUpdate hid

theorem Bounded.record (h : t.Bounded) (requestId : String) (logIndex : Nat) (success : Bool) (error : String) :
    (t.record requestId logIndex success error).Bounded := by
  unfold DedupTable.record
  split
  · exact h
  · next hid => exact h.insertOrUpdate hid

end

/-! ## Saving and loading -/

/-- Within the window nothing is evicted. -/
theorem evictLoop_of_size_le {w : Nat} {table : Table String DedupEntry} (h : table.size ≤ w) (queue : List (Nat × String)) :
    evictLoop w table queue = (table, queue) := by
  cases queue with
  | nil => rfl
  | cons pair rest => rw [evictLoop, if_pos h]

theorem insertOrUpdate_of_size_le (t : DedupTable) (requestId : String) (entry : DedupEntry)
    (h : (t.table.insert requestId entry).size ≤ t.windowSize) :
    t.insertOrUpdate requestId entry =
      { t with table := t.table.insert requestId entry, orderQueue := t.orderQueue ++ [(entry.logIndex, requestId)] } := by
  rw [insertOrUpdate, evictLoop_of_size_le h]

/-- Distinct committed records that fit into the window are all there after loading, and
their pairs are queued in the same order. -/
theorem foldl_insertOrUpdate_of_size_le {records : List (String × DedupEntry)} {t : DedupTable}
    (hcommitted : ∀ r ∈ records, r.2.committed = true)
    (hnodup : (t.table.keys ++ records.map Prod.fst).Nodup) (hlen : t.table.size + records.length ≤ t.windowSize) :
    (records.foldl (fun t r => t.insertOrUpdate r.1 { r.2 with committed := true }) t).table.rows =
        t.table.rows ++ records ∧
      (records.foldl (fun t r => t.insertOrUpdate r.1 { r.2 with committed := true }) t).orderQueue =
        t.orderQueue ++ records.map fun r => (r.2.logIndex, r.1) := by
  induction records generalizing t with
  | nil => simp
  | cons r rest ih =>
    have hfresh : r.1 ∉ t.table.keys := by
      intro hmem
      exact List.disjoint_of_nodup_append hnodup hmem (by simp)
    have hsame : ({ r.2 with committed := true } : DedupEntry) = r.2 := by
      rw [← hcommitted r List.mem_cons_self]
    have hrows := t.table.rows_insert_of_not_mem r.2 hfresh
    have hsize : (t.table.insert r.1 r.2).size = t.table.size + 1 := by simp [Table.size, hrows]
    have hinsert := insertOrUpdate_of_size_le t r.1 r.2 (by
      simp only [List.length_cons] at hlen
      omega)
    obtain ⟨hrows', hqueue'⟩ := ih (t := t.insertOrUpdate r.1 r.2) (fun r hr => hcommitted r (List.mem_cons_of_mem _ hr))
      (by
        rw [hinsert, Table.keys, hrows]
        simpa [Table.keys] using hnodup)
      (by
        rw [hinsert]
        simp only [List.length_cons] at hlen
        show (t.table.insert r.1 r.2).size + _ ≤ t.windowSize
        omega)
    rw [List.foldl_cons, hsame, hrows', hqueue', hinsert]
    refine ⟨?_, ?_⟩
    · rw [hrows, List.append_assoc]
      rfl
    · rw [List.append_assoc]
      rfl

theorem Bounded.foldl_insertOrUpdate {records : List (String × DedupEntry)} {t : DedupTable} (h : t.Bounded)
    (hnamed : ∀ r ∈ records, r.1 ≠ "") :
    (records.foldl (fun t r => t.insertOrUpdate r.1 { r.2 with committed := true }) t).Bounded := by
  induction records generalizing t with
  | nil => exact h
  | cons r rest ih =>
    exact ih (h.insertOrUpdate (hnamed r List.mem_cons_self)) fun r hr => hnamed r (List.mem_cons_of_mem _ hr)

theorem windowSize_foldl_insertOrUpdate (records : List (String × DedupEntry)) (t : DedupTable) :
    (records.foldl (fun t r => t.insertOrUpdate r.1 { r.2 with committed := true }) t).windowSize = t.windowSize := by
  induction records generalizing t with
  | nil => rfl
  | cons r rest ih => exact ih _

theorem mem_saveTo {t : DedupTable} {id : String} {e : DedupEntry} :
    (id, e) ∈ t.saveTo ↔ t.table.find? id = some e ∧ e.committed = true := by
  rw [saveTo, List.mem_insertionSort, List.mem_filter, Table.find?_eq_some]

/-- What `SaveTo` writes, `LoadFrom` reads back: the committed rows, queued in their order. -/
theorem Bounded.loadFrom_saveTo {t : DedupTable} (h : t.Bounded) (fresh : DedupTable) (hwindow : fresh.windowSize = t.windowSize) :
    ∃ t', fresh.loadFrom t.saveTo = .ok t' ∧ t'.windowSize = t.windowSize ∧ t'.Bounded ∧
      (∀ id e, t'.table.find? id = some e ↔ t.table.find? id = some e ∧ e.committed = true) ∧
      t'.orderQueue = (t.saveTo.insertionSort recordLe).map fun r => (r.2.logIndex, r.1) := by
  have hperm : (t.saveTo.insertionSort recordLe).Perm (t.table.rows.filter fun r => r.2.committed) :=
    (List.perm_insertionSort _ _).trans (List.perm_insertionSort _ _)
  have hmem : ∀ r, r ∈ t.saveTo.insertionSort recordLe ↔ t.table.find? r.1 = some r.2 ∧ r.2.committed = true := by
    intro r
    rw [List.mem_insertionSort]
    exact mem_saveTo
  have hnamed : ∀ r ∈ t.saveTo.insertionSort recordLe, r.1 ≠ "" := by
    intro r hr heq
    obtain ⟨hfind, -⟩ := (hmem r).mp hr
    rw [heq] at hfind
    exact h.named _ hfind
  have hany : (t.saveTo.any fun r => r.1 = "") = false := by
    rw [List.any_eq_false]
    intro r hr
    simpa using hnamed r ((List.mem_insertionSort _).mpr hr)
  obtain ⟨hrows, hqueue⟩ := foldl_insertOrUpdate_of_size_le (t := { windowSize := t.windowSize })
    (fun r hr => ((hmem r).mp hr).2)
    (by
      refine (hperm.map Prod.fst).nodup_iff.mpr ?_
      exact (List.Sublist.map _ List.filter_sublist).nodup t.table.nodup)
    (by
      have hlen := hperm.length_eq
      have hle : (t.table.rows.filter fun r => r.2.committed).length ≤ t.table.rows.length := List.length_filter_le _ _
      have hsize := h.size_le
      have hzero : (∅ : Table String DedupEntry).size = 0 := rfl
      simp only [Table.size] at hsize hzero ⊢
      omega)
  refine ⟨_, ?_, ?_, (Bounded.empty fresh.windowSize).foldl_insertOrUpdate hnamed, ?_, ?_⟩
  · rw [loadFrom, if_neg (by rw [hany]; decide)]
  · rw [windowSize_foldl_insertOrUpdate]
    exact hwindow
  · intro id e
    rw [Table.find?_eq_some, hwindow, hrows]
    exact hmem (id, e)
  · rw [hwindow, hqueue]
    rfl

end DedupTable

end RaftVdb
