import Mathlib.Data.List.Pairwise
import Mathlib.Logic.Relation
import RaftVdb.Dedup

/-!
# Histories of the table of client requests

What holds after any sequence of `TrackPending`, `Record` and `LoadFrom` calls: the window
is kept, every record has its pair in the queue, and a record just written is there.
The second half compares a table with the one that is loaded from its saved records. The
queues of the two differ by stale pairs, so they are compared by their current pairs only.
-/

namespace RaftVdb

open Lib

namespace DedupTable

/-! ## The eviction loop -/

/-- One pass through the body of the loop in `EvictIfNeededLocked`, if its condition holds. -/
def evictStep (windowSize : Nat) :
    Table String DedupEntry × List (Nat × String) → Option (Table String DedupEntry × List (Nat × String))
  | (_, []) => none
  | (table, (logIndex, requestId) :: rest) =>
    if windowSize < table.size then
      match table.find? requestId with
      | none => some (table, rest)
      | some entry => if entry.logIndex ≠ logIndex then some (table, rest) else some (table.erase requestId, rest)
    else none

def EvictRun (windowSize : Nat) :
    Table String DedupEntry × List (Nat × String) → Table String DedupEntry × List (Nat × String) → Prop :=
  Relation.ReflTransGen fun s s' => evictStep windowSize s = some s'

theorem evictStep_tail {w : Nat} {s s' : Table String DedupEntry × List (Nat × String)} (h : evictStep w s = some s') :
    s.2.length = s'.2.length + 1 := by
  obtain ⟨table, queue⟩ := s
  cases queue with
  | nil => cases h
  | cons pair rest =>
    simp only [evictStep] at h
    split at h
    · split at h
      · cases h
        rfl
      · split at h
        · cases h
          rfl
        · cases h
          rfl
    · cases h

theorem evictStep_wellFounded (w : Nat) :
    WellFounded fun s' s : Table String DedupEntry × List (Nat × String) => evictStep w s = some s' := by
  apply Subrelation.wf (r := InvImage (· < ·) fun s => s.2.length) _ (InvImage.wf _ Nat.lt_wfRel.wf)
  intro s' s h
  have hlen := evictStep_tail h
  show s'.2.length < s.2.length
  omega

theorem evictStep_current {w logIndex : Nat} {requestId : String} {table : Table String DedupEntry} {rest : List (Nat × String)}
    (hfull : w < table.size) (h : (table.find? requestId).map DedupEntry.logIndex = some logIndex) :
    evictStep w (table, (logIndex, requestId) :: rest) = some (table.erase requestId, rest) := by
  obtain ⟨entry, hfind, hindex⟩ := Option.map_eq_some_iff.mp h
  simp [evictStep, hfull, hfind, hindex]

theorem evictStep_stale {w logIndex : Nat} {requestId : String} {table : Table String DedupEntry} {rest : List (Nat × String)}
    (hfull : w < table.size) (h : (table.find? requestId).map DedupEntry.logIndex ≠ some logIndex) :
    evictStep w (table, (logIndex, requestId) :: rest) = some (table, rest) := by
  cases hfind : table.find? requestId with
  | none => simp [evictStep, hfull, hfind]
  | some entry =>
    have hne : entry.logIndex ≠ logIndex := by
      intro heq
      exact h (by rw [hfind, Option.map_some, heq])
    simp [evictStep, hfull, hfind, hne]

/-- The recursion over the queue is the run of the loop, up to where its condition fails. -/
theorem evictRun_evictLoop (w : Nat) (table : Table String DedupEntry) (queue : List (Nat × String)) :
    EvictRun w (table, queue) (evictLoop w table queue) ∧ evictStep w (evictLoop w table queue) = none := by
  induction queue generalizing table with
  | nil => exact ⟨.refl, rfl⟩
  | cons pair rest ih =>
    obtain ⟨logIndex, requestId⟩ := pair
    rw [evictLoop]
    split
    · next hle =>
      refine ⟨.refl, ?_⟩
      rw [evictStep, if_neg (Nat.not_lt.mpr hle)]
    next hfull =>
    split
    · next hcurrent =>
      obtain ⟨hrun, hend⟩ := ih (table.erase requestId)
      exact ⟨.head (evictStep_current (Nat.not_le.mp hfull) hcurrent) hrun, hend⟩
    · next hstale =>
      obtain ⟨hrun, hend⟩ := ih table
      exact ⟨.head (evictStep_stale (Nat.not_le.mp hfull) hstale) hrun, hend⟩

/-- A row leaves the table only when its own pair is worked off; the last pair of a queue
that covers the table is never reached with more than one row left. -/
theorem find?_evictLoop_last {w : Nat} {table : Table String DedupEntry} {queue : List (Nat × String)} {id : String}
    {e : DedupEntry} (hpos : 1 ≤ w) (hfind : table.find? id = some e) (hnew : (e.logIndex, id) ∉ queue)
    (h : ∀ id' e', table.find? id' = some e' → (e'.logIndex, id') ∈ queue ++ [(e.logIndex, id)]) :
    (evictLoop w table (queue ++ [(e.logIndex, id)])).1.find? id = some e := by
  induction queue generalizing table with
  | nil =>
    have hkeys : ∀ r ∈ table.rows, r.1 = id := by
      intro r hr
      have hmem := h r.1 r.2 ((table.find?_eq_some _ _).mpr hr)
      rw [List.nil_append, List.mem_singleton] at hmem
      exact congrArg Prod.snd hmem
    have hone : table.size ≤ 1 := by
      have hsub : table.keys ⊆ [id] := by
        intro k hk
        obtain ⟨r, hr, rfl⟩ := List.mem_map.mp hk
        exact List.mem_singleton.mpr (hkeys r hr)
      have hlen := (List.subperm_of_subset table.nodup hsub).length_le
      simpa [Table.size] using hlen
    rw [List.nil_append, evictLoop, if_pos (hone.trans hpos)]
    exact hfind
  | cons pair rest ih =>
    obtain ⟨logIndex, requestId⟩ := pair
    have hrest : (e.logIndex, id) ∉ rest := fun hmem => hnew (List.mem_cons_of_mem _ hmem)
    rw [List.cons_append, evictLoop]
    split
    · exact hfind
    split
    · next hcurrent =>
      have hother : id ≠ requestId := by
        intro heq
        rw [← heq, hfind, Option.map_some, Option.some.injEq] at hcurrent
        exact hnew (by rw [heq, hcurrent]; exact List.mem_cons_self)
      apply ih ((table.find?_erase requestId id e).mpr ⟨hother, hfind⟩) hrest
      intro id' e' he'
      obtain ⟨hne, hold⟩ := (table.find?_erase requestId id' e').mp he'
      have hmem := h id' e' hold
      rw [List.cons_append, List.mem_cons] at hmem
      exact hmem.resolve_left fun heq => hne (congrArg Prod.snd heq)
    · next hstale =>
      apply ih hfind hrest
      intro id' e' he'
      have hmem := h id' e' he'
      rw [List.cons_append, List.mem_cons] at hmem
      apply hmem.resolve_left
      intro heq
      cases heq
      exact hstale (by rw [he']; rfl)

theorem Bounded.find?_insertOrUpdate_self {t : DedupTable} {requestId : String} {entry : DedupEntry} (h : t.Bounded)
    (hpos : 1 ≤ t.windowSize) (hnew : (entry.logIndex, requestId) ∉ t.orderQueue) :
    (t.insertOrUpdate requestId entry).table.find? requestId = some entry := by
  apply find?_evictLoop_last hpos _ hnew
  · intro id' e' he'
    exact h.queued_insert he'
  · rw [Table.find?_insert, if_pos rfl]

/-! ## Any sequence of calls -/

/-- What `LoadFrom` may find under its path. -/
inductive SnapshotFile where
  | missing
  | unreadable
  | unparsable
  | records (records : List (String × DedupEntry))

/-- `LoadFrom`, with every order in which `std::sort` may leave records of equal keys. -/
inductive Loads (t : DedupTable) : SnapshotFile → DedupTable → Prop where
  | missing : Loads t .missing { windowSize := t.windowSize }
  | unreadable : Loads t .unreadable t
  | unparsable : Loads t .unparsable t
  | unnamed {records : List (String × DedupEntry)} (h : ∃ r ∈ records, r.1 = "") : Loads t (.records records) t
  | sorted {records entries : List (String × DedupEntry)} (hnamed : ∀ r ∈ records, r.1 ≠ "")
      (hperm : entries.Perm records) (hsorted : entries.Pairwise recordLe) :
      Loads t (.records records) (entries.foldl (fun t r => t.insertOrUpdate r.1 { r.2 with committed := true })
        { windowSize := t.windowSize })

inductive Call : DedupTable → DedupTable → Prop where
  | trackPending (t : DedupTable) (requestId : String) (logIndex : Nat) : Call t (t.trackPending requestId logIndex)
  | record (t : DedupTable) (requestId : String) (logIndex : Nat) (success : Bool) (error : String) :
      Call t (t.record requestId logIndex success error)
  | loadFrom {t t' : DedupTable} (file : SnapshotFile) (h : Loads t file t') : Call t t'

def Calls : DedupTable → DedupTable → Prop := Relation.ReflTransGen Call

theorem recordLe_trans (a b c : String × DedupEntry) (hab : recordLe a b) (hbc : recordLe b c) : recordLe a c := by
  simp only [recordLe] at *
  grind [String.le_trans]

theorem recordLe_total (a b : String × DedupEntry) : recordLe a b ∨ recordLe b a := by
  simp only [recordLe]
  grind [String.le_total]

theorem windowSize_trackPending (t : DedupTable) (requestId : String) (logIndex : Nat) :
    (t.trackPending requestId logIndex).windowSize = t.windowSize := by
  unfold trackPending
  split
  · rfl
  split
  · rfl
  · rfl

theorem windowSize_record (t : DedupTable) (requestId : String) (logIndex : Nat) (success : Bool) (error : String) :
    (t.record requestId logIndex success error).windowSize = t.windowSize := by
  unfold record
  split
  · rfl
  · rfl

theorem Bounded.loads {t t' : DedupTable} {file : SnapshotFile} (h : t.Bounded) (hload : Loads t file t') :
    t'.Bounded ∧ t'.windowSize = t.windowSize := by
  cases hload with
  | missing => exact ⟨.empty _, rfl⟩
  | unreadable => exact ⟨h, rfl⟩
  | unparsable => exact ⟨h, rfl⟩
  | unnamed hempty => exact ⟨h, rfl⟩
  | sorted hnamed hperm hsorted =>
    refine ⟨(Bounded.empty t.windowSize).foldl_insertOrUpdate ?_, windowSize_foldl_insertOrUpdate _ _⟩
    intro r hr
    exact hnamed r (hperm.mem_iff.mp hr)

theorem Bounded.call {t t' : DedupTable} (h : t.Bounded) (hcall : Call t t') :
    t'.Bounded ∧ t'.windowSize = t.windowSize := by
  cases hcall with
  | trackPending requestId logIndex => exact ⟨h.trackPending requestId logIndex, windowSize_trackPending ..⟩
  | record requestId logIndex success error => exact ⟨h.record requestId logIndex success error, windowSize_record ..⟩
  | loadFrom file hload => exact h.loads hload

theorem Bounded.calls {t t' : DedupTable} (h : t.Bounded) (hcalls : Calls t t') :
    t'.Bounded ∧ t'.windowSize = t.windowSize := by
  induction hcalls with
  | refl => exact ⟨h, rfl⟩
  | tail hbefore hcall ih =>
    obtain ⟨hbounded, hwindow⟩ := ih
    obtain ⟨hafter, hsame⟩ := hbounded.call hcall
    exact ⟨hafter, hsame.trans hwindow⟩

/-- After any calls the window is kept and no record has lost its pair; the eviction loop
always ends; and a record just written is there unless an older equal pair was queued. -/
theorem calls_keep_window {w : Nat} {t : DedupTable} (hcalls : Calls { windowSize := w } t) :
    t.table.size ≤ w ∧ (∀ id e, t.table.find? id = some e → (e.logIndex, id) ∈ t.orderQueue) ∧
      (WellFounded fun s' s : Table String DedupEntry × List (Nat × String) => evictStep t.windowSize s = some s') ∧
      (∀ table queue, EvictRun t.windowSize (table, queue) (evictLoop t.windowSize table queue) ∧
        evictStep t.windowSize (evictLoop t.windowSize table queue) = none) ∧
      ∀ requestId logIndex, 1 ≤ w → requestId ≠ "" → (logIndex, requestId) ∉ t.orderQueue →
        (t.table.find? requestId = none →
          (t.trackPending requestId logIndex).table.find? requestId = some { logIndex }) ∧
        ∀ success error, (t.record requestId logIndex success error).table.find? requestId =
          some { committed := true, success, error, logIndex } := by
  obtain ⟨hbounded, hwindow⟩ := (Bounded.empty w).calls hcalls
  replace hwindow : t.windowSize = w := hwindow
  have hsize := hbounded.size_le
  refine ⟨hwindow ▸ hsize, hbounded.queued, evictStep_wellFounded _, evictRun_evictLoop _, ?_⟩
  intro requestId logIndex hpos hid hnew
  have hpos' : 1 ≤ t.windowSize := hwindow ▸ hpos
  refine ⟨?_, ?_⟩
  · intro habsent
    rw [trackPending, if_neg hid, habsent]
    exact hbounded.find?_insertOrUpdate_self hpos' hnew
  · intro success error
    rw [record, if_neg hid]
    exact hbounded.find?_insertOrUpdate_self hpos' hnew

/-- A pending request is recorded under another index, and a second one evicts it. -/
theorem calls_keep_window_of_one :
    ∃ t : DedupTable, Calls { windowSize := 1 } t ∧ t.table.size ≤ 1 ∧ t.orderQueue = [(5, "b")] ∧
      (t.record "a" 6 true "").table.find? "a" = some { committed := true, success := true, logIndex := 6 } := by
  have hcalls : Calls { windowSize := 1 }
      (((({ windowSize := 1 } : DedupTable).trackPending "a" 3).record "a" 4 true "").trackPending "b" 5) :=
    ((Relation.ReflTransGen.refl.tail (.trackPending _ _ _)).tail (.record _ _ _ _ _)).tail (.trackPending _ _ _)
  obtain ⟨hsize, -, -, -, hwritten⟩ := calls_keep_window hcalls
  exact ⟨_, hcalls, hsize, by decide +kernel, (hwritten "a" 6 (by decide) (by decide) (by decide +kernel)).2 true ""⟩

/-! ## A table and its reloaded copy -/

/-- The pair stands for the record that its request has now. -/
def current (table : Table String DedupEntry) (pair : Nat × String) : Bool :=
  (table.find? pair.2).map DedupEntry.logIndex = some pair.1

def currentPairs (t : DedupTable) : List (Nat × String) := t.orderQueue.filter (current t.table)

theorem current_of_erase {table : Table String DedupEntry} {requestId : String} {pair : Nat × String}
    (h : current (table.erase requestId) pair = true) : current table pair = true := by
  simp only [current, Table.find?_erase_eq, decide_eq_true_eq] at h ⊢
  split at h
  · cases h
  · exact h

theorem evictLoop_suffix (w : Nat) (table : Table String DedupEntry) (queue : List (Nat × String)) :
    (evictLoop w table queue).2 <:+ queue := by
  induction queue generalizing table with
  | nil => exact List.suffix_rfl
  | cons pair rest ih =>
    rw [evictLoop]
    split
    · exact List.suffix_rfl
    split
    · exact (ih _).trans (List.suffix_cons _ _)
    · exact (ih _).trans (List.suffix_cons _ _)

/-- Two outcomes of the loop that differ by stale pairs and the order of the rows at most. -/
structure Alike (s s' : Table String DedupEntry × List (Nat × String)) : Prop where
  find : ∀ id, s.1.find? id = s'.1.find? id
  pairs : s.2.filter (current s.1) = s'.2.filter (current s'.1)

theorem current_congr {s s' : Table String DedupEntry} (h : ∀ id, s.find? id = s'.find? id) : current s = current s' := by
  funext pair
  simp only [current, h]

theorem Alike.trans {s s' s'' : Table String DedupEntry × List (Nat × String)} (h : Alike s s') (h' : Alike s' s'') :
    Alike s s'' :=
  ⟨fun id => (h.find id).trans (h'.find id), h.pairs.trans h'.pairs⟩

theorem Alike.symm {s s' : Table String DedupEntry × List (Nat × String)} (h : Alike s s') : Alike s' s :=
  ⟨fun id => (h.find id).symm, h.pairs.symm⟩

/-- Stale pairs do not change what the loop does. -/
theorem evictLoop_filter_current (w : Nat) (table : Table String DedupEntry) (queue : List (Nat × String)) :
    Alike (evictLoop w table queue) (evictLoop w table (queue.filter (current table))) := by
  induction hn : queue.length using Nat.strong_induction_on generalizing table queue with
  | _ n ih =>
    cases queue with
    | nil => exact ⟨fun _ => rfl, rfl⟩
    | cons pair rest =>
      obtain ⟨logIndex, requestId⟩ := pair
      by_cases hle : table.size ≤ w
      · rw [evictLoop_of_size_le hle, evictLoop_of_size_le hle]
        exact ⟨fun _ => rfl, by simp⟩
      by_cases hcurrent : (table.find? requestId).map DedupEntry.logIndex = some logIndex
      · have hkept : current table (logIndex, requestId) = true := decide_eq_true hcurrent
        rw [List.filter_cons_of_pos hkept, evictLoop, if_neg hle, if_pos hcurrent, evictLoop, if_neg hle, if_pos hcurrent]
        have hshort : (rest.filter (current table)).length < n := by
          have hlen := List.length_filter_le (current table) rest
          rw [← hn, List.length_cons]
          omega
        have htwice : (rest.filter (current table)).filter (current (table.erase requestId)) =
            rest.filter (current (table.erase requestId)) := by
          rw [List.filter_filter]
          apply List.filter_congr
          intro pair _
          cases herase : current (table.erase requestId) pair with
          | false => rfl
          | true => rw [current_of_erase herase]; rfl
        have hleft := ih rest.length (by rw [← hn]; exact Nat.lt_succ_self _) (table.erase requestId) rest rfl
        have hright := ih _ hshort (table.erase requestId) _ rfl
        rw [htwice] at hright
        exact hleft.trans hright.symm
      · have hdropped : ¬current table (logIndex, requestId) = true := by simpa [current] using hcurrent
        rw [List.filter_cons_of_neg hdropped, evictLoop, if_neg hle, if_neg hcurrent]
        exact ih rest.length (by rw [← hn]; exact Nat.lt_succ_self _) table rest rfl

/-- Nor does the order of the rows. -/
theorem evictLoop_congr {w : Nat} {s s' : Table String DedupEntry} (queue : List (Nat × String))
    (h : ∀ id, s.find? id = s'.find? id) : Alike (evictLoop w s queue) (evictLoop w s' queue) := by
  induction queue generalizing s s' with
  | nil => exact ⟨h, rfl⟩
  | cons pair rest ih =>
    rw [evictLoop, evictLoop, Table.size_eq_of_find?_eq h, h]
    split
    · exact ⟨h, by rw [current_congr h]⟩
    split
    · apply ih
      intro id
      rw [Table.find?_erase_eq, Table.find?_erase_eq, h]
    · exact ih h

theorem evictLoop_alike {w : Nat} {s s' : Table String DedupEntry} {queue queue' : List (Nat × String)}
    (h : Alike (s, queue) (s', queue')) : Alike (evictLoop w s queue) (evictLoop w s' queue') := by
  have hmiddle := evictLoop_congr (w := w) (queue.filter (current s)) h.find
  have hpairs : queue.filter (current s) = queue'.filter (current s') := h.pairs
  have hright := (evictLoop_filter_current w s' queue').symm
  rw [← hpairs] at hright
  exact ((evictLoop_filter_current w s queue).trans hmiddle).trans hright

/-- The two tables answer alike and will go on evicting alike. -/
structure Agrees (t t' : DedupTable) : Prop where
  windowSize : t.windowSize = t'.windowSize
  alike : Alike (t.table, t.orderQueue) (t'.table, t'.orderQueue)

theorem Agrees.check {t t' : DedupTable} (h : Agrees t t') (requestId : String) :
    t.check requestId = t'.check requestId := by
  have hfind : t.table.find? requestId = t'.table.find? requestId := h.alike.find requestId
  rw [DedupTable.check, DedupTable.check, hfind]

/-- A record with a new index makes the pairs of its request stale and puts its own last. -/
theorem filter_current_insert {table : Table String DedupEntry} {queue : List (Nat × String)} {requestId : String}
    {entry : DedupEntry} (hnew : ∀ pair ∈ queue, pair.1 < entry.logIndex) :
    (queue ++ [(entry.logIndex, requestId)]).filter (current (table.insert requestId entry)) =
      (queue.filter (current table)).filter (fun pair => pair.2 ≠ requestId) ++ [(entry.logIndex, requestId)] := by
  have hlast : current (table.insert requestId entry) (entry.logIndex, requestId) = true := by
    simp [current, Table.find?_insert]
  rw [List.filter_append, List.filter_cons_of_pos hlast, List.filter_nil, List.filter_filter]
  congr 1
  apply List.filter_congr
  intro pair hpair
  have hlt := hnew pair hpair
  by_cases hid : pair.2 = requestId
  · have hne : entry.logIndex ≠ pair.1 := by omega
    simp [current, Table.find?_insert, hid, hne]
  · simp [current, Table.find?_insert, hid]

theorem Agrees.insertOrUpdate {t t' : DedupTable} {requestId : String} {entry : DedupEntry} (h : Agrees t t')
    (hnew : ∀ pair ∈ t.orderQueue, pair.1 < entry.logIndex) (hnew' : ∀ pair ∈ t'.orderQueue, pair.1 < entry.logIndex) :
    Agrees (t.insertOrUpdate requestId entry) (t'.insertOrUpdate requestId entry) := by
  have hfind : ∀ id, t.table.find? id = t'.table.find? id := h.alike.find
  have hpairs : t.orderQueue.filter (current t.table) = t'.orderQueue.filter (current t'.table) := h.alike.pairs
  have hinserted : Alike (t.table.insert requestId entry, t.orderQueue ++ [(entry.logIndex, requestId)])
      (t'.table.insert requestId entry, t'.orderQueue ++ [(entry.logIndex, requestId)]) := by
    constructor
    · intro id
      rw [Table.find?_insert, Table.find?_insert, hfind]
    · rw [filter_current_insert hnew, filter_current_insert hnew', hpairs]
  have hevicted := evictLoop_alike (w := t.windowSize) hinserted
  refine ⟨h.windowSize, ?_⟩
  rw [DedupTable.insertOrUpdate, DedupTable.insertOrUpdate, ← h.windowSize]
  exact hevicted

/-! ## Records in the order of the log -/

structure RecordCall where
  requestId : String
  logIndex : Nat
  success : Bool
  error : String
  deriving DecidableEq

def recordAll (t : DedupTable) (calls : List RecordCall) : DedupTable :=
  calls.foldl (fun t c => t.record c.requestId c.logIndex c.success c.error) t

/-- A table that has recorded, in order, entries below an index. -/
structure InOrder (t : DedupTable) (next : Nat) : Prop where
  bounded : t.Bounded
  committed : ∀ id e, t.table.find? id = some e → e.committed = true
  sorted : t.orderQueue.Pairwise fun a b => a.1 < b.1
  below : ∀ pair ∈ t.orderQueue, pair.1 < next

theorem InOrder.empty (w next : Nat) : InOrder { windowSize := w } next where
  bounded := .empty w
  committed := fun id e h => by cases h
  sorted := List.Pairwise.nil
  below := fun pair h => by cases h

theorem InOrder.mono {t : DedupTable} {n m : Nat} (h : InOrder t n) (hle : n ≤ m) : InOrder t m :=
  ⟨h.bounded, h.committed, h.sorted, fun pair hpair => (h.below pair hpair).trans_le hle⟩

theorem InOrder.record {t : DedupTable} {next logIndex : Nat} (h : InOrder t next) (hle : next ≤ logIndex)
    (requestId : String) (success : Bool) (error : String) :
    InOrder (t.record requestId logIndex success error) (logIndex + 1) := by
  by_cases hid : requestId = ""
  · rw [DedupTable.record, if_pos hid]
    exact h.mono (by omega)
  have hbounded := h.bounded.record requestId logIndex success error
  rw [DedupTable.record, if_neg hid] at hbounded ⊢
  have hsuffix := evictLoop_suffix t.windowSize
    (t.table.insert requestId { committed := true, success, error, logIndex }) (t.orderQueue ++ [(logIndex, requestId)])
  refine ⟨hbounded, ?_, ?_, ?_⟩
  · intro id e he
    rcases h.bounded.find?_insertOrUpdate he with ⟨-, rfl⟩ | ⟨-, hold⟩
    · rfl
    · exact h.committed id e hold
  · apply List.Pairwise.sublist hsuffix.sublist
    rw [List.pairwise_append]
    refine ⟨h.sorted, List.pairwise_singleton _ _, ?_⟩
    intro a ha b hb
    rw [List.mem_singleton.mp hb]
    exact (h.below a ha).trans_le hle
  · intro pair hpair
    rcases List.mem_append.mp (hsuffix.subset hpair) with hold | hlast
    · exact (h.below pair hold).trans_le (by omega)
    · rw [List.mem_singleton.mp hlast]
      exact Nat.lt_succ_self _

theorem windowSize_recordAll (t : DedupTable) (calls : List RecordCall) :
    (t.recordAll calls).windowSize = t.windowSize := by
  induction calls generalizing t with
  | nil => rfl
  | cons c rest ih => exact (ih _).trans (windowSize_record ..)

theorem InOrder.recordAll {t : DedupTable} {next : Nat} {calls : List RecordCall} (h : InOrder t next)
    (hsorted : calls.Pairwise fun a b => a.logIndex < b.logIndex) (hnext : ∀ c ∈ calls, next ≤ c.logIndex) :
    ∃ next', InOrder (t.recordAll calls) next' ∧ ∀ n, next ≤ n → (∀ c ∈ calls, c.logIndex < n) → next' ≤ n := by
  induction calls generalizing t next with
  | nil => exact ⟨next, h, fun n hle _ => hle⟩
  | cons c rest ih =>
    obtain ⟨hfirst, hrest⟩ := List.pairwise_cons.mp hsorted
    have hrecord := h.record (hnext c List.mem_cons_self) c.requestId c.success c.error
    obtain ⟨next', hinorder, hbound⟩ := ih hrecord hrest fun c' hc' => hfirst c' hc'
    refine ⟨next', hinorder, ?_⟩
    intro n hle hbelow
    exact hbound n (hbelow c List.mem_cons_self) fun c' hc' => hbelow c' (List.mem_cons_of_mem _ hc')

theorem Agrees.record {t t' : DedupTable} {next logIndex : Nat} (h : Agrees t t') (ht : InOrder t next)
    (ht' : InOrder t' next) (hle : next ≤ logIndex) (requestId : String) (success : Bool) (error : String) :
    Agrees (t.record requestId logIndex success error) (t'.record requestId logIndex success error) := by
  rw [DedupTable.record, DedupTable.record]
  split
  · exact h
  · apply h.insertOrUpdate
    · intro pair hpair
      exact (ht.below pair hpair).trans_le hle
    · intro pair hpair
      exact (ht'.below pair hpair).trans_le hle

theorem Agrees.recordAll {t t' : DedupTable} {next : Nat} {calls : List RecordCall} (h : Agrees t t')
    (ht : InOrder t next) (ht' : InOrder t' next) (hsorted : calls.Pairwise fun a b => a.logIndex < b.logIndex)
    (hnext : ∀ c ∈ calls, next ≤ c.logIndex) : Agrees (t.recordAll calls) (t'.recordAll calls) := by
  induction calls generalizing t t' next with
  | nil => exact h
  | cons c rest ih =>
    obtain ⟨hfirst, hrest⟩ := List.pairwise_cons.mp hsorted
    have hc := hnext c List.mem_cons_self
    exact ih (h.record ht ht' hc _ _ _) (ht.record hc _ _ _) (ht'.record hc _ _ _) hrest fun c' hc' => hfirst c' hc'

/-- Among pairs of increasing indices the current ones are those of the records. -/
theorem InOrder.mem_currentPairs {t : DedupTable} {next : Nat} (h : InOrder t next) (pair : Nat × String) :
    pair ∈ t.currentPairs ↔ ∃ e, t.table.find? pair.2 = some e ∧ e.logIndex = pair.1 := by
  rw [currentPairs, List.mem_filter, current, decide_eq_true_eq, Option.map_eq_some_iff]
  constructor
  · intro hpair
    exact hpair.2
  · rintro ⟨e, hfind, hindex⟩
    have hqueued := h.bounded.queued pair.2 e hfind
    rw [hindex] at hqueued
    exact ⟨hqueued, e, hfind, hindex⟩

/-- Pairs sorted by index, without repetition, are determined by their members. -/
theorem eq_of_sorted_pairs {l l' : List (Nat × String)} (h : l.Pairwise fun a b => a.1 < b.1)
    (h' : l'.Pairwise fun a b => a.1 ≤ b.1) (hnodup : l'.Nodup) (hmem : ∀ pair, pair ∈ l ↔ pair ∈ l') : l = l' := by
  have hne : l.Nodup := h.imp fun {a b} hlt heq => by
    rw [heq] at hlt
    exact lt_irrefl _ hlt
  have hone : ∀ a ∈ l, ∀ b ∈ l, a.1 = b.1 → a = b := by
    intro a ha b hb heq
    by_contra hdiff
    have : Std.Symm fun a b : Nat × String => a.1 ≠ b.1 := ⟨fun _ _ hab => hab.symm⟩
    have hapart : l.Pairwise fun a b => a.1 ≠ b.1 := h.imp fun hlt => Nat.ne_of_lt hlt
    exact hapart.forall ha hb hdiff heq
  have hle : l.Pairwise fun a b => a.1 ≤ b.1 := h.imp Nat.le_of_lt
  apply List.Perm.eq_of_pairwise _ hle h'
  · exact (List.perm_ext_iff_of_nodup hne hnodup).mpr hmem
  · intro a b ha hb hab hba
    exact hone a ha b ((hmem b).mpr hb) (Nat.le_antisymm hab hba)

theorem InOrder.reload {t : DedupTable} {next : Nat} (h : InOrder t next) (fresh : DedupTable)
    (hwindow : fresh.windowSize = t.windowSize) :
    ∃ t', fresh.loadFrom t.saveTo = .ok t' ∧ Agrees t t' ∧ InOrder t' next := by
  obtain ⟨t', hload, hwindow', hbounded, hfind, hqueue⟩ := h.bounded.loadFrom_saveTo fresh hwindow
  have hsame : ∀ id e, t.table.find? id = some e ↔ t'.table.find? id = some e := by
    intro id e
    rw [hfind]
    exact ⟨fun he => ⟨he, h.committed id e he⟩, fun he => he.1⟩
  have hmem : ∀ pair, pair ∈ t'.orderQueue ↔ ∃ e, t.table.find? pair.2 = some e ∧ e.logIndex = pair.1 := by
    intro pair
    simp only [hqueue, List.mem_map, List.mem_insertionSort, Prod.exists]
    constructor
    · rintro ⟨id, e, hsaved, rfl⟩
      exact ⟨e, (mem_saveTo.mp hsaved).1, rfl⟩
    · rintro ⟨e, he, hindex⟩
      exact ⟨pair.2, e, mem_saveTo.mpr ⟨he, h.committed _ e he⟩, by rw [hindex]⟩
  have : IsTrans (String × DedupEntry) recordLe := ⟨recordLe_trans⟩
  have : Std.Total (α := String × DedupEntry) recordLe := ⟨recordLe_total⟩
  have hsorted : t'.orderQueue.Pairwise fun a b => a.1 ≤ b.1 := by
    rw [hqueue, List.pairwise_map]
    apply (List.pairwise_insertionSort recordLe t.saveTo).imp
    intro a b hab
    simp only [recordLe] at hab
    split at hab
    · omega
    · omega
  have hnodup : t'.orderQueue.Nodup := by
    have hkeys : (t.saveTo.insertionSort recordLe).map Prod.fst |>.Nodup := by
      have hperm : (t.saveTo.insertionSort recordLe).Perm (t.table.rows.filter fun r => r.2.committed) :=
        (List.perm_insertionSort _ _).trans (List.perm_insertionSort _ _)
      rw [(hperm.map Prod.fst).nodup_iff]
      exact (List.Sublist.map _ List.filter_sublist).nodup t.table.nodup
    rw [hqueue]
    apply List.Nodup.of_map Prod.snd
    rw [List.map_map]
    exact hkeys
  have hcurrent : ∀ pair ∈ t'.orderQueue, current t'.table pair = true := by
    intro pair hpair
    obtain ⟨e, he, hindex⟩ := (hmem pair).mp hpair
    rw [current, (hsame _ e).mp he, Option.map_some, hindex]
    exact decide_eq_true rfl
  have hpairs : t.currentPairs = t'.orderQueue :=
    eq_of_sorted_pairs (h.sorted.sublist List.filter_sublist) hsorted hnodup fun pair => by
      rw [h.mem_currentPairs, hmem]
  refine ⟨t', hload, ⟨hwindow'.symm, fun id => Option.ext (hsame id), ?_⟩, hbounded, ?_, ?_, ?_⟩
  · show t.currentPairs = t'.orderQueue.filter (current t'.table)
    rw [hpairs, List.filter_eq_self.mpr hcurrent]
  · intro id e he
    exact h.committed id e ((hsame id e).mpr he)
  · rw [← hpairs]
    exact h.sorted.sublist List.filter_sublist
  · intro pair hpair
    rw [← hpairs] at hpair
    exact h.below pair (List.filter_sublist.subset hpair)

/-- A table that has recorded entries in the order of the log is replaced by the copy loaded
from its saved records without any difference, now or after further records. -/
theorem reload_is_neutral (w : Nat) (before : List RecordCall) (fresh : DedupTable) (hwindow : fresh.windowSize = w)
    (hbefore : before.Pairwise fun a b => a.logIndex < b.logIndex) :
    ∃ t', fresh.loadFrom (recordAll { windowSize := w } before).saveTo = .ok t' ∧
      ∀ after : List RecordCall, (before ++ after).Pairwise (fun a b => a.logIndex < b.logIndex) →
        ∀ requestId, (t'.recordAll after).check requestId =
          (recordAll { windowSize := w } (before ++ after)).check requestId := by
  obtain ⟨next, hinorder, hbound⟩ := (InOrder.empty w 0).recordAll hbefore fun c _ => Nat.zero_le _
  obtain ⟨t', hload, hagrees, hinorder'⟩ := hinorder.reload fresh (by rw [hwindow, windowSize_recordAll])
  refine ⟨t', hload, ?_⟩
  intro after hsorted requestId
  obtain ⟨-, hafter, hcross⟩ := List.pairwise_append.mp hsorted
  have hnext : ∀ c ∈ after, next ≤ c.logIndex := by
    intro c hc
    exact hbound c.logIndex (Nat.zero_le _) fun c' hc' => hcross c' hc' c hc
  have hsplit : DedupTable.recordAll { windowSize := w } (before ++ after) =
      (DedupTable.recordAll { windowSize := w } before).recordAll after := List.foldl_append
  rw [hsplit]
  exact ((hagrees.recordAll hinorder hinorder' hafter hnext).check requestId).symm

/-- A request recorded twice leaves a stale pair that the copy lacks; both evict alike. -/
theorem reload_is_neutral_with_stale_pair :
    ∃ t t' : DedupTable, t = recordAll { windowSize := 2 } [⟨"a", 1, true, ""⟩, ⟨"b", 2, true, ""⟩, ⟨"a", 3, false, "x"⟩] ∧
      DedupTable.loadFrom { windowSize := 2 } t.saveTo = .ok t' ∧ t.orderQueue ≠ t'.orderQueue ∧
      (t'.recordAll [⟨"c", 4, true, ""⟩]).check "a" = .alreadyCommitted ⟨true, false, "x", 3⟩ := by
  obtain ⟨t', hload, hsame⟩ := reload_is_neutral 2 [⟨"a", 1, true, ""⟩, ⟨"b", 2, true, ""⟩, ⟨"a", 3, false, "x"⟩]
    { windowSize := 2 } rfl (by decide)
  refine ⟨_, t', rfl, hload, ?_, ?_⟩
  · have hcopy : (DedupTable.loadFrom { windowSize := 2 } (recordAll { windowSize := 2 }
        [⟨"a", 1, true, ""⟩, ⟨"b", 2, true, ""⟩, ⟨"a", 3, false, "x"⟩]).saveTo).toOption.map DedupTable.orderQueue =
          some [(2, "b"), (3, "a")] := by decide +kernel
    rw [hload] at hcopy
    have hqueue : t'.orderQueue = [(2, "b"), (3, "a")] := Option.some.inj hcopy
    rw [hqueue]
    decide +kernel
  · rw [hsame [⟨"c", 4, true, ""⟩] (by decide)]
    decide +kernel

end DedupTable

end RaftVdb
