import RaftVdb.Cluster
import RaftVdb.Frame
import RaftVdb.LogicalLog

/-!
# Pending records and the log

`Propose` enters its request into the dedup table as pending, under the index of its entry,
and applying the entry turns the record into a committed one. `HandleAppendEntries` removes
entries that conflict with those of a new leader, and leaves the table alone.
-/

namespace RaftVdb

open Lib

namespace DedupTable

/-- Eviction only removes rows. -/
theorem find?_of_evictLoop {w : Nat} {table : Table String DedupEntry} {queue : List (Nat × String)} {id : String}
    {e : DedupEntry} (h : (evictLoop w table queue).1.find? id = some e) : table.find? id = some e := by
  induction queue generalizing table with
  | nil => exact h
  | cons pair rest ih =>
    rw [evictLoop] at h
    split at h
    · exact h
    split at h
    · exact ((table.find?_erase pair.2 id e).mp (ih h)).2
    · exact ih h

theorem find?_of_insertOrUpdate {t : DedupTable} {requestId id : String} {entry e : DedupEntry}
    (h : (t.insertOrUpdate requestId entry).table.find? id = some e) :
    id = requestId ∧ e = entry ∨ t.table.find? id = some e := by
  have hfind := find?_of_evictLoop h
  rw [Table.find?_insert] at hfind
  split at hfind
  · next heq =>
    cases hfind
    exact .inl ⟨heq, rfl⟩
  · exact .inr hfind

/-- A table that is loaded has no pending record. -/
theorem committed_of_loadFrom {t t' : DedupTable} {records : List (String × DedupEntry)}
    (hload : t.loadFrom records = .ok t') {id : String} {e : DedupEntry} (he : t'.table.find? id = some e) :
    e.committed = true := by
  have hfold : ∀ (rows : List (String × DedupEntry)) (t : DedupTable),
      (∀ id e, t.table.find? id = some e → e.committed = true) → ∀ id e,
        (rows.foldl (fun t r => t.insertOrUpdate r.1 { r.2 with committed := true }) t).table.find? id = some e →
          e.committed = true := by
    intro rows
    induction rows with
    | nil => exact fun _ h => h
    | cons r rows ih =>
      intro t h
      refine ih _ fun id e he => ?_
      rcases find?_of_insertOrUpdate he with ⟨-, rfl⟩ | hold
      · rfl
      · exact h id e hold
  unfold loadFrom at hload
  split at hload
  · cases hload
  · cases hload
    exact hfold _ _ (fun id e he => by cases he) id e he

end DedupTable

namespace Node

/-- What a node does by itself or on a request of a client or of another node. A write that
`HandleClientWrite` has let through waits for its `Propose`. -/
inductive Deed where
  | clientWrite (r : ClientWriteRequest)
  | write (i : Nat)
  | propose (e : LogEntry)
  | appendEntries (r : AppendEntriesRequest)
  | becomeFollower (term : Nat)
  | becomeLeader
  | apply (outcome : Except String Unit)

def perform (codec : CommandCodec) (n : Node) : Deed → Option Node
  | .clientWrite r => match n.checkClientWrite codec r with
    | .propose e => some { n with writes := n.writes ++ [e] }
    | _ => some n
  | .write i => n.writes[i]?.map fun e => ({ n with writes := n.writes.eraseIdx i }.propose codec e).1
  | .propose e => some (n.propose codec e).1
  | .appendEntries r => some (n.handleAppendEntries r).1
  | .becomeFollower term => (n.becomeFollower term).toOption
  | .becomeLeader => some n.becomeLeader.1
  | .apply outcome => (n.applyCommittedEntry codec outcome).map Prod.fst

/-- Every pending record is that of an entry in the log. -/
def PendingStand (codec : CommandCodec) (n : Node) : Prop :=
  ∀ id r, n.dedup.table.find? id = some r → r.committed = false →
    ∃ e, n.log.read r.logIndex = .ok e ∧ extractRequestId codec e = .ok id

/-- The entry loop of `HandleAppendEntries` truncates the log for this entry. -/
def Conflicting (n : Node) (e : LogEntry) : Prop :=
  (n.lastSnapshotIndex = 0 ∨ n.lastSnapshotIndex < e.index) ∧
    (n.log.read e.index).toOption.any (fun x => x.term ≠ e.term) = true

instance (n : Node) (e : LogEntry) : Decidable (n.Conflicting e) := by
  unfold Conflicting
  infer_instance

/-- A request that gets to the entry loop does not truncate the log at or before the entry of
a pending record. -/
def Respectful (n : Node) : Deed → Prop
  | .appendEntries r => (n.prepareAppend r).2.isNone = true → ∀ row ∈ n.dedup.table.rows, row.2.committed = false →
      ∀ e ∈ r.entries, e.index ≤ row.2.logIndex → ¬ n.Conflicting e
  | _ => True

instance (n : Node) (d : Deed) : Decidable (n.Respectful d) := by
  cases d <;> unfold Respectful <;> infer_instance

variable {codec : CommandCodec} {n n' : Node}

/-! ## The log and the table -/

/-- What the invariant is about. -/
def records (n : Node) : IndexedLog × DedupTable × Nat := (n.log, n.dedup, n.lastSnapshotIndex)

theorem records_becomeFollower {term : Nat} {leaderId : String} (h : n.becomeFollower term leaderId = .ok n') :
    n'.records = n.records := by
  unfold becomeFollower at h
  split at h
  · cases h
  · cases h
    rfl

theorem records_noteLeader {term : Nat} {leaderId : String} (h : n.noteLeader term leaderId = .ok n') :
    n'.records = n.records := by
  unfold noteLeader at h
  split at h
  · exact records_becomeFollower h
  · cases h
    rfl

theorem records_applyTopology {info : TopologyInfo} (h : n.applyTopology info = .ok n') : n'.records = n.records := by
  unfold applyTopology at h
  split at h
  · cases h
    rfl
  split at h
  · cases h
  · cases h
    rfl

theorem records_prepareAppend (n : Node) (r : AppendEntriesRequest) : (n.prepareAppend r).1.records = n.records := by
  unfold prepareAppend
  split
  · rfl
  split
  · rfl
  next m hm =>
  have hnoted := records_noteLeader hm
  split
  · exact hnoted
  next m' hm' =>
  have happlied := (records_applyTopology hm').trans hnoted
  split
  · exact happlied
  · exact happlied

theorem records_commit (n : Node) (k : Nat) (r : AppendEntriesRequest) :
    ((n.advanceCommit k).dispatchForward r).records = n.records := by
  unfold dispatchForward advanceCommit
  dsimp only
  split
  · split
    · rfl
    · rfl
  · split
    · rfl
    · rfl

/-- The handler either answers before the entry loop, or leaves the log of the loop. -/
theorem records_handleAppendEntries (n : Node) (r : AppendEntriesRequest) :
    (n.handleAppendEntries r).1.records = n.records ∨
      (n.prepareAppend r).2.isNone = true ∧ (n.handleAppendEntries r).1.records =
        ((spliceEntries n.lastSnapshotIndex n.log r.entries).log, n.dedup, n.lastSnapshotIndex) := by
  have hprepared := records_prepareAppend n r
  unfold handleAppendEntries
  split
  · next m answer hm =>
    rw [hm] at hprepared
    exact .inl hprepared
  · next m hm =>
    rw [hm] at hprepared
    obtain ⟨hlog, hdedup, hsnapshot⟩ : m.log = n.log ∧ m.dedup = n.dedup ∧ m.lastSnapshotIndex = n.lastSnapshotIndex := by
      simpa [records] using hprepared
    refine .inr ⟨by rw [hm]; rfl, ?_⟩
    unfold finishAppend
    rw [← hlog, ← hdedup, ← hsnapshot]
    dsimp only
    split
    · rfl
    · exact records_commit _ _ _

/-! ## The invariant -/

structure Tracked (codec : CommandCodec) (n : Node) : Prop where
  ordered : n.log.Ordered
  stands : PendingStand codec n

theorem Tracked.of_records (h : Tracked codec n) (hsame : n'.records = n.records) : Tracked codec n' := by
  obtain ⟨hlog, hdedup, -⟩ : n'.log = n.log ∧ n'.dedup = n.dedup ∧ n'.lastSnapshotIndex = n.lastSnapshotIndex := by
    simpa [records] using hsame
  exact ⟨hlog ▸ h.ordered, fun id r hr hpending => by rw [hlog]; exact h.stands id r (hdedup ▸ hr) hpending⟩

/-- An entry at the end of the log, with or without its request in the table. -/
theorem Tracked.append (h : Tracked codec n) {e : LogEntry} {log : IndexedLog} (hlog : n.log.append e = .ok log)
    (hn' : n'.log = log)
    (hdedup : ∀ id r, n'.dedup.table.find? id = some r → r.committed = false →
      n.dedup.table.find? id = some r ∨ r.logIndex = e.index ∧ extractRequestId codec e = .ok id) :
    Tracked codec n' := by
  have hordered := h.ordered.append hlog
  refine ⟨hn' ▸ hordered, fun id r hr hpending => ?_⟩
  rw [hn']
  rcases hdedup id r hr hpending with hold | ⟨hindex, hid⟩
  · obtain ⟨x, hread, hid⟩ := h.stands id r hold hpending
    obtain ⟨hx, hxindex⟩ := h.ordered.read_eq_ok.mp hread
    exact ⟨x, hordered.read_eq_ok.mpr ⟨(IndexedLog.mem_append hlog).mpr (.inl hx), hxindex⟩, hid⟩
  · exact ⟨e, hordered.read_eq_ok.mpr ⟨(IndexedLog.mem_append hlog).mpr (.inr rfl), hindex.symm⟩, hid⟩

theorem Tracked.propose (h : Tracked codec n) (e : LogEntry) : Tracked codec (n.propose codec e).1 := by
  unfold Node.propose
  split
  · exact h
  unfold appendEntry
  dsimp only
  cases hlog : n.log.append { e with index := n.logicalLastIndex + 1, term := n.currentTerm } with
  | error err => exact h
  | ok log =>
    refine h.append hlog rfl ?_
    intro id r hr hpending
    dsimp only at hr
    have hsame : extractRequestId codec { e with index := n.logicalLastIndex + 1, term := n.currentTerm } =
        extractRequestId codec e := rfl
    split at hr
    · next requestId hid =>
      unfold DedupTable.trackPending at hr
      split at hr
      · exact .inl hr
      split at hr
      · exact .inl hr
      · rcases DedupTable.find?_of_insertOrUpdate hr with ⟨rfl, rfl⟩ | hold
        · exact .inr ⟨rfl, hsame.trans hid⟩
        · exact .inl hold
    · exact .inl hr

theorem Tracked.becomeLeader (h : Tracked codec n) : Tracked codec n.becomeLeader.1 := by
  have hfirst : n.firstTerm.records = n.records := by
    unfold firstTerm
    split
    · rfl
    · rfl
  have hm := h.of_records hfirst
  unfold Node.becomeLeader
  generalize n.firstTerm = m at hm ⊢
  dsimp only
  split
  · exact hm.of_records rfl
  next topology _ =>
  rcases appendEntry_cases { m with leaderId := m.selfId, topology } noopEntry with ⟨err, heq⟩ | ⟨log, hlog, heq⟩
  · simp only [heq]
    exact hm.of_records rfl
  · simp only [heq]
    exact hm.append hlog rfl fun id r hr _ => .inl hr

theorem Tracked.handleAppendEntries (h : Tracked codec n) {r : AppendEntriesRequest}
    (hrespect : n.Respectful (.appendEntries r)) : Tracked codec (n.handleAppendEntries r).1 := by
  rcases records_handleAppendEntries n r with hsame | ⟨hloop, hspliced⟩
  · exact h.of_records hsame
  obtain ⟨hlog, hdedup, -⟩ : (n.handleAppendEntries r).1.log = (spliceEntries n.lastSnapshotIndex n.log r.entries).log ∧
      (n.handleAppendEntries r).1.dedup = n.dedup ∧
      (n.handleAppendEntries r).1.lastSnapshotIndex = n.lastSnapshotIndex := by
    simpa [records] using hspliced
  have hordered := ordered_spliceEntries n.lastSnapshotIndex r.entries h.ordered
  refine ⟨hlog ▸ hordered, fun id row hrow hpending => ?_⟩
  rw [hdedup] at hrow
  obtain ⟨x, hread, hid⟩ := h.stands id row hrow hpending
  obtain ⟨hx, hxindex⟩ := h.ordered.read_eq_ok.mp hread
  rw [hlog]
  refine ⟨x, hordered.read_eq_ok.mpr ⟨mem_spliceEntries h.ordered hx ?_, hxindex⟩, hid⟩
  intro e he hle hnew y hy hyindex
  by_contra hterm
  refine hrespect hloop (id, row) ((Table.find?_eq_some ..).mp hrow) hpending e he (hxindex ▸ hle) ⟨hnew, ?_⟩
  rw [h.ordered.read_eq_ok.mpr ⟨hy, hyindex⟩]
  simpa [Except.toOption] using hterm

theorem Tracked.apply (h : Tracked codec n) {outcome : Except String Unit} {x : LogEntry}
    (happly : n.applyCommittedEntry codec outcome = some (n', x)) : Tracked codec n' := by
  unfold applyCommittedEntry at happly
  split at happly
  · split at happly
    · cases happly
    next e hread =>
    cases happly
    have hexecuted : Tracked codec (n.execute codec (n.appliedIndex + 1) x outcome) := by
      unfold execute
      split
      · exact h
      · next cmd hcmd =>
        refine ⟨h.ordered, fun id r hr hpending => ?_⟩
        dsimp only at hr
        unfold DedupTable.record at hr
        split at hr
        · exact h.stands id r hr hpending
        · rcases DedupTable.find?_of_insertOrUpdate hr with ⟨-, rfl⟩ | hold
          · cases hpending
          · exact h.stands id r hold hpending
    refine hexecuted.of_records ?_
    unfold maybeTriggerSnapshot
    split
    · rfl
    · rfl
  · cases happly

theorem Tracked.perform (h : Tracked codec n) {d : Deed}
    (hstep : Transition.restrict Respectful (Node.perform codec) n d = some n') : Tracked codec n' := by
  obtain ⟨hrespect, hstep⟩ := Transition.restrict_eq_some.mp hstep
  cases d with
  | clientWrite r =>
    unfold Node.perform at hstep
    dsimp only at hstep
    split at hstep
    · cases hstep
      exact h.of_records rfl
    · cases hstep
      exact h
  | write i =>
    obtain ⟨e, -, rfl⟩ := Option.map_eq_some_iff.mp hstep
    have herased : Tracked codec { n with writes := n.writes.eraseIdx i } := h.of_records rfl
    exact herased.propose e
  | propose e =>
    cases hstep
    exact h.propose e
  | appendEntries r =>
    cases hstep
    exact h.handleAppendEntries hrespect
  | becomeFollower term => exact h.of_records (records_becomeFollower (Transition.ok_of_toOption hstep))
  | becomeLeader =>
    cases hstep
    exact h.becomeLeader
  | apply outcome =>
    obtain ⟨⟨m, x⟩, happly, rfl⟩ := Option.map_eq_some_iff.mp hstep
    exact h.apply happly

/-- The table of a started node has no pending record. -/
theorem pendingStand_create (config : Config) (raftMeta : RaftMeta) (log : IndexedLog) (snapshot : Option Snapshot) :
    PendingStand codec (create config raftMeta log snapshot) := by
  intro id r hr hpending
  unfold create at hr
  dsimp only at hr
  split at hr
  · cases hr
  · next s =>
    cases hload : DedupTable.loadFrom { windowSize := config.dedupWindowSize } s.dedup with
    | error err =>
      rw [hload] at hr
      cases hr
    | ok t =>
      rw [hload] at hr
      rw [DedupTable.committed_of_loadFrom hload hr] at hpending
      cases hpending

/-- In every run in which no request of a leader truncates the log at or before a pending
entry, each pending record has its entry in the log. -/
theorem pending_records_stand (codec : CommandCodec) (config : Config) (raftMeta : RaftMeta) (log : IndexedLog)
    (snapshot : Option Snapshot) (hordered : log.Ordered) (deeds : List Deed) (n : Node)
    (hrun : Transition.run (Transition.restrict Respectful (perform codec)) (create config raftMeta log snapshot) deeds =
      some n) :
    ∀ id r, n.dedup.table.find? id = some r → r.committed = false →
      ∃ e, n.log.read r.logIndex = .ok e ∧ extractRequestId codec e = .ok id :=
  (Transition.run_invariant (Tracked codec) (fun _ _ _ h hs => h.perform hs)
    ⟨hordered, pendingStand_create config raftMeta log snapshot⟩ hrun).stands

/-- `A` leads term 1 and takes a write of a client. -/
def leadsAndWrites : List Deed := [.becomeLeader, .clientWrite { requestId := "r", cmdType := 2, id := 7 }, .write 0]

/-- The leader of term 2 has another entry at index 2. -/
def overwriting : AppendEntriesRequest :=
  { term := 2, leaderId := "B", prevLogIndex := 1, prevLogTerm := 1, leaderCommit := 1
    entries := [{ noopEntry with index := 2, term := 2 }] }

/-- The leader of term 2 has the write and one more entry. -/
def agreeing : AppendEntriesRequest :=
  { overwriting with
    entries := [{ index := 2, term := 1, cmdType := .delete, payload := sampleCodec.serializeDelete ⟨7, "r"⟩ },
      { noopEntry with index := 3, term := 2 }] }

theorem pending_records_stand_after_write : ∃ n, Transition.run (Transition.restrict Respectful (perform sampleCodec))
      (create { nodeId := "A", peers := ["B", "C"] } {} {} none) (leadsAndWrites ++ [.appendEntries agreeing]) = some n ∧
    n.dedup.table.find? "r" = some { logIndex := 2 } ∧ n.log.lastIndex = 3 ∧
    ∃ e, n.log.read 2 = .ok e ∧ extractRequestId sampleCodec e = .ok "r" := by
  obtain ⟨n, hrun, hfind, hlast⟩ : ∃ n, Transition.run (Transition.restrict Respectful (perform sampleCodec))
      (create { nodeId := "A", peers := ["B", "C"] } {} {} none) (leadsAndWrites ++ [.appendEntries agreeing]) = some n ∧
      n.dedup.table.find? "r" = some { logIndex := 2 } ∧ n.log.lastIndex = 3 := ⟨_, rfl, rfl, rfl⟩
  exact ⟨n, hrun, hfind, hlast, pending_records_stand _ _ _ _ _ .empty _ n hrun "r" _ hfind rfl⟩

/-- The new leader replaces the entry of the write. Its record stays pending under the index
of the other entry, so when this node leads again, a retry is told to wait for it. -/
theorem truncation_leaves_pending_record : ∃ n, Transition.run (perform sampleCodec)
      (create { nodeId := "A", peers := ["B", "C"] } {} {} none)
      (leadsAndWrites ++ [.appendEntries overwriting, .becomeLeader]) = some n ∧
    n.dedup.table.find? "r" = some { logIndex := 2 } ∧
    n.log.read 2 = .ok { noopEntry with index := 2, term := 2 } ∧
    n.checkClientWrite sampleCodec { requestId := "r", cmdType := 2, id := 7 } = .await :=
  ⟨_, rfl, rfl, rfl, rfl⟩

end Node

end RaftVdb
