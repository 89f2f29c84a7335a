import RaftVdb.LogicalLog
import RaftVdb.Moves

/-!
# The progress indices of one node

A node between two restarts, with the iteration of `ApplyCommittedEntries` and the thread
of `LaunchSnapshotTask` cut where another thread may come in between. Six places store the
snapshot index, the applied index and the commit index. They stay in order and never go
back as long as no older snapshot is installed, none comes in between an index that a
thread has taken and its store, and no entry conflicts with one that the node has committed.
-/

namespace RaftVdb

open Lib

namespace Node

/-- The indices are in order, over a log that reaches from the snapshot to its end. -/
structure InOrder (n : Node) : Prop where
  ordered : n.log.Ordered
  joined : n.log.Joined n.lastSnapshotIndex
  snapshot_le : n.lastSnapshotIndex ≤ n.appliedIndex
  applied_le : n.appliedIndex ≤ n.commitIndex
  commit_le : n.commitIndex ≤ n.logicalLastIndex
  task : ∀ t ∈ n.snapshotTask, t.snapshotIndex ≤ n.appliedIndex

/-- The log, the indices and the thread are the same. -/
structure Keeps (n n' : Node) : Prop where
  log : n'.log = n.log
  commitIndex : n'.commitIndex = n.commitIndex
  appliedIndex : n'.appliedIndex = n.appliedIndex
  lastSnapshotIndex : n'.lastSnapshotIndex = n.lastSnapshotIndex
  snapshotTask : n'.snapshotTask = n.snapshotTask

/-- No index has gone back. -/
structure NotBelow (n n' : Node) : Prop where
  commit : n.commitIndex ≤ n'.commitIndex
  applied : n.appliedIndex ≤ n'.appliedIndex
  snapshot : n.lastSnapshotIndex ≤ n'.lastSnapshotIndex

/-- The indices are in order, and at most the commit index has moved, not back. -/
structure Advances (n n' : Node) : Prop where
  inOrder : n'.InOrder
  commit : n.commitIndex ≤ n'.commitIndex
  applied : n'.appliedIndex = n.appliedIndex
  snapshot : n'.lastSnapshotIndex = n.lastSnapshotIndex
  task : n'.snapshotTask = n.snapshotTask

/-- The indices are in order behind an installation, all at the index of the snapshot, and a
running thread has kept its label. -/
structure Installed (index : Nat) (n n' : Node) : Prop where
  inOrder : n'.InOrder
  commit : n'.commitIndex = index
  applied : n'.appliedIndex = index
  snapshot : n'.lastSnapshotIndex = index
  task : n'.snapshotTask.map SnapshotTask.snapshotIndex = n.snapshotTask.map SnapshotTask.snapshotIndex

variable {n n' m : Node}

theorem Keeps.refl (n : Node) : Keeps n n := ⟨rfl, rfl, rfl, rfl, rfl⟩

theorem Keeps.trans (h : Keeps n m) (h' : Keeps m n') : Keeps n n' :=
  ⟨h'.log.trans h.log, h'.commitIndex.trans h.commitIndex, h'.appliedIndex.trans h.appliedIndex,
    h'.lastSnapshotIndex.trans h.lastSnapshotIndex, h'.snapshotTask.trans h.snapshotTask⟩

theorem Keeps.of_core (h : n'.core = m.core) (hm : Keeps n m) : Keeps n n' where
  log := (eq_of_core Node.log (fun _ => rfl) h).trans hm.log
  commitIndex := (eq_of_core Node.commitIndex (fun _ => rfl) h).trans hm.commitIndex
  appliedIndex := (eq_of_core Node.appliedIndex (fun _ => rfl) h).trans hm.appliedIndex
  lastSnapshotIndex := (eq_of_core Node.lastSnapshotIndex (fun _ => rfl) h).trans hm.lastSnapshotIndex
  snapshotTask := (eq_of_core Node.snapshotTask (fun _ => rfl) h).trans hm.snapshotTask

theorem keeps_followed (n : Node) (term : Nat) (leaderId : String) : Keeps n (n.followed term leaderId) :=
  ⟨rfl, rfl, rfl, rfl, rfl⟩

theorem keeps_noted (n : Node) (term : Nat) (leaderId : String) : Keeps n (n.noted term leaderId) := by
  unfold noted
  split
  · exact keeps_followed n term leaderId
  · exact ⟨rfl, rfl, rfl, rfl, rfl⟩

theorem keeps_stepDown (n : Node) (term : Nat) : Keeps n (n.stepDown term) := by
  rcases n.stepDown_cases term with ⟨-, heq⟩ | ⟨-, hcore, -⟩
  · rw [heq]
    exact .refl n
  · exact .of_core hcore (keeps_followed n term "")

theorem keeps_firstTerm (n : Node) : Keeps n n.firstTerm := by
  unfold firstTerm
  split
  · exact ⟨rfl, rfl, rfl, rfl, rfl⟩
  · exact .refl n

theorem keeps_handleRequestVote (n : Node) (r : RequestVoteRequest) : Keeps n (n.handleRequestVote r).1 := by
  unfold handleRequestVote
  split
  · exact .refl n
  split
  · exact .refl n
  next m hm =>
  have hkeeps : Keeps n m := by
    split at hm
    · exact .of_core (becomeFollower_eq_ok hm).2.1 (keeps_followed n r.term "")
    · cases hm
      exact .refl n
  split
  · exact hkeeps.trans ⟨rfl, rfl, rfl, rfl, rfl⟩
  · exact hkeeps

theorem InOrder.keep (h : n.InOrder) (hk : Keeps n n') : n'.InOrder := by
  obtain ⟨hlog, hcommit, happlied, hsnapshot, htask⟩ := hk
  refine ⟨?_, ?_, ?_, ?_, ?_, ?_⟩
  · rw [hlog]
    exact h.ordered
  · rw [hlog, hsnapshot]
    exact h.joined
  · rw [hsnapshot, happlied]
    exact h.snapshot_le
  · rw [happlied, hcommit]
    exact h.applied_le
  · rw [hcommit, logicalLastIndex, hsnapshot, hlog]
    exact h.commit_le
  · rw [htask, happlied]
    exact h.task

theorem NotBelow.trans (h : NotBelow n m) (h' : NotBelow m n') : NotBelow n n' :=
  ⟨h.commit.trans h'.commit, h.applied.trans h'.applied, h.snapshot.trans h'.snapshot⟩

theorem InOrder.keeps (h : n.InOrder) (hk : Keeps n n') : Advances n n' :=
  ⟨h.keep hk, hk.commitIndex.ge, hk.appliedIndex, hk.lastSnapshotIndex, hk.snapshotTask⟩

theorem Advances.trans (h : Advances n m) (h' : Advances m n') : Advances n n' :=
  ⟨h'.inOrder, h.commit.trans h'.commit, h'.applied.trans h.applied, h'.snapshot.trans h.snapshot,
    h'.task.trans h.task⟩

theorem Advances.notBelow (h : Advances n n') : NotBelow n n' := ⟨h.commit, h.applied.ge, h.snapshot.ge⟩

/-- A new log and a later commit index. -/
theorem InOrder.write (h : n.InOrder) {log : IndexedLog} {commitIndex : Nat} (hordered : log.Ordered)
    (hjoined : log.Joined n.lastSnapshotIndex) (hle : n.commitIndex ≤ commitIndex)
    (hend : commitIndex ≤ max n.lastSnapshotIndex log.lastIndex) : Advances n { n with log, commitIndex } where
  inOrder := ⟨hordered, hjoined, h.snapshot_le, h.applied_le.trans hle, hend, h.task⟩
  commit := hle
  applied := rfl
  snapshot := rfl
  task := rfl

theorem InOrder.maybeCommit (h : n.InOrder) : Advances n n.maybeCommit := by
  rcases n.maybeCommit_cases with heq | ⟨k, -, hlt, hle, -, -, heq⟩
  · rw [heq]
    exact h.keeps (.refl n)
  · rw [heq]
    exact h.write h.ordered h.joined hlt.le hle

theorem InOrder.advanceCommit (h : n.InOrder) (k : Nat) : Advances n (n.advanceCommit k) := by
  rcases n.advanceCommit_cases k with ⟨heq, -⟩ | ⟨hlt, heq⟩
  · rw [heq]
    exact h.keeps (.refl n)
  · rw [heq]
    exact h.write h.ordered h.joined hlt.le (min_le_right _ _)

/-- `AppendEntryLocked`, with a commit index up to the new entry. -/
theorem InOrder.append (h : n.InOrder) {e : LogEntry} {log : IndexedLog} (hlog : n.log.append e = .ok log)
    (he : e.index = n.logicalLastIndex + 1) {k : Nat} (hle : n.commitIndex ≤ k) (hend : k ≤ n.logicalLastIndex + 1) :
    Advances n { n with log, commitIndex := k } := by
  have hlast := IndexedLog.lastIndex_append hlog
  refine h.write (h.ordered.append hlog) (h.joined.append hlog ?_) hle ?_
  · rw [he]
    exact le_refl _
  · rw [hlast, he]
    exact hend.trans (le_max_right _ _)

theorem InOrder.propose (h : n.InOrder) (codec : CommandCodec) (e : LogEntry) : Advances n (n.propose codec e).1 := by
  rcases n.propose_cases codec e with ⟨err, heq⟩ | ⟨log, -, hlog, -, -, hcore⟩
  · rw [heq]
    exact h.keeps (.refl n)
  · have hle := h.commit_le
    have hwrite := h.append hlog rfl (k := if quorumSize n.config.peers = 1 then n.logicalLastIndex + 1 else n.commitIndex)
      (by split <;> omega) (by split <;> omega)
    exact hwrite.trans (hwrite.inOrder.keeps (.of_core hcore (.refl _)))

/-- A new leader writes its first entry. -/
theorem InOrder.noop (h : n.InOrder) {log : IndexedLog} (hlog : n.firstTerm.log.append
      { noopEntry with index := n.firstTerm.logicalLastIndex + 1, term := n.firstTerm.currentTerm } = .ok log)
    (hm : Keeps { n.firstTerm with log } m) : Advances n m := by
  have hfirst := h.keeps (keeps_firstTerm n)
  have hwrite := hfirst.inOrder.append hlog rfl (le_refl _) (hfirst.inOrder.commit_le.trans (Nat.le_succ _))
  exact (hfirst.trans hwrite).trans (hwrite.inOrder.keeps hm)

theorem InOrder.lead (h : n.InOrder) {log : IndexedLog} (hlog : n.firstTerm.log.append
      { noopEntry with index := n.firstTerm.logicalLastIndex + 1, term := n.firstTerm.currentTerm } = .ok log)
    (hm : Keeps { n.firstTerm with log } m) : Advances n m.maybeCommit :=
  (h.noop hlog hm).trans (h.noop hlog hm).inOrder.maybeCommit

theorem InOrder.becomeLeader (h : n.InOrder) (hok : n.becomeLeader.2 = .ok ()) : Advances n n.becomeLeader.1.maybeCommit := by
  rcases n.becomeLeader_cases with ⟨err, herr, -⟩ | ⟨log, hlog, -, hcore, -⟩
  · rw [hok] at herr
    cases herr
  · exact h.lead hlog (.of_core hcore ⟨rfl, rfl, rfl, rfl, rfl⟩)

theorem InOrder.concludes (h : n.InOrder) {e : Election} (hc : n.Concludes e n') : Advances n n' := by
  cases hc with
  | idle => exact h.keeps ⟨rfl, rfl, rfl, rfl, rfl⟩
  | newer hlt =>
    have hidle : Keeps n { n with election := none } := ⟨rfl, rfl, rfl, rfl, rfl⟩
    exact h.keeps (hidle.trans (keeps_stepDown _ _))
  | failed hstate hcore => exact h.keeps ((keeps_firstTerm n).trans (.of_core hcore ⟨rfl, rfl, rfl, rfl, rfl⟩))
  | won hstate hterm hquorum hlog hcore hmatch => exact h.lead hlog (.of_core hcore ⟨rfl, rfl, rfl, rfl, rfl⟩)

theorem InOrder.answers (h : n.InOrder) {peer : String} {request : Request} {reply : Option Response}
    (ha : n.Answers peer request reply n') : Advances n n' := by
  cases ha with
  | noted hcore => exact h.keeps (.of_core hcore (.refl n))
  | merged _ hcore => exact h.keeps (.of_core hcore (.refl n))
  | committed _ _ hcore =>
    have hmerged := h.keeps (.of_core hcore (.refl n))
    exact hmerged.trans hmerged.inOrder.maybeCommit
  | newer hlt => exact h.keeps (keeps_stepDown n _)
  | counted => exact h.keeps ⟨rfl, rfl, rfl, rfl, rfl⟩

theorem InOrder.handleHeartbeat (h : n.InOrder) (r : HeartbeatRequest) : Advances n (n.handleHeartbeat r).1 := by
  rcases n.handleHeartbeat_cases r with ⟨-, heq⟩ | ⟨-, m, hcore, ⟨err, heq⟩ | heq⟩
  · rw [heq]
    exact h.keeps (.refl n)
  · rw [heq]
    exact h.keeps (.of_core hcore (keeps_noted n _ _))
  · rw [heq]
    have hnoted := h.keeps (.of_core hcore (keeps_noted n _ _))
    exact hnoted.trans (hnoted.inOrder.advanceCommit _)

/-- Entries that follow the previous one and conflict with nothing committed. -/
def Appendable (n : Node) (r : AppendEntriesRequest) : Prop :=
  r.entries.map LogEntry.index = List.range' (r.prevLogIndex + 1) r.entries.length ∧
    ∀ e ∈ r.entries, ∀ x ∈ n.log.entries, x.index = e.index → x.term ≠ e.term → n.commitIndex < e.index

instance (n : Node) (r : AppendEntriesRequest) : Decidable (n.Appendable r) :=
  inferInstanceAs (Decidable (_ ∧ _))

theorem InOrder.finishAppend (h : n.InOrder) {r : AppendEntriesRequest} (hprev : n.rejectPrev r = none)
    (hr : n.Appendable r) : Advances n (n.finishAppend r).1 := by
  obtain ⟨-, hend, -⟩ := rejectPrev_bounds hprev
  obtain ⟨hordered, hjoined, hle⟩ :=
    joined_spliceEntries h.ordered h.joined hr.1 (Nat.succ_le_succ hend) h.commit_le hr.2
  have hwrite := h.write hordered hjoined (le_refl _) hle
  rcases n.finishAppend_cases r with ⟨err, -, heq⟩ | ⟨-, heq, -⟩
  · rw [heq]
    exact hwrite
  · rw [heq]
    have hcommit := hwrite.trans (hwrite.inOrder.advanceCommit r.leaderCommit)
    rcases dispatchForward_cases (Node.advanceCommit { n with
        log := (spliceEntries n.lastSnapshotIndex n.log r.entries).log } r.leaderCommit) r with heq | heq
    · rw [heq]
      exact hcommit
    · rw [heq]
      exact hcommit.trans (hcommit.inOrder.keeps ⟨rfl, rfl, rfl, rfl, rfl⟩)

theorem InOrder.handleAppendEntries (h : n.InOrder) {r : AppendEntriesRequest}
    (hr : (n.prepareAppend r).2 = none → n.Appendable r) : Advances n (n.handleAppendEntries r).1 := by
  rcases n.handleAppendEntries_cases r with ⟨-, heq, -⟩ | ⟨-, m, hcore, ⟨heq, -⟩ | ⟨hprev, hprepare, heq⟩⟩
  · rw [heq]
    exact h.keeps (.refl n)
  · rw [heq]
    exact h.keeps (.of_core hcore (keeps_noted n _ _))
  · rw [heq]
    have hkeeps : Keeps n m := .of_core hcore (keeps_noted n _ _)
    have hnoted := h.keeps hkeeps
    obtain ⟨hnumbered, hconflicts⟩ := hr (by rw [hprepare])
    refine hnoted.trans (hnoted.inOrder.finishAppend hprev ⟨hnumbered, ?_⟩)
    rw [hkeeps.log, hkeeps.commitIndex]
    exact hconflicts

/-- The stream comes to its end and is not refused for its term. -/
def Accepts (n : Node) (r : InstallSnapshotRequest) (complete : Bool) : Prop :=
  complete = true ∧ n.currentTerm ≤ (if r.leaderTerm = 0 then r.snapshot.raftTerm else r.leaderTerm)

instance (n : Node) (r : InstallSnapshotRequest) (complete : Bool) : Decidable (n.Accepts r complete) :=
  inferInstanceAs (Decidable (_ ∧ _))

theorem InOrder.applyInstalledSnapshot (h : n.InOrder) {s : Snapshot} (hs : n.commitIndex ≤ s.raftIndex) (keepFrom : Nat) :
    Installed s.raftIndex n (n.applyInstalledSnapshot s keepFrom).1 := by
  have hsnapshot := h.snapshot_le
  have happlied := h.applied_le
  have hjoined : (n.log.truncateBefore (s.raftIndex + 1) keepFrom).Joined s.raftIndex :=
    (h.joined.of_le (by omega)).truncateBefore h.ordered (le_refl _) keepFrom
  have htask : ∀ t ∈ n.snapshotTask.map fun (task : SnapshotTask) =>
      { task with vectorIndex := task.vectorIndex.or (some n.executed) }, t.snapshotIndex ≤ s.raftIndex := by
    intro t ht
    obtain ⟨t', ht', rfl⟩ := Option.map_eq_some_iff.mp ht
    have := h.task t' ht'
    dsimp only
    omega
  have hsame : (n.snapshotTask.map fun (task : SnapshotTask) =>
      { task with vectorIndex := task.vectorIndex.or (some n.executed) }).map SnapshotTask.snapshotIndex =
        n.snapshotTask.map SnapshotTask.snapshotIndex := by
    rw [Option.map_map]
    rfl
  have hordered := h.ordered.truncateBefore (s.raftIndex + 1) keepFrom
  unfold Node.applyInstalledSnapshot
  dsimp only
  split
  · exact ⟨⟨hordered, hjoined, le_refl _, le_refl _, le_max_left _ _, htask⟩, rfl, rfl, rfl, hsame⟩
  · exact ⟨⟨hordered, hjoined, le_refl _, le_refl _, le_max_left _ _, htask⟩, rfl, rfl, rfl, hsame⟩

theorem InOrder.handleInstallSnapshot (h : n.InOrder) {r : InstallSnapshotRequest} {complete : Bool}
    (hr : n.Accepts r complete → n.commitIndex ≤ r.snapshot.raftIndex) (keepFrom : Nat) :
    Advances n (n.handleInstallSnapshot r complete keepFrom).1 ∨
      n.Accepts r complete ∧ Installed r.snapshot.raftIndex n (n.handleInstallSnapshot r complete keepFrom).1 := by
  unfold Accepts at hr ⊢
  unfold Node.handleInstallSnapshot
  dsimp only
  generalize (if r.leaderTerm = 0 then r.snapshot.raftTerm else r.leaderTerm) = term at hr ⊢
  split
  · exact .inl (h.keeps (.refl n))
  next hterm =>
  split
  · exact .inl (h.keeps (.refl n))
  next m hm =>
  have hkeeps : Keeps n m := by
    split at hm
    · exact .of_core (becomeFollower_eq_ok hm).2.1 (keeps_followed n _ "")
    · cases hm
      exact .refl n
  split
  · exact .inl (h.keeps hkeeps)
  next hcomplete =>
  have haccepts : complete = true ∧ n.currentTerm ≤ term := ⟨by simpa using hcomplete, Nat.le_of_not_lt hterm⟩
  have hinstall := (h.keep hkeeps).applyInstalledSnapshot (s := r.snapshot) (by
    rw [hkeeps.commitIndex]
    exact hr haccepts) keepFrom
  have hinstalled : Installed r.snapshot.raftIndex n (m.applyInstalledSnapshot r.snapshot keepFrom).1 :=
    { hinstall with task := by rw [hinstall.task, hkeeps.snapshotTask] }
  split
  · next heq =>
    rw [heq] at hinstalled
    exact .inr ⟨haccepts, hinstalled⟩
  · next heq =>
    rw [heq] at hinstalled
    exact .inr ⟨haccepts, hinstalled⟩

end Node

/-- An iteration of `ApplyCommittedEntries` that has read its entry. -/
structure Applying where
  nextIndex : Nat
  entry : LogEntry
  executed : Bool := false
  deriving DecidableEq, Repr

/-- The thread of `LaunchSnapshotTask` behind `TermAt`. -/
structure Publishing where
  raftTerm : Nat
  stored : Bool := false
  deriving DecidableEq, Repr

/-- A node and its threads. -/
structure Running where
  node : Node
  applying : Option Applying := none
  publishing : Option Publishing := none

namespace Running

inductive Event where
  | handle (request : Request) (complete : Bool) (keepFrom : Nat)
  | respond (peer : String) (overloaded : Bool) (request : Request) (reply : Option Response)
  | start
  | startElection
  | finishElection
  | maybeCommit
  | propose (e : LogEntry)
  /-- `ApplyCommittedEntries` reads the next entry, executes it, and stores the index. -/
  | readEntry
  | executeEntry (outcome : Except String Unit)
  | storeApplied
  /-- `LaunchSnapshotTask` asks for the term, stores the snapshot index, and truncates the WAL. -/
  | termAt
  | storeSnapshot
  | truncate (keepFrom : Nat)

def startElection (n : Node) : Node :=
  let n := n.becomeCandidate
  { n with election := some { term := n.currentTerm, highestTerm := n.currentTerm } }

def storeApplied (n : Node) (index : Nat) : Node := { n with appliedIndex := index }.maybeTriggerSnapshot index

def storeSnapshot (n : Node) (task : SnapshotTask) (raftTerm : Nat) : Node :=
  { n with
    snapshot := some
      { raftTerm
        raftIndex := task.snapshotIndex
        executed := task.vectorIndex.getD n.executed
        dedup := n.dedup.saveTo }
    lastSnapshotIndex := task.snapshotIndex
    lastSnapshotTerm := raftTerm }

def truncate (n : Node) (task : SnapshotTask) (keepFrom : Nat) : Node :=
  { n with log := n.log.truncateBefore task.snapshotIndex keepFrom, snapshotTask := none }

def step (codec : CommandCodec) (r : Running) : Event → Option Running
  | .handle request complete keepFrom => some { r with node := (r.node.handle complete keepFrom request).1 }
  | .respond peer overloaded request reply => some { r with node := r.node.onResponse peer overloaded request reply }
  | .start =>
    if r.node.config.peers = [] ∧ r.node.state ≠ .leader then
      match r.node.becomeLeader with
      | (_, .error _) => none
      | (n, .ok _) => some { r with node := n.maybeCommit }
    else none
  | .startElection =>
    if r.node.state ≠ .leader ∧ r.node.election = none then some { r with node := startElection r.node } else none
  | .finishElection => r.node.election.map fun e => { r with node := r.node.finishElection e }
  | .maybeCommit => some { r with node := r.node.maybeCommit }
  | .propose e => some { r with node := (r.node.propose codec e).1 }
  | .readEntry =>
    if r.applying = none ∧ r.node.appliedIndex < r.node.commitIndex then
      (r.node.log.read (r.node.appliedIndex + 1)).toOption.map fun entry =>
        { r with applying := some { nextIndex := r.node.appliedIndex + 1, entry } }
    else none
  | .executeEntry outcome =>
    r.applying.bind fun a =>
      if a.executed then none
      else some
        { r with
          node := r.node.execute codec a.nextIndex a.entry outcome
          applying := some { a with executed := true } }
  | .storeApplied =>
    r.applying.bind fun a =>
      if a.executed then some { r with node := storeApplied r.node a.nextIndex, applying := none } else none
  | .termAt =>
    match r.node.snapshotTask, r.publishing with
    | some task, none =>
      match r.node.log.termAt task.snapshotIndex with
      | .error _ => some { r with node := { r.node with snapshotTask := none } }
      | .ok raftTerm => some { r with publishing := some { raftTerm } }
    | _, _ => none
  | .storeSnapshot =>
    match r.node.snapshotTask, r.publishing with
    | some task, some p =>
      if p.stored then none
      else some
        { r with
          node := storeSnapshot r.node task p.raftTerm
          publishing := some { p with stored := true } }
    | _, _ => none
  | .truncate keepFrom =>
    match r.node.snapshotTask, r.publishing with
    | some task, some p =>
      if p.stored then some { r with node := truncate r.node task keepFrom, publishing := none } else none
    | _, _ => none

/-- `LaunchSnapshotTask` stands between its label and the store of it. -/
def labelOpen (r : Running) : Bool := r.node.snapshotTask.isSome && !r.publishing.any Publishing.stored

/-- An `AppendEntries` that comes to the entry loop brings entries that follow the previous one
and conflict with nothing committed. A snapshot that is installed is not older than what is
committed, and no iteration of `ApplyCommittedEntries` stands between its read and its store,
nor `LaunchSnapshotTask` between its label and its store. -/
def Forward (r : Running) : Event → Prop
  | .handle (.append _ request) _ _ => (r.node.prepareAppend request).2.isNone = true → r.node.Appendable request
  | .handle (.install request) complete _ =>
    r.node.Accepts request complete →
      r.node.commitIndex ≤ request.snapshot.raftIndex ∧ r.applying = none ∧ r.labelOpen = false
  | _ => True

instance (r : Running) (ev : Event) : Decidable (r.Forward ev) := by
  unfold Forward
  split <;> infer_instance

structure Inv (r : Running) : Prop where
  node : r.node.InOrder
  applying : ∀ a ∈ r.applying, r.node.appliedIndex ≤ a.nextIndex ∧ a.nextIndex ≤ r.node.commitIndex
  label : r.labelOpen = true → ∀ t ∈ r.node.snapshotTask, r.node.lastSnapshotIndex ≤ t.snapshotIndex
  publishing : ∀ p ∈ r.publishing, ∃ t, r.node.snapshotTask = some t ∧
    (p.stored = true → t.snapshotIndex ≤ r.node.lastSnapshotIndex)

variable {codec : CommandCodec} {r r' : Running}

/-- The node goes on and the threads do not. -/
theorem Inv.advance (h : Inv r) {n : Node} (hn : r.node.Advances n) : Inv { r with node := n } := by
  refine ⟨hn.inOrder, fun a ha => ?_, fun hopen t ht => ?_, fun p hp => ?_⟩
  · obtain ⟨hge, hle⟩ := h.applying a ha
    exact ⟨hn.applied.le.trans hge, hle.trans hn.commit⟩
  · have hopen' : r.labelOpen = true := by
      rw [labelOpen, hn.task] at hopen
      exact hopen
    rw [hn.snapshot]
    exact h.label hopen' t (hn.task ▸ ht)
  · obtain ⟨t, ht, hstored⟩ := h.publishing p hp
    refine ⟨t, hn.task.trans ht, fun hp => ?_⟩
    rw [hn.snapshot]
    exact hstored hp

/-- An installation that comes in between nothing. -/
theorem Inv.install (h : Inv r) {n : Node} {index : Nat} (hn : Node.Installed index r.node n)
    (hle : r.node.commitIndex ≤ index) (happlying : r.applying = none) (hopen : r.labelOpen = false) :
    Inv { r with node := n } ∧ r.node.NotBelow n := by
  have hsnapshot := h.node.snapshot_le
  have happlied := h.node.applied_le
  refine ⟨⟨hn.inOrder, fun a ha => ?_, fun hopen' => ?_, fun p hp => ?_⟩, ?_, ?_, ?_⟩
  · dsimp only at ha
    rw [happlying] at ha
    cases ha
  · have hsome : n.snapshotTask.isSome = r.node.snapshotTask.isSome := by
      rw [← Option.isSome_map, hn.task, Option.isSome_map]
    rw [labelOpen] at hopen hopen'
    rw [hsome, hopen] at hopen'
    cases hopen'
  · obtain ⟨t, ht, hstored⟩ := h.publishing p hp
    have htask := hn.task
    rw [ht] at htask
    obtain ⟨t', ht', hsame⟩ := Option.map_eq_some_iff.mp htask
    refine ⟨t', ht', fun hp => ?_⟩
    have := hstored hp
    rw [hsame, hn.snapshot]
    omega
  · rw [hn.commit]
    exact hle
  · rw [hn.applied]
    omega
  · rw [hn.snapshot]
    omega

theorem Inv.handle (h : Inv r) {request : Request} {complete : Bool} {keepFrom : Nat}
    (hok : r.Forward (.handle request complete keepFrom)) :
    Inv { r with node := (r.node.handle complete keepFrom request).1 } ∧
      r.node.NotBelow (r.node.handle complete keepFrom request).1 := by
  have hadvance : ∀ n, r.node.Advances n → Inv { r with node := n } ∧ r.node.NotBelow n :=
    fun n hn => ⟨h.advance hn, hn.notBelow⟩
  cases request with
  | vote req => exact hadvance _ (h.node.keeps (Node.keeps_handleRequestVote r.node req))
  | heartbeat caller req => exact hadvance _ (h.node.handleHeartbeat req)
  | append caller req =>
    exact hadvance _ (h.node.handleAppendEntries fun hnone => hok (by rw [hnone]; rfl))
  | install req =>
    rcases h.node.handleInstallSnapshot (fun haccepts => (hok haccepts).1) keepFrom with hn | ⟨haccepts, hn⟩
    · exact hadvance _ hn
    · obtain ⟨hle, happlying, hopen⟩ := hok haccepts
      exact h.install hn hle happlying hopen

theorem keeps_execute (codec : CommandCodec) (n : Node) (index : Nat) (e : LogEntry) (outcome : Except String Unit) :
    n.Keeps (n.execute codec index e outcome) := by
  unfold Node.execute
  cases e.command codec with
  | none => exact .refl n
  | some cmd => exact ⟨rfl, rfl, rfl, rfl, rfl⟩

theorem Inv.storeApplied (h : Inv r) {a : Applying} (ha : a ∈ r.applying) :
    Inv { r with node := storeApplied r.node a.nextIndex, applying := none } ∧
      r.node.NotBelow (storeApplied r.node a.nextIndex) := by
  obtain ⟨hge, hle⟩ := h.applying a ha
  have hsnapshot := h.node.snapshot_le
  have hnode : Node.InOrder { r.node with appliedIndex := a.nextIndex } :=
    ⟨h.node.ordered, h.node.joined, hsnapshot.trans hge, hle, h.node.commit_le, fun t ht => (h.node.task t ht).trans hge⟩
  unfold Running.storeApplied Node.maybeTriggerSnapshot
  split
  · exact ⟨⟨hnode, (fun a ha => by cases ha), h.label, h.publishing⟩, le_refl _, hge, le_refl _⟩
  next hguard =>
  have hidle : r.node.snapshotTask = none := by
    cases ht : r.node.snapshotTask with
    | none => rfl
    | some t => exact absurd (by simp [ht]) hguard
  refine ⟨⟨⟨hnode.ordered, hnode.joined, hnode.snapshot_le, hle, hnode.commit_le, fun t ht => ?_⟩,
    (fun a ha => by cases ha), fun _ t ht => ?_, fun p hp => ?_⟩, le_refl _, hge, le_refl _⟩
  · cases ht
    exact le_refl _
  · cases ht
    exact hsnapshot.trans hge
  · obtain ⟨t, ht, -⟩ := h.publishing p hp
    rw [hidle] at ht
    cases ht

theorem Inv.storeSnapshot (h : Inv r) {t : SnapshotTask} {p : Publishing} (ht : r.node.snapshotTask = some t)
    (hp : r.publishing = some p) (hopen : p.stored = false) :
    Inv { r with node := storeSnapshot r.node t p.raftTerm, publishing := some { p with stored := true } } ∧
      r.node.NotBelow (storeSnapshot r.node t p.raftTerm) := by
  have hge : r.node.lastSnapshotIndex ≤ t.snapshotIndex := h.label (by simp [labelOpen, ht, hp, hopen]) t ht
  have hend := h.node.commit_le
  refine ⟨⟨⟨h.node.ordered, h.node.joined.of_le hge, h.node.task t ht, h.node.applied_le, ?_, h.node.task⟩, h.applying,
    fun hopen => ?_, fun p' hp' => ?_⟩, le_refl _, le_refl _, hge⟩
  · simp only [Node.logicalLastIndex, Running.storeSnapshot] at hend ⊢
    omega
  · simp [labelOpen] at hopen
  · cases hp'
    exact ⟨t, ht, fun _ => le_refl _⟩

theorem inOrder_truncate {n : Node} (h : n.InOrder) {t : SnapshotTask} (hle : t.snapshotIndex ≤ n.lastSnapshotIndex)
    (keepFrom : Nat) : (truncate n t keepFrom).InOrder where
  ordered := h.ordered.truncateBefore _ _
  joined := h.joined.truncateBefore h.ordered (by omega) keepFrom
  snapshot_le := h.snapshot_le
  applied_le := h.applied_le
  commit_le := h.joined.le_truncateBefore h.ordered (by omega) keepFrom h.commit_le
  task := fun t ht => by cases ht

theorem Inv.step (h : Inv r) {ev : Event} (hok : r.Forward ev) (hs : step codec r ev = some r') :
    Inv r' ∧ r.node.NotBelow r'.node := by
  have hadvance : ∀ n, r.node.Advances n → Inv { r with node := n } ∧ r.node.NotBelow n :=
    fun n hn => ⟨h.advance hn, hn.notBelow⟩
  have hsame : r.node.NotBelow r.node := ⟨le_refl _, le_refl _, le_refl _⟩
  cases ev with
  | handle request complete keepFrom =>
    cases hs
    exact h.handle hok
  | respond peer overloaded request reply =>
    cases hs
    exact hadvance _ (h.node.answers (r.node.onResponse_answers peer overloaded request reply))
  | start =>
    simp only [Running.step] at hs
    split at hs
    swap
    · cases hs
    split at hs
    · cases hs
    next n u heq =>
    cases hs
    have hlead := h.node.becomeLeader (by rw [heq])
    rw [heq] at hlead
    exact hadvance _ hlead
  | startElection =>
    simp only [Running.step] at hs
    split at hs
    · cases hs
      exact hadvance _ (h.node.keeps ⟨rfl, rfl, rfl, rfl, rfl⟩)
    · cases hs
  | finishElection =>
    obtain ⟨e, he, rfl⟩ := Option.map_eq_some_iff.mp hs
    exact hadvance _ (h.node.concludes (r.node.finishElection_concludes e))
  | maybeCommit =>
    cases hs
    exact hadvance _ h.node.maybeCommit
  | propose e =>
    cases hs
    exact hadvance _ (h.node.propose codec e)
  | readEntry =>
    simp only [Running.step] at hs
    split at hs
    swap
    · cases hs
    next hguard =>
    obtain ⟨e, -, rfl⟩ := Option.map_eq_some_iff.mp hs
    refine ⟨⟨h.node, fun a ha => ?_, h.label, h.publishing⟩, hsame⟩
    cases ha
    exact ⟨Nat.le_succ _, hguard.2⟩
  | executeEntry outcome =>
    obtain ⟨a, ha, hs⟩ := Option.bind_eq_some_iff.mp hs
    split at hs
    · cases hs
    cases hs
    have hkeeps := h.node.keeps (keeps_execute codec r.node a.nextIndex a.entry outcome)
    have hinv := h.advance hkeeps
    refine ⟨⟨hkeeps.inOrder, fun a' ha' => ?_, hinv.label, hinv.publishing⟩, hkeeps.notBelow⟩
    cases ha'
    exact hinv.applying a ha
  | storeApplied =>
    obtain ⟨a, ha, hs⟩ := Option.bind_eq_some_iff.mp hs
    split at hs
    swap
    · cases hs
    cases hs
    exact h.storeApplied ha
  | termAt =>
    simp only [Running.step] at hs
    split at hs
    swap
    · cases hs
    next task htask hnone =>
    split at hs
    · cases hs
      refine ⟨⟨{ h.node with task := fun t ht => by cases ht }, h.applying, (fun _ t ht => by cases ht), fun p hp => ?_⟩,
        ⟨le_refl _, le_refl _, le_refl _⟩⟩
      dsimp only at hp
      rw [hnone] at hp
      cases hp
    · cases hs
      refine ⟨⟨h.node, h.applying, fun _ => h.label (by simp [labelOpen, htask, hnone]), fun p hp => ?_⟩, hsame⟩
      cases hp
      exact ⟨task, htask, fun hstored => by cases hstored⟩
  | storeSnapshot =>
    simp only [Running.step] at hs
    split at hs
    swap
    · cases hs
    next task p htask hp =>
    split at hs
    · cases hs
    next hopen =>
    cases hs
    exact h.storeSnapshot htask hp (by simpa using hopen)
  | truncate keepFrom =>
    simp only [Running.step] at hs
    split at hs
    swap
    · cases hs
    next task p htask hp =>
    split at hs
    swap
    · cases hs
    next hstored =>
    cases hs
    obtain ⟨t, ht, hle⟩ := h.publishing p hp
    rw [htask] at ht
    cases ht
    exact ⟨⟨inOrder_truncate h.node (hle hstored) keepFrom, h.applying, (fun _ t ht => by cases ht), fun p hp => by cases hp⟩,
      ⟨le_refl _, le_refl _, le_refl _⟩⟩

/-- A node as `RaftNode::Create` leaves it, over a WAL that is joined to the snapshot. -/
theorem inv_create (config : Config) (raftMeta : RaftMeta) {log : IndexedLog} {snapshot : Option Snapshot}
    (hordered : log.Ordered) (hjoined : log.Joined ((snapshot.map Snapshot.raftIndex).getD 0)) :
    Inv { node := Node.create config raftMeta log snapshot } where
  node := ⟨hordered, hjoined, le_refl _, le_refl _, le_max_left _ _, fun t ht => by cases ht⟩
  applying := fun a ha => by cases ha
  label := fun _ t ht => by cases ht
  publishing := fun p hp => by cases hp

/-- Along every such run the indices are in order, and from any point to a later one none goes back. -/
theorem indices_in_order (codec : CommandCodec) (config : Config) (raftMeta : RaftMeta) (log : IndexedLog)
    (snapshot : Option Snapshot) (hordered : log.Ordered) (hjoined : log.Joined ((snapshot.map Snapshot.raftIndex).getD 0))
    (before after : List Event) (r r' : Running)
    (h : Transition.run (Transition.restrict Forward (step codec)) { node := Node.create config raftMeta log snapshot }
      before = some r)
    (h' : Transition.run (Transition.restrict Forward (step codec)) r after = some r') :
    (r.node.commitIndex ≤ r'.node.commitIndex ∧ r.node.appliedIndex ≤ r'.node.appliedIndex ∧
      r.node.lastSnapshotIndex ≤ r'.node.lastSnapshotIndex) ∧
    r'.node.lastSnapshotIndex ≤ r'.node.appliedIndex ∧ r'.node.appliedIndex ≤ r'.node.commitIndex ∧
      r'.node.commitIndex ≤ r'.node.logicalLastIndex := by
  have hr : Inv r := by
    refine Transition.run_invariant Inv (fun s ev t hi hst => ?_) (inv_create config raftMeta hordered hjoined) h
    obtain ⟨hok, hst⟩ := Transition.restrict_eq_some.mp hst
    exact (hi.step hok hst).1
  have hr' : Inv r' ∧ r.node.NotBelow r'.node := by
    refine Transition.run_invariant (fun s => Inv s ∧ r.node.NotBelow s.node) (fun s ev t hi hst => ?_)
      ⟨hr, le_refl _, le_refl _, le_refl _⟩ h'
    obtain ⟨hok, hst⟩ := Transition.restrict_eq_some.mp hst
    obtain ⟨hinv, hbelow⟩ := hi.1.step hok hst
    exact ⟨hinv, hi.2.trans hbelow⟩
  obtain ⟨hinv, hbelow⟩ := hr'
  exact ⟨⟨hbelow.commit, hbelow.applied, hbelow.snapshot⟩, hinv.node.snapshot_le, hinv.node.applied_le,
    hinv.node.commit_le⟩

/-- `B` of three nodes, with a snapshot due after two entries. -/
def followerConfig : Config := { nodeId := "B", peers := ["A", "C"], snapshotThreshold := 1 }

/-- Two committed entries from `A`. -/
def twoEntries : Request :=
  .append .replicate
    { term := 1
      leaderId := "A"
      prevLogIndex := 0
      entries := [{ Node.noopEntry with index := 1, term := 1 }, { Node.noopEntry with index := 2, term := 1 }]
      leaderCommit := 2 }

def snapshotUpTo (index : Nat) : Request :=
  .install { leaderTerm := 1, snapshot := { raftTerm := 1, raftIndex := index, executed := [], dedup := [] } }

/-- Both entries are applied, a local snapshot covers them, and a later one is installed. -/
def appliedAndInstalled : List Event :=
  [.readEntry, .executeEntry (.ok ()), .storeApplied, .readEntry, .executeEntry (.ok ()), .storeApplied,
    .termAt, .storeSnapshot, .truncate 0, .handle (snapshotUpTo 3) true 0]

theorem indices_in_order_after_install :
    ∃ r r', Transition.run (Transition.restrict Forward (step sampleCodec)) { node := Node.create followerConfig {} {} none }
        [.handle twoEntries true 0] = some r ∧
      Transition.run (Transition.restrict Forward (step sampleCodec)) r appliedAndInstalled = some r' ∧
      r'.node.lastSnapshotIndex = 3 ∧
      (r.node.commitIndex ≤ r'.node.commitIndex ∧ r.node.appliedIndex ≤ r'.node.appliedIndex ∧
        r.node.lastSnapshotIndex ≤ r'.node.lastSnapshotIndex) ∧
      r'.node.lastSnapshotIndex ≤ r'.node.appliedIndex ∧ r'.node.appliedIndex ≤ r'.node.commitIndex ∧
        r'.node.commitIndex ≤ r'.node.logicalLastIndex := by
  have hrun : ∃ r, Transition.run (Transition.restrict Forward (step sampleCodec))
        { node := Node.create followerConfig {} {} none } [.handle twoEntries true 0] = some r ∧
      ∃ r', Transition.run (Transition.restrict Forward (step sampleCodec)) r appliedAndInstalled = some r' ∧
        r'.node.lastSnapshotIndex = 3 := by
    decide +kernel
  obtain ⟨r, hr, r', hr', hlast⟩ := hrun
  exact ⟨r, r', hr, hr', hlast, indices_in_order sampleCodec followerConfig {} {} none .empty (.empty 0)
    [.handle twoEntries true 0] appliedAndInstalled r r' hr hr'⟩

/-- A stream with an older snapshot arrives behind the entries, and all three indices are set to 1. -/
theorem commit_goes_back_after_late_install :
    ∃ r r', Transition.run (step sampleCodec) { node := Node.create followerConfig {} {} none } [.handle twoEntries true 0] =
        some r ∧ Transition.run (step sampleCodec) r [.handle (snapshotUpTo 1) true 0] = some r' ∧
      r.node.commitIndex = 2 ∧ r'.node.commitIndex = 1 := by
  have hrun : ∃ r, Transition.run (step sampleCodec) { node := Node.create followerConfig {} {} none }
        [.handle twoEntries true 0] = some r ∧
      ∃ r', Transition.run (step sampleCodec) r [.handle (snapshotUpTo 1) true 0] = some r' ∧
        r.node.commitIndex = 2 ∧ r'.node.commitIndex = 1 := by
    decide +kernel
  obtain ⟨r, hr, r', hr', hcommit, hback⟩ := hrun
  exact ⟨r, r', hr, hr', hcommit, hback⟩

end Running

end RaftVdb
