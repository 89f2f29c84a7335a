import RaftVdb.Dedup
import RaftVdb.IndexedLog
import RaftVdb.Progress

/-!
# One node

The state of a `RaftNode` and the operations that its handlers and loops are made of. A
node's id is the address it listens on, as `main.cpp` sets it up. Writing `meta.bin`, the
WAL and the snapshot files does not fail here, and every write is flushed by the step that
makes it, so term, vote, log and snapshot are what a restart finds. Clocks only decide
when something happens, which the schedule does, so deadlines and the lease are left out.
The vector index is kept as the list of the commands executed on it; whether one of them
succeeds is an input.
-/

namespace RaftVdb

open Lib

inductive Command where
  | upsert (cmd : UpsertCmd)
  | delete (cmd : DeleteCmd)
  deriving DecidableEq, Repr

def Command.requestId : Command → String
  | .upsert cmd => cmd.requestId
  | .delete cmd => cmd.requestId

/-- The command that `ApplyCommittedEntries` finds in an entry. -/
def LogEntry.command (codec : CommandCodec) (e : LogEntry) : Option Command :=
  match e.type, e.cmdType with
  | .normal, .upsert => (codec.deserializeUpsert e.payload).toOption.map .upsert
  | .normal, .delete => (codec.deserializeDelete e.payload).toOption.map .delete
  | _, _ => none

/-- `snapshot.usearch` with its metadata, and `dedup.bin`. -/
structure Snapshot where
  raftTerm : Nat
  raftIndex : Nat
  executed : List Command
  dedup : List (String × DedupEntry)
  deriving DecidableEq, Repr

/-- The thread of `LaunchSnapshotTask`. It shares the index of the node until an installed
snapshot replaces that; from then on it holds the index alone. -/
structure SnapshotTask where
  snapshotIndex : Nat
  vectorIndex : Option (List Command) := none
  deriving DecidableEq, Repr

structure AppendEntriesRequest where
  term : Nat
  leaderId : String
  prevLogIndex : Nat
  prevLogTerm : Nat := 0
  entries : List LogEntry := []
  leaderCommit : Nat
  senderId : String := ""
  topology : TopologyInfo := {}
  deriving DecidableEq, Repr

/-- The locals of a running `StartElection`. -/
structure Election where
  term : Nat
  highestTerm : Nat
  grantedVotes : Nat := 1
  deriving DecidableEq, Repr

/-- The locals of a running `BroadcastHeartbeat`. -/
structure HeartbeatRound where
  term : Nat
  highestTerm : Nat
  successCount : Nat := 1
  deriving DecidableEq, Repr

structure Node where
  config : Config
  currentTerm : Nat := 0
  votedFor : String := ""
  log : IndexedLog := {}
  snapshot : Option Snapshot := none
  state : RaftState := .follower
  leaderId : String := ""
  commitIndex : Nat := 0
  appliedIndex : Nat := 0
  flushedIndex : Nat := 0
  lastSnapshotIndex : Nat := 0
  lastSnapshotTerm : Nat := 0
  topology : TopologyManager := {}
  progress : ProgressTable := ∅
  dedup : DedupTable
  executed : List Command := []
  snapshotTask : Option SnapshotTask := none
  election : Option Election := none
  rounds : Table Nat HeartbeatRound := ∅
  /-- The detached threads of the mentor dispatch, each with its copy of the request. -/
  forwards : List AppendEntriesRequest := []
  /-- Client writes that `Check` let through and that have not reached `Propose`. -/
  writes : List LogEntry := []

namespace Node

def selfId (n : Node) : String := n.config.nodeId

def logicalLastIndex (n : Node) : Nat := max n.lastSnapshotIndex n.log.lastIndex

def termAtLogicalIndex (n : Node) (index : Nat) : Except String Nat :=
  if index = 0 then .ok 0
  else if n.lastSnapshotIndex > 0 ∧ index < n.lastSnapshotIndex then
    .error ("日志索引已被快照截断: " ++ toString index)
  else if n.lastSnapshotIndex > 0 ∧ index = n.lastSnapshotIndex ∧ n.lastSnapshotTerm ≠ 0 then
    .ok n.lastSnapshotTerm
  else n.log.termAt index

def lastLogTerm (n : Node) : Nat :=
  if n.logicalLastIndex = 0 then 0
  else match n.termAtLogicalIndex n.logicalLastIndex with
    | .ok term => term
    | .error _ => 0

def isCandidateLogUpToDate (n : Node) (lastLogIndex lastLogTerm : Nat) : Bool :=
  if lastLogTerm ≠ n.lastLogTerm then lastLogTerm > n.lastLogTerm
  else lastLogIndex ≥ n.logicalLastIndex

/-! ## Roles -/

def becomeFollower (n : Node) (term : Nat) (leaderId : String := "") : Except String Node :=
  if term < n.currentTerm then .error "BecomeFollower 失败: term 不能回退"
  else .ok
    { n with
      currentTerm := term
      votedFor := ""
      leaderId
      state := .follower
      topology := n.topology.setLeader leaderId
      progress := ∅ }

/-- `BecomeFollower` where the caller ignores its error. -/
def stepDown (n : Node) (term : Nat) : Node :=
  match n.becomeFollower term with
  | .ok n' => n'
  | .error _ => n

/-- For terms below 2^64 - 1; `Votes.nextTerm` is the one that wraps. -/
def becomeCandidate (n : Node) : Node :=
  { n with
    currentTerm := n.currentTerm + 1
    votedFor := n.selfId
    leaderId := ""
    state := .candidate
    progress := ∅ }

/-- `AppendEntryLocked`: append at the end, in the current term, and flush. -/
def appendEntry (n : Node) (e : LogEntry) : Node × Except String Nat :=
  let next := { e with index := n.logicalLastIndex + 1, term := n.currentTerm }
  match n.log.append next with
  | .error err => (n, .error err)
  | .ok log => ({ n with log, flushedIndex := next.index }, .ok next.index)

def noopEntry : LogEntry := { type := .noop, cmdType := .upsert }

/-- A node that never had a term takes the first one and votes for itself. -/
def firstTerm (n : Node) : Node :=
  if n.currentTerm = 0 then { n with currentTerm := 1, votedFor := n.selfId } else n

def becomeLeader (n : Node) : Node × Except String Unit :=
  let n := n.firstTerm
  let n := { n with leaderId := n.selfId, topology := n.topology.setLeader n.selfId n.selfId }
  match n.topology.rebalance n.config.peers with
  | .error err => (n, .error err)
  | .ok topology =>
    match appendEntry { n with topology } noopEntry with
    | (n, .error err) => (n, .error err)
    | (n, .ok noopIndex) =>
      ({ n with progress := resetPeerProgress n.config n.topology (noopIndex + 1), state := .leader }, .ok ())

/-! ## Commit and apply -/

/-- The replicas `MaybeCommit` counts for an index, its own included. -/
def matched (n : Node) (candidate : Nat) : Nat :=
  (if n.flushedIndex ≥ candidate then 1 else 0) +
    (n.progress.rows.filter fun r => r.2.matchIndex ≥ candidate).length

/-- The loop of `MaybeCommit`, downwards from the last index. -/
def findCommit (n : Node) : Nat → Except String (Option Nat)
  | 0 => .ok none
  | candidate + 1 =>
    if candidate + 1 ≤ n.commitIndex then .ok none
    else match n.termAtLogicalIndex (candidate + 1) with
      | .error err => .error err
      | .ok term =>
        if term ≠ n.currentTerm then n.findCommit candidate
        else if n.matched (candidate + 1) ≥ quorumSize n.config.peers then .ok (some (candidate + 1))
        else n.findCommit candidate

def maybeCommit (n : Node) : Node :=
  if n.state ≠ .leader then n
  else match n.findCommit n.logicalLastIndex with
    | .ok (some newCommit) => { n with commitIndex := newCommit }
    | _ => n

/-- What a commit index from the leader does on a follower. -/
def advanceCommit (n : Node) (leaderCommit : Nat) : Node :=
  let boundedCommit := min leaderCommit n.logicalLastIndex
  if boundedCommit > n.commitIndex then { n with commitIndex := boundedCommit } else n

def maybeTriggerSnapshot (n : Node) (appliedIndex : Nat) : Node :=
  if n.config.snapshotThreshold = 0 ∨ appliedIndex ≤ n.lastSnapshotIndex ∨
      appliedIndex - n.lastSnapshotIndex ≤ n.config.snapshotThreshold ∨ n.snapshotTask.isSome then n
  else { n with snapshotTask := some { snapshotIndex := appliedIndex } }

/-- Execute the command of an entry, if it has one, and record the outcome. -/
def execute (codec : CommandCodec) (n : Node) (index : Nat) (e : LogEntry) (outcome : Except String Unit) : Node :=
  match e.command codec with
  | none => n
  | some cmd =>
    let (success, error) := match outcome with
      | .ok _ => (true, "")
      | .error err => (false, err)
    { n with
      executed := n.executed ++ [cmd]
      dedup := n.dedup.record cmd.requestId index success error }

/-- One iteration of `ApplyCommittedEntries`, with the entry it applies. -/
def applyCommittedEntry (codec : CommandCodec) (n : Node) (outcome : Except String Unit) : Option (Node × LogEntry) :=
  if n.appliedIndex < n.commitIndex then
    match n.log.read (n.appliedIndex + 1) with
    | .error _ => none
    | .ok e =>
      let n' := { n.execute codec (n.appliedIndex + 1) e outcome with appliedIndex := n.appliedIndex + 1 }
      some (n'.maybeTriggerSnapshot n'.appliedIndex, e)
  else none

def propose (codec : CommandCodec) (n : Node) (e : LogEntry) : Node × Except String Nat :=
  if n.state ≠ .leader then (n, .error "当前节点不是 Leader，无法执行 Propose")
  else match n.appendEntry e with
    | (n, .error err) => (n, .error err)
    | (n, .ok logIndex) =>
      let dedup := match extractRequestId codec e with
        | .ok requestId => n.dedup.trackPending requestId logIndex
        | .error _ => n.dedup
      ({ n with
          dedup
          commitIndex := if quorumSize n.config.peers = 1 then logIndex else n.commitIndex }, .ok logIndex)

/-! ## Snapshots and restarts -/

/-- The thread of `LaunchSnapshotTask`: it saves the index as it is now, under the index it
was started for. The WAL keeps the segments from `keepFrom` on. -/
def saveSnapshot (n : Node) (keepFrom : Nat) : Option Node :=
  match n.snapshotTask with
  | none => none
  | some task =>
    match n.log.termAt task.snapshotIndex with
    | .error _ => some { n with snapshotTask := none }
    | .ok raftTerm => some
      { n with
        snapshot := some
          { raftTerm
            raftIndex := task.snapshotIndex
            executed := task.vectorIndex.getD n.executed
            dedup := n.dedup.saveTo }
        lastSnapshotIndex := task.snapshotIndex
        lastSnapshotTerm := raftTerm
        log := n.log.truncateBefore task.snapshotIndex keepFrom
        snapshotTask := none }

/-- `ApplyInstalledSnapshot`, after the files have been put in place. -/
def applyInstalledSnapshot (n : Node) (s : Snapshot) (keepFrom : Nat) : Node × Except String Unit :=
  let n := { n with
    snapshot := some s
    snapshotTask := n.snapshotTask.map fun (task : SnapshotTask) =>
      { task with vectorIndex := task.vectorIndex.or (some n.executed) }
    executed := s.executed
    log := n.log.truncateBefore (s.raftIndex + 1) keepFrom
    appliedIndex := s.raftIndex
    commitIndex := s.raftIndex
    lastSnapshotIndex := s.raftIndex
    lastSnapshotTerm := s.raftTerm }
  match n.dedup.loadFrom s.dedup with
  | .error err => (n, .error err)
  | .ok dedup => ({ n with dedup }, .ok ())

def registerConfiguredPeers (config : Config) : TopologyManager :=
  let t := TopologyManager.create config.nodeId config.nodeId
  let t := (t.setSelf config.nodeId config.nodeId).registerNode config.nodeId config.nodeId
  config.peers.foldl (fun t peer =>
    if peer = "" ∨ peer = config.nodeId then t else t.registerNode peer peer) t

/-- `RaftNode::Create` after `main.cpp` has restored the snapshot, if there is one. -/
def create (config : Config) (raftMeta : RaftMeta) (log : IndexedLog) (snapshot : Option Snapshot) : Node :=
  let fresh : DedupTable := { windowSize := config.dedupWindowSize }
  let raftIndex := (snapshot.map Snapshot.raftIndex).getD 0
  { config
    currentTerm := raftMeta.currentTerm
    votedFor := raftMeta.votedFor
    log
    snapshot
    commitIndex := raftIndex
    appliedIndex := raftIndex
    lastSnapshotIndex := raftIndex
    lastSnapshotTerm := (snapshot.map Snapshot.raftTerm).getD 0
    topology := registerConfiguredPeers config
    dedup := match snapshot with
      | none => fresh
      | some s => (fresh.loadFrom s.dedup).toOption.getD fresh
    executed := (snapshot.map Snapshot.executed).getD [] }

/-- The process dies and is started again over the same directory. -/
def restart (n : Node) : Node :=
  create n.config ⟨n.currentTerm, n.votedFor⟩ n.log n.snapshot

end Node

end RaftVdb
