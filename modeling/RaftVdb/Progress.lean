import RaftVdb.Topology

/-!
# Replication progress of a peer

The part of the configuration that the replication code reads, and the table a
sender keeps of its peers. Wall-clock fields (ack times, latency averages,
deadlines) only decide when the maintenance loop runs, which the cluster model
leaves to the schedule, so they are not kept. `uint32_t` arithmetic is reduced
modulo `2 ^ 32` where it can wrap.
-/

namespace RaftVdb

open Lib

structure Config where
  nodeId : String
  peers : List String
  snapshotThreshold : Nat := 10000
  pipelineWindowSize : Nat := 16
  batchMaxEntries : Nat := 64
  dedupWindowSize : Nat := 1000
  dim : Nat := 1024
  deriving DecidableEq, Repr

/-- The peer list that `LoadAndNormalizeConfig` leaves in the configuration of a node. -/
def normalizePeers (nodeId : String) (peers : List String) : List String :=
  peers.filter fun peer => peer ≠ "" ∧ peer ≠ nodeId

def quorumSize (peers : List String) : Nat := (peers.length + 1) / 2 + 1

structure PeerProgress where
  nextIndex : Nat := 1
  matchIndex : Nat := 0
  inFlight : Nat := 0
  healthy : Bool := true
  directMode : Bool := false
  effectiveWindowSize : Nat := 0
  rollbackAnchorIndex : Nat := 0
  rollbackFailures : Nat := 0
  deriving DecidableEq, Repr

abbrev ProgressTable := Table String PeerProgress

/-- `effective_window_size`, or the configured window while it is unset. -/
def PeerProgress.window (cfg : Config) (p : PeerProgress) : Nat :=
  if p.effectiveWindowSize = 0 then cfg.pipelineWindowSize else p.effectiveWindowSize

def resetPeerRollbackState (p : PeerProgress) : PeerProgress :=
  { p with rollbackAnchorIndex := 0, rollbackFailures := 0 }

def applyPeerRollbackState (cfg : Config) (p : PeerProgress) (attemptedNextIndex conflictIndex : Nat) :
    PeerProgress :=
  let linearThreshold := max 1 (cfg.pipelineWindowSize * 2 % 2 ^ 32)
  let anchor := if p.rollbackAnchorIndex = 0 then attemptedNextIndex else p.rollbackAnchorIndex
  let anchor := if conflictIndex ≠ 0 ∧ conflictIndex < anchor then conflictIndex else anchor
  let failures := (p.rollbackFailures + 1) % 2 ^ 32
  let retreat :=
    if failures > linearThreshold then linearThreshold + 2 ^ min (failures - linearThreshold - 1) 20
    else failures
  { p with
    rollbackAnchorIndex := anchor
    rollbackFailures := failures
    nextIndex := if anchor > retreat then anchor - retreat else 1 }

/-- What a rejected `AppendEntries` does to `next_index`. -/
def rejectPeer (cfg : Config) (p : PeerProgress) (attemptedNextIndex conflictIndex : Nat) : PeerProgress :=
  if conflictIndex > 0 ∧ conflictIndex < attemptedNextIndex then
    resetPeerRollbackState { p with nextIndex := conflictIndex }
  else applyPeerRollbackState cfg p attemptedNextIndex conflictIndex

/-! A rejection moves `next_index` and the record of the rollback, and nothing else of the row. -/

@[simp] theorem matchIndex_rejectPeer (cfg : Config) (p : PeerProgress) (attempted conflict : Nat) :
    (rejectPeer cfg p attempted conflict).matchIndex = p.matchIndex := by
  unfold rejectPeer
  split <;> rfl

@[simp] theorem inFlight_rejectPeer (cfg : Config) (p : PeerProgress) (attempted conflict : Nat) :
    (rejectPeer cfg p attempted conflict).inFlight = p.inFlight := by
  unfold rejectPeer
  split <;> rfl

@[simp] theorem effectiveWindowSize_rejectPeer (cfg : Config) (p : PeerProgress) (attempted conflict : Nat) :
    (rejectPeer cfg p attempted conflict).effectiveWindowSize = p.effectiveWindowSize := by
  unfold rejectPeer
  split <;> rfl

/-- A match_index is the last index of a log, and so below 2^64 - 1. -/
def updatePeerAck (progress : ProgressTable) (peerId : String) (matchIndex : Nat) : ProgressTable :=
  progress.modify peerId {} fun p => resetPeerRollbackState
    { p with
      matchIndex := max p.matchIndex matchIndex
      nextIndex := max p.nextIndex (matchIndex + 1)
      inFlight := p.inFlight - 1
      healthy := true }

def updatePeerHeartbeatAck (progress : ProgressTable) (peerId : String) : ProgressTable :=
  progress.modify peerId {} fun p => { p with healthy := true }

def updatePeerFailure (progress : ProgressTable) (peerId : String) (restoreNextIndex : Nat := 0) :
    ProgressTable :=
  progress.modify peerId {} fun p =>
    { p with
      inFlight := p.inFlight - 1
      nextIndex := if restoreNextIndex > 0 then min p.nextIndex restoreNextIndex else p.nextIndex }

/-- `ResetPeerProgressLocked`: one fresh row per configured peer. -/
def resetPeerProgress (cfg : Config) (topology : TopologyManager) (nextIndex : Nat) : ProgressTable :=
  cfg.peers.foldl (fun progress peer =>
    if peer = "" ∨ peer = cfg.nodeId then progress
    else progress.insert peer
      { nextIndex
        directMode := topology.getRole peer = .follower
        effectiveWindowSize := cfg.pipelineWindowSize }) ∅

/-- `HealthyPeerIds`. -/
def healthyPeerIds (selfId : String) (topology : TopologyManager) : List String :=
  (topology.allNodes.filter fun r => r.1 ≠ selfId ∧ r.2.healthy).map Prod.fst

/-- The decision of `ReplicationLoop` for one node of the topology. -/
def shouldReplicate (selfId : String) (progress : ProgressTable) (quorumEdgeMode : Bool)
    (r : String × NodeInfo) : Bool :=
  r.2.role = .mentor || r.2.sourceNodeId = selfId || ((progress.find? r.1).map PeerProgress.directMode).getD false ||
    (quorumEdgeMode && r.2.role = .follower)

/-- The peers one pass of `ReplicationLoop` hands to `ReplicatePeerOnce`. -/
def replicationTargets (selfId : String) (peers : List String) (topology : TopologyManager)
    (progress : ProgressTable) : List String :=
  let quorumEdgeMode := (healthyPeerIds selfId topology).length + 1 ≤ quorumSize peers
  (topology.allNodes.filter fun r =>
    r.1 ≠ selfId && r.2.healthy && shouldReplicate selfId progress quorumEdgeMode r).map Prod.fst

end RaftVdb
