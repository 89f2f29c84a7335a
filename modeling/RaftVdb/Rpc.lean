import RaftVdb.Node

/-!
# Messages, handlers and callbacks

The RPC handlers of a node, the code that sends the requests, and what the sender does
with a response or a failure. A handler returns the node even when it fails, since it may
have changed it before. A request carries the place in the code that waits for its
response.
-/

namespace RaftVdb

open Lib

structure RequestVoteRequest where
  term : Nat
  candidateId : String
  lastLogIndex : Nat
  lastLogTerm : Nat
  deriving DecidableEq, Repr

structure RequestVoteResponse where
  term : Nat
  voteGranted : Bool
  deriving DecidableEq, Repr

structure HeartbeatRequest where
  term : Nat
  leaderId : String
  commitIndex : Nat
  topology : TopologyInfo := {}
  deriving DecidableEq, Repr

structure HeartbeatResponse where
  term : Nat
  success : Bool
  deriving DecidableEq, Repr

structure AppendEntriesResponse where
  term : Nat
  success : Bool
  matchIndex : Nat := 0
  conflictIndex : Nat := 0
  conflictTerm : Nat := 0
  deriving DecidableEq, Repr

/-- A stream of `SnapshotChunk`s, put together. -/
structure InstallSnapshotRequest where
  leaderTerm : Nat
  snapshot : Snapshot
  deriving DecidableEq, Repr

structure InstallSnapshotResponse where
  term : Nat
  success : Bool
  deriving DecidableEq, Repr

/-- What `CheckFollowerTimeouts` remembers of the mentor while it waits for the follower. -/
structure FollowerTimeout where
  mentorId : String
  mentorRecent : Bool
  deriving DecidableEq, Repr

inductive HeartbeatCaller where
  | broadcast (round : Nat)
  | mentorTimeout
  | followerTimeout (ctx : FollowerTimeout)
  deriving DecidableEq, Repr

inductive AppendCaller where
  | replicate
  | forward
  | followerTimeout (ctx : FollowerTimeout)
  deriving DecidableEq, Repr

inductive Request where
  | vote (r : RequestVoteRequest)
  | heartbeat (caller : HeartbeatCaller) (r : HeartbeatRequest)
  | append (caller : AppendCaller) (r : AppendEntriesRequest)
  | install (r : InstallSnapshotRequest)
  deriving DecidableEq, Repr

inductive Response where
  | vote (r : RequestVoteResponse)
  | heartbeat (r : HeartbeatResponse)
  | append (r : AppendEntriesResponse)
  | install (r : InstallSnapshotResponse)
  deriving DecidableEq, Repr

structure ClientWriteRequest where
  requestId : String
  cmdType : Nat
  id : Nat
  vector : Bytes := []
  deriving DecidableEq, Repr

structure ClientWriteResponse where
  success : Bool
  error : String := ""
  redirectTo : String := ""
  deriving DecidableEq, Repr

namespace Node

/-! ## Handlers -/

def handleRequestVote (n : Node) (r : RequestVoteRequest) : Node × Except String RequestVoteResponse :=
  if r.term < n.currentTerm then (n, .ok ⟨n.currentTerm, false⟩)
  else match if r.term > n.currentTerm then n.becomeFollower r.term else .ok n with
    | .error err => (n, .error err)
    | .ok n =>
      if (n.votedFor = "" ∨ n.votedFor = r.candidateId) ∧ n.isCandidateLogUpToDate r.lastLogIndex r.lastLogTerm then
        ({ n with votedFor := r.candidateId, state := .follower }, .ok ⟨n.currentTerm, true⟩)
      else (n, .ok ⟨n.currentTerm, false⟩)

/-- What a heartbeat or an `AppendEntries` that is not stale does first: note the leader,
through `BecomeFollower` if the term is new or the node is no follower. -/
def noteLeader (n : Node) (term : Nat) (leaderId : String) : Except String Node :=
  if term > n.currentTerm ∨ n.state ≠ .follower then n.becomeFollower term leaderId
  else .ok { n with leaderId, topology := n.topology.setLeader leaderId }

/-- Take over the role that a message carries, if it carries one. -/
def applyTopology (n : Node) (info : TopologyInfo) : Except String Node :=
  if info.role = "" then .ok n
  else match n.topology.fromProto n.selfId info n.selfId with
    | .error err => .error err
    | .ok topology => .ok { n with topology }

def handleHeartbeat (n : Node) (r : HeartbeatRequest) : Node × Except String HeartbeatResponse :=
  if r.term < n.currentTerm then (n, .ok ⟨n.currentTerm, false⟩)
  else match n.noteLeader r.term r.leaderId with
    | .error err => (n, .error err)
    | .ok n =>
      match n.applyTopology r.topology with
      | .error err => (n, .error err)
      | .ok n =>
        let n := n.advanceCommit r.commitIndex
        (n, .ok ⟨n.currentTerm, true⟩)

/-- A follower takes entries from its upstream or the leader only, if the sender says who
it is. -/
def authorizes (n : Node) (r : AppendEntriesRequest) : Bool :=
  r.senderId = "" || n.topology.getRole n.selfId ≠ .follower || r.senderId = r.leaderId ||
    (n.topology.getSource n.selfId ≠ "" && r.senderId = n.topology.getSource n.selfId)

/-- Back up from a conflict to the first entry of its term. -/
def conflictStart (n : Node) (prevTerm : Nat) : Nat → Nat
  | 0 => 0
  | index + 1 =>
    if index + 1 > n.lastSnapshotIndex + 1 then
      match n.log.read index with
      | .error _ => index + 1
      | .ok e => if e.term ≠ prevTerm then index + 1 else n.conflictStart prevTerm index
    else index + 1

/-- The answer to a request whose previous entry the node does not have. -/
def rejectPrev (n : Node) (r : AppendEntriesRequest) : Option AppendEntriesResponse :=
  let reject : AppendEntriesResponse := { term := n.currentTerm, success := false }
  if r.prevLogIndex > n.logicalLastIndex then some { reject with conflictIndex := n.logicalLastIndex + 1 }
  else if n.lastSnapshotIndex > 0 ∧ r.prevLogIndex < n.lastSnapshotIndex then
    some { reject with conflictIndex := n.lastSnapshotIndex + 1, conflictTerm := n.lastSnapshotTerm }
  else if r.prevLogIndex = 0 then none
  else match n.termAtLogicalIndex r.prevLogIndex with
    | .error _ => some { reject with conflictIndex := max (n.lastSnapshotIndex + 1) 1 }
    | .ok prevTerm =>
      if prevTerm = r.prevLogTerm then none
      else if n.lastSnapshotIndex > 0 ∧ r.prevLogIndex = n.lastSnapshotIndex then
        some { reject with conflictTerm := prevTerm, conflictIndex := n.lastSnapshotIndex }
      else some { reject with conflictTerm := prevTerm, conflictIndex := n.conflictStart prevTerm r.prevLogIndex }

/-- The log during the entry loop, with the calls of `TruncateSuffix` made so far: the index
and what the call removed. -/
structure Splice where
  log : IndexedLog
  truncations : List (Nat × List LogEntry) := []
  error : Option String := none
  deriving DecidableEq, Repr

/-- One iteration of the entry loop. -/
def spliceEntry (snapshotIndex : Nat) (log : IndexedLog) (e : LogEntry) : Splice :=
  if snapshotIndex > 0 ∧ e.index ≤ snapshotIndex then { log }
  else match log.read e.index with
    | .error _ =>
      match log.append e with
      | .error err => { log, error := some err }
      | .ok log => { log }
    | .ok existing =>
      if existing.term = e.term then { log }
      else match log.truncateSuffix e.index with
        | .error err => { log, error := some err }
        | .ok kept =>
          let truncations := [(e.index, log.entries.drop kept.entries.length)]
          match kept.append e with
          | .error err => { log := kept, truncations, error := some err }
          | .ok log => { log, truncations }

def spliceEntries (snapshotIndex : Nat) (log : IndexedLog) : List LogEntry → Splice
  | [] => { log }
  | e :: rest =>
    let first := spliceEntry snapshotIndex log e
    if first.error.isSome then first
    else
      let others := spliceEntries snapshotIndex first.log rest
      { others with truncations := first.truncations ++ others.truncations }

/-- The mentor dispatch: a detached thread that will forward to the downstream follower. -/
def dispatchForward (n : Node) (r : AppendEntriesRequest) : Node :=
  if n.topology.getRole n.selfId = .mentor ∧ r.entries ≠ [] then { n with forwards := n.forwards ++ [r] } else n

/-- `HandleAppendEntries` up to the entry loop: either an answer, or the node that goes on. -/
def prepareAppend (n : Node) (r : AppendEntriesRequest) : Node × Option (Except String AppendEntriesResponse) :=
  if r.term < n.currentTerm then
    (n, some (.ok { term := n.currentTerm, success := false, conflictIndex := n.logicalLastIndex + 1 }))
  else match n.noteLeader r.term r.leaderId with
    | .error err => (n, some (.error err))
    | .ok n =>
      match n.applyTopology r.topology with
      | .error err => (n, some (.error err))
      | .ok n =>
        if n.authorizes r then (n, (n.rejectPrev r).map .ok)
        else (n, some (.ok { term := n.currentTerm, success := false }))

/-- The entry loop and what follows it. -/
def finishAppend (n : Node) (r : AppendEntriesRequest) : Node × Except String AppendEntriesResponse :=
  let splice := spliceEntries n.lastSnapshotIndex n.log r.entries
  match splice.error with
  | some err => ({ n with log := splice.log }, .error err)
  | none =>
    let n := ({ n with log := splice.log }.advanceCommit r.leaderCommit).dispatchForward r
    (n, .ok { term := n.currentTerm, success := true, matchIndex := n.logicalLastIndex })

def handleAppendEntries (n : Node) (r : AppendEntriesRequest) : Node × Except String AppendEntriesResponse :=
  match n.prepareAppend r with
  | (n, some answer) => (n, answer)
  | (n, none) => n.finishAppend r

/-- The calls of `TruncateSuffix` that `HandleAppendEntries` makes. -/
def appendTruncations (n : Node) (r : AppendEntriesRequest) : List (Nat × List LogEntry) :=
  match n.prepareAppend r with
  | (_, some _) => []
  | (n, none) => (spliceEntries n.lastSnapshotIndex n.log r.entries).truncations

/-- `HandleInstallSnapshot`. The first chunk decides about the term; a stream that breaks
off after it (`complete = false`) leaves the rest undone. -/
def handleInstallSnapshot (n : Node) (r : InstallSnapshotRequest) (complete : Bool) (keepFrom : Nat) :
    Node × Except String InstallSnapshotResponse :=
  let leaderTerm := if r.leaderTerm = 0 then r.snapshot.raftTerm else r.leaderTerm
  if leaderTerm < n.currentTerm then (n, .ok ⟨n.currentTerm, false⟩)
  else match if leaderTerm > n.currentTerm ∨ n.state ≠ .follower then n.becomeFollower leaderTerm else .ok n with
    | .error err => (n, .error err)
    | .ok n =>
      if complete = false then (n, .error "InstallSnapshot 失败: 快照流在 is_last 前中断")
      else match n.applyInstalledSnapshot r.snapshot keepFrom with
        | (n, .error err) => (n, .error err)
        | (n, .ok _) => (n, .ok ⟨n.currentTerm, true⟩)

/-! ## Senders -/

def requestVote (n : Node) : RequestVoteRequest :=
  { term := n.currentTerm
    candidateId := n.selfId
    lastLogIndex := n.logicalLastIndex
    lastLogTerm := n.lastLogTerm }

def buildTopologyForPeer (n : Node) (peerId : String) : TopologyInfo :=
  (n.topology.toProto peerId).toOption.getD {}

def heartbeat (n : Node) (peerId : String) : HeartbeatRequest :=
  { term := n.currentTerm
    leaderId := n.selfId
    commitIndex := n.commitIndex
    topology := n.buildTopologyForPeer peerId }

/-- `SendSnapshotToPeer` up to the stream. -/
def sendSnapshot (n : Node) : Option Request :=
  n.snapshot.map fun snapshot => .install { leaderTerm := n.currentTerm, snapshot }

def replicatePeerOnce (n : Node) (peerId : String) : Option (Node × Request) :=
  if n.state ≠ .leader then none
  else match n.progress.find? peerId with
    | none => none
    | some p =>
      if p.inFlight ≥ p.window n.config then none
      else if n.lastSnapshotIndex > 0 ∧ p.nextIndex ≤ n.lastSnapshotIndex then n.sendSnapshot.map (n, ·)
      else match n.log.readFrom p.nextIndex n.config.batchMaxEntries with
        | .error _ => none
        | .ok entries =>
          if entries = [] ∧ p.matchIndex ≥ n.logicalLastIndex then none
          else match n.termAtLogicalIndex (p.nextIndex - 1) with
            | .error _ => none
            | .ok prevLogTerm =>
              some ({ n with progress := n.progress.adjust peerId fun p =>
                        { p with inFlight := p.inFlight + 1, nextIndex := p.nextIndex + entries.length } },
                .append .replicate
                  { term := n.currentTerm
                    leaderId := n.selfId
                    prevLogIndex := p.nextIndex - 1
                    prevLogTerm
                    entries
                    leaderCommit := n.commitIndex
                    senderId := n.selfId
                    topology := n.buildTopologyForPeer peerId })

/-- `ForwardToFollower` up to the call. It does not read the request it was started for. -/
def forwardToFollower (n : Node) : Option (Node × String × Request) :=
  match n.topology.getFollowerOf n.selfId with
  | none => none
  | some (followerId, info) =>
    if info.healthy = false then none
    else
      let p := (n.progress.find? followerId).getD { nextIndex := n.logicalLastIndex + 1 }
      if n.lastSnapshotIndex > 0 ∧ p.nextIndex ≤ n.lastSnapshotIndex then n.sendSnapshot.map (n, followerId, ·)
      else if p.inFlight ≥ p.window n.config then none
      else match n.log.readFrom p.nextIndex n.config.batchMaxEntries with
        | .error _ => none
        | .ok entries =>
          if entries = [] ∧ p.matchIndex ≥ n.logicalLastIndex then none
          else match n.termAtLogicalIndex (p.nextIndex - 1) with
            | .error _ => none
            | .ok prevLogTerm =>
              some ({ n with progress := n.progress.modify followerId {} fun q =>
                        { q with nextIndex := max q.nextIndex p.nextIndex, inFlight := q.inFlight + 1 } },
                followerId,
                .append .forward
                  { term := n.currentTerm
                    leaderId := n.leaderId
                    prevLogIndex := p.nextIndex - 1
                    prevLogTerm
                    entries
                    leaderCommit := n.commitIndex
                    senderId := n.selfId
                    topology := n.buildTopologyForPeer followerId })

/-- `CheckMentorTimeouts` for one mentor whose last ack is too old. -/
def checkMentorTimeout (n : Node) (mentorId : String) : Option (Node × Option (String × Request)) :=
  if n.state ≠ .leader ∨ mentorId ∉ n.topology.getMentors.map Prod.fst ∨ n.progress.contains mentorId = false then none
  else
    let follower := n.topology.getFollowerOf mentorId
    let n := { n with
      topology := n.topology.markUnhealthy mentorId
      progress := updatePeerFailure n.progress mentorId }
    match follower with
    | none => some (n, none)
    | some (followerId, info) =>
      if info.healthy = false then some (n, none)
      else
        let n := { n with topology := n.topology.promoteToMentor followerId }
        some (n, some (followerId, .heartbeat .mentorTimeout (n.heartbeat followerId)))

/-- `CheckFollowerTimeouts` for one follower whose last ack is too old, up to the probe.
`recent` says whether the last ack of its mentor is recent. The probe names no sender. -/
def checkFollowerTimeout (n : Node) (followerId : String) (recent : Bool) : Option Request :=
  match n.topology.getNode followerId, n.progress.find? followerId with
  | some info, some p =>
    if n.state ≠ .leader ∨ followerId = n.selfId ∨ info.role ≠ .follower ∨ info.healthy = false then none
    else
      let ctx : FollowerTimeout := match n.topology.getMentorOf followerId with
        | some (mentorId, mentor) =>
          if mentor.healthy then ⟨mentorId, recent && n.progress.contains mentorId⟩ else ⟨"", false⟩
        | none => ⟨"", false⟩
      if p.nextIndex ≤ n.logicalLastIndex then
        some (.append (.followerTimeout ctx)
          { term := n.currentTerm
            leaderId := n.selfId
            prevLogIndex := p.nextIndex - 1
            prevLogTerm := (n.termAtLogicalIndex (p.nextIndex - 1)).toOption.getD 0
            entries := (n.log.readFrom p.nextIndex n.config.batchMaxEntries).toOption.getD []
            leaderCommit := n.commitIndex
            topology := n.buildTopologyForPeer followerId })
      else some (.heartbeat (.followerTimeout ctx) (n.heartbeat followerId))
  | _, _ => none

/-! ## Callbacks -/

def ackPeer (n : Node) (peerId : String) (matchIndex : Nat) : Node :=
  { n with topology := n.topology.markHealthy peerId, progress := updatePeerAck n.progress peerId matchIndex }

def heartbeatAckPeer (n : Node) (peerId : String) : Node :=
  { n with topology := n.topology.markHealthy peerId, progress := updatePeerHeartbeatAck n.progress peerId }

def failPeer (n : Node) (peerId : String) (restoreNextIndex : Nat := 0) : Node :=
  { n with progress := updatePeerFailure n.progress peerId restoreNextIndex }

/-- One voter thread of `StartElection`. -/
def onVoteResponse (n : Node) (term : Nat) (resp : RequestVoteResponse) : Node :=
  match n.election with
  | none => n
  | some e =>
    if e.term = term then
      { n with
        election := some
          { e with
            highestTerm := max e.highestTerm resp.term
            grantedVotes := if resp.voteGranted then e.grantedVotes + 1 else e.grantedVotes } }
    else n

/-- The end of `StartElection`, after all its threads are joined. -/
def finishElection (n : Node) (e : Election) : Node :=
  let n := { n with election := none }
  if e.highestTerm > e.term then n.stepDown e.highestTerm
  else if n.state ≠ .candidate ∨ n.currentTerm ≠ e.term then n
  else if e.grantedVotes ≥ quorumSize n.config.peers then
    match n.becomeLeader with
    | (n, .error _) => n
    | (n, .ok _) => n.maybeCommit
  else n

/-- The end of `BroadcastHeartbeat`. -/
def finishBroadcast (n : Node) (round : Nat) (b : HeartbeatRound) : Node :=
  let n := { n with rounds := n.rounds.erase round }
  if b.highestTerm > b.term then n.stepDown b.highestTerm else n

def onBroadcastResponse (n : Node) (round : Nat) (peerId : String) (resp : Option HeartbeatResponse) : Node :=
  match n.rounds.find? round, resp with
  | none, _ => n
  | some _, none => n.failPeer peerId
  | some b, some resp =>
    if resp.term > b.highestTerm then
      { n with rounds := n.rounds.adjust round fun b => { b with highestTerm := resp.term } }
    else if resp.success then
      { n.heartbeatAckPeer peerId with
        rounds := n.rounds.adjust round fun b => { b with successCount := b.successCount + 1 } }
    else n.failPeer peerId

/-- `CheckFollowerTimeouts` after the probe. `overloaded` says that the mentor has few
samples or a high latency. -/
def onFollowerProbed (n : Node) (followerId : String) (ctx : FollowerTimeout) (followerOk overloaded : Bool) : Node :=
  if followerOk = false then
    if ctx.mentorRecent then { n with topology := n.topology.markUnhealthy followerId } else n
  else if ctx.mentorRecent = false then
    let topology := n.topology.promoteToMentor followerId
    { n with topology := if ctx.mentorId = "" then topology else topology.markUnhealthy ctx.mentorId }
  else match n.progress.find? ctx.mentorId, n.progress.find? followerId with
    | some mentor, some _ =>
      let direct := n.progress.adjust followerId fun p => { p with directMode := true }
      if overloaded ∨ mentor.matchIndex + 1 < n.logicalLastIndex then
        { n with progress := direct.adjust ctx.mentorId fun p =>
            { p with effectiveWindowSize := max 1 (n.config.pipelineWindowSize / 2) } }
      else match n.topology.getMentors.find? fun r => r.1 ≠ ctx.mentorId ∧ r.2.healthy with
        | some other => { n with topology := n.topology.swapFollowers ctx.mentorId other.1 }
        | none => { n with progress := direct }
    | _, _ => n

def onHeartbeatResponse (n : Node) (peerId : String) (overloaded : Bool) (resp : Option HeartbeatResponse) :
    HeartbeatCaller → Node
  | .broadcast round => n.onBroadcastResponse round peerId resp
  | .mentorTimeout =>
    if (resp.map HeartbeatResponse.success).getD false then n.heartbeatAckPeer peerId
    else { n with topology := n.topology.markUnhealthy peerId }
  | .followerTimeout ctx =>
    if (resp.map HeartbeatResponse.success).getD false then
      (n.heartbeatAckPeer peerId).onFollowerProbed peerId ctx true overloaded
    else n.onFollowerProbed peerId ctx false overloaded

/-- The callback of `ReplicatePeerOnce`. -/
def onReplicateResponse (n : Node) (peerId : String) (r : AppendEntriesRequest) : Option AppendEntriesResponse → Node
  | none => n.failPeer peerId (r.prevLogIndex + 1)
  | some resp =>
    if resp.term > n.currentTerm then n.stepDown resp.term
    else if n.state ≠ .leader then n
    else if resp.success then (n.ackPeer peerId resp.matchIndex).maybeCommit
    else { n with progress := n.progress.adjust peerId fun p =>
        rejectPeer n.config { p with inFlight := 0, healthy := true } (r.prevLogIndex + 1) resp.conflictIndex }

/-- `ForwardToFollower` after the call. -/
def onForwardResponse (n : Node) (peerId : String) (r : AppendEntriesRequest) : Option AppendEntriesResponse → Node
  | none => n.failPeer peerId
  | some resp =>
    if resp.term > n.currentTerm then n.stepDown resp.term
    else if resp.success then n.ackPeer peerId resp.matchIndex
    else { n with progress := n.progress.modify peerId {} fun p =>
        rejectPeer n.config { p with inFlight := p.inFlight - 1, healthy := true } (r.prevLogIndex + 1) resp.conflictIndex }

def onAppendResponse (n : Node) (peerId : String) (overloaded : Bool) (r : AppendEntriesRequest)
    (resp : Option AppendEntriesResponse) : AppendCaller → Node
  | .replicate => n.onReplicateResponse peerId r resp
  | .forward => n.onForwardResponse peerId r resp
  | .followerTimeout ctx =>
    match resp with
    | some resp =>
      if resp.success then (n.ackPeer peerId resp.matchIndex).onFollowerProbed peerId ctx true overloaded
      else n.onFollowerProbed peerId ctx false overloaded
    | none => n.onFollowerProbed peerId ctx false overloaded

/-- `SendSnapshotToPeer` after the stream. -/
def onInstallResponse (n : Node) (peerId : String) (s : Snapshot) : Option InstallSnapshotResponse → Node
  | none => n.failPeer peerId
  | some resp =>
    if resp.term > n.currentTerm then n.stepDown resp.term
    else if resp.success then n.ackPeer peerId s.raftIndex
    else n

/-- What the code that waits for a request does when it ends: `none` is a failed call. -/
def onResponse (n : Node) (peerId : String) (overloaded : Bool) : Request → Option Response → Node
  | .vote r, some (.vote resp) => n.onVoteResponse r.term resp
  | .vote _, _ => n
  | .heartbeat caller _, some (.heartbeat resp) => n.onHeartbeatResponse peerId overloaded (some resp) caller
  | .heartbeat caller _, _ => n.onHeartbeatResponse peerId overloaded none caller
  | .append caller r, some (.append resp) => n.onAppendResponse peerId overloaded r (some resp) caller
  | .append caller r, _ => n.onAppendResponse peerId overloaded r none caller
  | .install r, some (.install resp) => n.onInstallResponse peerId r.snapshot (some resp)
  | .install r, _ => n.onInstallResponse peerId r.snapshot none

/-! ## Maintenance and clients -/

/-- `RebalanceTopology`. -/
def rebalanceTopology (n : Node) : Except String Node :=
  match n.topology.rebalance (healthyPeerIds n.selfId n.topology) with
  | .error err => .error err
  | .ok topology => .ok
    { n with
      topology
      progress := n.progress.mapValues fun _ p =>
        { p with directMode := false, effectiveWindowSize := n.config.pipelineWindowSize } }

/-- The windows that `MaintenanceLoop` restores; `expired` are the peers whose deadline is over. -/
def recoverWindows (n : Node) (expired : List String) : Node :=
  { n with progress := n.progress.mapValues fun peerId p =>
      if peerId ∈ expired ∧ p.effectiveWindowSize ≠ n.config.pipelineWindowSize then
        { p with effectiveWindowSize := n.config.pipelineWindowSize, directMode := false }
      else p }

def leaderAddr (n : Node) : String :=
  if n.leaderId = "" ∨ n.leaderId = n.selfId then n.leaderId
  else match n.topology.getNode n.leaderId with
    | some info => if info.addr = "" then n.leaderId else info.addr
    | none => n.leaderId

/-- The bit patterns of the `float32` values of a byte string, least significant byte first. -/
def parseFloatVectorBytes : Bytes → Except String (List Nat)
  | [] => .ok []
  | b₀ :: b₁ :: b₂ :: b₃ :: rest =>
    (parseFloatVectorBytes rest).map fun values =>
      (b₀.toNat + 2 ^ 8 * b₁.toNat + 2 ^ 16 * b₂.toNat + 2 ^ 24 * b₃.toNat) :: values
  | _ => .error "向量字节长度不是 float32 的整数倍"

/-- How `HandleClientWrite` goes on after its checks. -/
inductive ClientWriteStep where
  | reply (resp : ClientWriteResponse)
  | await
  | propose (e : LogEntry)
  deriving DecidableEq, Repr

/-- `HandleClientWrite` up to `Propose`. -/
def checkClientWrite (codec : CommandCodec) (n : Node) (r : ClientWriteRequest) : ClientWriteStep :=
  if n.state ≠ .leader then .reply { success := false, redirectTo := n.leaderAddr }
  else if r.requestId = "" then .reply { success := false, error := "request_id 不能为空" }
  else match n.dedup.check r.requestId with
    | .alreadyCommitted entry => .reply { success := entry.success, error := entry.error }
    | .pendingCommit _ => .await
    | .notFound =>
      if r.cmdType = 1 then
        match parseFloatVectorBytes r.vector with
        | .error err => .reply { success := false, error := err }
        | .ok vector =>
          if vector.length ≠ n.config.dim then .reply { success := false, error := "写入向量维度与当前配置不一致" }
          else .propose
            { cmdType := .upsert
              payload := codec.serializeUpsert { id := r.id, vector, requestId := r.requestId } }
      else if r.cmdType = 2 then .propose
        { cmdType := .delete
          payload := codec.serializeDelete { id := r.id, requestId := r.requestId } }
      else .reply { success := false, error := "不支持的 cmd_type" }

end Node

end RaftVdb
