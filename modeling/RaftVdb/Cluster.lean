import Mathlib.Logic.Function.Basic
import RaftVdb.Lib.Transition
import RaftVdb.Rpc

/-!
# A cluster

Nodes that share one peer list and exchange RPCs. Every handler body, every sender and
every callback is one step; requests and responses may be delayed, reordered or lost, a
call may time out and its request still arrive, and nodes may be restarted. A schedule
is a list of actions. `History` records what has happened and is read by no step.
-/

namespace RaftVdb

open Lib

structure Members where
  ids : List String
  nodup : ids.Nodup
  named : "" ∉ ids

theorem mem_normalizePeers {p q : String} {ids : List String} : q ∈ normalizePeers p ids ↔ q ∈ ids ∧ q ≠ "" ∧ q ≠ p := by
  simp [normalizePeers]

theorem length_normalizePeers {p : String} {m : Members} (hp : p ∈ m.ids) :
    (normalizePeers p m.ids).length + 1 = m.ids.length := by
  have herase : normalizePeers p m.ids = m.ids.erase p := by
    rw [m.nodup.erase_eq_filter, normalizePeers]
    refine List.filter_congr fun q hq => ?_
    have hne : q ≠ "" := by
      rintro rfl
      exact m.named hq
    by_cases hqp : q = p <;> simp [hqp, hne]
  rw [herase, List.length_erase_of_mem hp]
  have := List.length_pos_of_mem hp
  omega

structure Call where
  src : String
  dst : String
  request : Request
  delivered : Bool := false
  reply : Option Response := none
  /-- The log of the receiver when it answered. -/
  wal : IndexedLog := {}
  waiting : Bool := true

structure Vote where
  voter : String
  term : Nat
  candidate : String
  log : List LogEntry

structure Commit where
  leader : String
  term : Nat
  commitIndex : Nat
  entries : List LogEntry

structure Truncation where
  node : String
  term : Nat
  index : Nat
  removed : List LogEntry
  commitIndex : Nat

structure Applied where
  node : String
  index : Nat
  entry : LogEntry

structure History where
  /-- Candidates, with the term and the log they stood with. -/
  stood : List (String × Nat × List LogEntry) := []
  votes : List Vote := []
  /-- Nodes that entered `kLeader`, with the term. -/
  led : List (String × Nat) := []
  /-- The log of the leader of a term, as far as that leader has written it. -/
  leaderLog : Nat → List LogEntry := fun _ => []
  commits : List Commit := []
  truncations : List Truncation := []
  applied : List Applied := []

namespace History

def stand (h : History) (p : String) (n : Node) : History :=
  { h with
    stood := (p, n.currentTerm, n.log.entries) :: h.stood
    votes := ⟨p, n.currentTerm, p, n.log.entries⟩ :: h.votes }

/-- The leader has written its log. -/
def write (h : History) (n : Node) : History :=
  { h with leaderLog := Function.update h.leaderLog n.currentTerm n.log.entries }

def lead (h : History) (p : String) (n : Node) : History :=
  { h.write n with led := (p, n.currentTerm) :: h.led }

/-- `MaybeCommit` has moved the commit index of a leader. -/
def commit (h : History) (p : String) (n n' : Node) : History :=
  if n'.commitIndex > n.commitIndex then
    { h with commits :=
        ⟨p, n'.currentTerm, n'.commitIndex, n'.log.entries.filter fun e => e.index ≤ n'.commitIndex⟩ :: h.commits }
  else h

/-- A handler has run. -/
def handled (h : History) (p : String) (n : Node) : Request → Option Response → History
  | .vote r, some (.vote resp) =>
    if resp.voteGranted then { h with votes := ⟨p, r.term, r.candidateId, n.log.entries⟩ :: h.votes } else h
  | .append _ r, _ =>
    { h with truncations :=
        (n.appendTruncations r).map (fun t => ⟨p, r.term, t.1, t.2, n.commitIndex⟩) ++ h.truncations }
  | _, _ => h

@[simp] theorem votes_commit (h : History) (p : String) (n n' : Node) : (h.commit p n n').votes = h.votes := by
  unfold commit
  split <;> rfl

@[simp] theorem led_commit (h : History) (p : String) (n n' : Node) : (h.commit p n n').led = h.led := by
  unfold commit
  split <;> rfl

theorem votes_handled (h : History) (p : String) (n : Node) {request : Request} (reply : Option Response)
    (hvote : ∀ r, request ≠ .vote r) : (h.handled p n request reply).votes = h.votes := by
  cases request with
  | vote r => exact absurd rfl (hvote r)
  | heartbeat caller r => rfl
  | append caller r => rfl
  | install r => rfl

theorem led_handled (h : History) (p : String) (n : Node) (request : Request) (reply : Option Response) :
    (h.handled p n request reply).led = h.led := by
  unfold handled
  split
  · split <;> rfl
  · rfl
  · rfl

end History

/-- A handler by the kind of its request. -/
def Node.handle (n : Node) (complete : Bool) (keepFrom : Nat) : Request → Node × Option Response
  | .vote r => ((n.handleRequestVote r).1, (n.handleRequestVote r).2.toOption.map .vote)
  | .heartbeat _ r => ((n.handleHeartbeat r).1, (n.handleHeartbeat r).2.toOption.map .heartbeat)
  | .append _ r => ((n.handleAppendEntries r).1, (n.handleAppendEntries r).2.toOption.map .append)
  | .install r => ((n.handleInstallSnapshot r complete keepFrom).1,
      (n.handleInstallSnapshot r complete keepFrom).2.toOption.map .install)

structure Cluster where
  members : Members
  nodes : String → Node
  calls : List Call := []
  history : History := {}

inductive Action where
  /-- `Start()`, which makes a node without peers the leader. If that fails `main` ends the
  process. -/
  | start (p : String)
  | startElection (p : String)
  | finishElection (p : String)
  | beginBroadcast (p : String)
  | finishBroadcast (p : String) (round : Nat)
  /-- `ReplicationLoop` calls `ReplicatePeerOnce`. -/
  | replicate (p peer : String)
  /-- A detached thread of the mentor dispatch gets to run. -/
  | forward (p : String) (i : Nat)
  | checkMentor (p mentor : String)
  | checkFollower (p follower : String) (recent : Bool)
  /-- A request arrives. The last two inputs matter for snapshots: whether the stream is
  complete, and where the first segment starts that `TruncateBefore` keeps. -/
  | deliver (i : Nat) (complete : Bool) (keepFrom : Nat)
  /-- A response arrives. -/
  | receive (i : Nat) (overloaded : Bool)
  /-- A call fails at its caller. -/
  | fail (i : Nat) (overloaded : Bool)
  | rebalance (p : String)
  | recoverWindows (p : String) (expired : List String)
  | clientWrite (p : String) (r : ClientWriteRequest)
  | propose (p : String) (i : Nat)
  | apply (p : String) (outcome : Except String Unit)
  | saveSnapshot (p : String) (keepFrom : Nat)
  | restart (p : String)

/-- The call is a vote request of this election. -/
def Call.ofElection (c : Call) (p : String) (term : Nat) : Bool :=
  c.src = p && match c.request with
    | .vote r => r.term = term
    | _ => false

/-- The call is a heartbeat of this round. -/
def Call.ofRound (c : Call) (p : String) (round : Nat) : Bool :=
  c.src = p && match c.request with
    | .heartbeat (.broadcast i) _ => i = round
    | _ => false

namespace Cluster

def init (members : Members) (config : String → Config) : Cluster :=
  { members
    nodes := fun p => Node.create { config p with nodeId := p, peers := normalizePeers p members.ids } {} {} none }

def put (c : Cluster) (p : String) (n : Node) : Cluster := { c with nodes := Function.update c.nodes p n }

@[simp] theorem put_self (c : Cluster) (p : String) (n : Node) : (c.put p n).nodes p = n := by simp [put]

theorem put_other (c : Cluster) {p q : String} (n : Node) (h : q ≠ p) : (c.put p n).nodes q = c.nodes q := by
  simp [put, h]

def send (c : Cluster) (p : String) (messages : List (String × Request)) : Cluster :=
  { c with calls := c.calls ++ messages.map fun m => { src := p, dst := m.1, request := m.2 } }

def record (c : Cluster) (h : History) : Cluster := { c with history := h }

def setCall (c : Cluster) (i : Nat) (call : Call) : Cluster := { c with calls := c.calls.set i call }

/-- The calls of a process die with it. -/
def dropCalls (c : Cluster) (p : String) : Cluster :=
  { c with calls := c.calls.map fun call => if call.src = p then { call with waiting := false } else call }

section

variable (c : Cluster) (p : String) (n : Node) (h : History) (messages : List (String × Request)) (i : Nat) (call : Call)

@[simp] theorem put_members : (c.put p n).members = c.members := rfl
@[simp] theorem put_calls : (c.put p n).calls = c.calls := rfl
@[simp] theorem put_history : (c.put p n).history = c.history := rfl
@[simp] theorem send_members : (c.send p messages).members = c.members := rfl
@[simp] theorem send_nodes : (c.send p messages).nodes = c.nodes := rfl
@[simp] theorem send_history : (c.send p messages).history = c.history := rfl
@[simp] theorem record_members : (c.record h).members = c.members := rfl
@[simp] theorem record_nodes : (c.record h).nodes = c.nodes := rfl
@[simp] theorem record_calls : (c.record h).calls = c.calls := rfl
@[simp] theorem record_history : (c.record h).history = h := rfl
@[simp] theorem setCall_members : (c.setCall i call).members = c.members := rfl
@[simp] theorem setCall_nodes : (c.setCall i call).nodes = c.nodes := rfl
@[simp] theorem setCall_history : (c.setCall i call).history = c.history := rfl
@[simp] theorem dropCalls_members : (c.dropCalls p).members = c.members := rfl
@[simp] theorem dropCalls_nodes : (c.dropCalls p).nodes = c.nodes := rfl
@[simp] theorem dropCalls_history : (c.dropCalls p).history = c.history := rfl

end

def start (c : Cluster) (p : String) : Option Cluster :=
  let n := c.nodes p
  if p ∈ c.members.ids ∧ n.config.peers = [] ∧ n.state ≠ .leader then
    let h := if n.currentTerm = 0 then c.history.stand p n.firstTerm else c.history
    match n.becomeLeader with
    | (n', .error _) => some (((c.put p n'.restart).dropCalls p).record h)
    | (n', .ok _) => some ((c.put p n'.maybeCommit).record ((h.lead p n').commit p n' n'.maybeCommit))
  else none

def startElection (c : Cluster) (p : String) : Option Cluster :=
  let n := c.nodes p
  if p ∈ c.members.ids ∧ n.state ≠ .leader ∧ n.election = none then
    let n' := n.becomeCandidate
    let n' := { n' with election := some { term := n'.currentTerm, highestTerm := n'.currentTerm } }
    some (((c.put p n').send p (n'.config.peers.map fun peer => (peer, .vote n'.requestVote))).record
      (c.history.stand p n'))
  else none

def finishElection (c : Cluster) (p : String) : Option Cluster :=
  let n := c.nodes p
  match n.election with
  | none => none
  | some e =>
    if c.calls.all fun call => call.ofElection p e.term → call.waiting = false then
      let n' := n.finishElection e
      some ((c.put p n').record
        (if n.state = .candidate ∧ n'.state = .leader then (c.history.lead p n').commit p n n' else c.history))
    else none

def beginBroadcast (c : Cluster) (p : String) : Option Cluster :=
  let n := c.nodes p
  if p ∈ c.members.ids ∧ n.state = .leader then
    let round := c.calls.length
    let b : HeartbeatRound := { term := n.currentTerm, highestTerm := n.currentTerm }
    some ((c.put p { n with rounds := n.rounds.insert round b }).send p
      (n.config.peers.map fun peer => (peer, .heartbeat (.broadcast round) (n.heartbeat peer))))
  else none

def finishBroadcast (c : Cluster) (p : String) (round : Nat) : Option Cluster :=
  let n := c.nodes p
  match n.rounds.find? round with
  | none => none
  | some b =>
    if c.calls.all fun call => call.ofRound p round → call.waiting = false then
      some (c.put p (n.finishBroadcast round b))
    else none

def replicate (c : Cluster) (p peer : String) : Option Cluster :=
  if p ∈ c.members.ids ∧ peer ≠ p then
    ((c.nodes p).replicatePeerOnce peer).map fun (n', request) => (c.put p n').send p [(peer, request)]
  else none

def forward (c : Cluster) (p : String) (i : Nat) : Option Cluster :=
  let n := c.nodes p
  if p ∈ c.members.ids ∧ i < n.forwards.length then
    let n := { n with forwards := n.forwards.eraseIdx i }
    match n.forwardToFollower with
    | none => some (c.put p n)
    | some (n', follower, request) => some ((c.put p n').send p [(follower, request)])
  else none

def checkMentor (c : Cluster) (p mentor : String) : Option Cluster :=
  if p ∈ c.members.ids then
    ((c.nodes p).checkMentorTimeout mentor).map fun (n', message) => (c.put p n').send p message.toList
  else none

def checkFollower (c : Cluster) (p follower : String) (recent : Bool) : Option Cluster :=
  if p ∈ c.members.ids then
    ((c.nodes p).checkFollowerTimeout follower recent).map fun request => c.send p [(follower, request)]
  else none

def deliver (c : Cluster) (i : Nat) (complete : Bool) (keepFrom : Nat) : Option Cluster :=
  match c.calls[i]? with
  | none => none
  | some call =>
    if call.delivered = false ∧ call.dst ∈ c.members.ids then
      let n := c.nodes call.dst
      let (n', reply) := n.handle complete keepFrom call.request
      some (((c.put call.dst n').setCall i { call with delivered := true, reply, wal := n'.log }).record
        (c.history.handled call.dst n call.request reply))
    else none

/-- The call at this position ends for its caller, with a response or without. -/
def finishCall (c : Cluster) (i : Nat) (call : Call) (overloaded : Bool) (reply : Option Response) : Cluster :=
  let n := c.nodes call.src
  let n' := n.onResponse call.dst overloaded call.request reply
  ((c.put call.src n').setCall i { call with waiting := false }).record (c.history.commit call.src n n')

def receive (c : Cluster) (i : Nat) (overloaded : Bool) : Option Cluster :=
  match c.calls[i]? with
  | none => none
  | some call =>
    if call.waiting = true ∧ call.reply.isSome then some (c.finishCall i call overloaded call.reply) else none

def fail (c : Cluster) (i : Nat) (overloaded : Bool) : Option Cluster :=
  match c.calls[i]? with
  | none => none
  | some call => if call.waiting = true then some (c.finishCall i call overloaded none) else none

def clientWrite (codec : CommandCodec) (c : Cluster) (p : String) (r : ClientWriteRequest) : Option Cluster :=
  let n := c.nodes p
  if p ∈ c.members.ids then
    match n.checkClientWrite codec r with
    | .propose e => some (c.put p { n with writes := n.writes ++ [e] })
    | _ => some c
  else none

def propose (codec : CommandCodec) (c : Cluster) (p : String) (i : Nat) : Option Cluster :=
  let n := c.nodes p
  match n.writes[i]? with
  | none => none
  | some e =>
    match { n with writes := n.writes.eraseIdx i }.propose codec e with
    | (n', .error _) => some (c.put p n')
    | (n', .ok _) => some ((c.put p n').record ((c.history.write n').commit p n n'))

def apply (codec : CommandCodec) (c : Cluster) (p : String) (outcome : Except String Unit) : Option Cluster :=
  let n := c.nodes p
  match n.applyCommittedEntry codec outcome with
  | none => none
  | some (n', e) =>
    some ((c.put p n').record { c.history with applied := ⟨p, n.appliedIndex + 1, e⟩ :: c.history.applied })

def step (codec : CommandCodec) (c : Cluster) : Action → Option Cluster
  | .start p => c.start p
  | .startElection p => c.startElection p
  | .finishElection p => c.finishElection p
  | .beginBroadcast p => c.beginBroadcast p
  | .finishBroadcast p round => c.finishBroadcast p round
  | .replicate p peer => c.replicate p peer
  | .forward p i => c.forward p i
  | .checkMentor p mentor => c.checkMentor p mentor
  | .checkFollower p follower recent => c.checkFollower p follower recent
  | .deliver i complete keepFrom => c.deliver i complete keepFrom
  | .receive i overloaded => c.receive i overloaded
  | .fail i overloaded => c.fail i overloaded
  | .rebalance p =>
    if (c.nodes p).state = .leader then (c.nodes p).rebalanceTopology.toOption.map fun n' => c.put p n' else none
  | .recoverWindows p expired =>
    if (c.nodes p).state = .leader then some (c.put p ((c.nodes p).recoverWindows expired)) else none
  | .clientWrite p r => c.clientWrite codec p r
  | .propose p i => c.propose codec p i
  | .apply p outcome => c.apply codec p outcome
  | .saveSnapshot p keepFrom => ((c.nodes p).saveSnapshot keepFrom).map fun n' => c.put p n'
  | .restart p => if p ∈ c.members.ids then some ((c.put p (c.nodes p).restart).dropCalls p) else none

/-- Runs from the first start of all nodes. -/
def run (codec : CommandCodec) (members : Members) (config : String → Config) (schedule : List Action) :
    Option Cluster :=
  Transition.run (step codec) (init members config) schedule

end Cluster

/-- A codec that reads and writes `DeleteCmd` as protobuf does for an id below 128 and a
short ASCII request id. -/
def sampleCodec : CommandCodec where
  serializeUpsert _ := []
  deserializeUpsert _ := .error "protobuf 反序列化失败: UpsertCmd"
  serializeDelete cmd :=
    [8, UInt8.ofNat cmd.id, 18, UInt8.ofNat cmd.requestId.length] ++
      cmd.requestId.toList.map fun ch => UInt8.ofNat ch.toNat
  deserializeDelete
    | 8 :: id :: 18 :: _ :: rest =>
      .ok ⟨id.toNat, String.ofList (rest.map fun b => Char.ofNat b.toNat)⟩
    | _ => .error "protobuf 反序列化失败: DeleteCmd"

def threeNodes : Members := ⟨["A", "B", "C"], by decide, by decide⟩

/-- Every node with the same settings, without snapshots. -/
def plainConfig (batchMaxEntries : Nat) : String → Config := fun p =>
  { nodeId := p, peers := [], snapshotThreshold := 0, batchMaxEntries }

/-- `A` leads term 1 and its entry reaches the mentor `B`, whose thread has yet to run. -/
def mentorServed : List Action :=
  [.startElection "A", .deliver 0 true 0, .receive 0 false, .fail 1 false, .finishElection "A",
    .replicate "A" "B", .deliver 2 true 0, .receive 2 false, .replicate "A" "B", .deliver 3 true 0]

/-- `A` has committed its first entry and writes another one, when `B` takes over. `B` makes
`A` replace that entry and commits its own. -/
def takenOver : List Action :=
  mentorServed ++ [.receive 3 false, .apply "A" (.ok ()),
    .clientWrite "A" { requestId := "x", cmdType := 2, id := 1 }, .propose "A" 0,
    .startElection "B", .deliver 5 true 0, .receive 5 false, .fail 4 false, .finishElection "B",
    .replicate "B" "A", .deliver 6 true 0, .receive 6 false, .replicate "B" "A", .deliver 7 true 0, .receive 7 false,
    .apply "B" (.ok ()), .apply "B" (.ok ()), .beginBroadcast "B", .deliver 8 true 0, .apply "A" (.ok ())]

end RaftVdb
