import RaftVdb.Cluster
import RaftVdb.Frame

/-!
# What a step can do

Many actions only change the bookkeeping of a node and send requests that follow from its
term, its log and its commit index. `Moves` says once what each step can do, so that an
invariant of the cluster is a statement about a dozen moves.
-/

namespace RaftVdb

open Lib

/-- The match index on record for a peer; 0 without a row. -/
def matchIndexOf (t : ProgressTable) (peer : String) : Nat := ((t.find? peer).map PeerProgress.matchIndex).getD 0

section

variable (t : ProgressTable) (peer q : String)

@[simp] theorem matchIndexOf_empty : matchIndexOf ∅ q = 0 := rfl

theorem matchIndexOf_mapValues {f : String → PeerProgress → PeerProgress}
    (hf : ∀ k p, (f k p).matchIndex = p.matchIndex) : matchIndexOf (t.mapValues f) q = matchIndexOf t q := by
  unfold matchIndexOf
  rw [Table.find?_mapValues, Option.map_map]
  congr 2
  funext p
  exact hf q p

theorem matchIndexOf_adjust {f : PeerProgress → PeerProgress} (hf : ∀ p, (f p).matchIndex = p.matchIndex) :
    matchIndexOf (t.adjust peer f) q = matchIndexOf t q := by
  refine matchIndexOf_mapValues t q fun k p => ?_
  split
  · exact hf p
  · rfl

theorem matchIndexOf_modify (f : PeerProgress → PeerProgress) : matchIndexOf (t.modify peer {} f) q =
    if q = peer then (f ((t.find? peer).getD {})).matchIndex else matchIndexOf t q := by
  unfold matchIndexOf
  rw [Table.find?_modify]
  split <;> rfl

theorem matchIndex_getD : ((t.find? peer).getD {}).matchIndex = matchIndexOf t peer := by
  unfold matchIndexOf
  cases t.find? peer <;> rfl

theorem matchIndexOf_modify_same {f : PeerProgress → PeerProgress} (hf : ∀ p, (f p).matchIndex = p.matchIndex) :
    matchIndexOf (t.modify peer {} f) q = matchIndexOf t q := by
  rw [matchIndexOf_modify, hf, matchIndex_getD]
  split
  · next hq => rw [hq]
  · rfl

@[simp] theorem matchIndexOf_failure (restore : Nat) :
    matchIndexOf (updatePeerFailure t peer restore) q = matchIndexOf t q :=
  matchIndexOf_modify_same t peer q fun _ => rfl

@[simp] theorem matchIndexOf_heartbeatAck : matchIndexOf (updatePeerHeartbeatAck t peer) q = matchIndexOf t q :=
  matchIndexOf_modify_same t peer q fun _ => rfl

theorem matchIndexOf_ack (m : Nat) : matchIndexOf (updatePeerAck t peer m) q =
    if q = peer then max (matchIndexOf t q) m else matchIndexOf t q := by
  unfold updatePeerAck
  rw [matchIndexOf_modify]
  split
  · next hq =>
    rw [hq, ← matchIndex_getD]
    rfl
  · rfl

/-- The rows that a new leader starts with. -/
theorem find?_resetPeerProgress (cfg : Config) (topology : TopologyManager) (next : Nat) {p : PeerProgress}
    (h : (resetPeerProgress cfg topology next).find? q = some p) :
    p = { nextIndex := next
          directMode := topology.getRole q = .follower
          effectiveWindowSize := cfg.pipelineWindowSize } := by
  have hfold : ∀ (peers : List String) (t : ProgressTable), (∀ p, t.find? q = some p → p =
        { nextIndex := next
          directMode := topology.getRole q = .follower
          effectiveWindowSize := cfg.pipelineWindowSize }) →
      ∀ p, (peers.foldl (fun progress peer =>
        if peer = "" ∨ peer = cfg.nodeId then progress
        else progress.insert peer
          { nextIndex := next
            directMode := topology.getRole peer = .follower
            effectiveWindowSize := cfg.pipelineWindowSize }) t).find? q = some p → p =
        { nextIndex := next
          directMode := topology.getRole q = .follower
          effectiveWindowSize := cfg.pipelineWindowSize } := by
    intro peers
    induction peers with
    | nil => exact fun t ht => ht
    | cons peer peers ih =>
      intro t ht
      refine ih _ fun p hp => ?_
      dsimp only at hp
      split at hp
      · exact ht p hp
      · rw [Table.find?_insert] at hp
        split at hp
        · next hq =>
          cases hp
          rw [hq]
        · exact ht p hp
  exact hfold cfg.peers ∅ (fun p hp => by cases hp) p h

/-- A new leader starts with match index 0 for everyone. -/
theorem matchIndexOf_reset (cfg : Config) (topology : TopologyManager) (next : Nat) :
    matchIndexOf (resetPeerProgress cfg topology next) q = 0 := by
  unfold matchIndexOf
  cases hrow : (resetPeerProgress cfg topology next).find? q with
  | none => rfl
  | some p =>
    rw [find?_resetPeerProgress q cfg topology next hrow]
    rfl

end

namespace Node

variable {n n' : Node}

theorem matchIndexOf_onFollowerProbed (n : Node) (peer : String) (ctx : FollowerTimeout) (ok overloaded : Bool)
    (q : String) : matchIndexOf (n.onFollowerProbed peer ctx ok overloaded).progress q = matchIndexOf n.progress q := by
  unfold onFollowerProbed
  split
  · split <;> rfl
  split
  · rfl
  split
  · split
    · dsimp only
      rw [matchIndexOf_adjust, matchIndexOf_adjust]
      · exact fun _ => rfl
      · exact fun _ => rfl
    · split
      · rfl
      · exact matchIndexOf_adjust _ _ _ fun _ => rfl
  · rfl

theorem matchIndexOf_onBroadcastResponse (n : Node) (round : Nat) (peer : String) (resp : Option HeartbeatResponse)
    (q : String) : matchIndexOf (n.onBroadcastResponse round peer resp).progress q = matchIndexOf n.progress q := by
  unfold onBroadcastResponse
  split
  · rfl
  · exact matchIndexOf_failure _ _ _ _
  · split
    · rfl
    · split
      · exact matchIndexOf_heartbeatAck _ _ _
      · exact matchIndexOf_failure _ _ _ _

theorem matchIndexOf_onHeartbeatResponse (n : Node) (peer : String) (overloaded : Bool)
    (resp : Option HeartbeatResponse) (caller : HeartbeatCaller) (q : String) :
    matchIndexOf (n.onHeartbeatResponse peer overloaded resp caller).progress q = matchIndexOf n.progress q := by
  cases caller with
  | broadcast round => exact n.matchIndexOf_onBroadcastResponse round peer resp q
  | mentorTimeout =>
    simp only [onHeartbeatResponse]
    split
    · exact matchIndexOf_heartbeatAck _ _ _
    · rfl
  | followerTimeout ctx =>
    simp only [onHeartbeatResponse]
    split
    · rw [matchIndexOf_onFollowerProbed]
      exact matchIndexOf_heartbeatAck _ _ _
    · exact n.matchIndexOf_onFollowerProbed peer ctx false overloaded q

/-- The response acknowledges entries up to an index. -/
inductive Acks : Request → Option Response → Nat → Prop
  | append {caller : AppendCaller} {r : AppendEntriesRequest} {a : AppendEntriesResponse} (h : a.success = true) :
      Acks (.append caller r) (some (.append a)) a.matchIndex
  | install {r : InstallSnapshotRequest} {a : InstallSnapshotResponse} (h : a.success = true) :
      Acks (.install r) (some (.install a)) r.snapshot.raftIndex

/-- What the end of a call can do at the caller. -/
inductive Answers (n : Node) (peer : String) (request : Request) (reply : Option Response) : Node → Prop
  | noted {n' : Node} (hcore : n'.core = n.core) (hmatch : ∀ q, matchIndexOf n'.progress q = matchIndexOf n.progress q) :
      Answers n peer request reply n'
  /-- An acknowledgement is merged; a leader may then commit. -/
  | merged {m : Nat} {n' : Node} (hacks : Acks request reply m) (hcore : n'.core = n.core)
      (hmatch : ∀ q, matchIndexOf n'.progress q =
        if q = peer then max (matchIndexOf n.progress q) m else matchIndexOf n.progress q) :
      Answers n peer request reply n'
  | committed {m : Nat} {n' : Node} (hacks : Acks request reply m) (hstate : n.state = .leader) (hcore : n'.core = n.core)
      (hmatch : ∀ q, matchIndexOf n'.progress q =
        if q = peer then max (matchIndexOf n.progress q) m else matchIndexOf n.progress q) :
      Answers n peer request reply n'.maybeCommit
  | newer {term : Nat} (hlt : n.currentTerm < term) : Answers n peer request reply (n.stepDown term)
  | counted {e e' : Election} (he : n.election = some e) (hterm : e'.term = e.term) :
      Answers n peer request reply { n with election := some e' }

theorem onAppendResponse_answers (n : Node) (peer : String) (overloaded : Bool) (r : AppendEntriesRequest)
    (resp : Option AppendEntriesResponse) (caller : AppendCaller) :
    Answers n peer (.append caller r) (resp.map .append) (n.onAppendResponse peer overloaded r resp caller) := by
  cases caller with
  | replicate =>
    simp only [onAppendResponse]
    cases resp with
    | none => exact .noted rfl (matchIndexOf_failure _ _ · _)
    | some a =>
      simp only [onReplicateResponse]
      split
      · next hlt => exact .newer hlt
      · split
        · exact .noted rfl fun _ => rfl
        · next hstate =>
          split
          · next hok => exact .committed (.append hok) (by simpa using hstate) rfl (matchIndexOf_ack _ _ · _)
          · exact .noted rfl (matchIndexOf_adjust _ _ · fun p => matchIndex_rejectPeer _ _ _ _)
  | forward =>
    simp only [onAppendResponse]
    cases resp with
    | none => exact .noted rfl (matchIndexOf_failure _ _ · _)
    | some a =>
      simp only [onForwardResponse]
      split
      · next hlt => exact .newer hlt
      · split
        · next hok => exact .merged (.append hok) rfl (matchIndexOf_ack _ _ · _)
        · exact .noted rfl (matchIndexOf_modify_same _ _ · fun p => matchIndex_rejectPeer _ _ _ _)
  | followerTimeout ctx =>
    have hprobed : ∀ ok, Answers n peer (.append (.followerTimeout ctx) r) (resp.map .append)
        (n.onFollowerProbed peer ctx ok overloaded) := fun ok =>
      .noted (core_onFollowerProbed n peer ctx ok overloaded) (n.matchIndexOf_onFollowerProbed peer ctx ok overloaded)
    simp only [onAppendResponse]
    cases resp with
    | none => exact hprobed false
    | some a =>
      simp only
      split
      · next hok =>
        refine .merged (.append hok) (core_onFollowerProbed _ peer ctx true overloaded) fun q => ?_
        rw [matchIndexOf_onFollowerProbed]
        exact matchIndexOf_ack _ _ _ _
      · exact hprobed false

theorem onInstallResponse_answers (n : Node) (peer : String) (r : InstallSnapshotRequest)
    (resp : Option InstallSnapshotResponse) :
    Answers n peer (.install r) (resp.map .install) (n.onInstallResponse peer r.snapshot resp) := by
  cases resp with
  | none => exact .noted rfl (matchIndexOf_failure _ _ · _)
  | some a =>
    simp only [onInstallResponse]
    split
    · next hlt => exact .newer hlt
    · split
      · next hok => exact .merged (.install hok) rfl (matchIndexOf_ack _ _ · _)
      · exact .noted rfl fun _ => rfl

theorem Answers.of_none {peer : String} {request : Request} {reply : Option Response}
    (h : Answers n peer request none n') : Answers n peer request reply n' := by
  cases h with
  | noted hcore hmatch => exact .noted hcore hmatch
  | merged hacks => cases hacks
  | committed hacks => cases hacks
  | newer hlt => exact .newer hlt
  | counted he hterm => exact .counted he hterm

theorem onResponse_answers (n : Node) (peer : String) (overloaded : Bool) (request : Request) (reply : Option Response) :
    Answers n peer request reply (n.onResponse peer overloaded request reply) := by
  have hheartbeat : ∀ a caller r, Answers n peer (.heartbeat caller r) reply (n.onHeartbeatResponse peer overloaded a caller) :=
    fun a caller r => .noted (core_onHeartbeatResponse n peer overloaded a caller)
      (n.matchIndexOf_onHeartbeatResponse peer overloaded a caller)
  unfold onResponse
  split
  · next r resp =>
    unfold onVoteResponse
    split
    · exact .noted rfl fun _ => rfl
    · next e he =>
      split
      · exact .counted he rfl
      · exact .noted rfl fun _ => rfl
  · exact .noted rfl fun _ => rfl
  · exact hheartbeat _ _ _
  · exact hheartbeat _ _ _
  · next caller r resp => exact n.onAppendResponse_answers peer overloaded r (some resp) caller
  · next caller r _ => exact .of_none (n.onAppendResponse_answers peer overloaded r none caller)
  · next r resp => exact n.onInstallResponse_answers peer r (some resp)
  · next r _ => exact .of_none (n.onInstallResponse_answers peer r none)

/-- A request that follows from the state of a leader. -/
inductive Sends (n : Node) : String × Request → Prop
  | heartbeat (peer : String) (caller : HeartbeatCaller) (info : TopologyInfo) :
      Sends n (peer, .heartbeat caller ⟨n.currentTerm, n.selfId, n.commitIndex, info⟩)
  | append {peer : String} {caller : AppendCaller} {r : AppendEntriesRequest} (hpeer : peer ≠ n.selfId)
      (hcaller : caller ≠ .forward) (hr : n.Carries r) (hleader : r.leaderId = n.selfId) (hsender : r.senderId = n.selfId ∨ r.senderId = "") :
      Sends n (peer, .append caller r)
  | install {peer : String} {s : Snapshot} (hs : n.snapshot = some s) : Sends n (peer, .install ⟨n.currentTerm, s⟩)

/-- A request that follows from the state of any node. -/
inductive Forwards (n : Node) : String × Request → Prop
  | append {peer : String} {r : AppendEntriesRequest} (hr : n.Carries r) (hleader : r.leaderId = n.leaderId)
      (hsender : r.senderId = n.selfId) : Forwards n (peer, .append .forward r)
  | install {peer : String} {s : Snapshot} (hs : n.snapshot = some s) : Forwards n (peer, .install ⟨n.currentTerm, s⟩)

/-- How an election ends. -/
inductive Concludes (n : Node) (e : Election) : Node → Prop
  | idle : Concludes n e { n with election := none }
  | newer (hlt : e.term < e.highestTerm) : Concludes n e ({ n with election := none }.stepDown e.highestTerm)
  | failed {n' : Node} (hstate : n.state = .candidate)
      (hcore : n'.core = { n.firstTerm with election := none, leaderId := n.firstTerm.selfId }.core) : Concludes n e n'
  | won {m : Node} {log : IndexedLog} (hstate : n.state = .candidate) (hterm : n.currentTerm = e.term)
      (hquorum : quorumSize n.config.peers ≤ e.grantedVotes)
      (hlog : n.firstTerm.log.append
        { noopEntry with index := n.firstTerm.logicalLastIndex + 1, term := n.firstTerm.currentTerm } = .ok log)
      (hcore : m.core = { n.firstTerm with election := none, leaderId := n.firstTerm.selfId, log, state := .leader }.core)
      (hmatch : ∀ q, matchIndexOf m.progress q = 0) : Concludes n e m.maybeCommit

theorem firstTerm_election (n : Node) (e : Option Election) :
    firstTerm { n with election := e } = { n.firstTerm with election := e } := by
  unfold firstTerm
  dsimp only
  split <;> rfl

theorem finishElection_concludes (n : Node) (e : Election) : Concludes n e (n.finishElection e) := by
  unfold finishElection
  dsimp only
  split
  · next hlt => exact .newer hlt
  split
  · exact .idle
  next hcase =>
  simp only [not_or, ne_eq, not_not] at hcase
  obtain ⟨hstate, hterm⟩ := hcase
  split
  swap
  · exact .idle
  next hquorum =>
  have hlead := Node.becomeLeader_cases { n with election := none }
  rw [firstTerm_election] at hlead
  rcases hlead with ⟨err, herr, hcore⟩ | ⟨log, hlog, hok, hcore, topology, next, hprogress⟩
  · split
    · next heq =>
      rw [heq] at hcore
      exact .failed hstate hcore
    · next heq =>
      rw [heq] at herr
      cases herr
  · split
    · next heq =>
      rw [heq] at hok
      cases hok
    · next m _ heq =>
      rw [heq] at hcore hprogress
      refine .won hstate hterm hquorum hlog hcore fun q => ?_
      dsimp only at hprogress
      rw [hprogress]
      exact matchIndexOf_reset q _ _ _

/-- The first term of a node that has none. -/
theorem firstTerm_spec (n : Node) : n.firstTerm.config = n.config ∧ n.firstTerm.log = n.log ∧
    n.firstTerm.forwards = n.forwards ∧ n.currentTerm ≤ n.firstTerm.currentTerm ∧ n.firstTerm.snapshot = n.snapshot ∧
    n.firstTerm.lastSnapshotIndex = n.lastSnapshotIndex ∧ n.firstTerm.snapshotTask = n.snapshotTask ∧
    n.firstTerm.state = n.state := by
  unfold firstTerm
  split
  · exact ⟨rfl, rfl, rfl, by simp [*], rfl, rfl, rfl, rfl⟩
  · exact ⟨rfl, rfl, rfl, le_refl _, rfl, rfl, rfl, rfl⟩

end Node

namespace Cluster

@[simp] theorem send_nil (c : Cluster) (p : String) : c.send p [] = c := by simp [send]

@[simp] theorem put_same (c : Cluster) (p : String) : c.put p (c.nodes p) = c := by simp [put]

/-- A step, by what it does. -/
inductive Moves (codec : CommandCodec) (c : Cluster) : Action → Cluster → Prop
  /-- Bookkeeping, and requests that a leader sends. -/
  | work {a : Action} {p : String} {n' : Node} {messages : List (String × Request)}
      (hcore : n'.core = (c.nodes p).core)
      (hmatch : ∀ q, matchIndexOf n'.progress q = matchIndexOf (c.nodes p).progress q)
      (hsends : ∀ m ∈ messages, p ∈ c.members.ids ∧ (c.nodes p).state = .leader ∧
        ((c.nodes p).selfId = p → (c.nodes p).Sends m)) :
      Moves codec c a ((c.put p n').send p messages)
  | forward {p : String} {i : Nat} {copy : AppendEntriesRequest} {n' : Node} {messages : List (String × Request)}
      (hmem : p ∈ c.members.ids) (hcopy : (c.nodes p).forwards[i]? = some copy)
      (hcore : n'.core = { c.nodes p with forwards := (c.nodes p).forwards.eraseIdx i }.core)
      (hmatch : ∀ q, matchIndexOf n'.progress q = matchIndexOf (c.nodes p).progress q)
      (hsends : ∀ m ∈ messages,
        (c.nodes p).Forwards m ∧ (c.nodes p).topology.getFollowerOf (c.nodes p).selfId ≠ none) :
      Moves codec c (.forward p i) ((c.put p n').send p messages)
  /-- A heartbeat round has met a newer term. -/
  | fall {a : Action} {p : String} {n' : Node} {term : Nat} (hle : (c.nodes p).currentTerm ≤ term)
      (hcore : n'.core = ((c.nodes p).followed term "").core) (hmatch : ∀ q, matchIndexOf n'.progress q = 0) :
      Moves codec c a (c.put p n')
  | stand {p : String} {n' : Node} (hmem : p ∈ c.members.ids) (hstate : (c.nodes p).state ≠ .leader)
      (helection : (c.nodes p).election = none)
      (hn' : n' = { (c.nodes p).becomeCandidate with
        election := some { term := (c.nodes p).currentTerm + 1, highestTerm := (c.nodes p).currentTerm + 1 } }) :
      Moves codec c (.startElection p)
        (((c.put p n').send p (n'.config.peers.map fun peer => (peer, .vote n'.requestVote))).record
          (c.history.stand p n'))
  | lose {p : String} {e : Election} {n' : Node} (he : (c.nodes p).election = some e)
      (hn' : (c.nodes p).Concludes e n') (hlost : ¬ ((c.nodes p).state = .candidate ∧ n'.state = .leader)) :
      Moves codec c (.finishElection p) (c.put p n')
  | win {p : String} {e : Election} {m : Node} {log : IndexedLog} (he : (c.nodes p).election = some e)
      (hstate : (c.nodes p).state = .candidate) (hterm : (c.nodes p).currentTerm = e.term)
      (hquorum : quorumSize (c.nodes p).config.peers ≤ e.grantedVotes)
      (hlog : (c.nodes p).firstTerm.log.append { Node.noopEntry with
        index := (c.nodes p).firstTerm.logicalLastIndex + 1
        term := (c.nodes p).firstTerm.currentTerm } = .ok log)
      (hcore : m.core = { (c.nodes p).firstTerm with
        election := none
        leaderId := (c.nodes p).firstTerm.selfId
        log
        state := .leader }.core)
      (hmatch : ∀ q, matchIndexOf m.progress q = 0) :
      Moves codec c (.finishElection p)
        ((c.put p m.maybeCommit).record ((c.history.lead p m).commit p m m.maybeCommit))
  /-- A node without peers makes itself leader. -/
  | boot {p : String} {m : Node} {log : IndexedLog} (hmem : p ∈ c.members.ids) (hpeers : (c.nodes p).config.peers = [])
      (hstate : (c.nodes p).state ≠ .leader)
      (hlog : (c.nodes p).firstTerm.log.append { Node.noopEntry with
        index := (c.nodes p).firstTerm.logicalLastIndex + 1
        term := (c.nodes p).firstTerm.currentTerm } = .ok log)
      (hcore : m.core = { (c.nodes p).firstTerm with
        leaderId := (c.nodes p).firstTerm.selfId
        log
        state := .leader }.core)
      (hmatch : ∀ q, matchIndexOf m.progress q = 0) :
      Moves codec c (.start p) ((c.put p m.maybeCommit).record
        (((if (c.nodes p).currentTerm = 0 then c.history.stand p (c.nodes p).firstTerm else c.history).lead p m).commit
          p m m.maybeCommit))
  | crash {p : String} {m : Node} (hmem : p ∈ c.members.ids) (hpeers : (c.nodes p).config.peers = [])
      (hcore : m.core = { (c.nodes p).firstTerm with leaderId := (c.nodes p).firstTerm.selfId }.core) :
      Moves codec c (.start p) (((c.put p m.restart).dropCalls p).record
        (if (c.nodes p).currentTerm = 0 then c.history.stand p (c.nodes p).firstTerm else c.history))
  | deliver {i : Nat} {complete : Bool} {keepFrom : Nat} {call : Call} (hcall : c.calls[i]? = some call)
      (hnew : call.delivered = false) (hdst : call.dst ∈ c.members.ids) :
      Moves codec c (.deliver i complete keepFrom)
        (((c.put call.dst ((c.nodes call.dst).handle complete keepFrom call.request).1).setCall i
            { call with
              delivered := true
              reply := ((c.nodes call.dst).handle complete keepFrom call.request).2
              wal := ((c.nodes call.dst).handle complete keepFrom call.request).1.log }).record
          (c.history.handled call.dst (c.nodes call.dst) call.request
            ((c.nodes call.dst).handle complete keepFrom call.request).2))
  | answer {a : Action} {i : Nat} {call : Call} {overloaded : Bool} {reply : Option Response} {n' : Node}
      (hcall : c.calls[i]? = some call) (hwaiting : call.waiting = true)
      (ha : (a = .receive i overloaded ∧ reply = call.reply) ∨ (a = .fail i overloaded ∧ reply = none))
      (hn' : (c.nodes call.src).Answers call.dst call.request reply n') :
      Moves codec c a (((c.put call.src n').setCall i { call with waiting := false }).record
        (c.history.commit call.src (c.nodes call.src) n'))
  | propose {p : String} {i : Nat} {e : LogEntry} {n' : Node} {log : IndexedLog}
      (hwrite : (c.nodes p).writes[i]? = some e) (hstate : (c.nodes p).state = .leader)
      (hlog : (c.nodes p).log.append
        { e with index := (c.nodes p).logicalLastIndex + 1, term := (c.nodes p).currentTerm } = .ok log)
      (hcore : n'.core = { c.nodes p with
        log
        commitIndex := if quorumSize (c.nodes p).config.peers = 1 then (c.nodes p).logicalLastIndex + 1
          else (c.nodes p).commitIndex }.core)
      (hprogress : n'.progress = (c.nodes p).progress) :
      Moves codec c (.propose p i)
        ((c.put p n').record ((c.history.write n').commit p (c.nodes p) n'))
  | apply {p : String} {outcome : Except String Unit} {n' : Node} {e : LogEntry} {task : Option SnapshotTask}
      (hlt : (c.nodes p).appliedIndex < (c.nodes p).commitIndex)
      (hread : (c.nodes p).log.read ((c.nodes p).appliedIndex + 1) = .ok e)
      (htask : (c.nodes p).config.snapshotThreshold = 0 → task = (c.nodes p).snapshotTask)
      (hcore : n'.core = { c.nodes p with
        executed := (c.nodes p).executed ++ (e.command codec).toList
        appliedIndex := (c.nodes p).appliedIndex + 1
        snapshotTask := task }.core)
      (hprogress : n'.progress = (c.nodes p).progress) :
      Moves codec c (.apply p outcome)
        ((c.put p n').record { c.history with applied := ⟨p, (c.nodes p).appliedIndex + 1, e⟩ :: c.history.applied })
  | saveSnapshot {p : String} {keepFrom : Nat} {n' : Node} (hn' : (c.nodes p).saveSnapshot keepFrom = some n') :
      Moves codec c (.saveSnapshot p keepFrom) (c.put p n')
  | restart {p : String} (hmem : p ∈ c.members.ids) :
      Moves codec c (.restart p) ((c.put p (c.nodes p).restart).dropCalls p)

variable {codec : CommandCodec} {c c' : Cluster}

/-- Bookkeeping without messages. -/
theorem Moves.quiet {a : Action} {p : String} {n' : Node} (hcore : n'.core = (c.nodes p).core)
    (hmatch : ∀ q, matchIndexOf n'.progress q = matchIndexOf (c.nodes p).progress q) : Moves codec c a (c.put p n') := by
  have hmove : Moves codec c a ((c.put p n').send p []) := .work hcore hmatch (by simp)
  rwa [send_nil] at hmove

theorem moves_start {p : String} (h : c.start p = some c') : Moves codec c (.start p) c' := by
  unfold start at h
  dsimp only at h
  split at h
  swap
  · cases h
  next hguard =>
  obtain ⟨hmem, hpeers, hstate⟩ := hguard
  rcases (c.nodes p).becomeLeader_cases with ⟨err, herr, hcore⟩ | ⟨log, hlog, hok, hcore, topology, next, hprogress⟩
  · split at h
    · next heq =>
      cases h
      rw [heq] at hcore
      exact .crash hmem hpeers hcore
    · next heq =>
      rw [heq] at herr
      cases herr
  · split at h
    · next heq =>
      rw [heq] at hok
      cases hok
    · next m _ heq =>
      cases h
      rw [heq] at hcore hprogress
      refine .boot hmem hpeers hstate hlog hcore fun q => ?_
      dsimp only at hprogress
      rw [hprogress]
      exact matchIndexOf_reset q _ _ _

theorem lead_maybeCommit (h : History) (p : String) (m : Node) : h.lead p m.maybeCommit = h.lead p m := by
  rcases m.maybeCommit_cases with heq | ⟨k, -, -, -, -, -, heq⟩
  · rw [heq]
  · rw [heq]
    rfl

theorem commit_congr (h : History) (p : String) {n m n' : Node} (heq : n.commitIndex = m.commitIndex) :
    h.commit p n n' = h.commit p m n' := by
  unfold History.commit
  rw [heq]

theorem moves_finishElection {p : String} (h : c.finishElection p = some c') :
    Moves codec c (.finishElection p) c' := by
  unfold finishElection at h
  dsimp only at h
  cases he : (c.nodes p).election with
  | none =>
    rw [he] at h
    cases h
  | some e =>
    rw [he] at h
    dsimp only at h
    split at h
    swap
    · cases h
    cases h
    have hn := (c.nodes p).finishElection_concludes e
    split
    swap
    · next hlost => exact .lose he hn hlost
    next hwon =>
    generalize (c.nodes p).finishElection e = n' at hn hwon
    cases hn with
    | idle => exact absurd (hwon.1.symm.trans hwon.2) (by decide)
    | newer hlt =>
      rcases Node.stepDown_cases { c.nodes p with election := none } e.highestTerm with ⟨-, heq⟩ | ⟨-, hcore, -⟩
      · rw [heq] at hwon
        exact absurd (hwon.1.symm.trans hwon.2) (by decide)
      · have hstate : _ = RaftState.follower := Node.eq_of_core Node.state (fun _ => rfl) hcore
        exact absurd (hstate.symm.trans hwon.2) (by decide)
    | failed hstate hcore =>
      have hstate' := Node.eq_of_core Node.state (fun _ => rfl) hcore
      have hfirst : (c.nodes p).firstTerm.state = (c.nodes p).state := by
        unfold Node.firstTerm
        split <;> rfl
      exact absurd ((hfirst.trans hwon.1).symm.trans (hstate'.symm.trans hwon.2)) (by decide)
    | won hstate hterm hquorum hlog hcore hmatch =>
      have hcommit : (c.nodes p).firstTerm.commitIndex = (c.nodes p).commitIndex := by
        unfold Node.firstTerm
        split <;> rfl
      rw [lead_maybeCommit, commit_congr _ p
        (hcommit.symm.trans (Node.eq_of_core Node.commitIndex (fun _ => rfl) hcore).symm)]
      exact .win he hstate hterm hquorum hlog hcore hmatch

theorem moves_forward {p : String} {i : Nat} (h : c.forward p i = some c') : Moves codec c (.forward p i) c' := by
  unfold forward at h
  dsimp only at h
  split at h
  swap
  · cases h
  next hguard =>
  have hcopy : (c.nodes p).forwards[i]? = some (c.nodes p).forwards[i] := List.getElem?_eq_getElem hguard.2
  split at h
  · cases h
    have hmove : Moves codec c (.forward p i)
        ((c.put p { c.nodes p with forwards := (c.nodes p).forwards.eraseIdx i }).send p []) :=
      .forward hguard.1 hcopy rfl (fun _ => rfl) (by simp)
    rwa [send_nil] at hmove
  · next n' follower request hn' =>
    cases h
    have hfollower : (c.nodes p).topology.getFollowerOf (c.nodes p).selfId ≠ none := by
      obtain ⟨⟨info, hinfo⟩, -⟩ := Node.forwardToFollower_eq_some hn'
      exact Option.ne_none_iff_exists'.mpr ⟨_, hinfo⟩
    obtain ⟨hcore, ⟨s, hs, hprogress, rfl⟩ | ⟨r, k, rfl, hcarries, hleader, hsender, hprogress⟩⟩ :=
      Node.forwardToFollower_cases hn'
    · refine .forward hguard.1 hcopy hcore (fun q => by rw [hprogress]) fun m hm => ?_
      obtain rfl := List.mem_singleton.mp hm
      exact ⟨.install hs, hfollower⟩
    · refine .forward hguard.1 hcopy hcore (fun q => ?_) fun m hm => ?_
      · rw [hprogress]
        exact matchIndexOf_modify_same _ _ _ fun _ => rfl
      · obtain rfl := List.mem_singleton.mp hm
        exact ⟨.append ⟨hcarries.term, hcarries.leaderCommit, hcarries.piece⟩ hleader hsender, hfollower⟩

theorem moves_replicate {p peer : String} (h : c.replicate p peer = some c') :
    Moves codec c (.replicate p peer) c' := by
  unfold replicate at h
  split at h
  swap
  · cases h
  next hguard =>
  obtain ⟨⟨n', request⟩, hn', rfl⟩ := Option.map_eq_some_iff.mp h
  obtain ⟨hstate, hcore, ⟨s, hs, hprogress, rfl⟩ | ⟨r, k, rfl, hcarries, hleader, hsender, hprogress⟩⟩ :=
    Node.replicatePeerOnce_cases hn'
  · refine .work hcore (fun q => by rw [hprogress]) fun m hm => ⟨hguard.1, hstate, fun _ => ?_⟩
    obtain rfl := List.mem_singleton.mp hm
    exact .install hs
  · refine .work hcore (fun q => ?_) fun m hm => ⟨hguard.1, hstate, fun hid => ?_⟩
    · rw [hprogress]
      exact matchIndexOf_adjust _ _ _ fun _ => rfl
    · obtain rfl := List.mem_singleton.mp hm
      exact .append (by rw [hid]; exact hguard.2) (by simp) hcarries hleader (.inl hsender)

theorem moves_checkMentor {p mentor : String} (h : c.checkMentor p mentor = some c') :
    Moves codec c (.checkMentor p mentor) c' := by
  unfold checkMentor at h
  split at h
  swap
  · cases h
  next hmem =>
  obtain ⟨⟨n', message⟩, hn', rfl⟩ := Option.map_eq_some_iff.mp h
  obtain ⟨hstate, hcore, hprogress, hmessage⟩ := Node.checkMentorTimeout_cases hn'
  refine .work hcore (fun q => ?_) fun m hm => ⟨hmem, hstate, fun _ => ?_⟩
  · rw [hprogress]
    exact matchIndexOf_failure _ _ _ _
  · obtain ⟨peer, request⟩ := m
    obtain ⟨info, rfl⟩ := hmessage _ (Option.mem_toList.mp hm)
    exact .heartbeat peer .mentorTimeout info

theorem moves_checkFollower {p follower : String} {recent : Bool} (h : c.checkFollower p follower recent = some c') :
    Moves codec c (.checkFollower p follower recent) c' := by
  unfold checkFollower at h
  split at h
  swap
  · cases h
  next hmem =>
  obtain ⟨request, hrequest, rfl⟩ := Option.map_eq_some_iff.mp h
  obtain ⟨hstate, hne, hcases⟩ := Node.checkFollowerTimeout_cases hrequest
  have hmove : Moves codec c (.checkFollower p follower recent)
      ((c.put p (c.nodes p)).send p [(follower, request)]) := by
    refine .work rfl (fun _ => rfl) fun m hm => ⟨hmem, hstate, fun _ => ?_⟩
    obtain rfl := List.mem_singleton.mp hm
    rcases hcases with ⟨ctx, info, rfl⟩ | ⟨ctx, r, rfl, hcarries, hleader, hsender⟩
    · exact .heartbeat follower _ info
    · exact .append hne (by simp) hcarries hleader (.inr hsender)
  rwa [put_same] at hmove

theorem moves_beginBroadcast {p : String} (h : c.beginBroadcast p = some c') :
    Moves codec c (.beginBroadcast p) c' := by
  unfold beginBroadcast at h
  dsimp only at h
  split at h
  swap
  · cases h
  next hguard =>
  cases h
  refine .work rfl (fun _ => rfl) fun m hm => ⟨hguard.1, hguard.2, fun _ => ?_⟩
  obtain ⟨peer, -, rfl⟩ := List.mem_map.mp hm
  exact .heartbeat peer _ _

theorem moves_finishBroadcast {p : String} {round : Nat} (h : c.finishBroadcast p round = some c') :
    Moves codec c (.finishBroadcast p round) c' := by
  unfold finishBroadcast at h
  dsimp only at h
  split at h
  · cases h
  next b _ =>
  split at h
  swap
  · cases h
  cases h
  unfold Node.finishBroadcast
  dsimp only
  split
  swap
  · exact .quiet rfl fun _ => rfl
  rcases Node.stepDown_cases { c.nodes p with rounds := (c.nodes p).rounds.erase round } b.highestTerm with
    ⟨-, heq⟩ | ⟨hle, hcore, hprogress⟩
  · rw [heq]
    exact .quiet rfl fun _ => rfl
  · exact .fall hle hcore fun q => by rw [hprogress]; rfl

theorem moves_finishCall {a : Action} {i : Nat} {call : Call} {overloaded : Bool} {reply : Option Response}
    (hcall : c.calls[i]? = some call) (hwaiting : call.waiting = true)
    (ha : (a = .receive i overloaded ∧ reply = call.reply) ∨ (a = .fail i overloaded ∧ reply = none)) :
    Moves codec c a (c.finishCall i call overloaded reply) :=
  .answer hcall hwaiting ha ((c.nodes call.src).onResponse_answers call.dst overloaded call.request reply)

theorem moves_propose {p : String} {i : Nat} (h : c.propose codec p i = some c') : Moves codec c (.propose p i) c' := by
  unfold propose at h
  dsimp only at h
  split at h
  · cases h
  next e he =>
  rcases Node.propose_cases codec { c.nodes p with writes := (c.nodes p).writes.eraseIdx i } e with
    ⟨err, heq⟩ | ⟨log, hstate, hlog, hok, hprogress, hcore⟩
  · rw [heq] at h
    cases h
    exact .quiet rfl fun _ => rfl
  · split at h
    · next heq =>
      rw [heq] at hok
      cases hok
    · next n' _ heq =>
      cases h
      rw [heq] at hcore hprogress
      exact .propose he hstate hlog hcore hprogress

/-- Every step is a move. -/
theorem moves_of_step {a : Action} (h : c.step codec a = some c') : Moves codec c a c' := by
  cases a with
  | start p => exact moves_start h
  | startElection p =>
    simp only [step, startElection] at h
    split at h
    · next hguard =>
      cases h
      exact .stand hguard.1 hguard.2.1 hguard.2.2 rfl
    · cases h
  | finishElection p => exact moves_finishElection h
  | beginBroadcast p => exact moves_beginBroadcast h
  | finishBroadcast p round => exact moves_finishBroadcast h
  | replicate p peer => exact moves_replicate h
  | forward p i => exact moves_forward h
  | checkMentor p mentor => exact moves_checkMentor h
  | checkFollower p follower recent => exact moves_checkFollower h
  | deliver i complete keepFrom =>
    simp only [step, deliver] at h
    split at h
    · cases h
    next call hcall =>
    split at h
    · next hguard =>
      cases h
      exact .deliver hcall hguard.1 hguard.2
    · cases h
  | receive i overloaded =>
    simp only [step, receive] at h
    split at h
    · cases h
    next call hcall =>
    split at h
    · next hguard =>
      cases h
      exact moves_finishCall hcall hguard.1 (.inl ⟨rfl, rfl⟩)
    · cases h
  | fail i overloaded =>
    simp only [step, fail] at h
    split at h
    · cases h
    next call hcall =>
    split at h
    · next hwaiting =>
      cases h
      exact moves_finishCall hcall hwaiting (.inr ⟨rfl, rfl⟩)
    · cases h
  | rebalance p =>
    simp only [step] at h
    split at h
    · obtain ⟨n', hn', rfl⟩ := Option.map_eq_some_iff.mp h
      cases hrebalance : (c.nodes p).rebalanceTopology with
      | error err =>
        rw [hrebalance] at hn'
        cases hn'
      | ok m =>
        rw [hrebalance] at hn'
        cases hn'
        refine .quiet (Node.core_rebalanceTopology hrebalance) fun q => ?_
        unfold Node.rebalanceTopology at hrebalance
        split at hrebalance
        · cases hrebalance
        · cases hrebalance
          exact matchIndexOf_mapValues _ _ fun _ _ => rfl
    · cases h
  | recoverWindows p expired =>
    simp only [step] at h
    split at h
    · cases h
      refine .quiet rfl fun q => matchIndexOf_mapValues _ _ fun _ _ => ?_
      split <;> rfl
    · cases h
  | clientWrite p r =>
    simp only [step, clientWrite] at h
    split at h
    · split at h
      · cases h
        exact .quiet rfl fun _ => rfl
      · cases h
        have hmove : Moves codec c (.clientWrite p r) (c.put p (c.nodes p)) := .quiet rfl fun _ => rfl
        rwa [put_same] at hmove
    · cases h
  | propose p i => exact moves_propose h
  | apply p outcome =>
    simp only [step, apply] at h
    split at h
    · cases h
    next n' e hn' =>
    cases h
    obtain ⟨hlt, hread, hprogress, task, htask, hcore⟩ := Node.applyCommittedEntry_cases hn'
    exact .apply hlt hread htask hcore hprogress
  | saveSnapshot p keepFrom =>
    obtain ⟨n', hn', rfl⟩ := Option.map_eq_some_iff.mp h
    exact .saveSnapshot hn'
  | restart p =>
    simp only [step] at h
    split at h
    · next hmem =>
      cases h
      exact .restart hmem
    · cases h

end Cluster

/-! ## What never changes -/

namespace Node

variable {n n' : Node}

theorem config_of_core {m : Node} (h : n'.core = m.core) (hm : m.config = n.config) : n'.config = n.config :=
  (eq_of_core Node.config (fun _ => rfl) h).trans hm

@[simp] theorem config_maybeCommit (n : Node) : n.maybeCommit.config = n.config := by
  rcases n.maybeCommit_cases with heq | ⟨k, -, -, -, -, -, heq⟩ <;> rw [heq]

@[simp] theorem config_stepDown (n : Node) (term : Nat) : (n.stepDown term).config = n.config := by
  rcases n.stepDown_cases term with ⟨-, heq⟩ | ⟨-, hcore, -⟩
  · rw [heq]
  · exact config_of_core hcore rfl

@[simp] theorem config_firstTerm (n : Node) : n.firstTerm.config = n.config := by
  unfold firstTerm
  split <;> rfl

@[simp] theorem config_advanceCommit (n : Node) (k : Nat) : (n.advanceCommit k).config = n.config := by
  rcases n.advanceCommit_cases k with ⟨heq, -⟩ | ⟨-, heq⟩ <;> rw [heq]

@[simp] theorem config_dispatchForward (n : Node) (r : AppendEntriesRequest) :
    (n.dispatchForward r).config = n.config := by
  rcases n.dispatchForward_cases r with heq | heq <;> rw [heq]

theorem config_handleRequestVote (n : Node) (r : RequestVoteRequest) : (n.handleRequestVote r).1.config = n.config := by
  unfold handleRequestVote
  split
  · rfl
  split
  · rfl
  next m hm =>
  have hconfig : m.config = n.config := by
    split at hm
    · exact config_of_core (becomeFollower_eq_ok hm).2.1 rfl
    · cases hm
      rfl
  split
  · exact hconfig
  · exact hconfig

theorem config_handleHeartbeat (n : Node) (r : HeartbeatRequest) : (n.handleHeartbeat r).1.config = n.config := by
  rcases n.handleHeartbeat_cases r with ⟨-, heq⟩ | ⟨-, m, hcore, ⟨err, heq⟩ | heq⟩
  · rw [heq]
  · rw [heq]
    exact config_of_core hcore (noted_config n r.leaderId)
  · rw [heq, config_advanceCommit]
    exact config_of_core hcore (noted_config n r.leaderId)

theorem config_handleAppendEntries (n : Node) (r : AppendEntriesRequest) :
    (n.handleAppendEntries r).1.config = n.config := by
  rcases n.handleAppendEntries_cases r with ⟨-, heq, -⟩ | ⟨-, m, hcore, ⟨heq, -⟩ | ⟨-, -, heq⟩⟩
  · rw [heq]
  · rw [heq]
    exact config_of_core hcore (noted_config n r.leaderId)
  · rw [heq]
    refine Eq.trans ?_ (config_of_core (n := n) hcore (noted_config n r.leaderId))
    rcases m.finishAppend_cases r with ⟨err, -, hfin⟩ | ⟨-, hfin, -⟩
    · rw [hfin]
    · rw [hfin, config_dispatchForward, config_advanceCommit]

theorem config_handleInstallSnapshot (n : Node) (r : InstallSnapshotRequest) (complete : Bool) (keepFrom : Nat) :
    (n.handleInstallSnapshot r complete keepFrom).1.config = n.config := by
  rcases n.handleInstallSnapshot_cases r complete keepFrom with heq | ⟨m, hm, hres⟩
  · rw [heq]
  have hconfig : m.config = n.config := by
    rcases hm with rfl | ⟨term, -, hcore⟩
    · rfl
    · exact config_of_core hcore rfl
  rcases hres with heq | heq
  · rw [heq, hconfig]
  · rw [heq, ← hconfig]
    unfold applyInstalledSnapshot
    dsimp only
    split <;> rfl

@[simp] theorem config_handle (n : Node) (complete : Bool) (keepFrom : Nat) (request : Request) :
    (n.handle complete keepFrom request).1.config = n.config := by
  cases request with
  | vote r => exact n.config_handleRequestVote r
  | heartbeat caller r => exact n.config_handleHeartbeat r
  | append caller r => exact n.config_handleAppendEntries r
  | install r => exact n.config_handleInstallSnapshot r complete keepFrom

theorem Answers.config {peer : String} {request : Request} {reply : Option Response}
    (h : n.Answers peer request reply n') : n'.config = n.config := by
  cases h with
  | noted hcore => exact config_of_core hcore rfl
  | merged _ hcore => exact config_of_core hcore rfl
  | committed _ _ hcore => rw [config_maybeCommit]; exact config_of_core hcore rfl
  | newer => exact config_stepDown _ _
  | counted => rfl

theorem Concludes.config {e : Election} (h : n.Concludes e n') : n'.config = n.config := by
  cases h with
  | idle => rfl
  | newer => exact config_stepDown _ _
  | failed _ hcore => exact config_of_core hcore n.config_firstTerm
  | won _ _ _ _ hcore => rw [config_maybeCommit]; exact config_of_core hcore n.config_firstTerm

theorem config_saveSnapshot {keepFrom : Nat} (h : n.saveSnapshot keepFrom = some n') : n'.config = n.config := by
  unfold saveSnapshot at h
  split at h
  · cases h
  · split at h <;> cases h <;> rfl

end Node

namespace Cluster

variable {codec : CommandCodec} {c c' : Cluster}

theorem config_put {p : String} {n' : Node} (h : n'.config = (c.nodes p).config) (q : String) :
    ((c.put p n').nodes q).config = (c.nodes q).config := by
  by_cases hq : q = p
  · rw [hq, put_self, h]
  · rw [put_other c n' hq]

/-- The members and the configurations stay, and no leader is taken off the record. -/
structure Frame (c c' : Cluster) : Prop where
  members : c'.members = c.members
  config : ∀ p, (c'.nodes p).config = (c.nodes p).config
  led : c.history.led ⊆ c'.history.led

theorem frame_of_moves {a : Action} (h : Moves codec c a c') : Frame c c' := by
  cases h with
  | work hcore => exact ⟨rfl, config_put (Node.config_of_core hcore rfl), fun _ => id⟩
  | forward _ _ hcore => exact ⟨rfl, config_put (Node.config_of_core hcore rfl), fun _ => id⟩
  | fall _ hcore => exact ⟨rfl, config_put (Node.config_of_core hcore rfl), fun _ => id⟩
  | stand _ _ _ hn' =>
    subst hn'
    exact ⟨rfl, config_put rfl, fun _ => id⟩
  | lose _ hn' => exact ⟨rfl, config_put hn'.config, fun _ => id⟩
  | win _ _ _ _ _ hcore =>
    refine ⟨rfl, config_put ?_, ?_⟩
    · rw [Node.config_maybeCommit]
      exact Node.config_of_core hcore (Node.config_firstTerm _)
    · simp [History.lead, History.write]
  | boot _ _ _ _ hcore =>
    refine ⟨rfl, config_put ?_, ?_⟩
    · rw [Node.config_maybeCommit]
      exact Node.config_of_core hcore (Node.config_firstTerm _)
    · simp only [record_history, History.led_commit, History.lead, History.write]
      split <;> simp [History.stand]
  | @crash p m _ _ hcore =>
    have hconfig : m.config = (c.nodes p).config := Node.config_of_core hcore (Node.config_firstTerm _)
    refine ⟨rfl, config_put hconfig, ?_⟩
    simp only [record_history]
    split <;> simp [History.stand]
  | deliver => exact ⟨rfl, config_put (Node.config_handle _ _ _ _), by simp [History.led_handled]⟩
  | answer _ _ _ hn' => exact ⟨rfl, config_put hn'.config, by simp⟩
  | propose _ _ _ hcore => exact ⟨rfl, config_put (Node.config_of_core hcore rfl), by simp [History.write]⟩
  | apply _ _ _ hcore => exact ⟨rfl, config_put (Node.config_of_core hcore rfl), fun _ => id⟩
  | saveSnapshot hn' => exact ⟨rfl, config_put (Node.config_saveSnapshot hn'), fun _ => id⟩
  | restart => exact ⟨rfl, config_put rfl, fun _ => id⟩

/-- At most one node has led each term. -/
def LedOnce (c : Cluster) : Prop := ∀ p q T, (p, T) ∈ c.history.led → (q, T) ∈ c.history.led → p = q

instance (c : Cluster) : Decidable c.LedOnce :=
  decidable_of_iff (∀ x ∈ c.history.led, ∀ y ∈ c.history.led, x.2 = y.2 → x.1 = y.1)
    ⟨fun h p q T hp hq => h (p, T) hp (q, T) hq rfl, fun h x hx y hy heq => h x.1 y.1 x.2 hx (by rw [heq]; exact hy)⟩

/-- Every node runs under its own name and has the other members as peers. -/
def Configured (c : Cluster) : Prop :=
  ∀ p, (c.nodes p).config.nodeId = p ∧ (c.nodes p).config.peers = normalizePeers p c.members.ids

theorem configured_init (members : Members) (config : String → Config) : (Cluster.init members config).Configured :=
  fun _ => ⟨rfl, rfl⟩

theorem Configured.frame (h : c.Configured) (hf : Frame c c') : c'.Configured := by
  intro p
  rw [hf.config, hf.members]
  exact h p

theorem LedOnce.frame (h : c'.LedOnce) (hf : Frame c c') : c.LedOnce := fun p q T hp hq =>
  h p q T (hf.led hp) (hf.led hq)

end Cluster

end RaftVdb
