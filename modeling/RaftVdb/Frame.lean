import RaftVdb.Rpc

/-!
# What an operation leaves alone

`core` forgets the part of a node that no property of the protocol depends on by itself:
topology, progress table, dedup table and the like. Senders and most callbacks keep the
core; a callback that does not is a step down to a newer term, a counted vote or a
commit.
-/

namespace RaftVdb

open Lib

namespace Node

def core (n : Node) : Node :=
  { n with
    topology := {}
    progress := ∅
    dedup := { windowSize := 0 }
    flushedIndex := 0
    rounds := ∅
    writes := [] }

variable {n n' : Node}

/-- What can be read off the core is the same on nodes with the same core. -/
theorem eq_of_core {α : Type} (f : Node → α) (hf : ∀ n : Node, f n.core = f n) (h : n'.core = n.core) : f n' = f n := by
  rw [← hf n', h, hf n]

@[simp] theorem core_ackPeer (n : Node) (peerId : String) (matchIndex : Nat) :
    (n.ackPeer peerId matchIndex).core = n.core := rfl

@[simp] theorem core_heartbeatAckPeer (n : Node) (peerId : String) : (n.heartbeatAckPeer peerId).core = n.core := rfl

@[simp] theorem core_failPeer (n : Node) (peerId : String) (restore : Nat) : (n.failPeer peerId restore).core = n.core :=
  rfl

@[simp] theorem core_recoverWindows (n : Node) (expired : List String) : (n.recoverWindows expired).core = n.core := rfl

theorem core_applyTopology {info : TopologyInfo} (h : n.applyTopology info = .ok n') : n'.core = n.core := by
  unfold applyTopology at h
  split at h
  · cases h
    rfl
  · split at h
    · cases h
    · cases h
      rfl

theorem core_rebalanceTopology (h : n.rebalanceTopology = .ok n') : n'.core = n.core := by
  unfold rebalanceTopology at h
  split at h
  · cases h
  · cases h
    rfl

@[simp] theorem core_onBroadcastResponse (n : Node) (round : Nat) (peerId : String) (resp : Option HeartbeatResponse) :
    (n.onBroadcastResponse round peerId resp).core = n.core := by
  unfold onBroadcastResponse
  split
  · rfl
  · rfl
  · split
    · rfl
    · split <;> rfl

@[simp] theorem core_onFollowerProbed (n : Node) (followerId : String) (ctx : FollowerTimeout) (ok overloaded : Bool) :
    (n.onFollowerProbed followerId ctx ok overloaded).core = n.core := by
  unfold onFollowerProbed
  split
  · split <;> rfl
  · split
    · rfl
    · split
      · split
        · rfl
        · split <;> rfl
      · rfl

@[simp] theorem core_onHeartbeatResponse (n : Node) (peerId : String) (overloaded : Bool) (resp : Option HeartbeatResponse)
    (caller : HeartbeatCaller) : (n.onHeartbeatResponse peerId overloaded resp caller).core = n.core := by
  cases caller with
  | broadcast round => exact core_onBroadcastResponse n round peerId resp
  | mentorTimeout =>
    simp only [onHeartbeatResponse]
    split <;> rfl
  | followerTimeout ctx =>
    simp only [onHeartbeatResponse]
    split <;> simp

/-- The request carries a piece of the node's log, under its term and with its commit index. -/
structure Carries (n : Node) (r : AppendEntriesRequest) : Prop where
  term : r.term = n.currentTerm
  leaderCommit : r.leaderCommit = n.commitIndex
  piece : ∃ next batch, r.prevLogIndex = next - 1 ∧
    r.prevLogTerm = (n.termAtLogicalIndex (next - 1)).toOption.getD 0 ∧
    r.entries = (n.log.readFrom next batch).toOption.getD [] ∧
    (next ≤ n.logicalLastIndex ∨ ∃ term, n.termAtLogicalIndex (next - 1) = .ok term)

/-- A request made of what the WAL and the term before it give. -/
theorem carries_of_read {next batch prevLogTerm : Nat} {entries : List LogEntry} {r : AppendEntriesRequest}
    (hentries : n.log.readFrom next batch = .ok entries) (hprev : n.termAtLogicalIndex (next - 1) = .ok prevLogTerm)
    (hterm : r.term = n.currentTerm) (hcommit : r.leaderCommit = n.commitIndex) (hindex : r.prevLogIndex = next - 1)
    (hprevTerm : r.prevLogTerm = prevLogTerm) (hr : r.entries = entries) : n.Carries r where
  term := hterm
  leaderCommit := hcommit
  piece := by
    refine ⟨next, batch, hindex, ?_, ?_, .inr ⟨_, hprev⟩⟩
    · rw [hprevTerm, hprev]
      rfl
    · rw [hr, hentries]
      rfl

theorem sendSnapshot_eq_some {request : Request} (h : n.sendSnapshot = some request) :
    ∃ s, n.snapshot = some s ∧ request = .install ⟨n.currentTerm, s⟩ := by
  obtain ⟨s, hs, rfl⟩ := Option.map_eq_some_iff.mp h
  exact ⟨s, hs, rfl⟩

/-- What `ReplicatePeerOnce` sends, and what it books for it. -/
theorem replicatePeerOnce_eq_some {peerId : String} {request : Request}
    (h : n.replicatePeerOnce peerId = some (n', request)) :
    n.state = .leader ∧ ∃ p, n.progress.find? peerId = some p ∧ p.inFlight < p.window n.config ∧
    ((n' = n ∧ ∃ s, n.snapshot = some s ∧ request = .install ⟨n.currentTerm, s⟩) ∨
      ∃ entries prevLogTerm, n.log.readFrom p.nextIndex n.config.batchMaxEntries = .ok entries ∧
        n.termAtLogicalIndex (p.nextIndex - 1) = .ok prevLogTerm ∧
        n' = { n with progress := n.progress.adjust peerId fun p =>
          { p with inFlight := p.inFlight + 1, nextIndex := p.nextIndex + entries.length } } ∧
        request = .append .replicate
          { term := n.currentTerm
            leaderId := n.selfId
            prevLogIndex := p.nextIndex - 1
            prevLogTerm
            entries
            leaderCommit := n.commitIndex
            senderId := n.selfId
            topology := n.buildTopologyForPeer peerId }) := by
  unfold replicatePeerOnce at h
  split at h
  · cases h
  next hstate =>
  split at h
  · cases h
  next p hp =>
  split at h
  · cases h
  next hopen =>
  refine ⟨not_not.mp hstate, p, hp, Nat.not_le.mp hopen, ?_⟩
  split at h
  · obtain ⟨_, hs, heq⟩ := Option.map_eq_some_iff.mp h
    cases heq
    exact .inl ⟨rfl, sendSnapshot_eq_some hs⟩
  split at h
  · cases h
  next entries hentries =>
  split at h
  · cases h
  split at h
  · cases h
  next prevLogTerm hprev =>
  cases h
  exact .inr ⟨entries, prevLogTerm, hentries, hprev, rfl, rfl⟩

theorem replicatePeerOnce_cases {peerId : String} {request : Request}
    (h : n.replicatePeerOnce peerId = some (n', request)) : n.state = .leader ∧ n'.core = n.core ∧
    ((∃ s, n.snapshot = some s ∧ n'.progress = n.progress ∧ request = .install ⟨n.currentTerm, s⟩) ∨
      ∃ r k, request = .append .replicate r ∧ n.Carries r ∧ r.leaderId = n.selfId ∧ r.senderId = n.selfId ∧
        n'.progress = n.progress.adjust peerId fun p => { p with inFlight := p.inFlight + 1, nextIndex := p.nextIndex + k }) := by
  obtain ⟨hstate, p, -, -, ⟨rfl, s, hs, rfl⟩ | ⟨entries, prevLogTerm, hentries, hprev, rfl, rfl⟩⟩ := replicatePeerOnce_eq_some h
  · exact ⟨hstate, rfl, .inl ⟨s, hs, rfl, rfl⟩⟩
  · exact ⟨hstate, rfl, .inr ⟨_, entries.length, rfl, carries_of_read hentries hprev rfl rfl rfl rfl rfl, rfl, rfl, rfl⟩⟩

/-- What `ForwardToFollower` sends, and what it books for it. -/
theorem forwardToFollower_eq_some {followerId : String} {request : Request}
    (h : n.forwardToFollower = some (n', followerId, request)) :
    (∃ info, n.topology.getFollowerOf n.selfId = some (followerId, info)) ∧
    ∃ p, p = (n.progress.find? followerId).getD { nextIndex := n.logicalLastIndex + 1 } ∧
    ((n' = n ∧ ∃ s, n.snapshot = some s ∧ request = .install ⟨n.currentTerm, s⟩) ∨
      ∃ entries prevLogTerm, n.log.readFrom p.nextIndex n.config.batchMaxEntries = .ok entries ∧
        n.termAtLogicalIndex (p.nextIndex - 1) = .ok prevLogTerm ∧
        n' = { n with progress := n.progress.modify followerId {} fun q =>
          { q with nextIndex := max q.nextIndex p.nextIndex, inFlight := q.inFlight + 1 } } ∧
        request = .append .forward
          { term := n.currentTerm
            leaderId := n.leaderId
            prevLogIndex := p.nextIndex - 1
            prevLogTerm
            entries
            leaderCommit := n.commitIndex
            senderId := n.selfId
            topology := n.buildTopologyForPeer followerId }) := by
  unfold forwardToFollower at h
  split at h
  · cases h
  next follower info hfollower =>
  dsimp only at h
  split at h
  · cases h
  split at h
  · obtain ⟨_, hs, heq⟩ := Option.map_eq_some_iff.mp h
    cases heq
    exact ⟨⟨info, hfollower⟩, _, rfl, .inl ⟨rfl, sendSnapshot_eq_some hs⟩⟩
  split at h
  · cases h
  split at h
  · cases h
  next entries hentries =>
  split at h
  · cases h
  split at h
  · cases h
  next prevLogTerm hprev =>
  cases h
  exact ⟨⟨info, hfollower⟩, _, rfl, .inr ⟨entries, prevLogTerm, hentries, hprev, rfl, rfl⟩⟩

theorem forwardToFollower_cases {followerId : String} {request : Request}
    (h : n.forwardToFollower = some (n', followerId, request)) : n'.core = n.core ∧
    ((∃ s, n.snapshot = some s ∧ n'.progress = n.progress ∧ request = .install ⟨n.currentTerm, s⟩) ∨
      ∃ r k, request = .append .forward r ∧ n.Carries r ∧ r.leaderId = n.leaderId ∧ r.senderId = n.selfId ∧
        n'.progress = n.progress.modify followerId {} fun q =>
          { q with nextIndex := max q.nextIndex k, inFlight := q.inFlight + 1 }) := by
  obtain ⟨-, p, -, ⟨rfl, s, hs, rfl⟩ | ⟨entries, prevLogTerm, hentries, hprev, rfl, rfl⟩⟩ := forwardToFollower_eq_some h
  · exact ⟨rfl, .inl ⟨s, hs, rfl, rfl⟩⟩
  · exact ⟨rfl, .inr ⟨_, _, rfl, carries_of_read hentries hprev rfl rfl rfl rfl rfl, rfl, rfl, rfl⟩⟩

theorem checkMentorTimeout_cases {mentorId : String} {message : Option (String × Request)}
    (h : n.checkMentorTimeout mentorId = some (n', message)) : n.state = .leader ∧ n'.core = n.core ∧
    n'.progress = updatePeerFailure n.progress mentorId ∧
    ∀ m ∈ message, ∃ info, m.2 = .heartbeat .mentorTimeout ⟨n.currentTerm, n.selfId, n.commitIndex, info⟩ := by
  unfold checkMentorTimeout at h
  split at h
  · cases h
  next hguard =>
  simp only [not_or, ne_eq, not_not] at hguard
  refine ⟨hguard.1, ?_⟩
  dsimp only at h
  split at h
  · cases h
    exact ⟨rfl, rfl, by simp⟩
  · split at h
    · cases h
      exact ⟨rfl, rfl, by simp⟩
    · cases h
      refine ⟨rfl, rfl, fun m hm => ?_⟩
      cases hm
      exact ⟨_, rfl⟩

theorem checkFollowerTimeout_cases {followerId : String} {recent : Bool} {request : Request}
    (h : n.checkFollowerTimeout followerId recent = some request) : n.state = .leader ∧ followerId ≠ n.selfId ∧
    ((∃ ctx info, request = .heartbeat (.followerTimeout ctx) ⟨n.currentTerm, n.selfId, n.commitIndex, info⟩) ∨
      ∃ ctx r, request = .append (.followerTimeout ctx) r ∧ n.Carries r ∧ r.leaderId = n.selfId ∧ r.senderId = "") := by
  unfold checkFollowerTimeout at h
  split at h
  swap
  · cases h
  next info p _ _ =>
  split at h
  · cases h
  next hguard =>
  simp only [not_or, ne_eq, not_not] at hguard
  refine ⟨hguard.1, hguard.2.1, ?_⟩
  dsimp only at h
  split at h
  · next hnext =>
    cases h
    exact .inr ⟨_, _, rfl, ⟨rfl, rfl, p.nextIndex, _, rfl, rfl, rfl, .inl hnext⟩, rfl, rfl⟩
  · cases h
    exact .inl ⟨_, _, rfl⟩

/-- `MaybeCommit` moves the commit index of a leader to an index of its term that a quorum
matches, or does nothing. -/
theorem findCommit_eq_some {last k : Nat} (h : n.findCommit last = .ok (some k)) :
    n.commitIndex < k ∧ k ≤ last ∧ n.termAtLogicalIndex k = .ok n.currentTerm ∧
      quorumSize n.config.peers ≤ n.matched k := by
  induction last with
  | zero => cases h
  | succ last ih =>
    unfold findCommit at h
    split at h
    · cases h
    · next hnew =>
      split at h
      · cases h
      · next term hterm =>
        split at h
        · obtain ⟨h₁, h₂, h₃⟩ := ih h
          exact ⟨h₁, by omega, h₃⟩
        · next heq =>
          split at h
          · next hmatched =>
            cases h
            simp only [ne_eq, Decidable.not_not] at heq
            exact ⟨by omega, le_refl _, heq ▸ hterm, hmatched⟩
          · obtain ⟨h₁, h₂, h₃⟩ := ih h
            exact ⟨h₁, by omega, h₃⟩

theorem maybeCommit_cases (n : Node) : n.maybeCommit = n ∨ ∃ k, n.state = .leader ∧ n.commitIndex < k ∧
    k ≤ n.logicalLastIndex ∧ n.termAtLogicalIndex k = .ok n.currentTerm ∧
    quorumSize n.config.peers ≤ n.matched k ∧ n.maybeCommit = { n with commitIndex := k } := by
  unfold maybeCommit
  split
  · exact .inl rfl
  · next hstate =>
    split
    · next k hk =>
      obtain ⟨h₁, h₂, h₃, h₄⟩ := findCommit_eq_some hk
      exact .inr ⟨k, by simpa using hstate, h₁, h₂, h₃, h₄, rfl⟩
    · exact .inl rfl

/-- `MaybeCommit` moves the commit index only. -/
theorem eq_of_maybeCommit {α : Type} (g : Node → α) (hcommit : ∀ (n : Node) k, g { n with commitIndex := k } = g n)
    (n : Node) : g n.maybeCommit = g n := by
  rcases n.maybeCommit_cases with heq | ⟨k, -, -, -, -, -, heq⟩
  · rw [heq]
  · rw [heq, hcommit]

/-- What a callback of an `AppendEntries` can do. -/
theorem onAppendResponse_cases (n : Node) (peerId : String) (overloaded : Bool) (r : AppendEntriesRequest)
    (resp : Option AppendEntriesResponse) (caller : AppendCaller) :
    (n.onAppendResponse peerId overloaded r resp caller).core = n.core ∨
    (∃ term, n.currentTerm < term ∧ n.onAppendResponse peerId overloaded r resp caller = n.stepDown term) ∨
    (∃ a, resp = some a ∧ a.success = true ∧ caller = .replicate ∧ n.state = .leader ∧
      n.onAppendResponse peerId overloaded r resp caller = (n.ackPeer peerId a.matchIndex).maybeCommit) := by
  cases caller with
  | replicate =>
    simp only [onAppendResponse]
    cases resp with
    | none => exact .inl rfl
    | some a =>
      simp only [onReplicateResponse]
      split
      · next hlt => exact .inr (.inl ⟨a.term, hlt, rfl⟩)
      · split
        · exact .inl rfl
        · next hstate =>
          split
          · next hok => exact .inr (.inr ⟨a, rfl, hok, trivial, by simpa using hstate, rfl⟩)
          · exact .inl rfl
  | forward =>
    simp only [onAppendResponse]
    cases resp with
    | none => exact .inl rfl
    | some a =>
      simp only [onForwardResponse]
      split
      · next hlt => exact .inr (.inl ⟨a.term, hlt, rfl⟩)
      · split <;> exact .inl rfl
  | followerTimeout ctx =>
    left
    simp only [onAppendResponse]
    cases resp with
    | none => simp
    | some a =>
      simp only
      split <;> simp

theorem onInstallResponse_cases (n : Node) (peerId : String) (s : Snapshot) (resp : Option InstallSnapshotResponse) :
    (n.onInstallResponse peerId s resp).core = n.core ∨
    ∃ term, n.currentTerm < term ∧ n.onInstallResponse peerId s resp = n.stepDown term := by
  cases resp with
  | none => exact .inl rfl
  | some a =>
    simp only [onInstallResponse]
    split
    · next hlt => exact .inr ⟨a.term, hlt, rfl⟩
    · split <;> exact .inl rfl

/-! ## Writing the log -/

/-- `AppendEntryLocked` adds one entry, or fails and changes nothing. -/
theorem appendEntry_cases (n : Node) (e : LogEntry) :
    (∃ err, n.appendEntry e = (n, .error err)) ∨
    ∃ log, n.log.append { e with index := n.logicalLastIndex + 1, term := n.currentTerm } = .ok log ∧
      n.appendEntry e = ({ n with log, flushedIndex := n.logicalLastIndex + 1 }, .ok (n.logicalLastIndex + 1)) := by
  unfold appendEntry
  dsimp only
  split
  · exact .inl ⟨_, rfl⟩
  · next log hlog => exact .inr ⟨log, hlog, rfl⟩

theorem becomeLeader_cases (n : Node) :
    (∃ err, n.becomeLeader.2 = .error err ∧
      n.becomeLeader.1.core = { n.firstTerm with leaderId := n.firstTerm.selfId }.core) ∨
    ∃ log, n.firstTerm.log.append
        { noopEntry with index := n.firstTerm.logicalLastIndex + 1, term := n.firstTerm.currentTerm } = .ok log ∧
      n.becomeLeader.2 = .ok () ∧
      n.becomeLeader.1.core = { n.firstTerm with leaderId := n.firstTerm.selfId, log, state := .leader }.core ∧
      ∃ topology next, n.becomeLeader.1.progress = resetPeerProgress n.firstTerm.config topology next := by
  unfold becomeLeader
  generalize n.firstTerm = m
  dsimp only
  split
  · exact .inl ⟨_, rfl, rfl⟩
  next topology _ =>
  rcases appendEntry_cases { m with leaderId := m.selfId, topology } noopEntry with ⟨err, heq⟩ | ⟨log, hlog, heq⟩
  · simp only [heq]
    exact .inl ⟨_, rfl, rfl⟩
  · simp only [heq]
    exact .inr ⟨log, hlog, trivial, rfl, _, _, rfl⟩

/-- `Propose` adds one entry on a leader, and commits it at once if the leader is alone. -/
theorem propose_cases (codec : CommandCodec) (n : Node) (e : LogEntry) :
    (∃ err, n.propose codec e = (n, .error err)) ∨
    ∃ log, n.state = .leader ∧
      n.log.append { e with index := n.logicalLastIndex + 1, term := n.currentTerm } = .ok log ∧
      (n.propose codec e).2 = .ok (n.logicalLastIndex + 1) ∧ (n.propose codec e).1.progress = n.progress ∧
      (n.propose codec e).1.core = { n with
        log
        commitIndex := if quorumSize n.config.peers = 1 then n.logicalLastIndex + 1 else n.commitIndex }.core := by
  unfold propose
  split
  · exact .inl ⟨_, rfl⟩
  next hstate =>
  rcases n.appendEntry_cases e with ⟨err, heq⟩ | ⟨log, hlog, heq⟩
  · rw [heq]
    exact .inl ⟨err, rfl⟩
  · rw [heq]
    exact .inr ⟨log, by simpa using hstate, hlog, rfl, rfl, rfl⟩

/-- One applied entry. -/
theorem applyCommittedEntry_cases {codec : CommandCodec} {outcome : Except String Unit} {e : LogEntry}
    (h : n.applyCommittedEntry codec outcome = some (n', e)) :
    n.appliedIndex < n.commitIndex ∧ n.log.read (n.appliedIndex + 1) = .ok e ∧ n'.progress = n.progress ∧
    ∃ task, (n.config.snapshotThreshold = 0 → task = n.snapshotTask) ∧
      n'.core = { n with
        executed := n.executed ++ (e.command codec).toList
        appliedIndex := n.appliedIndex + 1
        snapshotTask := task }.core := by
  unfold applyCommittedEntry at h
  split at h
  swap
  · cases h
  next hlt =>
  split at h
  · cases h
  next x hread =>
  cases h
  refine ⟨hlt, hread, ?_⟩
  have hexecute : (n.execute codec (n.appliedIndex + 1) e outcome).core =
        { n with executed := n.executed ++ (e.command codec).toList }.core ∧
      (n.execute codec (n.appliedIndex + 1) e outcome).progress = n.progress := by
    unfold execute
    cases e.command codec with
    | none => simp
    | some cmd => exact ⟨rfl, rfl⟩
  generalize n.execute codec (n.appliedIndex + 1) e outcome = m at hexecute
  have htask := eq_of_core Node.snapshotTask (fun _ => rfl) hexecute.1
  have hconfig := eq_of_core Node.config (fun _ => rfl) hexecute.1
  have happly : ({ m with appliedIndex := n.appliedIndex + 1 } : Node).core =
      { n with executed := n.executed ++ (e.command codec).toList, appliedIndex := n.appliedIndex + 1 }.core :=
    congrArg (fun x : Node => ({ x with appliedIndex := n.appliedIndex + 1 } : Node)) hexecute.1
  unfold maybeTriggerSnapshot
  dsimp only
  split
  · exact ⟨hexecute.2, n.snapshotTask, fun _ => rfl, happly⟩
  · next hcase =>
    refine ⟨hexecute.2, some { snapshotIndex := n.appliedIndex + 1 }, fun hzero => ?_, ?_⟩
    · rw [hconfig] at hcase
      exact absurd (.inl hzero) hcase
    · exact congrArg
        (fun x : Node => ({ x with snapshotTask := some { snapshotIndex := n.appliedIndex + 1 } } : Node)) happly

/-! ## Handlers -/

/-- `BecomeFollower` with a term that is not smaller, up to the part outside the core. -/
def followed (n : Node) (term : Nat) (leaderId : String) : Node :=
  { n with currentTerm := term, votedFor := "", leaderId, state := .follower }

theorem becomeFollower_eq_ok {term : Nat} {leaderId : String} (h : n.becomeFollower term leaderId = .ok n') :
    n.currentTerm ≤ term ∧ n'.core = (n.followed term leaderId).core ∧ n'.progress = ∅ := by
  unfold becomeFollower at h
  split at h
  · cases h
  · next hge =>
    cases h
    exact ⟨by omega, rfl, rfl⟩

theorem becomeFollower_ok {term : Nat} (leaderId : String) (h : n.currentTerm ≤ term) :
    ∃ m, n.becomeFollower term leaderId = .ok m := by
  unfold becomeFollower
  rw [if_neg (by omega)]
  exact ⟨_, rfl⟩

theorem stepDown_cases (n : Node) (term : Nat) :
    (term < n.currentTerm ∧ n.stepDown term = n) ∨
    (n.currentTerm ≤ term ∧ (n.stepDown term).core = (n.followed term "").core ∧ (n.stepDown term).progress = ∅) := by
  unfold stepDown
  by_cases h : term < n.currentTerm
  · left
    simp [becomeFollower, h]
  · right
    obtain ⟨m, hm⟩ := becomeFollower_ok "" (Nat.le_of_not_lt h)
    rw [hm]
    exact becomeFollower_eq_ok hm

/-- A node that has noted the leader of a term that is not stale. -/
def noted (n : Node) (term : Nat) (leaderId : String) : Node :=
  if term > n.currentTerm ∨ n.state ≠ .follower then n.followed term leaderId else { n with leaderId }

section

variable (n : Node) {term : Nat} (leaderId : String)

theorem noted_currentTerm (h : n.currentTerm ≤ term) : (n.noted term leaderId).currentTerm = term := by
  unfold noted
  split
  · rfl
  · next hcase => exact Nat.le_antisymm h (Nat.le_of_not_lt fun hlt => hcase (.inl hlt))

@[simp] theorem noted_state : (n.noted term leaderId).state = .follower := by
  unfold noted
  split
  · rfl
  · next hcase => exact not_not.mp fun hne => hcase (.inr hne)

@[simp] theorem noted_leaderId : (n.noted term leaderId).leaderId = leaderId := by
  unfold noted
  split <;> rfl

@[simp] theorem noted_config : (n.noted term leaderId).config = n.config := by
  unfold noted
  split <;> rfl

@[simp] theorem noted_log : (n.noted term leaderId).log = n.log := by
  unfold noted
  split <;> rfl

@[simp] theorem noted_forwards : (n.noted term leaderId).forwards = n.forwards := by
  unfold noted
  split <;> rfl

@[simp] theorem noted_commitIndex : (n.noted term leaderId).commitIndex = n.commitIndex := by
  unfold noted
  split <;> rfl

@[simp] theorem noted_lastSnapshotIndex : (n.noted term leaderId).lastSnapshotIndex = n.lastSnapshotIndex := by
  unfold noted
  split <;> rfl

end

theorem noteLeader_eq_ok {term : Nat} {leaderId : String} (h : n.noteLeader term leaderId = .ok n') :
    n'.core = (n.noted term leaderId).core := by
  unfold noteLeader at h
  unfold noted
  split at h
  · next hcase =>
    rw [if_pos hcase]
    exact (becomeFollower_eq_ok h).2.1
  · next hcase =>
    cases h
    rw [if_neg hcase]
    rfl

theorem noteLeader_ok {term : Nat} (leaderId : String) (h : n.currentTerm ≤ term) :
    ∃ m, n.noteLeader term leaderId = .ok m := by
  unfold noteLeader
  split
  · exact becomeFollower_ok leaderId h
  · exact ⟨_, rfl⟩

/-- A heartbeat is stale, or the leader is noted; in the second case it fails over the
topology it carries, or moves the commit index. -/
theorem handleHeartbeat_cases (n : Node) (r : HeartbeatRequest) :
    (r.term < n.currentTerm ∧ n.handleHeartbeat r = (n, .ok ⟨n.currentTerm, false⟩)) ∨
    (n.currentTerm ≤ r.term ∧ ∃ m, m.core = (n.noted r.term r.leaderId).core ∧
      ((∃ err, n.handleHeartbeat r = (m, .error err)) ∨
        n.handleHeartbeat r = (m.advanceCommit r.commitIndex, .ok ⟨r.term, true⟩))) := by
  unfold handleHeartbeat
  by_cases hstale : r.term < n.currentTerm
  · exact .inl ⟨hstale, if_pos hstale⟩
  rw [if_neg hstale]
  have hge := Nat.le_of_not_lt hstale
  obtain ⟨m, hm⟩ := noteLeader_ok r.leaderId hge
  have hcore := noteLeader_eq_ok hm
  refine .inr ⟨hge, ?_⟩
  rw [hm]
  cases htop : m.applyTopology r.topology with
  | error err => exact ⟨m, hcore, .inl ⟨err, by simp only [htop]⟩⟩
  | ok m' =>
    have hcore' := (core_applyTopology htop).trans hcore
    have hterm : (m'.advanceCommit r.commitIndex).currentTerm = r.term := by
      rw [← noted_currentTerm n r.leaderId hge, ← eq_of_core Node.currentTerm (fun _ => rfl) hcore']
      unfold advanceCommit
      dsimp only
      split <;> rfl
    exact ⟨m', hcore', .inr (by simp only [htop, hterm])⟩

/-- An `AppendEntries` up to the entry loop: it is stale, or the leader is noted and it
fails, is rejected or goes on. -/
theorem prepareAppend_cases (n : Node) (r : AppendEntriesRequest) :
    (r.term < n.currentTerm ∧ ∃ a, n.prepareAppend r = (n, some (.ok a)) ∧ a.success = false) ∨
    (n.currentTerm ≤ r.term ∧ ∃ m, m.core = (n.noted r.term r.leaderId).core ∧
      ((∃ err, n.prepareAppend r = (m, some (.error err))) ∨
        (∃ a, n.prepareAppend r = (m, some (.ok a)) ∧ a.success = false) ∨
        (m.rejectPrev r = none ∧ n.prepareAppend r = (m, none)))) := by
  unfold prepareAppend
  by_cases hstale : r.term < n.currentTerm
  · exact .inl ⟨hstale, _, if_pos hstale, rfl⟩
  rw [if_neg hstale]
  have hge := Nat.le_of_not_lt hstale
  obtain ⟨m, hm⟩ := noteLeader_ok r.leaderId hge
  have hcore := noteLeader_eq_ok hm
  refine .inr ⟨hge, ?_⟩
  rw [hm]
  cases htop : m.applyTopology r.topology with
  | error err => exact ⟨m, hcore, .inl ⟨err, by simp only [htop]⟩⟩
  | ok m' =>
    refine ⟨m', (core_applyTopology htop).trans hcore, ?_⟩
    simp only [htop]
    split
    · cases hreject : m'.rejectPrev r with
      | none => exact .inr (.inr ⟨rfl, rfl⟩)
      | some a =>
        refine .inr (.inl ⟨a, rfl, ?_⟩)
        unfold rejectPrev at hreject
        dsimp only at hreject
        split at hreject
        · cases hreject
          rfl
        split at hreject
        · cases hreject
          rfl
        split at hreject
        · cases hreject
        split at hreject
        · cases hreject
          rfl
        split at hreject
        · cases hreject
        split at hreject
        · cases hreject
          rfl
        · cases hreject
          rfl
    · exact .inr (.inl ⟨_, rfl, rfl⟩)

theorem advanceCommit_cases (n : Node) (k : Nat) :
    (n.advanceCommit k = n ∧ min k n.logicalLastIndex ≤ n.commitIndex) ∨
    (n.commitIndex < min k n.logicalLastIndex ∧
      n.advanceCommit k = { n with commitIndex := min k n.logicalLastIndex }) := by
  unfold advanceCommit
  dsimp only
  split
  · next h => exact .inr ⟨h, rfl⟩
  · next h => exact .inl ⟨rfl, Nat.le_of_not_lt h⟩

theorem dispatchForward_cases (n : Node) (r : AppendEntriesRequest) :
    n.dispatchForward r = n ∨ n.dispatchForward r = { n with forwards := n.forwards ++ [r] } := by
  unfold dispatchForward
  split
  · exact .inr rfl
  · exact .inl rfl

/-- The end of an accepted `AppendEntries` moves the commit index and starts a thread. -/
theorem eq_of_advance {α : Type} (g : Node → α) (hcommit : ∀ (n : Node) k, g { n with commitIndex := k } = g n)
    (hforward : ∀ (n : Node) fs, g { n with forwards := fs } = g n) (n : Node) (k : Nat) (r : AppendEntriesRequest) :
    g ((n.advanceCommit k).dispatchForward r) = g n := by
  have hadvance : g (n.advanceCommit k) = g n := by
    rcases n.advanceCommit_cases k with ⟨heq, -⟩ | ⟨-, heq⟩
    · rw [heq]
    · rw [heq, hcommit]
  rcases (n.advanceCommit k).dispatchForward_cases r with heq | heq
  · rw [heq, hadvance]
  · rw [heq, hforward, hadvance]

/-- The entry loop fails, or the node goes on with the spliced log. -/
theorem finishAppend_cases (n : Node) (r : AppendEntriesRequest) :
    (∃ err, (spliceEntries n.lastSnapshotIndex n.log r.entries).error = some err ∧
      n.finishAppend r = ({ n with log := (spliceEntries n.lastSnapshotIndex n.log r.entries).log }, .error err)) ∨
    ((spliceEntries n.lastSnapshotIndex n.log r.entries).error = none ∧
      (n.finishAppend r).1 = (advanceCommit { n with log := (spliceEntries n.lastSnapshotIndex n.log r.entries).log }
        r.leaderCommit).dispatchForward r ∧
      ∃ a, (n.finishAppend r).2 = .ok a ∧ a.success = true ∧ a.term = n.currentTerm ∧
        a.matchIndex = max n.lastSnapshotIndex (spliceEntries n.lastSnapshotIndex n.log r.entries).log.lastIndex) := by
  unfold finishAppend
  dsimp only
  cases herr : (spliceEntries n.lastSnapshotIndex n.log r.entries).error with
  | some err => exact .inl ⟨err, rfl, rfl⟩
  | none =>
    refine .inr ⟨rfl, rfl, _, rfl, rfl, ?_, ?_⟩
    all_goals
      unfold dispatchForward advanceCommit
      dsimp only
      split <;> split <;> rfl

/-- `HandleAppendEntries` succeeds on a node that has noted the leader and has the previous
entry, or it touches at most the log. -/
theorem handleAppendEntries_cases (n : Node) (r : AppendEntriesRequest) :
    (r.term < n.currentTerm ∧ (n.handleAppendEntries r).1 = n ∧
      ∀ a, (n.handleAppendEntries r).2 = .ok a → a.success = false) ∨
    (n.currentTerm ≤ r.term ∧ ∃ m, m.core = (n.noted r.term r.leaderId).core ∧
      (((n.handleAppendEntries r).1 = m ∧ ∀ a, (n.handleAppendEntries r).2 = .ok a → a.success = false) ∨
        (m.rejectPrev r = none ∧ n.prepareAppend r = (m, none) ∧ n.handleAppendEntries r = m.finishAppend r))) := by
  unfold handleAppendEntries
  rcases n.prepareAppend_cases r with ⟨hstale, a, heq, ha⟩ | ⟨hge, m, hcore, ⟨err, heq⟩ | ⟨a, heq, ha⟩ | ⟨hprev, heq⟩⟩
  · rw [heq]
    exact .inl ⟨hstale, rfl, fun b hb => by cases hb; exact ha⟩
  · rw [heq]
    exact .inr ⟨hge, m, hcore, .inl ⟨rfl, fun b hb => by cases hb⟩⟩
  · rw [heq]
    exact .inr ⟨hge, m, hcore, .inl ⟨rfl, fun b hb => by cases hb; exact ha⟩⟩
  · rw [heq]
    exact .inr ⟨hge, m, hcore, .inr ⟨hprev, rfl, rfl⟩⟩

/-- A snapshot stream is stale, or the node follows its term if it has to, and then
possibly installs the snapshot. -/
theorem handleInstallSnapshot_cases (n : Node) (r : InstallSnapshotRequest) (complete : Bool) (keepFrom : Nat) :
    (n.handleInstallSnapshot r complete keepFrom).1 = n ∨
    ∃ m, (m = n ∨ ∃ term, n.currentTerm ≤ term ∧ m.core = (n.followed term "").core) ∧
      ((n.handleInstallSnapshot r complete keepFrom).1 = m ∨
        (n.handleInstallSnapshot r complete keepFrom).1 = (m.applyInstalledSnapshot r.snapshot keepFrom).1) := by
  unfold handleInstallSnapshot
  dsimp only
  generalize (if r.leaderTerm = 0 then r.snapshot.raftTerm else r.leaderTerm) = term
  split
  · exact .inl rfl
  split
  · exact .inl rfl
  next m hm =>
  refine .inr ⟨m, ?_, ?_⟩
  · split at hm
    · obtain ⟨hle, hcore, -⟩ := becomeFollower_eq_ok hm
      exact .inr ⟨term, hle, hcore⟩
    · cases hm
      exact .inl rfl
  · split
    · exact .inl rfl
    · split
      · next heq => exact .inr (by rw [heq])
      · next heq => exact .inr (by rw [heq])

end Node

end RaftVdb
