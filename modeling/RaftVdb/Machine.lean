import RaftVdb.Moves

/-!
# What a step does to the state machine

The state machine of a node changes in few places: an entry is executed, the thread of
`LaunchSnapshotTask` ends, a snapshot is installed, the process starts again, a client asks
for a write, and `Propose` takes it up. Everything else that a node does leaves it alone.
-/

namespace RaftVdb

open Lib

namespace Node

/-- What executes the commands: the indices that it goes by, the vector index, the saved
snapshot, the table of requests, and the writes that `Propose` has yet to take up. -/
structure Machine where
  appliedIndex : Nat
  lastSnapshotIndex : Nat
  executed : List Command
  snapshot : Option Snapshot
  dedup : DedupTable
  writes : List LogEntry

def machine (n : Node) : Machine := ⟨n.appliedIndex, n.lastSnapshotIndex, n.executed, n.snapshot, n.dedup, n.writes⟩

/-- What `main.cpp` restores. -/
def Machine.restore (windowSize : Nat) (snapshot : Option Snapshot) : Machine where
  appliedIndex := (snapshot.map Snapshot.raftIndex).getD 0
  lastSnapshotIndex := (snapshot.map Snapshot.raftIndex).getD 0
  executed := (snapshot.map Snapshot.executed).getD []
  snapshot := snapshot
  dedup := match snapshot with
    | none => { windowSize }
    | some s => (DedupTable.loadFrom { windowSize } s.dedup).toOption.getD { windowSize }
  writes := []

variable {n n' : Node}

theorem machine_create (config : Config) (raftMeta : RaftMeta) (log : IndexedLog) (snapshot : Option Snapshot) :
    (create config raftMeta log snapshot).machine = .restore config.dedupWindowSize snapshot := rfl

/-! ## Roles -/

theorem machine_becomeFollower {term : Nat} {leaderId : String} (h : n.becomeFollower term leaderId = .ok n') :
    n'.machine = n.machine := by
  unfold becomeFollower at h
  split at h
  · cases h
  · cases h
    rfl

@[simp] theorem machine_stepDown (n : Node) (term : Nat) : (n.stepDown term).machine = n.machine := by
  unfold stepDown
  split
  · next h => exact machine_becomeFollower h
  · rfl

@[simp] theorem machine_firstTerm (n : Node) : n.firstTerm.machine = n.machine := by
  unfold firstTerm
  split <;> rfl

@[simp] theorem machine_maybeCommit (n : Node) : n.maybeCommit.machine = n.machine :=
  eq_of_maybeCommit machine (fun _ _ => rfl) n

@[simp] theorem machine_appendEntry (n : Node) (e : LogEntry) : (n.appendEntry e).1.machine = n.machine := by
  unfold appendEntry
  dsimp only
  split <;> rfl

theorem machine_becomeLeader (n : Node) : n.becomeLeader.1.machine = n.machine := by
  unfold becomeLeader
  dsimp only
  split
  · exact n.machine_firstTerm
  next topology _ =>
  have happend := machine_appendEntry { n.firstTerm with
    leaderId := n.firstTerm.selfId
    topology } noopEntry
  split
  · next heq =>
    rw [heq] at happend
    exact happend.trans n.machine_firstTerm
  · next heq =>
    rw [heq] at happend
    exact happend.trans n.machine_firstTerm

/-! ## Handlers -/

theorem machine_noteLeader {term : Nat} {leaderId : String} (h : n.noteLeader term leaderId = .ok n') :
    n'.machine = n.machine := by
  unfold noteLeader at h
  split at h
  · exact machine_becomeFollower h
  · cases h
    rfl

theorem machine_applyTopology {info : TopologyInfo} (h : n.applyTopology info = .ok n') : n'.machine = n.machine := by
  unfold applyTopology at h
  split at h
  · cases h
    rfl
  split at h
  · cases h
  · cases h
    rfl

theorem machine_handleRequestVote (n : Node) (r : RequestVoteRequest) : (n.handleRequestVote r).1.machine = n.machine := by
  unfold handleRequestVote
  split
  · rfl
  split
  · rfl
  next m hm =>
  have hmachine : m.machine = n.machine := by
    split at hm
    · exact machine_becomeFollower hm
    · cases hm
      rfl
  split
  · exact hmachine
  · exact hmachine

theorem machine_handleHeartbeat (n : Node) (r : HeartbeatRequest) : (n.handleHeartbeat r).1.machine = n.machine := by
  unfold handleHeartbeat
  split
  · rfl
  split
  · rfl
  next m hm =>
  split
  · exact machine_noteLeader hm
  next k hk =>
  refine Eq.trans ?_ ((machine_applyTopology hk).trans (machine_noteLeader hm))
  dsimp only
  unfold advanceCommit
  dsimp only
  split <;> rfl

theorem machine_prepareAppend (n : Node) (r : AppendEntriesRequest) : (n.prepareAppend r).1.machine = n.machine := by
  unfold prepareAppend
  split
  · rfl
  split
  · rfl
  next m hm =>
  split
  · exact machine_noteLeader hm
  next k hk =>
  split
  · exact (machine_applyTopology hk).trans (machine_noteLeader hm)
  · exact (machine_applyTopology hk).trans (machine_noteLeader hm)

theorem machine_finishAppend (n : Node) (r : AppendEntriesRequest) : (n.finishAppend r).1.machine = n.machine := by
  unfold finishAppend
  dsimp only
  split
  · rfl
  · exact eq_of_advance machine (fun _ _ => rfl) (fun _ _ => rfl) ..

theorem machine_handleAppendEntries (n : Node) (r : AppendEntriesRequest) :
    (n.handleAppendEntries r).1.machine = n.machine := by
  have hprepare := n.machine_prepareAppend r
  unfold handleAppendEntries
  split
  · next heq =>
    rw [heq] at hprepare
    exact hprepare
  · next heq =>
    rw [heq] at hprepare
    exact (machine_finishAppend ..).trans hprepare

/-! ## Senders and callbacks -/

theorem machine_replicatePeerOnce {peerId : String} {request : Request}
    (h : n.replicatePeerOnce peerId = some (n', request)) : n'.machine = n.machine := by
  obtain ⟨-, p, -, -, ⟨rfl, -⟩ | ⟨entries, prevLogTerm, -, -, rfl, -⟩⟩ := replicatePeerOnce_eq_some h
  · rfl
  · rfl

theorem machine_forwardToFollower {followerId : String} {request : Request}
    (h : n.forwardToFollower = some (n', followerId, request)) : n'.machine = n.machine := by
  obtain ⟨-, p, -, ⟨rfl, -⟩ | ⟨entries, prevLogTerm, -, -, rfl, -⟩⟩ := forwardToFollower_eq_some h
  · rfl
  · rfl

theorem machine_checkMentorTimeout {mentorId : String} {message : Option (String × Request)}
    (h : n.checkMentorTimeout mentorId = some (n', message)) : n'.machine = n.machine := by
  unfold checkMentorTimeout at h
  split at h
  · cases h
  dsimp only at h
  split at h
  · cases h
    rfl
  split at h
  · cases h
    rfl
  · cases h
    rfl

theorem machine_onVoteResponse (n : Node) (term : Nat) (resp : RequestVoteResponse) :
    (n.onVoteResponse term resp).machine = n.machine := by
  unfold onVoteResponse
  split
  · rfl
  · split <;> rfl

theorem machine_onFollowerProbed (n : Node) (followerId : String) (ctx : FollowerTimeout) (followerOk overloaded : Bool) :
    (n.onFollowerProbed followerId ctx followerOk overloaded).machine = n.machine := by
  unfold onFollowerProbed
  split
  · split <;> rfl
  split
  · rfl
  split
  swap
  · rfl
  dsimp only
  split
  · rfl
  · split <;> rfl

theorem machine_onHeartbeatResponse (n : Node) (peerId : String) (overloaded : Bool) (resp : Option HeartbeatResponse)
    (caller : HeartbeatCaller) : (n.onHeartbeatResponse peerId overloaded resp caller).machine = n.machine := by
  cases caller with
  | broadcast round =>
    unfold onHeartbeatResponse onBroadcastResponse
    dsimp only
    split
    · rfl
    · rfl
    · split
      · rfl
      · split <;> rfl
  | mentorTimeout =>
    unfold onHeartbeatResponse
    dsimp only
    split <;> rfl
  | followerTimeout ctx =>
    unfold onHeartbeatResponse
    dsimp only
    split
    · exact machine_onFollowerProbed ..
    · exact machine_onFollowerProbed ..

theorem machine_onAppendResponse (n : Node) (peerId : String) (overloaded : Bool) (r : AppendEntriesRequest)
    (resp : Option AppendEntriesResponse) (caller : AppendCaller) :
    (n.onAppendResponse peerId overloaded r resp caller).machine = n.machine := by
  cases caller with
  | replicate =>
    unfold onAppendResponse onReplicateResponse
    dsimp only
    split
    · rfl
    split
    · exact machine_stepDown ..
    split
    · rfl
    split
    · exact machine_maybeCommit _
    · rfl
  | forward =>
    unfold onAppendResponse onForwardResponse
    dsimp only
    split
    · rfl
    split
    · exact machine_stepDown ..
    · split <;> rfl
  | followerTimeout ctx =>
    unfold onAppendResponse
    dsimp only
    split
    · split
      · exact machine_onFollowerProbed ..
      · exact machine_onFollowerProbed ..
    · exact machine_onFollowerProbed ..

theorem machine_onInstallResponse (n : Node) (peerId : String) (s : Snapshot) (resp : Option InstallSnapshotResponse) :
    (n.onInstallResponse peerId s resp).machine = n.machine := by
  unfold onInstallResponse
  split
  · rfl
  split
  · exact machine_stepDown ..
  · split <;> rfl

theorem machine_onResponse (n : Node) (peerId : String) (overloaded : Bool) (request : Request) (reply : Option Response) :
    (n.onResponse peerId overloaded request reply).machine = n.machine := by
  unfold onResponse
  split
  · exact machine_onVoteResponse ..
  · rfl
  · exact machine_onHeartbeatResponse ..
  · exact machine_onHeartbeatResponse ..
  · exact machine_onAppendResponse ..
  · exact machine_onAppendResponse ..
  · exact machine_onInstallResponse ..
  · exact machine_onInstallResponse ..

theorem machine_finishElection (n : Node) (e : Election) : (n.finishElection e).machine = n.machine := by
  unfold finishElection
  dsimp only
  split
  · exact machine_stepDown ..
  split
  · rfl
  split
  swap
  · rfl
  have hlead := machine_becomeLeader { n with election := none }
  split
  · next heq =>
    rw [heq] at hlead
    exact hlead
  · next heq =>
    rw [heq] at hlead
    exact (machine_maybeCommit _).trans hlead

theorem machine_finishBroadcast (n : Node) (round : Nat) (b : HeartbeatRound) :
    (n.finishBroadcast round b).machine = n.machine := by
  unfold finishBroadcast
  dsimp only
  split
  · exact machine_stepDown ..
  · rfl

theorem machine_rebalanceTopology (h : n.rebalanceTopology = .ok n') : n'.machine = n.machine := by
  unfold rebalanceTopology at h
  split at h
  · cases h
  · cases h
    rfl

/-! ## The places where it changes -/

/-- Nothing is noted for the empty id. -/
theorem machine_propose (codec : CommandCodec) (n : Node) (e : LogEntry) :
    ∃ id k, (n.propose codec e).1.machine = { n.machine with dedup := n.dedup.trackPending id k } := by
  have happend := n.machine_appendEntry e
  have hnothing : n.machine = { n.machine with dedup := n.dedup.trackPending "" 0 } := by
    rw [DedupTable.trackPending, if_pos rfl]
    rfl
  unfold propose
  split
  · exact ⟨"", 0, hnothing⟩
  split
  · next heq =>
    rw [heq] at happend
    exact ⟨"", 0, happend.trans hnothing⟩
  next m k heq =>
  rw [heq] at happend
  cases extractRequestId codec e with
  | ok id =>
    refine ⟨id, k, ?_⟩
    rw [← show m.dedup = n.dedup from congrArg Machine.dedup happend, ← happend]
    rfl
  | error err => exact ⟨"", 0, happend.trans hnothing⟩

/-- The command of the entry has been executed, and its outcome is known to the table. -/
def Machine.apply (codec : CommandCodec) (x : Machine) (e : LogEntry) (outcome : Except String Unit) : Machine where
  appliedIndex := x.appliedIndex + 1
  lastSnapshotIndex := x.lastSnapshotIndex
  executed := x.executed ++ (e.command codec).toList
  snapshot := x.snapshot
  dedup := match e.command codec with
    | none => x.dedup
    | some cmd => match outcome with
      | .ok _ => x.dedup.record cmd.requestId (x.appliedIndex + 1) true ""
      | .error err => x.dedup.record cmd.requestId (x.appliedIndex + 1) false err
  writes := x.writes

theorem machine_execute (codec : CommandCodec) (n : Node) (e : LogEntry) (outcome : Except String Unit) :
    Node.machine { n.execute codec (n.appliedIndex + 1) e outcome with appliedIndex := n.appliedIndex + 1 } =
      n.machine.apply codec e outcome := by
  unfold execute Machine.apply machine
  cases e.command codec with
  | none => simp
  | some cmd => cases outcome <;> rfl

theorem machine_applyCommittedEntry {codec : CommandCodec} {outcome : Except String Unit} {e : LogEntry}
    (h : n.applyCommittedEntry codec outcome = some (n', e)) : n'.machine = n.machine.apply codec e outcome := by
  unfold applyCommittedEntry at h
  split at h
  swap
  · cases h
  split at h
  · cases h
  cases h
  refine Eq.trans ?_ (machine_execute ..)
  unfold maybeTriggerSnapshot
  split <;> rfl

theorem machine_saveSnapshot {keepFrom : Nat} (h : n.saveSnapshot keepFrom = some n') : n'.machine = n.machine ∨
    ∃ t raftTerm, n.snapshotTask = some t ∧ n'.machine = { n.machine with
      lastSnapshotIndex := t.snapshotIndex
      snapshot := some
        { raftTerm
          raftIndex := t.snapshotIndex
          executed := t.vectorIndex.getD n.executed
          dedup := n.dedup.saveTo } } := by
  unfold saveSnapshot at h
  split at h
  · cases h
  next t ht =>
  split at h
  · cases h
    exact .inl rfl
  · next raftTerm _ =>
    cases h
    exact .inr ⟨t, raftTerm, ht, rfl⟩

/-- The snapshot has been installed. If its table does not load, the old one stays. -/
structure Installs (n : Node) (s : Snapshot) (n' : Node) : Prop where
  appliedIndex : n'.appliedIndex = s.raftIndex
  lastSnapshotIndex : n'.lastSnapshotIndex = s.raftIndex
  executed : n'.executed = s.executed
  snapshot : n'.snapshot = some s
  dedup : n'.dedup = n.dedup ∨ n.dedup.loadFrom s.dedup = .ok n'.dedup
  writes : n'.writes = n.writes

theorem installs_applyInstalledSnapshot (n : Node) (s : Snapshot) (keepFrom : Nat) :
    n.Installs s (n.applyInstalledSnapshot s keepFrom).1 := by
  unfold applyInstalledSnapshot
  dsimp only
  split
  · exact ⟨rfl, rfl, rfl, rfl, .inl rfl, rfl⟩
  · next h => exact ⟨rfl, rfl, rfl, rfl, .inr h, rfl⟩

theorem Installs.of_machine {m : Node} {s : Snapshot} (h : m.Installs s n') (hm : m.machine = n.machine) : n.Installs s n' :=
  have hdedup : m.dedup = n.dedup := congrArg Machine.dedup hm
  have hwrites : m.writes = n.writes := congrArg Machine.writes hm
  ⟨h.appliedIndex, h.lastSnapshotIndex, h.executed, h.snapshot, by rw [← hdedup]; exact h.dedup, h.writes.trans hwrites⟩

theorem machine_handleInstallSnapshot (n : Node) (r : InstallSnapshotRequest) (complete : Bool) (keepFrom : Nat) :
    (n.handleInstallSnapshot r complete keepFrom).1.machine = n.machine ∨
      (n.Installs r.snapshot (n.handleInstallSnapshot r complete keepFrom).1 ∧
        r.leaderTerm ≤ (n.handleInstallSnapshot r complete keepFrom).1.currentTerm) := by
  unfold handleInstallSnapshot
  dsimp only
  have hterm : r.leaderTerm ≤ if r.leaderTerm = 0 then r.snapshot.raftTerm else r.leaderTerm := by
    split <;> omega
  generalize (if r.leaderTerm = 0 then r.snapshot.raftTerm else r.leaderTerm) = term at hterm
  split
  · exact .inl rfl
  split
  · exact .inl rfl
  next m hm =>
  obtain ⟨hmachine, hreach⟩ : m.machine = n.machine ∧ term ≤ m.currentTerm := by
    split at hm
    · obtain ⟨-, hcore, -⟩ := becomeFollower_eq_ok hm
      exact ⟨machine_becomeFollower hm, (eq_of_core Node.currentTerm (fun _ => rfl) hcore).ge⟩
    · next hkeep =>
      cases hm
      exact ⟨rfl, Nat.not_lt.mp fun hlt => hkeep (.inl hlt)⟩
  split
  · exact .inl hmachine
  have hinstalls := (m.installs_applyInstalledSnapshot r.snapshot keepFrom).of_machine hmachine
  have hsame : (m.applyInstalledSnapshot r.snapshot keepFrom).1.currentTerm = m.currentTerm := by
    unfold applyInstalledSnapshot
    dsimp only
    split <;> rfl
  split
  · next heq =>
    rw [heq] at hinstalls hsame
    exact .inr ⟨hinstalls, (hterm.trans hreach).trans hsame.ge⟩
  · next heq =>
    rw [heq] at hinstalls hsame
    exact .inr ⟨hinstalls, (hterm.trans hreach).trans hsame.ge⟩

end Node

namespace Cluster

variable {codec : CommandCodec} {c c' : Cluster} {a : Action} {p : String} {n' : Node}

/-- What a step makes of the state machine of a node. -/
inductive Drives (codec : CommandCodec) (c : Cluster) (a : Action) (p : String) (n' : Node) : Prop
  | idle (h : n'.machine = (c.nodes p).machine)
  | asked {r : ClientWriteRequest} {e : LogEntry} (ha : a = .clientWrite p r)
      (hcheck : (c.nodes p).checkClientWrite codec r = .propose e)
      (h : n'.machine = { (c.nodes p).machine with writes := (c.nodes p).writes ++ [e] })
  | noted {id : String} {k i : Nat} (h : n'.machine =
      { (c.nodes p).machine with
        dedup := (c.nodes p).dedup.trackPending id k
        writes := (c.nodes p).writes.eraseIdx i })
  | applied {e : LogEntry} {outcome : Except String Unit} (ha : a = .apply p outcome)
      (hlt : (c.nodes p).appliedIndex < (c.nodes p).commitIndex)
      (hread : (c.nodes p).log.read ((c.nodes p).appliedIndex + 1) = .ok e)
      (h : n'.machine = (c.nodes p).machine.apply codec e outcome)
  | saved {t : SnapshotTask} {raftTerm keepFrom : Nat} (ha : a = .saveSnapshot p keepFrom)
      (ht : (c.nodes p).snapshotTask = some t) (h : n'.machine =
        { (c.nodes p).machine with
          lastSnapshotIndex := t.snapshotIndex
          snapshot := some
            { raftTerm
              raftIndex := t.snapshotIndex
              executed := t.vectorIndex.getD (c.nodes p).executed
              dedup := (c.nodes p).dedup.saveTo } })
  | installed {call : Call} {r : InstallSnapshotRequest} (hcall : call ∈ c.calls) (hr : call.request = .install r)
      (hterm : r.leaderTerm ≤ n'.currentTerm) (h : (c.nodes p).Installs r.snapshot n')
  | restarted {windowSize : Nat} (h : n'.machine = .restore windowSize (c.nodes p).snapshot)

/-- Only one node changes. -/
theorem Drives.put (h : Drives codec c a p n') (q : String) : Drives codec c a q ((c.put p n').nodes q) := by
  by_cases hq : q = p
  · rw [hq, put_self]
    exact h
  · rw [put_other c n' hq]
    exact .idle rfl

theorem drives_handle {i : Nat} {complete : Bool} {keepFrom : Nat} {call : Call} (hcall : c.calls[i]? = some call) :
    Drives codec c a call.dst ((c.nodes call.dst).handle complete keepFrom call.request).1 := by
  have hmem := List.mem_of_getElem? hcall
  generalize hrequest : call.request = request
  cases request with
  | vote r => exact .idle (Node.machine_handleRequestVote ..)
  | heartbeat caller r => exact .idle (Node.machine_handleHeartbeat ..)
  | append caller r => exact .idle (Node.machine_handleAppendEntries ..)
  | install r =>
    rcases (c.nodes call.dst).machine_handleInstallSnapshot r complete keepFrom with h | ⟨h, hterm⟩
    · exact .idle h
    · exact .installed hmem hrequest hterm h

theorem drives_of_step (h : c.step codec a = some c') (q : String) : Drives codec c a q (c'.nodes q) := by
  cases a with
  | start p =>
    simp only [step, start] at h
    split at h
    swap
    · cases h
    have hlead := (c.nodes p).machine_becomeLeader
    split at h
    · next n' err heq =>
      cases h
      rw [heq] at hlead
      have hrestart : n'.restart.machine = .restore n'.config.dedupWindowSize (c.nodes p).snapshot := by
        rw [← show n'.snapshot = (c.nodes p).snapshot from congrArg Node.Machine.snapshot hlead]
        exact Node.machine_create ..
      exact Drives.put (.restarted hrestart) q
    · next heq =>
      cases h
      rw [heq] at hlead
      exact Drives.put (.idle ((Node.machine_maybeCommit _).trans hlead)) q
  | startElection p =>
    simp only [step, startElection] at h
    split at h
    swap
    · cases h
    cases h
    refine Drives.put ?_ q
    exact .idle rfl
  | finishElection p =>
    simp only [step, finishElection] at h
    split at h
    · cases h
    split at h
    swap
    · cases h
    cases h
    exact Drives.put (.idle (Node.machine_finishElection ..)) q
  | beginBroadcast p =>
    simp only [step, beginBroadcast] at h
    split at h
    swap
    · cases h
    cases h
    refine Drives.put ?_ q
    exact .idle rfl
  | finishBroadcast p round =>
    simp only [step, finishBroadcast] at h
    split at h
    · cases h
    split at h
    swap
    · cases h
    cases h
    exact Drives.put (.idle (Node.machine_finishBroadcast ..)) q
  | replicate p peer =>
    simp only [step, replicate] at h
    split at h
    swap
    · cases h
    obtain ⟨⟨n', request⟩, hn', rfl⟩ := Option.map_eq_some_iff.mp h
    exact Drives.put (.idle (Node.machine_replicatePeerOnce hn')) q
  | forward p i =>
    simp only [step, forward] at h
    split at h
    swap
    · cases h
    split at h
    · cases h
      refine Drives.put ?_ q
      exact .idle rfl
    · next n' follower request hn' =>
      cases h
      exact Drives.put (.idle ((Node.machine_forwardToFollower hn').trans rfl)) q
  | checkMentor p mentor =>
    simp only [step, checkMentor] at h
    split at h
    swap
    · cases h
    obtain ⟨⟨n', message⟩, hn', rfl⟩ := Option.map_eq_some_iff.mp h
    exact Drives.put (.idle (Node.machine_checkMentorTimeout hn')) q
  | checkFollower p follower recent =>
    simp only [step, checkFollower] at h
    split at h
    swap
    · cases h
    obtain ⟨request, -, rfl⟩ := Option.map_eq_some_iff.mp h
    exact .idle rfl
  | deliver i complete keepFrom =>
    simp only [step, deliver] at h
    split at h
    · cases h
    next call hcall =>
    split at h
    swap
    · cases h
    cases h
    exact Drives.put (drives_handle hcall) q
  | receive i overloaded =>
    simp only [step, receive] at h
    split at h
    · cases h
    split at h
    swap
    · cases h
    cases h
    exact Drives.put (.idle (Node.machine_onResponse ..)) q
  | fail i overloaded =>
    simp only [step, fail] at h
    split at h
    · cases h
    split at h
    swap
    · cases h
    cases h
    exact Drives.put (.idle (Node.machine_onResponse ..)) q
  | rebalance p =>
    simp only [step] at h
    split at h
    swap
    · cases h
    obtain ⟨n', hn', rfl⟩ := Option.map_eq_some_iff.mp h
    exact Drives.put (.idle (Node.machine_rebalanceTopology (Transition.ok_of_toOption hn'))) q
  | recoverWindows p expired =>
    simp only [step] at h
    split at h
    swap
    · cases h
    cases h
    refine Drives.put ?_ q
    exact .idle rfl
  | clientWrite p r =>
    simp only [step, clientWrite] at h
    split at h
    swap
    · cases h
    split at h
    · next e hcheck =>
      cases h
      refine Drives.put ?_ q
      exact .asked rfl hcheck rfl
    · cases h
      exact .idle rfl
  | propose p i =>
    simp only [step, propose] at h
    split at h
    · cases h
    next e he =>
    have hpropose := Node.machine_propose codec { c.nodes p with writes := (c.nodes p).writes.eraseIdx i } e
    have hdrives : Drives codec c (.propose p i) p
        (({ c.nodes p with writes := (c.nodes p).writes.eraseIdx i }.propose codec e).1) := by
      obtain ⟨id, k, h⟩ := hpropose
      exact .noted h
    split at h
    · next heq =>
      cases h
      rw [heq] at hdrives
      exact hdrives.put q
    · next heq =>
      cases h
      rw [heq] at hdrives
      exact hdrives.put q
  | apply p outcome =>
    simp only [step, apply] at h
    split at h
    · cases h
    next n' e happly =>
    cases h
    obtain ⟨hlt, hread, -⟩ := Node.applyCommittedEntry_cases happly
    exact Drives.put (.applied rfl hlt hread (Node.machine_applyCommittedEntry happly)) q
  | saveSnapshot p keepFrom =>
    simp only [step] at h
    obtain ⟨n', hn', rfl⟩ := Option.map_eq_some_iff.mp h
    rcases Node.machine_saveSnapshot hn' with h | ⟨t, raftTerm, ht, h⟩
    · exact Drives.put (.idle h) q
    · exact Drives.put (.saved rfl ht h) q
  | restart p =>
    simp only [step] at h
    split at h
    swap
    · cases h
    cases h
    exact Drives.put (.restarted (Node.machine_create ..)) q

/-! ## Snapshots on their way, and the record of what is applied -/

/-- A snapshot that is on its way was that of its sender, in the term that it names. -/
theorem install_of_step (hcfg : c.Configured) (h : c.step codec a = some c') {call : Call} (hcall : call ∈ c'.calls)
    {r : InstallSnapshotRequest} (hr : call.request = .install r) : (∃ old ∈ c.calls, old.request = .install r) ∨
      ∃ p, (c.nodes p).snapshot = some r.snapshot ∧ r.leaderTerm = (c.nodes p).currentTerm := by
  have hsent : ∀ {p : String} {messages : List (String × Request)}, call ∈ c.calls ++ messages.map (fun m =>
      ({ src := p, dst := m.1, request := m.2 } : Call)) → (∀ m ∈ messages, m.2 = .install r →
        (c.nodes p).snapshot = some r.snapshot ∧ r.leaderTerm = (c.nodes p).currentTerm) →
      (∃ old ∈ c.calls, old.request = .install r) ∨
        ∃ p, (c.nodes p).snapshot = some r.snapshot ∧ r.leaderTerm = (c.nodes p).currentTerm := by
    intro p messages hin hmessages
    rcases List.mem_append.mp hin with hin | hin
    · exact .inl ⟨call, hin, hr⟩
    · obtain ⟨m, hm, rfl⟩ := List.mem_map.mp hin
      exact .inr ⟨p, hmessages m hm hr⟩
  have hset : ∀ {i : Nat} {old new : Call}, call ∈ c.calls.set i new → c.calls[i]? = some old →
      new.request = old.request → ∃ old ∈ c.calls, old.request = .install r := by
    intro i old new hin hold hnew
    rcases List.mem_or_eq_of_mem_set hin with hin | rfl
    · exact ⟨call, hin, hr⟩
    · exact ⟨old, List.mem_of_getElem? hold, hnew ▸ hr⟩
  have hdrop : ∀ {p : String}, call ∈ (c.dropCalls p).calls → ∃ old ∈ c.calls, old.request = .install r := by
    intro p hin
    obtain ⟨old, hold, rfl⟩ := List.mem_map.mp hin
    refine ⟨old, hold, ?_⟩
    split at hr
    · exact hr
    · exact hr
  cases moves_of_step h with
  | work hcore hmatch hsends =>
    refine hsent hcall fun m hm hrequest => ?_
    obtain ⟨-, -, hsend⟩ := hsends m hm
    cases hsend (hcfg _).1 with
    | heartbeat => cases hrequest
    | append => cases hrequest
    | install hsnapshot =>
      cases hrequest
      exact ⟨hsnapshot, rfl⟩
  | forward hmem hcopy hcore hmatch hsends =>
    refine hsent hcall fun m hm hrequest => ?_
    cases (hsends m hm).1 with
    | append => cases hrequest
    | install hsnapshot =>
      cases hrequest
      exact ⟨hsnapshot, rfl⟩
  | stand =>
    refine hsent hcall fun m hm hrequest => ?_
    obtain ⟨peer, -, rfl⟩ := List.mem_map.mp hm
    cases hrequest
  | fall | lose | win | boot | propose | apply | saveSnapshot => exact .inl ⟨call, hcall, hr⟩
  | crash => exact .inl (hdrop hcall)
  | deliver hold => exact .inl (hset hcall hold rfl)
  | answer hold => exact .inl (hset hcall hold rfl)
  | restart => exact .inl (hdrop hcall)

theorem applied_commit (h : History) (p : String) (n n' : Node) : (h.commit p n n').applied = h.applied := by
  unfold History.commit
  split <;> rfl

theorem applied_handled (h : History) (p : String) (n : Node) (request : Request) (reply : Option Response) :
    (h.handled p n request reply).applied = h.applied := by
  unfold History.handled
  split
  · split <;> rfl
  · rfl
  · rfl

/-- What has been applied stays on record. -/
theorem applied_subset_of_step (h : c.step codec a = some c') : c.history.applied ⊆ c'.history.applied := by
  intro x hx
  cases moves_of_step h with
  | work | forward | fall | stand | lose | saveSnapshot | restart => exact hx
  | win | propose | answer =>
    rw [record_history, applied_commit]
    exact hx
  | boot =>
    rw [record_history, applied_commit]
    split <;> exact hx
  | crash =>
    rw [record_history]
    split <;> exact hx
  | deliver =>
    rw [record_history, applied_handled]
    exact hx
  | apply => exact List.mem_cons_of_mem _ hx

theorem mem_applied_of_step {outcome : Except String Unit} (h : c.step codec (.apply p outcome) = some c') {e : LogEntry}
    (hread : (c.nodes p).log.read ((c.nodes p).appliedIndex + 1) = .ok e) :
    ⟨p, (c.nodes p).appliedIndex + 1, e⟩ ∈ c'.history.applied := by
  simp only [step, apply] at h
  split at h
  · cases h
  next n' x happly =>
  cases h
  obtain ⟨-, hx, -⟩ := Node.applyCommittedEntry_cases happly
  rw [hread] at hx
  cases hx
  exact List.mem_cons_self

end Cluster

end RaftVdb
