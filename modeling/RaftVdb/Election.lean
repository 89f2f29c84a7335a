import RaftVdb.Cluster
import RaftVdb.Frame
import RaftVdb.Lib.Quorum

/-!
# Election safety

`BecomeFollower` clears the vote whatever term it is called with. Called with the current
term it lets a follower that has voted, or a leader, vote again in that term, and two
nodes can win it. In runs where that does not happen every vote for another node stands
until the term is over, and any two majorities share such a vote.
-/

namespace RaftVdb

open Lib

namespace Node

/-- `BecomeFollower` with this term takes back no vote of the current term that counts: a
candidate's vote for itself stops counting when it steps down. -/
def KeepsVote (n : Node) (term : Nat) : Prop :=
  term = n.currentTerm → n.state = .candidate ∨ n.votedFor = ""

instance (n : Node) (term : Nat) : Decidable (n.KeepsVote term) := by
  unfold KeepsVote
  infer_instance

/-- The term with which the handler of a request may call `BecomeFollower` on a node that
is no follower. -/
def KeepsVoteOn (n : Node) : Request → Prop
  | .vote _ => True
  | .heartbeat _ r => n.state ≠ .follower → n.KeepsVote r.term
  | .append _ r => n.state ≠ .follower → n.KeepsVote r.term
  | .install r => n.state ≠ .follower →
      n.KeepsVote (if r.leaderTerm = 0 then r.snapshot.raftTerm else r.leaderTerm)

instance (n : Node) (r : Request) : Decidable (n.KeepsVoteOn r) := by
  cases r <;> simp only [KeepsVoteOn] <;> infer_instance

/-- What a step can do to the ballot of a node when it casts no vote and neither starts nor
counts an election. -/
structure Eases (n n' : Node) : Prop where
  config : n'.config = n.config
  term : n.currentTerm ≤ n'.currentTerm
  vote : n'.currentTerm = n.currentTerm →
    n'.votedFor = n.votedFor ∨ (n'.votedFor = "" ∧ (n.state = .candidate ∨ n.votedFor = ""))
  state : n'.state = .follower ∨
    (n'.state = n.state ∧ n'.currentTerm = n.currentTerm ∧ n'.votedFor = n.votedFor)
  election : n'.election = none ∨ n'.election = n.election

variable {n n' : Node}

/-- The part of a node that elections depend on. -/
def ballot (n : Node) : Config × Nat × String × RaftState × Option Election :=
  (n.config, n.currentTerm, n.votedFor, n.state, n.election)

theorem Eases.refl (n : Node) : Eases n n := ⟨rfl, le_refl _, fun _ => .inl rfl, .inr ⟨rfl, rfl, rfl⟩, .inr rfl⟩

/-- A change of the remaining fields after an easing. -/
theorem Eases.congr {m : Node} (h : Eases n m) (hballot : n'.ballot = m.ballot) : Eases n n' := by
  simp only [ballot, Prod.mk.injEq] at hballot
  obtain ⟨hconfig, hterm, hvote, hstate, helection⟩ := hballot
  constructor
  · rw [hconfig, h.config]
  · rw [hterm]
    exact h.term
  · rw [hterm, hvote]
    exact h.vote
  · rw [hstate, hterm, hvote]
    exact h.state
  · rw [helection]
    exact h.election

theorem Eases.of_ballot (h : n'.ballot = n.ballot) : Eases n n' := (Eases.refl n).congr h

theorem ballot_of_core (h : n'.core = n.core) : n'.ballot = n.ballot := eq_of_core ballot (fun _ => rfl) h

theorem election_stepDown (n : Node) (term : Nat) : (n.stepDown term).election = n.election := by
  unfold stepDown becomeFollower
  by_cases h : term < n.currentTerm
  · rw [if_pos h]
  · rw [if_neg h]

theorem KeepsVote.of_lt {term : Nat} (h : n.currentTerm < term) : n.KeepsVote term := fun heq => by omega

theorem becomeFollower_eases {term : Nat} {leaderId : String} (hkeep : n.KeepsVote term)
    (h : n.becomeFollower term leaderId = .ok n') : Eases n n' ∧ n'.currentTerm = term := by
  unfold becomeFollower at h
  split at h
  · cases h
  · next hge =>
    cases h
    refine ⟨⟨rfl, by simpa using hge, ?_, .inl rfl, .inr rfl⟩, rfl⟩
    intro heq
    exact .inr ⟨rfl, hkeep heq⟩

theorem stepDown_eases {term : Nat} (hkeep : n.KeepsVote term) : Eases n (n.stepDown term) := by
  unfold stepDown
  cases h : n.becomeFollower term with
  | error err => exact .refl n
  | ok m => exact (becomeFollower_eases hkeep h).1

theorem noteLeader_eases {term : Nat} {leaderId : String} (hkeep : n.state ≠ .follower → n.KeepsVote term)
    (h : n.noteLeader term leaderId = .ok n') : Eases n n' := by
  unfold noteLeader at h
  split at h
  · next hcase =>
    refine (becomeFollower_eases ?_ h).1
    rcases hcase with hlt | hstate
    · exact .of_lt hlt
    · exact hkeep hstate
  · cases h
    exact .of_ballot rfl

theorem handleHeartbeat_eases {r : HeartbeatRequest} (hkeep : n.state ≠ .follower → n.KeepsVote r.term) :
    Eases n (n.handleHeartbeat r).1 := by
  unfold handleHeartbeat
  split
  · exact .refl n
  cases hnote : n.noteLeader r.term r.leaderId with
  | error err => exact .refl n
  | ok m =>
    have hm := noteLeader_eases hkeep hnote
    cases htop : m.applyTopology r.topology with
    | error err =>
      simp only [htop]
      exact hm
    | ok m' =>
      have hm' := hm.congr (ballot_of_core (core_applyTopology htop))
      simp only [htop, advanceCommit]
      split <;> exact hm'.congr rfl

theorem prepareAppend_eases {r : AppendEntriesRequest} (hkeep : n.state ≠ .follower → n.KeepsVote r.term) :
    Eases n (n.prepareAppend r).1 := by
  unfold prepareAppend
  split
  · exact .refl n
  cases hnote : n.noteLeader r.term r.leaderId with
  | error err => exact .refl n
  | ok m =>
    have hm := noteLeader_eases hkeep hnote
    cases htop : m.applyTopology r.topology with
    | error err =>
      simp only [htop]
      exact hm
    | ok m' =>
      have hm' := hm.congr (ballot_of_core (core_applyTopology htop))
      simp only [htop]
      split <;> exact hm'

/-- The entry loop and what follows it only touch log, commit index and the dispatch. -/
theorem ballot_finishAppend (n : Node) (r : AppendEntriesRequest) : (n.finishAppend r).1.ballot = n.ballot := by
  unfold finishAppend
  dsimp only
  split
  · rfl
  · unfold dispatchForward advanceCommit
    dsimp only
    split <;> split <;> rfl

theorem handleAppendEntries_eases {r : AppendEntriesRequest} (hkeep : n.state ≠ .follower → n.KeepsVote r.term) :
    Eases n (n.handleAppendEntries r).1 := by
  have hprepare := prepareAppend_eases hkeep
  unfold handleAppendEntries
  split
  · next m answer heq =>
    rw [heq] at hprepare
    exact hprepare
  · next m heq =>
    rw [heq] at hprepare
    exact hprepare.congr (ballot_finishAppend m r)

theorem ballot_applyInstalledSnapshot (n : Node) (s : Snapshot) (keepFrom : Nat) :
    (n.applyInstalledSnapshot s keepFrom).1.ballot = n.ballot := by
  unfold applyInstalledSnapshot
  dsimp only
  split <;> rfl

theorem handleInstallSnapshot_eases {r : InstallSnapshotRequest} {complete : Bool} {keepFrom : Nat}
    (hkeep : n.state ≠ .follower → n.KeepsVote (if r.leaderTerm = 0 then r.snapshot.raftTerm else r.leaderTerm)) :
    Eases n (n.handleInstallSnapshot r complete keepFrom).1 := by
  unfold handleInstallSnapshot
  dsimp only
  generalize hterm : (if r.leaderTerm = 0 then r.snapshot.raftTerm else r.leaderTerm) = term at hkeep ⊢
  split
  · exact .refl n
  have hfollow : ∀ m, (if term > n.currentTerm ∨ n.state ≠ .follower then n.becomeFollower term else .ok n) = .ok m →
      Eases n m := by
    intro m hm
    split at hm
    · next hcase =>
      refine (becomeFollower_eases ?_ hm).1
      rcases hcase with hlt | hstate
      · exact .of_lt hlt
      · exact hkeep hstate
    · cases hm
      exact .refl n
  split
  · exact .refl n
  · next m hm =>
    split
    · exact hfollow m hm
    · have hinstall := (hfollow m hm).congr (ballot_applyInstalledSnapshot m r.snapshot keepFrom)
      split
      · next heq =>
        rw [heq] at hinstall
        exact hinstall
      · next heq =>
        rw [heq] at hinstall
        exact hinstall

/-- Every handler but that of `RequestVote` eases the ballot. -/
theorem handle_eases {request : Request} (complete : Bool) (keepFrom : Nat) (hvote : ∀ r, request ≠ .vote r)
    (hkeep : n.KeepsVoteOn request) : Eases n (n.handle complete keepFrom request).1 := by
  cases request with
  | vote r => exact absurd rfl (hvote r)
  | heartbeat caller r => exact handleHeartbeat_eases hkeep
  | append caller r => exact handleAppendEntries_eases hkeep
  | install r => exact handleInstallSnapshot_eases hkeep

/-- A node that `HandleRequestVote` has taken to the term of the request, and the vote it
casts from there. -/
theorem handleRequestVote_cases (n : Node) (r : RequestVoteRequest) :
    (Eases n (n.handleRequestVote r).1 ∧ ∀ resp, (n.handleRequestVote r).2 = .ok resp → resp.voteGranted = false) ∨
    ∃ m, Eases n m ∧ m.currentTerm = r.term ∧ m.log = n.log ∧ (m.votedFor = "" ∨ m.votedFor = r.candidateId) ∧
      m.isCandidateLogUpToDate r.lastLogIndex r.lastLogTerm = true ∧
      n.handleRequestVote r = ({ m with votedFor := r.candidateId, state := .follower }, .ok ⟨m.currentTerm, true⟩) := by
  unfold handleRequestVote
  split
  · exact .inl ⟨.refl n, fun resp h => by cases h; rfl⟩
  next hge =>
  have hadopt : ∀ m, (if r.term > n.currentTerm then n.becomeFollower r.term else .ok n) = .ok m →
      Eases n m ∧ m.currentTerm = r.term ∧ m.log = n.log := by
    intro m hm
    split at hm
    · next hlt =>
      obtain ⟨hease, hterm⟩ := becomeFollower_eases (.of_lt hlt) hm
      refine ⟨hease, hterm, ?_⟩
      unfold becomeFollower at hm
      split at hm
      · cases hm
      · cases hm
        rfl
    · cases hm
      exact ⟨.refl n, by omega, rfl⟩
  split
  · exact .inl ⟨.refl n, fun resp h => by cases h⟩
  · next m hm =>
    obtain ⟨hease, hterm, hlog⟩ := hadopt m hm
    split
    · next hgrant => exact .inr ⟨m, hease, hterm, hlog, hgrant.1, hgrant.2, rfl⟩
    · exact .inl ⟨hease, fun resp h => by cases h; rfl⟩

theorem onResponse_vote {peerId : String} {overloaded : Bool} {r : RequestVoteRequest} {reply : Option Response}
    (h : ∀ resp, reply ≠ some (.vote resp)) : n.onResponse peerId overloaded (.vote r) reply = n := by
  rcases reply with _ | (resp | resp | resp | resp)
  · rfl
  · exact absurd rfl (h resp)
  · rfl
  · rfl
  · rfl

/-- What the end of a call does to the ballot, except for a counted vote. -/
theorem onResponse_eases {request : Request} (peerId : String) (overloaded : Bool) (reply : Option Response)
    (hvote : ∀ r, request ≠ .vote r) : Eases n (n.onResponse peerId overloaded request reply) := by
  have happend : ∀ r a caller, Eases n (n.onAppendResponse peerId overloaded r a caller) := by
    intro r a caller
    rcases n.onAppendResponse_cases peerId overloaded r a caller with hcore | ⟨term, hlt, heq⟩ | ⟨b, -, -, -, -, heq⟩
    · exact .of_ballot (ballot_of_core hcore)
    · rw [heq]
      exact stepDown_eases (.of_lt hlt)
    · rw [heq]
      rcases (n.ackPeer peerId b.matchIndex).maybeCommit_cases with hsame | ⟨k, -, -, -, -, -, hk⟩
      · rw [hsame]
        exact .of_ballot rfl
      · rw [hk]
        exact .of_ballot rfl
  have hinstall : ∀ s a, Eases n (n.onInstallResponse peerId s a) := by
    intro s a
    rcases n.onInstallResponse_cases peerId s a with hcore | ⟨term, hlt, heq⟩
    · exact .of_ballot (ballot_of_core hcore)
    · rw [heq]
      exact stepDown_eases (.of_lt hlt)
  have hheartbeat : ∀ a caller, Eases n (n.onHeartbeatResponse peerId overloaded a caller) := fun a caller =>
    .of_ballot (ballot_of_core (core_onHeartbeatResponse n peerId overloaded a caller))
  cases request with
  | vote r => exact absurd rfl (hvote r)
  | heartbeat caller r => unfold onResponse; split <;> simp_all
  | append caller r => unfold onResponse; split <;> simp_all
  | install r => unfold onResponse; split <;> simp_all

theorem ballot_maybeCommit (n : Node) : n.maybeCommit.ballot = n.ballot := by
  rcases n.maybeCommit_cases with hsame | ⟨k, -, -, -, -, -, hk⟩
  · rw [hsame]
  · rw [hk]
    rfl

theorem ballot_appendEntry (n : Node) (e : LogEntry) : (n.appendEntry e).1.ballot = n.ballot := by
  unfold appendEntry
  dsimp only
  split <;> rfl

theorem ballot_propose (codec : CommandCodec) (n : Node) (e : LogEntry) : (n.propose codec e).1.ballot = n.ballot := by
  have happend := ballot_appendEntry n e
  unfold propose
  split
  · rfl
  · split
    · next heq =>
      rw [heq] at happend
      exact happend
    · next heq =>
      rw [heq] at happend
      exact happend

theorem ballot_maybeTriggerSnapshot (n : Node) (k : Nat) : (n.maybeTriggerSnapshot k).ballot = n.ballot := by
  unfold maybeTriggerSnapshot
  split <;> rfl

theorem ballot_execute (codec : CommandCodec) (n : Node) (k : Nat) (e : LogEntry) (outcome : Except String Unit) :
    (n.execute codec k e outcome).ballot = n.ballot := by
  unfold execute
  split <;> rfl

theorem ballot_applyCommittedEntry {codec : CommandCodec} {outcome : Except String Unit} {e : LogEntry}
    (h : n.applyCommittedEntry codec outcome = some (n', e)) : n'.ballot = n.ballot := by
  unfold applyCommittedEntry at h
  split at h
  · split at h
    · cases h
    · next x _ =>
      cases h
      rw [ballot_maybeTriggerSnapshot]
      exact ballot_execute codec n (n.appliedIndex + 1) e outcome
  · cases h

theorem ballot_saveSnapshot {keepFrom : Nat} (h : n.saveSnapshot keepFrom = some n') : n'.ballot = n.ballot := by
  unfold saveSnapshot at h
  split at h
  · cases h
  · split at h <;> cases h <;> rfl

theorem restart_eases (n : Node) : Eases n n.restart :=
  ⟨rfl, le_refl _, fun _ => .inl rfl, .inl rfl, .inl rfl⟩

theorem becomeLeader_ballot (n : Node) :
    (∃ err, n.becomeLeader.2 = .error err ∧ n.becomeLeader.1.ballot = n.firstTerm.ballot) ∨
    (n.becomeLeader.2 = .ok () ∧ n.becomeLeader.1.ballot = { n.firstTerm with state := .leader }.ballot) := by
  unfold becomeLeader
  generalize n.firstTerm = m
  dsimp only
  split
  · exact .inl ⟨_, rfl, rfl⟩
  · next topology _ =>
    have happend := ballot_appendEntry { m with leaderId := m.selfId, topology } noopEntry
    split
    · next heq =>
      rw [heq] at happend
      exact .inl ⟨_, rfl, happend⟩
    · next m' noopIndex heq =>
      rw [heq] at happend
      refine .inr ⟨rfl, ?_⟩
      simp only [ballot, Prod.mk.injEq] at happend ⊢
      exact ⟨happend.1, happend.2.1, happend.2.2.1, trivial, happend.2.2.2.2⟩

theorem firstTerm_of_ne_zero (h : n.currentTerm ≠ 0) : n.firstTerm = n := if_neg h

/-- The end of an election: the node wins it, or eases its ballot. -/
theorem finishElection_cases {e : Election} (he : e.term ≠ 0)
    (hkeep : e.highestTerm > e.term → n.KeepsVote e.highestTerm) :
    (Eases n (n.finishElection e) ∧ (n.finishElection e).election = none ∧
      (n.state = .candidate → (n.finishElection e).state ≠ .leader)) ∨
    (n.state = .candidate ∧ n.currentTerm = e.term ∧ quorumSize n.config.peers ≤ e.grantedVotes ∧
      (n.finishElection e).ballot = { n with state := .leader, election := none }.ballot) := by
  unfold finishElection
  dsimp only
  split
  · next hlt =>
    left
    have hease : Eases n ({ n with election := none }.stepDown e.highestTerm) := by
      have hdown := stepDown_eases (n := { n with election := none }) (hkeep hlt)
      exact ⟨hdown.config, hdown.term, hdown.vote, hdown.state, .inl (by
        rcases hdown.election with h | h <;> exact h)⟩
    refine ⟨hease, ?_, fun hstate => ?_⟩
    · exact election_stepDown _ _
    · rcases hease.state with h | ⟨h, -⟩ <;> rw [h]
      · decide
      · rw [hstate]
        decide
  · have hidle : Eases n { n with election := none } ∧ (none : Option Election) = none ∧
        (n.state = .candidate → n.state ≠ .leader) :=
      ⟨⟨rfl, le_refl _, fun _ => .inl rfl, .inr ⟨rfl, rfl, rfl⟩, .inl rfl⟩, rfl, fun h => by rw [h]; decide⟩
    split
    · exact .inl hidle
    · next hcase =>
      simp only [not_or, not_ne_iff] at hcase
      obtain ⟨hstate, hterm⟩ := hcase
      split
      · next hquorum =>
        have hlead := becomeLeader_ballot { n with election := none }
        rw [firstTerm_of_ne_zero (n := { n with election := none }) (hterm ▸ he)] at hlead
        split
        · next m err heq =>
          rw [heq] at hlead
          rcases hlead with ⟨_, -, hballot⟩ | ⟨hok, -⟩
          · have hm : Eases n m := hidle.1.congr hballot
            simp only [ballot, Prod.mk.injEq] at hballot
            exact .inl ⟨hm, hballot.2.2.2.2, fun _ => by rw [hballot.2.2.2.1, hstate]; decide⟩
          · cases hok
        · next m _ heq =>
          rw [heq] at hlead
          rcases hlead with ⟨_, herr, -⟩ | ⟨-, hballot⟩
          · cases herr
          · exact .inr ⟨hstate, hterm, hquorum, (ballot_maybeCommit m).trans hballot⟩
      · exact .inl hidle

end Node

/-- The node voted for a candidate in the term. -/
def History.Voted (h : History) (v : String) (T : Nat) (p : String) : Prop :=
  ∃ x ∈ h.votes, x.voter = v ∧ x.term = T ∧ x.candidate = p

theorem History.Voted.mono {h h' : History} (hsub : h.votes ⊆ h'.votes) {v p : String} {T : Nat} (hv : h.Voted v T p) :
    h'.Voted v T p := by
  obtain ⟨x, hx, hrest⟩ := hv
  exact ⟨x, hsub hx, hrest⟩

/-- What of a call never changes. -/
def Call.key (call : Call) : String × String × Request := (call.src, call.dst, call.request)

namespace Cluster

/-- No `BecomeFollower` in this step takes back a vote of the current term that counts. -/
def KeepsVotes (c : Cluster) : Action → Prop
  | .finishElection p => ∀ e ∈ (c.nodes p).election, e.highestTerm > e.term → (c.nodes p).KeepsVote e.highestTerm
  | .finishBroadcast p round =>
    ∀ b ∈ (c.nodes p).rounds.find? round, b.highestTerm > b.term → (c.nodes p).KeepsVote b.highestTerm
  | .deliver i _ _ => ∀ call ∈ c.calls[i]?, (c.nodes call.dst).KeepsVoteOn call.request
  | _ => True

instance (c : Cluster) (a : Action) : Decidable (c.KeepsVotes a) := by
  cases a <;> simp only [KeepsVotes] <;> infer_instance

/-- The votes counted so far come from different peers that granted them and have answered. -/
def Tally (c : Cluster) (p : String) (e : Election) : Prop :=
  ∃ voters : List String, voters.Nodup ∧ voters ⊆ normalizePeers p c.members.ids ∧
    e.grantedVotes = voters.length + 1 ∧ c.history.Voted p e.term p ∧
    ∀ v ∈ voters, c.history.Voted v e.term p ∧ ∀ call ∈ c.calls, call.src = p →
      (∃ r, call.request = .vote r ∧ r.term = e.term) → call.dst = v → call.waiting = false

structure ElectionInv (c : Cluster) : Prop where
  config : ∀ p, (c.nodes p).config.nodeId = p ∧ (c.nodes p).config.peers = normalizePeers p c.members.ids
  self : ∀ p, (c.nodes p).state ≠ .follower → (c.nodes p).config.peers = [] ∨ (c.nodes p).votedFor = p
  vote_mem : ∀ v ∈ c.history.votes, v.voter ∈ c.members.ids ∧ v.candidate ∈ c.members.ids
  vote_le : ∀ v ∈ c.history.votes, v.term ≤ (c.nodes v.voter).currentTerm
  vote_held : ∀ v ∈ c.history.votes, v.candidate ≠ v.voter → v.term = (c.nodes v.voter).currentTerm →
    (c.nodes v.voter).votedFor = v.candidate
  vote_once : ∀ v ∈ c.history.votes, ∀ v' ∈ c.history.votes, v.voter = v'.voter → v.term = v'.term →
    v.candidate ≠ v.voter → v'.candidate ≠ v'.voter → v.candidate = v'.candidate
  call_wf : ∀ call ∈ c.calls, ∀ r, call.request = .vote r → r.candidateId = call.src ∧ call.src ∈ c.members.ids ∧
    call.dst ∈ normalizePeers call.src c.members.ids ∧ r.term ≤ (c.nodes call.src).currentTerm
  call_once : (c.calls.map Call.key).Pairwise fun k k' => ∀ r r', k.2.2 = .vote r → k'.2.2 = .vote r' →
    k.1 = k'.1 → r.term = r'.term → k.2.1 ≠ k'.2.1
  call_granted : ∀ call ∈ c.calls, ∀ r resp, call.request = .vote r → call.reply = some (.vote resp) →
    resp.voteGranted = true → c.history.Voted call.dst r.term call.src
  election : ∀ p e, (c.nodes p).election = some e → p ∈ c.members.ids ∧ e.term ≠ 0 ∧
    e.term ≤ (c.nodes p).currentTerm ∧ c.Tally p e
  led_mem : ∀ p T, (p, T) ∈ c.history.led → p ∈ c.members.ids
  led_le : ∀ p T, (p, T) ∈ c.history.led → T ≤ (c.nodes p).currentTerm
  led_state : ∀ p T, (p, T) ∈ c.history.led → T = (c.nodes p).currentTerm → (c.nodes p).state ≠ .candidate
  led_vote : ∀ p T, (p, T) ∈ c.history.led → (c.nodes p).config.peers ≠ [] → T = (c.nodes p).currentTerm →
    (c.nodes p).votedFor = p
  led_self : ∀ p T, (p, T) ∈ c.history.led → (c.nodes p).config.peers ≠ [] → ∀ v ∈ c.history.votes, v.voter = p →
    v.term = T → v.candidate = p
  led_quorum : ∀ p T, (p, T) ∈ c.history.led → (c.nodes p).config.peers ≠ [] →
    IsMajority c.members.ids fun v => c.history.Voted v T p

variable {c : Cluster}

theorem ElectionInv.peers_ne_nil (hI : ElectionInv c) {p q : String} (hq : q ∈ c.members.ids) (hne : q ≠ p) :
    (c.nodes p).config.peers ≠ [] := by
  rw [(hI.config p).2]
  refine List.ne_nil_of_mem (mem_normalizePeers.mpr ⟨hq, ?_, hne⟩)
  rintro rfl
  exact c.members.named hq

theorem ElectionInv.ne_empty {p : String} (h : p ∈ c.members.ids) : p ≠ "" := by
  rintro rfl
  exact c.members.named h

/-- At most one node wins a term. -/
theorem ElectionInv.led_unique (hI : ElectionInv c) {p q : String} {T : Nat} (hp : (p, T) ∈ c.history.led)
    (hq : (q, T) ∈ c.history.led) : p = q := by
  by_contra hne
  have hpp := hI.peers_ne_nil (hI.led_mem q T hq) (Ne.symm hne)
  have hqp := hI.peers_ne_nil (hI.led_mem p T hp) hne
  obtain ⟨v, ⟨x, hx, hxv, hxT, hxp⟩, ⟨y, hy, hyv, hyT, hyq⟩⟩ :=
    (hI.led_quorum p T hp hpp).meet (hI.led_quorum q T hq hqp)
  by_cases hvp : v = p
  · exact hne ((hI.led_self p T hp hpp y hy (hyv.trans hvp) hyT).symm.trans hyq)
  · by_cases hvq : v = q
    · exact hne (hxp.symm.trans (hI.led_self q T hq hqp x hx (hxv.trans hvq) hxT))
    · have hsame := hI.vote_once x hx y hy (hxv.trans hyv.symm) (hxT.trans hyT.symm)
        (by rw [hxp, hxv]; exact Ne.symm hvp) (by rw [hyq, hyv]; exact Ne.symm hvq)
      exact hne (hxp.symm.trans (hsame.trans hyq))

/-- An easing of one node's ballot. -/
theorem ElectionInv.ease (hI : ElectionInv c) {p : String} {n' : Node} (hn : Node.Eases (c.nodes p) n') :
    ElectionInv (c.put p n') := by
  have hterm : ∀ q, (c.nodes q).currentTerm ≤ ((c.put p n').nodes q).currentTerm := by
    intro q
    by_cases hq : q = p
    · rw [hq, put_self]
      exact hn.term
    · rw [put_other c n' hq]
  have hconfig : ∀ q, ((c.put p n').nodes q).config = (c.nodes q).config := by
    intro q
    by_cases hq : q = p
    · rw [hq, put_self]
      exact hn.config
    · rw [put_other c n' hq]
  have helection : ∀ q e, ((c.put p n').nodes q).election = some e → (c.nodes q).election = some e := by
    intro q e he
    by_cases hq : q = p
    · rw [hq, put_self] at he
      rcases hn.election with h | h
      · rw [h] at he
        cases he
      · rw [hq, ← h]
        exact he
    · rw [put_other c n' hq] at he
      exact he
  exact {
    config := fun q => by rw [hconfig]; exact hI.config q
    vote_mem := hI.vote_mem
    vote_le := fun v hv => (hI.vote_le v hv).trans (hterm _)
    vote_once := hI.vote_once
    call_wf := fun call hcall r hr => by
      obtain ⟨h₁, h₂, h₃, h₄⟩ := hI.call_wf call hcall r hr
      exact ⟨h₁, h₂, h₃, h₄.trans (hterm _)⟩
    call_once := hI.call_once
    call_granted := hI.call_granted
    election := fun q e he => by
      obtain ⟨h₁, h₂, h₃, h₄⟩ := hI.election q e (helection q e he)
      exact ⟨h₁, h₂, h₃.trans (hterm q), h₄⟩
    led_mem := hI.led_mem
    led_le := fun q T h => (hI.led_le q T h).trans (hterm q)
    led_self := fun q T h hpeers => hI.led_self q T h (by rwa [hconfig] at hpeers)
    led_quorum := fun q T h hpeers => hI.led_quorum q T h (by rwa [hconfig] at hpeers)
    self := by
      intro q hstate
      rw [hconfig]
      by_cases hq : q = p
      · subst hq
        rw [put_self] at hstate ⊢
        rcases hn.state with h | ⟨h₁, -, h₃⟩
        · exact absurd h hstate
        · rw [h₃]
          exact hI.self q (h₁ ▸ hstate)
      · rw [put_other c n' hq] at hstate ⊢
        exact hI.self q hstate
    vote_held := by
      intro v hv hne hT
      by_cases hq : v.voter = p
      · rw [hq, put_self] at hT ⊢
        have hle := hI.vote_le v hv
        rw [hq] at hle
        have heq : n'.currentTerm = (c.nodes p).currentTerm := Nat.le_antisymm (hT ▸ hle) hn.term
        have hheld := hI.vote_held v hv hne (by rw [hq, hT, heq])
        rw [hq] at hheld
        rcases hn.vote heq with hsame | ⟨-, hstate | hempty⟩
        · rw [hsame, hheld]
        · rcases hI.self p (by rw [hstate]; decide) with hsolo | hself
          · exact absurd hsolo (hI.peers_ne_nil (hI.vote_mem v hv).2 (hq ▸ hne))
          · exact absurd (hheld.symm.trans hself) (hq ▸ hne)
        · exact absurd (hheld.symm.trans hempty) (ne_empty (hI.vote_mem v hv).2)
      · rw [put_other c n' hq] at hT ⊢
        exact hI.vote_held v hv hne hT
    led_state := by
      intro q T h hT
      by_cases hq : q = p
      · subst hq
        rw [put_self] at hT ⊢
        rcases hn.state with hf | ⟨h₁, h₂, -⟩
        · rw [hf]
          decide
        · rw [h₁]
          exact hI.led_state q T h (hT.trans h₂)
      · rw [put_other c n' hq] at hT ⊢
        exact hI.led_state q T h hT
    led_vote := by
      intro q T h hpeers hT
      rw [hconfig] at hpeers
      by_cases hq : q = p
      · subst hq
        rw [put_self] at hT ⊢
        have heq : n'.currentTerm = (c.nodes q).currentTerm := Nat.le_antisymm (hT ▸ hI.led_le q T h) hn.term
        have hvote := hI.led_vote q T h hpeers (hT.trans heq)
        rcases hn.vote heq with hsame | ⟨-, hstate | hempty⟩
        · rw [hsame, hvote]
        · exact absurd hstate (hI.led_state q T h (hT.trans heq))
        · exact absurd (hvote.symm.trans hempty) (ne_empty (hI.led_mem q T h))
      · rw [put_other c n' hq] at hT ⊢
        exact hI.led_vote q T h hpeers hT }

theorem Tally.mono {h' : History} {p : String} {e : Election} (hsub : c.history.votes ⊆ h'.votes)
    (ht : c.Tally p e) : (c.record h').Tally p e := by
  obtain ⟨voters, hnodup, hpeers, hcount, hself, hvoters⟩ := ht
  exact ⟨voters, hnodup, hpeers, hcount, hself.mono hsub, fun v hv => ⟨(hvoters v hv).1.mono hsub, (hvoters v hv).2⟩⟩

/-- A history that votes and leaders do not show in. -/
theorem ElectionInv.congr_history (hI : ElectionInv c) {h' : History} (hvotes : h'.votes = c.history.votes)
    (hled : h'.led = c.history.led) : ElectionInv (c.record h') := by
  have hvoted : ∀ {v T p}, c.history.Voted v T p → h'.Voted v T p := History.Voted.mono (by rw [hvotes]; exact fun _ => id)
  exact {
    config := hI.config
    self := hI.self
    vote_mem := by simpa only [record, hvotes] using hI.vote_mem
    vote_le := by simpa only [record, hvotes] using hI.vote_le
    vote_held := by simpa only [record, hvotes] using hI.vote_held
    vote_once := by simpa only [record, hvotes] using hI.vote_once
    call_wf := hI.call_wf
    call_once := hI.call_once
    call_granted := fun call hcall r resp h₁ h₂ h₃ => hvoted (hI.call_granted call hcall r resp h₁ h₂ h₃)
    election := fun p e he => by
      obtain ⟨h₁, h₂, h₃, h₄⟩ := hI.election p e he
      exact ⟨h₁, h₂, h₃, h₄.mono (by rw [hvotes]; exact fun _ => id)⟩
    led_mem := by simpa only [record, hled] using hI.led_mem
    led_le := by simpa only [record, hled] using hI.led_le
    led_state := by simpa only [record, hled] using hI.led_state
    led_vote := by simpa only [record, hled] using hI.led_vote
    led_self := by simpa only [record, hled, hvotes] using hI.led_self
    led_quorum := fun p T h hpeers => by
      simp only [record, hled] at h
      exact (hI.led_quorum p T h hpeers).mono fun v => hvoted }

theorem map_key_set {calls : List Call} {i : Nat} {call call' : Call} (h : calls[i]? = some call)
    (hkey : call'.key = call.key) : (calls.set i call').map Call.key = calls.map Call.key := by
  apply List.ext_getElem?
  intro j
  simp only [List.getElem?_map, List.getElem?_set]
  split
  · next hij =>
    subst hij
    rw [h]
    split
    · simp [hkey]
    · next hlen => exact absurd (List.getElem?_eq_some_iff.mp h).1 hlen
  · rfl

/-- Calls that no vote request has been added to, and whose grants are on record. -/
theorem ElectionInv.recall (hI : ElectionInv c) {calls' : List Call} (new : List (String × String × Request))
    (hkeys : calls'.map Call.key = c.calls.map Call.key ++ new) (hnew : ∀ k ∈ new, ∀ r, k.2.2 ≠ .vote r)
    (hwaiting : ∀ call' ∈ calls', ∀ r, call'.request = .vote r →
      ∃ call ∈ c.calls, call.key = call'.key ∧ (call'.waiting = true → call.waiting = true))
    (hgranted : ∀ call' ∈ calls', ∀ r resp, call'.request = .vote r → call'.reply = some (.vote resp) →
      resp.voteGranted = true → c.history.Voted call'.dst r.term call'.src) :
    ElectionInv { c with calls := calls' } := by
  refine { hI with call_wf := ?_, call_once := ?_, call_granted := hgranted, election := ?_ }
  · intro call' hcall' r hr
    obtain ⟨call, hcall, hkey, -⟩ := hwaiting call' hcall' r hr
    simp only [Call.key, Prod.mk.injEq] at hkey
    rw [← hkey.1, ← hkey.2.1]
    exact hI.call_wf call hcall r (hkey.2.2.trans hr)
  · dsimp only
    rw [hkeys, List.pairwise_append]
    refine ⟨hI.call_once, ?_, ?_⟩
    · refine List.pairwise_of_forall_mem_list fun k hk k' _ r r' hr => ?_
      exact absurd hr (hnew k hk r)
    · intro k _ k' hk' r r' _ hr'
      exact absurd hr' (hnew k' hk' r')
  · intro p e he
    obtain ⟨h₁, h₂, h₃, voters, hnodup, hpeers, hcount, hself, hvoters⟩ := hI.election p e he
    refine ⟨h₁, h₂, h₃, voters, hnodup, hpeers, hcount, hself, fun v hv => ⟨(hvoters v hv).1, ?_⟩⟩
    rintro call' hcall' hsrc ⟨r, hr, hT⟩ hdst
    obtain ⟨call, hcall, hkey, hwait⟩ := hwaiting call' hcall' r hr
    simp only [Call.key, Prod.mk.injEq] at hkey
    have hdone := (hvoters v hv).2 call hcall (hkey.1.trans hsrc) ⟨r, hkey.2.2.trans hr, hT⟩ (hkey.2.1.trans hdst)
    by_contra hw
    rw [hwait (by simpa using hw)] at hdone
    cases hdone

/-- New calls that are no vote requests. -/
theorem ElectionInv.send (hI : ElectionInv c) {p : String} {messages : List (String × Request)}
    (hnew : ∀ m ∈ messages, ∀ r, m.2 ≠ .vote r) : ElectionInv (c.send p messages) := by
  refine hI.recall (messages.map fun m => (p, m.1, m.2)) ?_ ?_ ?_ ?_
  · simp [Call.key, Function.comp_def]
  · intro k hk r
    obtain ⟨m, hm, rfl⟩ := List.mem_map.mp hk
    exact hnew m hm r
  · intro call hcall r hr
    rcases List.mem_append.mp hcall with hcall | hcall
    · exact ⟨call, hcall, rfl, id⟩
    · obtain ⟨m, hm, rfl⟩ := List.mem_map.mp hcall
      exact absurd hr (hnew m hm r)
  · intro call hcall r resp hr hreply hgrant
    rcases List.mem_append.mp hcall with hcall | hcall
    · exact hI.call_granted call hcall r resp hr hreply hgrant
    · obtain ⟨m, hm, rfl⟩ := List.mem_map.mp hcall
      exact absurd hr (hnew m hm r)

/-- A call goes on; if it is a vote request that was granted, that is on record. -/
theorem ElectionInv.setCall (hI : ElectionInv c) {i : Nat} {call call' : Call} (hcall : c.calls[i]? = some call)
    (hkey : call'.key = call.key) (hwaiting : call'.waiting = true → call.waiting = true)
    (hgranted : ∀ r resp, call'.request = .vote r → call'.reply = some (.vote resp) → resp.voteGranted = true →
      c.history.Voted call'.dst r.term call'.src) : ElectionInv (c.setCall i call') := by
  have hmem := List.mem_of_getElem? hcall
  refine hI.recall [] (by rw [map_key_set hcall hkey, List.append_nil]) (by simp) ?_ ?_
  · intro x hx r hr
    rcases List.mem_or_eq_of_mem_set hx with hx | rfl
    · exact ⟨x, hx, rfl, id⟩
    · exact ⟨call, hmem, hkey.symm, hwaiting⟩
  · intro x hx r resp hr hreply hgrant
    rcases List.mem_or_eq_of_mem_set hx with hx | rfl
    · exact hI.call_granted x hx r resp hr hreply hgrant
    · exact hgranted r resp hr hreply hgrant

theorem ElectionInv.dropCalls (hI : ElectionInv c) (p : String) : ElectionInv (c.dropCalls p) := by
  have hold : ∀ call' ∈ (c.dropCalls p).calls, ∃ call ∈ c.calls, call.key = call'.key ∧ call.reply = call'.reply ∧
      (call'.waiting = true → call.waiting = true) := by
    intro call' h
    obtain ⟨call, hcall, rfl⟩ := List.mem_map.mp h
    refine ⟨call, hcall, ?_⟩
    split <;> simp [Call.key]
  refine hI.recall [] ?_ (by simp) ?_ ?_
  · rw [List.append_nil, List.map_map]
    refine List.map_congr_left fun call _ => ?_
    simp only [Function.comp_apply]
    split <;> rfl
  · intro call' h r hr
    obtain ⟨call, hcall, hkey, -, hwait⟩ := hold call' h
    exact ⟨call, hcall, hkey, hwait⟩
  · intro call' h r resp hr hreply hgrant
    obtain ⟨call, hcall, hkey, hsame, -⟩ := hold call' h
    simp only [Call.key, Prod.mk.injEq] at hkey
    rw [← hkey.1, ← hkey.2.1]
    exact hI.call_granted call hcall r resp (hkey.2.2.trans hr) (hsame.trans hreply) hgrant

/-- A node votes for another one. -/
theorem ElectionInv.cast (hI : ElectionInv c) {v p : String} (h' : History) (log : List LogEntry)
    (hv : v ∈ c.members.ids) (hp : p ∈ c.members.ids) (hne : p ≠ v)
    (hfree : (c.nodes v).votedFor = "" ∨ (c.nodes v).votedFor = p)
    (hvotes : h'.votes = ⟨v, (c.nodes v).currentTerm, p, log⟩ :: c.history.votes)
    (hled : h'.led = c.history.led) :
    ElectionInv ((c.put v { c.nodes v with votedFor := p, state := .follower }).record h') := by
  have hsub : c.history.votes ⊆ h'.votes := by
    rw [hvotes]
    exact List.subset_cons_self _ _
  have hother : ∀ q, q ≠ v → (c.put v { c.nodes v with votedFor := p, state := .follower }).nodes q = c.nodes q :=
    fun q hq => put_other c _ hq
  have hsame : ∀ q, ((c.put v { c.nodes v with votedFor := p, state := .follower }).nodes q).currentTerm =
        (c.nodes q).currentTerm ∧
      ((c.put v { c.nodes v with votedFor := p, state := .follower }).nodes q).config = (c.nodes q).config ∧
      ((c.put v { c.nodes v with votedFor := p, state := .follower }).nodes q).election = (c.nodes q).election := by
    intro q
    by_cases hq : q = v
    · rw [hq, put_self]
      exact ⟨rfl, rfl, rfl⟩
    · rw [hother q hq]
      exact ⟨rfl, rfl, rfl⟩
  have hunled : (c.nodes v).config.peers ≠ [] → (v, (c.nodes v).currentTerm) ∉ c.history.led := by
    intro hpeers h
    have hself := hI.led_vote v _ h hpeers rfl
    rcases hfree with hfree | hfree
    · exact ne_empty hv (hself.symm.trans hfree)
    · exact hne (hfree.symm.trans hself)
  have hearlier : ∀ y ∈ c.history.votes, y.voter = v → y.term = (c.nodes v).currentTerm → y.candidate ≠ y.voter →
      y.candidate = p := by
    intro y hy hyv hyT hyne
    have hheld := hI.vote_held y hy hyne (by rw [hyv, hyT])
    rw [hyv] at hheld
    rcases hfree with hfree | hfree
    · exact absurd (hheld.symm.trans hfree) (ne_empty (hI.vote_mem y hy).2)
    · exact hheld.symm.trans hfree
  exact {
    config := fun q => by
      simp only [record]
      rw [(hsame q).2.1]
      exact hI.config q
    self := fun q hstate => by
      simp only [record] at hstate ⊢
      rw [(hsame q).2.1]
      by_cases hq : q = v
      · rw [hq, put_self] at hstate
        exact absurd rfl hstate
      · rw [hother q hq] at hstate ⊢
        exact hI.self q hstate
    vote_mem := by
      simp only [record, hvotes, List.forall_mem_cons]
      exact ⟨⟨hv, hp⟩, hI.vote_mem⟩
    vote_le := by
      simp only [record, hvotes, List.forall_mem_cons]
      refine ⟨by rw [(hsame v).1], fun y hy => ?_⟩
      rw [(hsame y.voter).1]
      exact hI.vote_le y hy
    vote_held := by
      simp only [record, hvotes, List.forall_mem_cons]
      refine ⟨fun _ _ => by rw [put_self], fun y hy hyne hyT => ?_⟩
      rw [(hsame y.voter).1] at hyT
      by_cases hyv : y.voter = v
      · rw [hyv, put_self]
        exact (hearlier y hy hyv (by rw [hyT, hyv]) hyne).symm
      · rw [hother _ hyv]
        exact hI.vote_held y hy hyne hyT
    vote_once := by
      simp only [record, hvotes, List.forall_mem_cons]
      refine ⟨⟨fun _ _ _ _ => trivial, fun y hy hyv hyT _ hyne => ?_⟩, fun y hy => ⟨fun hyv hyT hyne _ => ?_, ?_⟩⟩
      · exact (hearlier y hy hyv.symm hyT.symm hyne).symm
      · exact hearlier y hy hyv hyT hyne
      · exact hI.vote_once y hy
    call_wf := fun call hcall r hr => by
      simp only [record]
      rw [(hsame call.src).1]
      exact hI.call_wf call hcall r hr
    call_once := hI.call_once
    call_granted := fun call hcall r resp h₁ h₂ h₃ => (hI.call_granted call hcall r resp h₁ h₂ h₃).mono hsub
    election := fun q e he => by
      simp only [record] at he ⊢
      rw [(hsame q).2.2] at he
      rw [(hsame q).1]
      obtain ⟨h₁, h₂, h₃, h₄⟩ := hI.election q e he
      exact ⟨h₁, h₂, h₃, h₄.mono hsub⟩
    led_mem := fun q T h => hI.led_mem q T (hled ▸ h)
    led_le := fun q T h => by
      simp only [record, hled] at h ⊢
      rw [(hsame q).1]
      exact hI.led_le q T h
    led_state := fun q T h hT => by
      simp only [record, hled] at h hT ⊢
      by_cases hq : q = v
      · rw [hq, put_self]
        simp
      · rw [hother q hq] at hT ⊢
        exact hI.led_state q T h hT
    led_vote := fun q T h hpeers hT => by
      simp only [record, hled] at h hpeers hT ⊢
      rw [(hsame q).2.1] at hpeers
      rw [(hsame q).1] at hT
      by_cases hq : q = v
      · subst hq
        exact absurd (hT ▸ h) (hunled hpeers)
      · rw [hother q hq]
        exact hI.led_vote q T h hpeers hT
    led_self := fun q T h hpeers => by
      simp only [record, hled, hvotes, List.forall_mem_cons] at h hpeers ⊢
      rw [(hsame q).2.1] at hpeers
      refine ⟨fun hq hT => ?_, hI.led_self q T h hpeers⟩
      subst hq hT
      exact absurd h (hunled hpeers)
    led_quorum := fun q T h hpeers => by
      simp only [record, hled] at h hpeers ⊢
      rw [(hsame q).2.1] at hpeers
      exact (hI.led_quorum q T h hpeers).mono fun w hw => hw.mono hsub }

/-- The counted votes of a winner are a majority. -/
theorem Tally.majority {p : String} {e : Election} (ht : c.Tally p e) (hp : p ∈ c.members.ids)
    (hquorum : quorumSize (normalizePeers p c.members.ids) ≤ e.grantedVotes) :
    IsMajority c.members.ids fun v => c.history.Voted v e.term p := by
  obtain ⟨voters, hnodup, hpeers, hcount, hself, hvoters⟩ := ht
  refine ⟨p :: voters, ?_, ?_, ?_, ?_⟩
  · refine List.nodup_cons.mpr ⟨fun hmem => ?_, hnodup⟩
    exact (mem_normalizePeers.mp (hpeers hmem)).2.2 rfl
  · exact List.cons_subset.mpr ⟨hp, fun v hv => (mem_normalizePeers.mp (hpeers hv)).1⟩
  · have := length_normalizePeers hp
    rw [quorumSize] at hquorum
    rw [List.length_cons]
    omega
  · exact List.forall_mem_cons.mpr ⟨hself, fun v hv => (hvoters v hv).1⟩

/-- A candidate with enough votes becomes leader. -/
theorem ElectionInv.win (hI : ElectionInv c) {p : String} {e : Election} {n' : Node} {h' : History}
    (he : (c.nodes p).election = some e) (hstate : (c.nodes p).state = .candidate)
    (hterm : (c.nodes p).currentTerm = e.term) (hquorum : quorumSize (c.nodes p).config.peers ≤ e.grantedVotes)
    (hn : n'.ballot = { c.nodes p with state := .leader, election := none }.ballot)
    (hvotes : h'.votes = c.history.votes) (hled : h'.led = (p, (c.nodes p).currentTerm) :: c.history.led) :
    ElectionInv ((c.put p n').record h') := by
  obtain ⟨hmem, -, -, htally⟩ := hI.election p e he
  rw [(hI.config p).2] at hquorum
  have hmajority := htally.majority hmem hquorum
  have hself := hI.self p (by rw [hstate]; decide)
  have hvoted : ∀ {v T q}, c.history.Voted v T q → h'.Voted v T q := History.Voted.mono (by rw [hvotes]; exact fun _ => id)
  simp only [Node.ballot, Prod.mk.injEq] at hn
  obtain ⟨hconfig, hterm', hvote, hstate', helection⟩ := hn
  have hother : ∀ q, q ≠ p → (c.put p n').nodes q = c.nodes q := fun q hq => put_other c _ hq
  have hsame : ∀ q, ((c.put p n').nodes q).currentTerm = (c.nodes q).currentTerm ∧
      ((c.put p n').nodes q).config = (c.nodes q).config ∧ ((c.put p n').nodes q).votedFor = (c.nodes q).votedFor := by
    intro q
    by_cases hq : q = p
    · rw [hq, put_self]
      exact ⟨hterm', hconfig, hvote⟩
    · rw [hother q hq]
      exact ⟨rfl, rfl, rfl⟩
  exact {
    config := fun q => by
      simp only [record]
      rw [(hsame q).2.1]
      exact hI.config q
    self := fun q hq => by
      simp only [record] at hq ⊢
      rw [(hsame q).2.1, (hsame q).2.2]
      by_cases hqp : q = p
      · rw [hqp]
        exact hself
      · rw [hother q hqp] at hq
        exact hI.self q hq
    vote_mem := fun v hv => hI.vote_mem v (hvotes ▸ hv)
    vote_le := by simpa only [record, hvotes, (hsame _).1] using hI.vote_le
    vote_held := by simpa only [record, hvotes, (hsame _).1, (hsame _).2.2] using hI.vote_held
    vote_once := by simpa only [record, hvotes] using hI.vote_once
    call_wf := fun call hcall r hr => by
      simp only [record]
      rw [(hsame call.src).1]
      exact hI.call_wf call hcall r hr
    call_once := hI.call_once
    call_granted := fun call hcall r resp h₁ h₂ h₃ => hvoted (hI.call_granted call hcall r resp h₁ h₂ h₃)
    election := fun q x hx => by
      simp only [record] at hx ⊢
      rw [(hsame q).1]
      by_cases hq : q = p
      · rw [hq, put_self, helection] at hx
        cases hx
      · rw [hother q hq] at hx
        obtain ⟨h₁, h₂, h₃, h₄⟩ := hI.election q x hx
        exact ⟨h₁, h₂, h₃, h₄.mono (by rw [hvotes]; exact fun _ => id)⟩
    led_mem := fun q T h => by
      simp only [record, hled, List.mem_cons, Prod.mk.injEq] at h
      rcases h with ⟨rfl, -⟩ | h
      · exact hmem
      · exact hI.led_mem q T h
    led_le := fun q T h => by
      simp only [record, hled, List.mem_cons, Prod.mk.injEq] at h ⊢
      rw [(hsame q).1]
      rcases h with ⟨rfl, rfl⟩ | h
      · exact le_refl _
      · exact hI.led_le q T h
    led_state := fun q T h hT => by
      simp only [record, hled, List.mem_cons, Prod.mk.injEq] at h hT ⊢
      by_cases hq : q = p
      · rw [hq, put_self, hstate']
        simp
      · rw [hother q hq] at hT ⊢
        exact hI.led_state q T (h.resolve_left fun hh => hq hh.1) hT
    led_vote := fun q T h hpeers hT => by
      simp only [record, hled, List.mem_cons, Prod.mk.injEq] at h hpeers hT ⊢
      rw [(hsame q).2.1] at hpeers
      rw [(hsame q).1] at hT
      rw [(hsame q).2.2]
      rcases h with ⟨rfl, -⟩ | h
      · exact hself.resolve_left hpeers
      · exact hI.led_vote q T h hpeers hT
    led_self := fun q T h hpeers x hx hxq hxT => by
      simp only [record, hled, hvotes, List.mem_cons, Prod.mk.injEq] at h hpeers hx
      rw [(hsame q).2.1] at hpeers
      rcases h with ⟨rfl, rfl⟩ | h
      · by_contra hne
        have hheld := hI.vote_held x hx (by rw [hxq]; exact hne) (by rw [hxq]; exact hxT)
        rw [hxq] at hheld
        exact hne (hheld.symm.trans (hself.resolve_left hpeers))
      · exact hI.led_self q T h hpeers x hx hxq hxT
    led_quorum := fun q T h hpeers => by
      simp only [record, hled, List.mem_cons, Prod.mk.injEq] at h hpeers ⊢
      rw [(hsame q).2.1] at hpeers
      rcases h with ⟨rfl, rfl⟩ | h
      · rw [hterm]
        exact hmajority.mono fun v => hvoted
      · exact (hI.led_quorum q T h hpeers).mono fun v => hvoted }

/-- A node starts an election. -/
theorem ElectionInv.stand (hI : ElectionInv c) {p : String} {c' : Cluster} (h : c.startElection p = some c') :
    ElectionInv c' := by
  unfold Cluster.startElection at h
  dsimp only at h
  split at h
  swap
  · cases h
  next hguard =>
  obtain ⟨hp, -, -⟩ := hguard
  cases h
  obtain ⟨hid, hpeers⟩ := hI.config p
  generalize hn' : ({ (c.nodes p).becomeCandidate with
    election := some
      { term := (c.nodes p).becomeCandidate.currentTerm, highestTerm := (c.nodes p).becomeCandidate.currentTerm } } :
      Node) = n'
  have hterm : n'.currentTerm = (c.nodes p).currentTerm + 1 := by rw [← hn']; rfl
  have hvote : n'.votedFor = p := by rw [← hn']; exact hid
  have hstate : n'.state = .candidate := by rw [← hn']; rfl
  have hconfig : n'.config = (c.nodes p).config := by rw [← hn']; rfl
  have helection : n'.election = some { term := n'.currentTerm, highestTerm := n'.currentTerm } := by rw [← hn']
  have hrequest : n'.requestVote.candidateId = p ∧ n'.requestVote.term = n'.currentTerm := by
    rw [← hn']
    exact ⟨hid, rfl⟩
  have hle : ∀ q, (c.nodes q).currentTerm ≤ ((c.put p n').nodes q).currentTerm := by
    intro q
    by_cases hq : q = p
    · rw [hq, put_self]
      omega
    · rw [put_other c n' hq]
  have hsame : ∀ q, ((c.put p n').nodes q).config = (c.nodes q).config := by
    intro q
    by_cases hq : q = p
    · rw [hq, put_self, hconfig]
    · rw [put_other c n' hq]
  have hsub : c.history.votes ⊆ (c.history.stand p n').votes := List.subset_cons_self _ _
  exact {
    config := fun q => by
      simp only [record, Cluster.send]
      rw [hsame q]
      exact hI.config q
    self := fun q hq => by
      simp only [record, Cluster.send] at hq ⊢
      rw [hsame q]
      by_cases hqp : q = p
      · subst hqp
        rw [put_self, hvote]
        exact .inr rfl
      · rw [put_other c n' hqp] at hq ⊢
        exact hI.self q hq
    vote_mem := List.forall_mem_cons.mpr ⟨⟨hp, hp⟩, hI.vote_mem⟩
    vote_le := by
      simp only [record, Cluster.send, History.stand, List.forall_mem_cons]
      exact ⟨by rw [put_self], fun v hv => (hI.vote_le v hv).trans (hle _)⟩
    vote_held := by
      simp only [record, Cluster.send, History.stand, List.forall_mem_cons]
      refine ⟨fun hne => absurd rfl hne, fun v hv hne hT => ?_⟩
      have hvle := hI.vote_le v hv
      by_cases hvp : v.voter = p
      · rw [hvp, put_self] at hT
        rw [hvp] at hvle
        omega
      · rw [put_other c n' hvp] at hT ⊢
        exact hI.vote_held v hv hne hT
    vote_once := by
      simp only [record, Cluster.send, History.stand, List.forall_mem_cons]
      refine ⟨⟨fun _ _ _ _ => trivial, fun v _ _ _ hne => absurd rfl hne⟩, fun v hv => ⟨fun _ _ _ hne => absurd rfl hne, ?_⟩⟩
      exact hI.vote_once v hv
    call_wf := by
      intro call hcall r hr
      simp only [record, Cluster.send, List.mem_append, List.map_map, List.mem_map] at hcall ⊢
      rcases hcall with hcall | ⟨peer, hpeer, rfl⟩
      · obtain ⟨h₁, h₂, h₃, h₄⟩ := hI.call_wf call hcall r hr
        exact ⟨h₁, h₂, h₃, h₄.trans (hle _)⟩
      · simp only [Function.comp_apply, Request.vote.injEq] at hr ⊢
        subst hr
        have hpeer' : peer ∈ normalizePeers p c.members.ids := hpeers ▸ hpeer
        exact ⟨hrequest.1, hp, hpeer', by rw [put_self, hrequest.2]⟩
    call_once := by
      simp only [record, Cluster.send, List.map_append, List.map_map, List.pairwise_append]
      refine ⟨hI.call_once, ?_, ?_⟩
      · have hnodup : (c.nodes p).becomeCandidate.config.peers.Nodup := by
          have : (c.nodes p).becomeCandidate.config.peers = normalizePeers p c.members.ids := hpeers
          rw [this]
          exact c.members.nodup.filter _
        refine List.pairwise_map.mpr (hnodup.imp ?_)
        intro a b hab r r' _ _ _ _
        exact hab
      · intro k hk k' hk' r r' hr hr' hsrc hT
        obtain ⟨call, hcall, rfl⟩ := List.mem_map.mp hk
        obtain ⟨peer, -, rfl⟩ := List.mem_map.mp hk'
        obtain ⟨-, -, -, hold⟩ := hI.call_wf call hcall r hr
        simp only [Function.comp_apply, Call.key, Request.vote.injEq] at hr' hsrc
        rw [hsrc] at hold
        rw [← hr', hrequest.2] at hT
        omega
    call_granted := by
      intro call hcall r resp hr hreply hgrant
      simp only [record, Cluster.send, List.mem_append, List.map_map, List.mem_map] at hcall
      rcases hcall with hcall | ⟨peer, hpeer, rfl⟩
      · exact (hI.call_granted call hcall r resp hr hreply hgrant).mono hsub
      · cases hreply
    election := by
      intro q e he
      simp only [record, Cluster.send] at he ⊢
      by_cases hq : q = p
      · subst hq
        rw [put_self] at he ⊢
        rw [helection] at he
        cases he
        refine ⟨hp, by simp [hterm], le_refl _, [], List.nodup_nil, by simp, rfl, ?_, by simp⟩
        exact ⟨_, List.mem_cons_self, rfl, rfl, rfl⟩
      · rw [put_other c n' hq] at he ⊢
        obtain ⟨h₁, h₂, h₃, voters, hnodup, hvpeers, hcount, hself, hvoters⟩ := hI.election q e he
        refine ⟨h₁, h₂, h₃, voters, hnodup, hvpeers, hcount, hself.mono hsub, fun v hv => ⟨(hvoters v hv).1.mono hsub, ?_⟩⟩
        intro call hcall hsrc
        simp only [List.mem_append, List.map_map, List.mem_map] at hcall
        rcases hcall with hcall | ⟨peer, hpeer, rfl⟩
        · exact (hvoters v hv).2 call hcall hsrc
        · exact absurd hsrc.symm hq
    led_mem := hI.led_mem
    led_le := fun q T h => (hI.led_le q T h).trans (hle q)
    led_state := by
      intro q T hled hT
      have hqle := hI.led_le q T hled
      simp only [record, Cluster.send] at hT ⊢
      by_cases hq : q = p
      · rw [hq, put_self] at hT
        rw [hq] at hqle
        omega
      · rw [put_other c n' hq] at hT ⊢
        exact hI.led_state q T hled hT
    led_vote := by
      intro q T hled hne hT
      have hqle := hI.led_le q T hled
      simp only [record, Cluster.send] at hne hT ⊢
      rw [hsame q] at hne
      by_cases hq : q = p
      · rw [hq, put_self] at hT
        rw [hq] at hqle
        omega
      · rw [put_other c n' hq] at hT ⊢
        exact hI.led_vote q T hled hne hT
    led_self := by
      intro q T hled hne
      simp only [record, Cluster.send] at hne ⊢
      rw [hsame q] at hne
      exact List.forall_mem_cons.mpr ⟨fun hq _ => hq, hI.led_self q T hled hne⟩
    led_quorum := by
      intro q T hled hne
      simp only [record, Cluster.send] at hne ⊢
      rw [hsame q] at hne
      exact (hI.led_quorum q T hled hne).mono fun v hv => hv.mono hsub }

/-- The locals of a running election change. -/
theorem ElectionInv.retally (hI : ElectionInv c) {p : String} {e e' : Election} {n' : Node}
    (he : (c.nodes p).election = some e) (hn : n'.ballot = { c.nodes p with election := some e' }.ballot)
    (hterm : e'.term = e.term) (htally : c.Tally p e') : ElectionInv (c.put p n') := by
  simp only [Node.ballot, Prod.mk.injEq] at hn
  have hsame : ∀ q, ((c.put p n').nodes q).config = (c.nodes q).config ∧
      ((c.put p n').nodes q).currentTerm = (c.nodes q).currentTerm ∧
      ((c.put p n').nodes q).votedFor = (c.nodes q).votedFor ∧ ((c.put p n').nodes q).state = (c.nodes q).state := by
    intro q
    by_cases hq : q = p
    · rw [hq, put_self]
      exact ⟨hn.1, hn.2.1, hn.2.2.1, hn.2.2.2.1⟩
    · rw [put_other c _ hq]
      exact ⟨rfl, rfl, rfl, rfl⟩
  constructor
  case election =>
    intro q x hx
    rw [(hsame q).2.1]
    by_cases hq : q = p
    · subst hq
      rw [put_self, hn.2.2.2.2] at hx
      cases hx
      obtain ⟨h₁, h₂, h₃, -⟩ := hI.election q e he
      exact ⟨h₁, hterm ▸ h₂, hterm ▸ h₃, htally⟩
    · rw [put_other c _ hq] at hx
      exact hI.election q x hx
  all_goals
    simp only [put_members, put_calls, put_history, (hsame _).1, (hsame _).2.1, (hsame _).2.2.1, (hsame _).2.2.2]
  case config => exact hI.config
  case self => exact hI.self
  case vote_mem => exact hI.vote_mem
  case vote_le => exact hI.vote_le
  case vote_held => exact hI.vote_held
  case vote_once => exact hI.vote_once
  case call_wf => exact hI.call_wf
  case call_once => exact hI.call_once
  case call_granted => exact hI.call_granted
  case led_mem => exact hI.led_mem
  case led_le => exact hI.led_le
  case led_state => exact hI.led_state
  case led_vote => exact hI.led_vote
  case led_self => exact hI.led_self
  case led_quorum => exact hI.led_quorum

/-- No other call of an election goes to the same peer. -/
theorem ElectionInv.call_unique (hI : ElectionInv c) {i j : Nat} {call call' : Call} {r r' : RequestVoteRequest}
    (hi : c.calls[i]? = some call) (hj : c.calls[j]? = some call') (hr : call.request = .vote r)
    (hr' : call'.request = .vote r') (hsrc : call.src = call'.src) (hT : r.term = r'.term)
    (hdst : call.dst = call'.dst) : i = j := by
  have hget : ∀ {k : Nat} {x : Call}, c.calls[k]? = some x → ∃ hk : k < (c.calls.map Call.key).length,
      (c.calls.map Call.key)[k] = x.key := by
    intro k x hx
    obtain ⟨hlen, heq⟩ := List.getElem?_eq_some_iff.mp hx
    exact ⟨by simpa using hlen, by simp [heq]⟩
  obtain ⟨hilen, hikey⟩ := hget hi
  obtain ⟨hjlen, hjkey⟩ := hget hj
  have hpair := List.pairwise_iff_getElem.mp hI.call_once
  rcases Nat.lt_trichotomy i j with hlt | heq | hgt
  · have := hpair i j hilen hjlen hlt r r' (by rw [hikey]; exact hr) (by rw [hjkey]; exact hr')
      (by rw [hikey, hjkey]; exact hsrc) hT
    rw [hikey, hjkey] at this
    exact absurd hdst this
  · exact heq
  · have := hpair j i hjlen hilen hgt r' r (by rw [hjkey]; exact hr') (by rw [hikey]; exact hr)
      (by rw [hikey, hjkey]; exact hsrc.symm) hT.symm
    rw [hikey, hjkey] at this
    exact absurd hdst.symm this

/-- The answer of one voter is counted. -/
theorem ElectionInv.count (hI : ElectionInv c) {i : Nat} {call : Call} {r : RequestVoteRequest}
    {resp : RequestVoteResponse} (hcall : c.calls[i]? = some call) (hrequest : call.request = .vote r)
    (hreply : call.reply = some (.vote resp)) (hwaiting : call.waiting = true) :
    ElectionInv ((c.setCall i { call with waiting := false }).put call.src
      ((c.nodes call.src).onVoteResponse r.term resp)) := by
  have hmem := List.mem_of_getElem? hcall
  have hI' : ElectionInv (c.setCall i { call with waiting := false }) :=
    hI.setCall hcall rfl (by simp) (hI.call_granted call hmem)
  unfold Node.onVoteResponse
  cases he : (c.nodes call.src).election with
  | none => exact hI'.ease (.refl _)
  | some e =>
    dsimp only
    split
    swap
    · exact hI'.ease (.refl _)
    next hT =>
    refine hI'.retally he rfl rfl ?_
    obtain ⟨-, -, -, voters, hnodup, hpeers, hcount, hself, hvoters⟩ := hI.election _ e he
    obtain ⟨-, -, hdst, -⟩ := hI.call_wf call hmem r hrequest
    have hdone : ∀ call' ∈ (c.setCall i { call with waiting := false }).calls, call' ∈ c.calls ∨ call'.waiting = false := by
      intro call' h
      rcases List.mem_or_eq_of_mem_set h with h | rfl
      · exact .inl h
      · exact .inr rfl
    have hold : ∀ v ∈ voters, c.history.Voted v e.term call.src ∧
        ∀ call' ∈ (c.setCall i { call with waiting := false }).calls, call'.src = call.src →
          (∃ r, call'.request = .vote r ∧ r.term = e.term) → call'.dst = v → call'.waiting = false := by
      intro v hv
      refine ⟨(hvoters v hv).1, fun call' h hsrc hr hd => ?_⟩
      rcases hdone call' h with h | h
      · exact (hvoters v hv).2 call' h hsrc hr hd
      · exact h
    by_cases hgrant : resp.voteGranted = true
    · have hnew : call.dst ∉ voters := by
        intro hin
        have := (hvoters _ hin).2 call hmem rfl ⟨r, hrequest, hT.symm⟩ rfl
        rw [hwaiting] at this
        cases this
      refine ⟨call.dst :: voters, List.nodup_cons.mpr ⟨hnew, hnodup⟩, List.cons_subset.mpr ⟨hdst, hpeers⟩,
        by simp [hcount, hgrant], hself, List.forall_mem_cons.mpr ⟨⟨?_, ?_⟩, hold⟩⟩
      · have := hI.call_granted call hmem r resp hrequest hreply hgrant
        rw [← hT] at this
        exact this
      · rintro call' h hsrc ⟨r', hr', hT'⟩ hd
        obtain ⟨j, hj⟩ := List.mem_iff_getElem?.mp h
        simp only [Cluster.setCall, List.getElem?_set] at hj
        split at hj
        · split at hj <;> cases hj
          rfl
        · next hij =>
          exact absurd (hI.call_unique hcall hj hrequest hr' hsrc.symm (hT.symm.trans hT'.symm) hd.symm) hij
    · exact ⟨voters, hnodup, hpeers, by simp [hcount, hgrant], hself, hold⟩

/-- A vote of a node for itself is on record. -/
theorem ElectionInv.selfVote (hI : ElectionInv c) {x : Vote} {h' : History} (hx : x.candidate = x.voter)
    (hmem : x.voter ∈ c.members.ids) (hle : x.term ≤ (c.nodes x.voter).currentTerm)
    (hvotes : h'.votes = x :: c.history.votes) (hled : h'.led = c.history.led) : ElectionInv (c.record h') := by
  have hsub : c.history.votes ⊆ h'.votes := by
    rw [hvotes]
    exact List.subset_cons_self _ _
  constructor
  case vote_mem =>
    simp only [record_history, hvotes, List.forall_mem_cons]
    exact ⟨⟨hmem, hx ▸ hmem⟩, hI.vote_mem⟩
  case vote_le =>
    simp only [record_history, hvotes, List.forall_mem_cons]
    exact ⟨hle, hI.vote_le⟩
  case vote_held =>
    simp only [record_history, hvotes, List.forall_mem_cons]
    exact ⟨fun hne => absurd hx hne, hI.vote_held⟩
  case vote_once =>
    simp only [record_history, hvotes, List.forall_mem_cons]
    exact ⟨⟨fun _ _ _ _ => trivial, fun v _ _ _ hne => absurd hx hne⟩,
      fun v hv => ⟨fun _ _ _ hne => absurd hx hne, hI.vote_once v hv⟩⟩
  case call_granted => exact fun call hcall r resp h₁ h₂ h₃ => (hI.call_granted call hcall r resp h₁ h₂ h₃).mono hsub
  case election =>
    intro p e he
    obtain ⟨h₁, h₂, h₃, h₄⟩ := hI.election p e he
    exact ⟨h₁, h₂, h₃, h₄.mono hsub⟩
  case led_self =>
    simp only [record_history, record_nodes, hvotes, hled, List.forall_mem_cons]
    exact fun p T h hpeers => ⟨fun hp _ => hx.trans hp, hI.led_self p T h hpeers⟩
  case led_quorum =>
    simp only [record_history, record_nodes, record_members, hled]
    exact fun p T h hpeers => (hI.led_quorum p T h hpeers).mono fun v hv => hv.mono hsub
  all_goals simp only [record_history, record_nodes, record_members, record_calls, hled]
  case config => exact hI.config
  case self => exact hI.self
  case call_wf => exact hI.call_wf
  case call_once => exact hI.call_once
  case led_mem => exact hI.led_mem
  case led_le => exact hI.led_le
  case led_state => exact hI.led_state
  case led_vote => exact hI.led_vote

/-- A node without peers needs no votes. -/
theorem ElectionInv.solo (hI : ElectionInv c) {p : String} {n' : Node} {h' : History} (hp : p ∈ c.members.ids)
    (hpeers : (c.nodes p).config.peers = []) (hconfig : n'.config = (c.nodes p).config)
    (hterm : (c.nodes p).currentTerm ≤ n'.currentTerm)
    (helection : n'.election = none ∨ n'.election = (c.nodes p).election)
    (hled : (n'.state = .leader ∧ h'.led = (p, n'.currentTerm) :: c.history.led) ∨
      (n'.state = .follower ∧ h'.led = c.history.led))
    (hvotes : h'.votes = c.history.votes) : ElectionInv ((c.put p n').record h') := by
  have hother : ∀ q, (c.nodes q).config.peers ≠ [] → (c.put p n').nodes q = c.nodes q := by
    intro q hq
    refine put_other c n' ?_
    rintro rfl
    exact hq hpeers
  have hle : ∀ q, (c.nodes q).currentTerm ≤ ((c.put p n').nodes q).currentTerm := by
    intro q
    by_cases hq : q = p
    · rw [hq, put_self]
      exact hterm
    · rw [put_other c n' hq]
  have hsame : ∀ q, ((c.put p n').nodes q).config = (c.nodes q).config := by
    intro q
    by_cases hq : q = p
    · rw [hq, put_self]
      exact hconfig
    · rw [put_other c n' hq]
  have hrunning : ∀ q e, ((c.put p n').nodes q).election = some e → (c.nodes q).election = some e := by
    intro q e he
    by_cases hq : q = p
    · rw [hq, put_self] at he
      rcases helection with h | h
      · rw [h] at he
        cases he
      · rw [hq, ← h]
        exact he
    · rw [put_other c n' hq] at he
      exact he
  have hnew : ∀ q T, (q, T) ∈ h'.led → (q = p ∧ T = n'.currentTerm ∧ n'.state = .leader) ∨ (q, T) ∈ c.history.led := by
    intro q T h
    rcases hled with ⟨hstate, hled⟩ | ⟨-, hled⟩
    · rw [hled] at h
      rcases List.mem_cons.mp h with h | h
      · cases h
        exact .inl ⟨rfl, rfl, hstate⟩
      · exact .inr h
    · exact .inr (hled ▸ h)
  have hpeered : ∀ q T, (q, T) ∈ h'.led → (c.nodes q).config.peers ≠ [] → (q, T) ∈ c.history.led := by
    intro q T h hq
    rcases hnew q T h with ⟨rfl, -, -⟩ | h
    · exact absurd hpeers hq
    · exact h
  have hvoted : ∀ {v T q}, c.history.Voted v T q → h'.Voted v T q := History.Voted.mono (by rw [hvotes]; exact fun _ => id)
  constructor
  all_goals simp only [record_history, record_nodes, record_members, record_calls, put_members, put_calls,
    hsame, hvotes]
  case config => exact hI.config
  case self =>
    intro q hstate
    by_cases hq : (c.nodes q).config.peers = []
    · exact .inl hq
    · rw [hother q hq] at hstate ⊢
      exact hI.self q hstate
  case vote_mem => exact hI.vote_mem
  case vote_le => exact fun v hv => (hI.vote_le v hv).trans (hle _)
  case vote_held =>
    intro v hv hne hT
    rw [hother _ (hI.peers_ne_nil (hI.vote_mem v hv).2 hne)] at hT ⊢
    exact hI.vote_held v hv hne hT
  case vote_once => exact hI.vote_once
  case call_wf =>
    intro call hcall r hr
    obtain ⟨h₁, h₂, h₃, h₄⟩ := hI.call_wf call hcall r hr
    exact ⟨h₁, h₂, h₃, h₄.trans (hle _)⟩
  case call_once => exact hI.call_once
  case call_granted => exact fun call hcall r resp h₁ h₂ h₃ => hvoted (hI.call_granted call hcall r resp h₁ h₂ h₃)
  case election =>
    intro q e he
    obtain ⟨h₁, h₂, h₃, h₄⟩ := hI.election q e (hrunning q e he)
    exact ⟨h₁, h₂, h₃.trans (hle q), h₄.mono (by rw [hvotes]; exact fun _ => id)⟩
  case led_mem =>
    intro q T h
    rcases hnew q T h with ⟨rfl, -, -⟩ | h
    · exact hp
    · exact hI.led_mem q T h
  case led_le =>
    intro q T h
    rcases hnew q T h with ⟨rfl, rfl, -⟩ | h
    · rw [put_self]
    · exact (hI.led_le q T h).trans (hle q)
  case led_state =>
    intro q T h hT
    rcases hnew q T h with ⟨rfl, -, hstate⟩ | h
    · rw [put_self, hstate]
      decide
    · by_cases hq : q = p
      · subst hq
        rw [put_self] at hT ⊢
        rcases hled with ⟨hstate, -⟩ | ⟨hstate, -⟩
        · rw [hstate]
          decide
        · rw [hstate]
          decide
      · rw [put_other c n' hq] at hT ⊢
        exact hI.led_state q T h hT
  case led_vote =>
    intro q T h hq hT
    rw [hother q hq] at hT ⊢
    exact hI.led_vote q T (hpeered q T h hq) hq hT
  case led_self => exact fun q T h hq => hI.led_self q T (hpeered q T h hq) hq
  case led_quorum => exact fun q T h hq => (hI.led_quorum q T (hpeered q T h hq) hq).mono fun v => hvoted

theorem ElectionInv.start (hI : ElectionInv c) {p : String} {c' : Cluster} (h : c.start p = some c') :
    ElectionInv c' := by
  unfold Cluster.start at h
  dsimp only at h
  split at h
  swap
  · cases h
  next hguard =>
  obtain ⟨hp, hpeers, -⟩ := hguard
  have hfirst : (c.nodes p).firstTerm.config = (c.nodes p).config ∧
      (c.nodes p).firstTerm.election = (c.nodes p).election ∧
      (c.nodes p).currentTerm ≤ (c.nodes p).firstTerm.currentTerm := by
    unfold Node.firstTerm
    split
    · exact ⟨rfl, rfl, by simp_all⟩
    · exact ⟨rfl, rfl, le_refl _⟩
  have hvote : ∀ (n' : Node) {h₀ : History}, n'.currentTerm = (c.nodes p).firstTerm.currentTerm →
      ElectionInv ((c.put p n').record h₀) → h₀.votes = c.history.votes → ∀ h' : History,
      h'.votes = (if (c.nodes p).currentTerm = 0 then c.history.stand p (c.nodes p).firstTerm else c.history).votes →
      h'.led = h₀.led → ElectionInv ((c.put p n').record h') := by
    intro n' h₀ hterm hI₀ hvotes₀ h' hvotes hled
    split at hvotes
    · exact hI₀.selfVote (x := ⟨p, (c.nodes p).firstTerm.currentTerm, p, (c.nodes p).firstTerm.log.entries⟩) rfl hp
        (by simp [hterm]) (by rw [hvotes, record_history, hvotes₀]; rfl) hled
    · exact hI₀.congr_history (by rw [hvotes, record_history, hvotes₀]) hled
  rcases (c.nodes p).becomeLeader_ballot with ⟨err, herr, hballot⟩ | ⟨hok, hballot⟩
  · split at h
    · next n' _ heq =>
      cases h
      rw [heq] at hballot
      simp only [Node.ballot, Prod.mk.injEq] at hballot
      obtain ⟨hconfig, hterm, -, -, -⟩ := hballot
      have hsolo : ElectionInv ((c.put p n'.restart).record c.history) :=
        hI.solo hp hpeers (hconfig.trans hfirst.1) (hterm ▸ hfirst.2.2) (.inl rfl) (.inr ⟨rfl, rfl⟩) rfl
      refine ElectionInv.dropCalls (c := (c.put p n'.restart).record _) (hvote n'.restart hterm hsolo rfl _ rfl ?_) p
      split <;> rfl
    · next heq =>
      rw [heq] at herr
      cases herr
  · split at h
    · next heq =>
      rw [heq] at hok
      cases hok
    · next n' _ heq =>
      cases h
      rw [heq] at hballot
      have hcommit := (Node.ballot_maybeCommit n').trans hballot
      simp only [Node.ballot, Prod.mk.injEq] at hballot hcommit
      obtain ⟨hconfig, hterm, -, hstate, helection⟩ := hcommit
      have hsolo : ElectionInv ((c.put p n'.maybeCommit).record (c.history.lead p n')) := by
        refine hI.solo hp hpeers (hconfig.trans hfirst.1) (hterm ▸ hfirst.2.2) (.inr (helection.trans hfirst.2.1))
          (.inl ⟨hstate, ?_⟩) rfl
        rw [hterm, ← hballot.2.1]
        rfl
      refine hvote _ hterm hsolo rfl _ (by simp [History.lead, History.write]) ?_
      simp only [History.led_commit, History.lead]
      split <;> rfl

theorem ElectionInv.finishElection (hI : ElectionInv c) {p : String} {c' : Cluster}
    (hkeep : c.KeepsVotes (.finishElection p)) (h : c.finishElection p = some c') : ElectionInv c' := by
  unfold Cluster.finishElection at h
  dsimp only at h
  cases he : (c.nodes p).election with
  | none =>
    rw [he] at h
    cases h
  | some e =>
    rw [he] at h
    dsimp only at h
    split at h
    swap
    · cases h
    cases h
    obtain ⟨-, hne, -, -⟩ := hI.election p e he
    rcases Node.finishElection_cases hne (hkeep e he) with ⟨hease, -, hlost⟩ | ⟨hstate, hterm, hquorum, hballot⟩
    · rw [if_neg fun hwon => hlost hwon.1 hwon.2]
      exact hI.ease hease
    · have hwon : ((c.nodes p).finishElection e).state = .leader := by
        simp only [Node.ballot, Prod.mk.injEq] at hballot
        exact hballot.2.2.2.1
      have hterm' : ((c.nodes p).finishElection e).currentTerm = (c.nodes p).currentTerm := by
        simp only [Node.ballot, Prod.mk.injEq] at hballot
        exact hballot.2.1
      rw [if_pos ⟨hstate, hwon⟩]
      refine hI.win he hstate hterm hquorum hballot ?_ ?_
      · simp [History.lead, History.write]
      · simp [History.lead, hterm']

theorem ElectionInv.deliver (hI : ElectionInv c) {i : Nat} {complete : Bool} {keepFrom : Nat} {c' : Cluster}
    (hkeep : c.KeepsVotes (.deliver i complete keepFrom)) (h : c.deliver i complete keepFrom = some c') :
    ElectionInv c' := by
  unfold Cluster.deliver at h
  cases hcall : c.calls[i]? with
  | none =>
    rw [hcall] at h
    cases h
  | some call =>
    rw [hcall] at h
    dsimp only at h
    split at h
    swap
    · cases h
    next hguard =>
    cases h
    have hkeep' : (c.nodes call.dst).KeepsVoteOn call.request := hkeep call hcall
    have hmem := List.mem_of_getElem? hcall
    by_cases hvote : ∀ r, call.request ≠ .vote r
    · have hease := Node.handle_eases complete keepFrom hvote hkeep'
      refine ElectionInv.congr_history ?_ (c.history.votes_handled _ _ _ hvote) (c.history.led_handled _ _ _ _)
      exact (hI.ease hease).setCall hcall rfl id fun r resp hr => absurd hr (hvote r)
    simp only [not_forall, not_not] at hvote
    obtain ⟨r, hr⟩ := hvote
    obtain ⟨hcand, hsrc, hdst, -⟩ := hI.call_wf call hmem r hr
    obtain ⟨-, -, hne⟩ := mem_normalizePeers.mp hdst
    obtain ⟨src, dst, request, delivered, reply, wal, waiting⟩ := call
    dsimp only at hr hcand hsrc hne hguard ⊢
    subst hr hcand
    simp only [Node.handle]
    rcases (c.nodes dst).handleRequestVote_cases r with ⟨hease, hdenied⟩ | ⟨m, hease, hterm, hlog, hfree, -, heq⟩
    · have hnone : ∀ resp, ((c.nodes dst).handleRequestVote r).2.toOption.map Response.vote = some (.vote resp) →
          resp.voteGranted = false := by
        intro resp hresp
        cases hres : ((c.nodes dst).handleRequestVote r).2 with
        | error err =>
          rw [hres] at hresp
          cases hresp
        | ok a =>
          rw [hres] at hresp
          simp only [Except.toOption, Option.map_some, Option.some.injEq, Response.vote.injEq] at hresp
          exact hresp ▸ hdenied a hres
      refine ElectionInv.congr_history ?_ ?_ (c.history.led_handled _ _ _ _)
      · refine (hI.ease hease).setCall hcall rfl id ?_
        intro r' resp hr' hreply hgrant
        rw [hnone resp hreply] at hgrant
        cases hgrant
      · unfold History.handled
        split
        · next resp hreq hresp =>
          rw [if_neg (by rw [hnone resp hresp]; decide)]
          rfl
        · rfl
        · rfl
    · rw [heq]
      have hcast := (hI.ease hease).cast (v := dst) (p := r.candidateId)
        (c.history.handled dst (c.nodes dst) (.vote r) (some (.vote ⟨m.currentTerm, true⟩)))
        (c.nodes dst).log.entries hguard.2 hsrc (Ne.symm hne) (by rw [put_self]; exact hfree)
        (by simp [History.handled, hterm]) (by simp [History.handled])
      have hput : (c.put dst m).put dst { m with votedFor := r.candidateId, state := .follower } =
          c.put dst { m with votedFor := r.candidateId, state := .follower } := by
        simp [Cluster.put]
      rw [put_self, hput] at hcast
      exact hcast.setCall hcall rfl id fun r' resp hr' _ _ => by
        cases hr'
        exact ⟨_, List.mem_cons_self, rfl, rfl, rfl⟩

theorem ElectionInv.finishCall (hI : ElectionInv c) {i : Nat} {call : Call} (overloaded : Bool)
    {reply : Option Response} (hcall : c.calls[i]? = some call) (hwaiting : call.waiting = true)
    (hreply : reply = call.reply ∨ reply = none) : ElectionInv (c.finishCall i call overloaded reply) := by
  have hmem := List.mem_of_getElem? hcall
  refine ElectionInv.congr_history ?_ (by simp) (by simp)
  have hease : ∀ n', Node.Eases (c.nodes call.src) n' →
      ElectionInv ((c.put call.src n').setCall i { call with waiting := false }) := fun n' hn' =>
    (hI.ease hn').setCall hcall rfl (by simp) (hI.call_granted call hmem)
  by_cases hvote : ∀ r, call.request ≠ .vote r
  · exact hease _ (Node.onResponse_eases call.dst overloaded reply hvote)
  simp only [not_forall, not_not] at hvote
  obtain ⟨r, hr⟩ := hvote
  obtain ⟨src, dst, request, delivered, answer, wal, waiting⟩ := call
  dsimp only at hr hreply hwaiting hease ⊢
  subst hr
  by_cases hresp : ∃ resp, reply = some (.vote resp)
  · obtain ⟨resp, rfl⟩ := hresp
    have hsame : answer = some (.vote resp) := by
      rcases hreply with h | h
      · exact h.symm
      · cases h
    exact hI.count hcall rfl hsame hwaiting
  · rw [Node.onResponse_vote fun resp h => hresp ⟨resp, h⟩]
    exact hease _ (.refl _)

theorem ElectionInv.core (hI : ElectionInv c) {p : String} {n' : Node} (h : n'.core = (c.nodes p).core) :
    ElectionInv (c.put p n') := hI.ease (.of_ballot (Node.ballot_of_core h))

/-- Every step that keeps the votes preserves the invariant. -/
theorem ElectionInv.step (hI : ElectionInv c) {codec : CommandCodec} {a : Action} {c' : Cluster}
    (hkeep : c.KeepsVotes a) (h : c.step codec a = some c') : ElectionInv c' := by
  cases a with
  | start p => exact hI.start h
  | startElection p => exact hI.stand h
  | finishElection p => exact hI.finishElection hkeep h
  | beginBroadcast p =>
    simp only [Cluster.step, Cluster.beginBroadcast] at h
    split at h
    · cases h
      refine ElectionInv.send ?_ fun m hm r => ?_
      · exact hI.core rfl
      · obtain ⟨peer, -, rfl⟩ := List.mem_map.mp hm
        simp
    · cases h
  | finishBroadcast p round =>
    simp only [Cluster.step, Cluster.finishBroadcast] at h
    split at h
    · cases h
    next b hb =>
    split at h
    · cases h
      refine hI.ease ?_
      unfold Node.finishBroadcast
      dsimp only
      split
      · next hlt =>
        have hdown := Node.stepDown_eases (n := { c.nodes p with rounds := (c.nodes p).rounds.erase round })
          (hkeep b hb hlt)
        exact ⟨hdown.config, hdown.term, hdown.vote, hdown.state, hdown.election⟩
      · exact .of_ballot rfl
    · cases h
  | replicate p peer =>
    simp only [Cluster.step, Cluster.replicate] at h
    split at h
    · obtain ⟨⟨n', request⟩, hn', rfl⟩ := Option.map_eq_some_iff.mp h
      obtain ⟨-, hcore, hrequest⟩ := Node.replicatePeerOnce_cases hn'
      refine (hI.core hcore).send ?_
      rcases hrequest with ⟨s, -, -, rfl⟩ | ⟨r, k, rfl, -⟩ <;> simp
    · cases h
  | forward p i =>
    simp only [Cluster.step, Cluster.forward] at h
    split at h
    · split at h
      · cases h
        exact hI.ease (.of_ballot rfl)
      · next n' follower request hn' =>
        cases h
        obtain ⟨hcore, hrequest⟩ := Node.forwardToFollower_cases hn'
        refine ElectionInv.send (hI.ease (.of_ballot ((Node.ballot_of_core hcore).trans rfl))) ?_
        rcases hrequest with ⟨s, -, -, rfl⟩ | ⟨r, k, rfl, -⟩ <;> simp
    · cases h
  | checkMentor p mentor =>
    simp only [Cluster.step, Cluster.checkMentor] at h
    split at h
    · obtain ⟨⟨n', message⟩, hn', rfl⟩ := Option.map_eq_some_iff.mp h
      obtain ⟨-, hcore, -, hmessage⟩ := Node.checkMentorTimeout_cases hn'
      refine (hI.core hcore).send fun m hm r => ?_
      obtain ⟨info, hinfo⟩ := hmessage m (Option.mem_toList.mp hm)
      simp [hinfo]
    · cases h
  | checkFollower p follower recent =>
    simp only [Cluster.step, Cluster.checkFollower] at h
    split at h
    · obtain ⟨request, hrequest, rfl⟩ := Option.map_eq_some_iff.mp h
      obtain ⟨-, -, ⟨ctx, info, rfl⟩ | ⟨ctx, r, rfl, -⟩⟩ := Node.checkFollowerTimeout_cases hrequest
      · exact hI.send (by simp)
      · exact hI.send (by simp)
    · cases h
  | deliver i complete keepFrom => exact hI.deliver hkeep h
  | receive i overloaded =>
    simp only [Cluster.step, Cluster.receive] at h
    split at h
    · cases h
    next call hcall =>
    split at h
    · next hguard =>
      cases h
      exact hI.finishCall overloaded hcall hguard.1 (.inl rfl)
    · cases h
  | fail i overloaded =>
    simp only [Cluster.step, Cluster.fail] at h
    split at h
    · cases h
    next call hcall =>
    split at h
    · next hwaiting =>
      cases h
      exact hI.finishCall overloaded hcall hwaiting (.inr rfl)
    · cases h
  | rebalance p =>
    simp only [Cluster.step] at h
    split at h
    · obtain ⟨n', hn', rfl⟩ := Option.map_eq_some_iff.mp h
      cases hrebalance : (c.nodes p).rebalanceTopology with
      | error err =>
        rw [hrebalance] at hn'
        cases hn'
      | ok m =>
        rw [hrebalance] at hn'
        cases hn'
        exact hI.core (Node.core_rebalanceTopology hrebalance)
    · cases h
  | recoverWindows p expired =>
    simp only [Cluster.step] at h
    split at h
    · cases h
      exact hI.core rfl
    · cases h
  | clientWrite p r =>
    simp only [Cluster.step, Cluster.clientWrite] at h
    split at h
    · split at h
      · cases h
        exact hI.core rfl
      · cases h
        exact hI
    · cases h
  | propose p i =>
    simp only [Cluster.step, Cluster.propose] at h
    split at h
    · cases h
    next e _ =>
    have hballot := Node.ballot_propose codec { c.nodes p with writes := (c.nodes p).writes.eraseIdx i } e
    split at h
    · next heq =>
      cases h
      rw [heq] at hballot
      exact hI.ease (.of_ballot hballot)
    · next heq =>
      cases h
      rw [heq] at hballot
      exact (hI.ease (.of_ballot hballot)).congr_history (by simp [History.write]) (by simp [History.write])
  | apply p outcome =>
    simp only [Cluster.step, Cluster.apply] at h
    split at h
    · cases h
    next n' e hn' =>
    cases h
    exact (hI.ease (.of_ballot (Node.ballot_applyCommittedEntry hn'))).congr_history rfl rfl
  | saveSnapshot p keepFrom =>
    obtain ⟨n', hn', rfl⟩ := Option.map_eq_some_iff.mp h
    exact hI.ease (.of_ballot (Node.ballot_saveSnapshot hn'))
  | restart p =>
    simp only [Cluster.step] at h
    split at h
    · cases h
      exact (hI.ease (Node.restart_eases _)).dropCalls p
    · cases h

theorem ElectionInv.init (members : Members) (config : String → Config) : ElectionInv (init members config) := by
  constructor <;> simp [Cluster.init, Node.create, History.Voted]

/-- Election safety: if no `BecomeFollower` of a run takes back a vote that counts, at most
one node leads each term. -/
theorem led_unique_of_keepsVotes (codec : CommandCodec) (members : Members) (config : String → Config)
    (schedule : List Action) (c : Cluster)
    (h : Transition.run (Transition.restrict KeepsVotes (step codec)) (init members config) schedule = some c)
    (p q : String) (T : Nat) (hp : (p, T) ∈ c.history.led) (hq : (q, T) ∈ c.history.led) : p = q := by
  have hI : ElectionInv c := by
    refine Transition.run_invariant ElectionInv (fun s a t hs hstep => ?_) (ElectionInv.init members config) h
    obtain ⟨hkeep, hstep⟩ := Transition.restrict_eq_some.mp hstep
    exact hs.step hkeep hstep
  exact hI.led_unique hp hq

/-- One node collects a vote and wins the first term; the other voter answers too late. -/
theorem led_unique_first_term : ∃ c,
    Transition.run (Transition.restrict KeepsVotes (step sampleCodec)) (init threeNodes (plainConfig 64))
      [.startElection "A", .deliver 0 true 0, .receive 0 false, .fail 1 false, .finishElection "A",
        .beginBroadcast "A", .deliver 2 true 0, .deliver 3 true 0, .startElection "C", .deliver 4 true 0,
        .receive 4 false, .deliver 1 true 0] = some c ∧
      c.history.led = [("A", 1)] ∧ ∀ q, (q, 1) ∈ c.history.led → "A" = q := by
  obtain ⟨c, hc, hled⟩ := Option.map_eq_some_iff.mp (show
    (Transition.run (Transition.restrict KeepsVotes (step sampleCodec)) (init threeNodes (plainConfig 64))
      [.startElection "A", .deliver 0 true 0, .receive 0 false, .fail 1 false, .finishElection "A",
        .beginBroadcast "A", .deliver 2 true 0, .deliver 3 true 0, .startElection "C", .deliver 4 true 0,
        .receive 4 false, .deliver 1 true 0]).map (fun c => c.history.led) = some [("A", 1)] by decide +kernel)
  refine ⟨c, hc, hled, fun q hq => ?_⟩
  exact led_unique_of_keepsVotes sampleCodec threeNodes (plainConfig 64) _ c hc "A" q 1 (by simp [hled]) hq

/-- `A` votes for `B` in term 2. Its own election of term 1 ends after that and has seen
term 2 in an answer, so `BecomeFollower(2)` clears the vote, and `A` votes for `C` too. -/
theorem led_twice_after_late_tally : ∃ c,
    run sampleCodec threeNodes (plainConfig 64)
      [.startElection "A",
        .startElection "B", .fail 2 false, .fail 3 false, .finishElection "B", .startElection "B",
        .startElection "C", .fail 6 false, .fail 7 false, .finishElection "C", .startElection "C",
        .deliver 4 true 0, .receive 4 false, .fail 5 false, .finishElection "B",
        .deliver 0 true 0, .receive 0 false, .fail 1 false, .finishElection "A",
        .deliver 8 true 0, .receive 8 false, .fail 9 false, .finishElection "C"] = some c ∧
      ("B", 2) ∈ c.history.led ∧ ("C", 2) ∈ c.history.led := by
  obtain ⟨c, hc, hled⟩ := Option.map_eq_some_iff.mp (show
    (run sampleCodec threeNodes (plainConfig 64)
      [.startElection "A",
        .startElection "B", .fail 2 false, .fail 3 false, .finishElection "B", .startElection "B",
        .startElection "C", .fail 6 false, .fail 7 false, .finishElection "C", .startElection "C",
        .deliver 4 true 0, .receive 4 false, .fail 5 false, .finishElection "B",
        .deliver 0 true 0, .receive 0 false, .fail 1 false, .finishElection "A",
        .deliver 8 true 0, .receive 8 false, .fail 9 false, .finishElection "C"]).map
      (fun c => c.history.led) = some [("C", 2), ("B", 2)] by decide +kernel)
  exact ⟨c, hc, by simp [hled], by simp [hled]⟩

end Cluster

end RaftVdb
