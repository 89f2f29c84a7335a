import RaftVdb.Polls

/-!
# Heartbeat rounds

The locals of a running `BroadcastHeartbeat` are touched by that round alone. Its count of
successes stands for peers that answered in the term of the round.
-/

namespace RaftVdb

open Lib

namespace Node

variable {n n' : Node}

theorem rounds_becomeFollower {term : Nat} {leaderId : String} (h : n.becomeFollower term leaderId = .ok n') :
    n'.rounds = n.rounds := by
  unfold becomeFollower at h
  split at h
  · cases h
  · cases h
    rfl

theorem rounds_noteLeader {term : Nat} {leaderId : String} (h : n.noteLeader term leaderId = .ok n') :
    n'.rounds = n.rounds := by
  unfold noteLeader at h
  split at h
  · exact rounds_becomeFollower h
  · cases h
    rfl

theorem rounds_applyTopology {info : TopologyInfo} (h : n.applyTopology info = .ok n') : n'.rounds = n.rounds := by
  unfold applyTopology at h
  split at h
  · cases h
    rfl
  · split at h
    · cases h
    · cases h
      rfl

section

variable (n : Node)

theorem rounds_stepDown (term : Nat) : (n.stepDown term).rounds = n.rounds := by
  unfold stepDown
  split
  · next h => exact rounds_becomeFollower h
  · rfl

theorem rounds_advanceCommit (k : Nat) : (n.advanceCommit k).rounds = n.rounds := by
  unfold advanceCommit
  dsimp only
  split <;> rfl

theorem rounds_dispatchForward (r : AppendEntriesRequest) : (n.dispatchForward r).rounds = n.rounds := by
  unfold dispatchForward
  split <;> rfl

theorem rounds_maybeCommit : n.maybeCommit.rounds = n.rounds := by
  unfold maybeCommit
  split
  · rfl
  · split <;> rfl

theorem rounds_handleRequestVote (r : RequestVoteRequest) : (n.handleRequestVote r).1.rounds = n.rounds := by
  unfold handleRequestVote
  split
  · rfl
  split
  · rfl
  next m hm =>
  have hrounds : m.rounds = n.rounds := by
    split at hm
    · exact rounds_becomeFollower hm
    · cases hm
      rfl
  split <;> exact hrounds

theorem rounds_handleHeartbeat (r : HeartbeatRequest) : (n.handleHeartbeat r).1.rounds = n.rounds := by
  unfold handleHeartbeat
  split
  · rfl
  split
  · rfl
  next m hm =>
  have hnoted := rounds_noteLeader hm
  split
  · exact hnoted
  next m' hm' =>
  rw [rounds_advanceCommit, rounds_applyTopology hm', hnoted]

theorem rounds_prepareAppend (r : AppendEntriesRequest) : (n.prepareAppend r).1.rounds = n.rounds := by
  unfold prepareAppend
  split
  · rfl
  split
  · rfl
  next m hm =>
  have hnoted := rounds_noteLeader hm
  split
  · exact hnoted
  next m' hm' =>
  have happlied := (rounds_applyTopology hm').trans hnoted
  split <;> exact happlied

theorem rounds_finishAppend (r : AppendEntriesRequest) : (n.finishAppend r).1.rounds = n.rounds := by
  unfold finishAppend
  dsimp only
  split
  · rfl
  · rw [rounds_dispatchForward, rounds_advanceCommit]

theorem rounds_handleAppendEntries (r : AppendEntriesRequest) : (n.handleAppendEntries r).1.rounds = n.rounds := by
  have hprepare := n.rounds_prepareAppend r
  unfold handleAppendEntries
  split
  · next heq =>
    rw [heq] at hprepare
    exact hprepare
  · next heq =>
    rw [heq] at hprepare
    exact (rounds_finishAppend _ r).trans hprepare

theorem rounds_applyInstalledSnapshot (s : Snapshot) (keepFrom : Nat) :
    (n.applyInstalledSnapshot s keepFrom).1.rounds = n.rounds := by
  unfold applyInstalledSnapshot
  dsimp only
  split <;> rfl

theorem rounds_handleInstallSnapshot (r : InstallSnapshotRequest) (complete : Bool) (keepFrom : Nat) :
    (n.handleInstallSnapshot r complete keepFrom).1.rounds = n.rounds := by
  unfold handleInstallSnapshot
  dsimp only
  generalize (if r.leaderTerm = 0 then r.snapshot.raftTerm else r.leaderTerm) = term
  split
  · rfl
  split
  · rfl
  next m hm =>
  have hrounds : m.rounds = n.rounds := by
    split at hm
    · exact rounds_becomeFollower hm
    · cases hm
      rfl
  split
  · exact hrounds
  have hinstall := (m.rounds_applyInstalledSnapshot r.snapshot keepFrom).trans hrounds
  split
  · next heq =>
    rw [heq] at hinstall
    exact hinstall
  · next heq =>
    rw [heq] at hinstall
    exact hinstall

theorem rounds_handle (complete : Bool) (keepFrom : Nat) (request : Request) :
    (n.handle complete keepFrom request).1.rounds = n.rounds := by
  cases request with
  | vote r => exact n.rounds_handleRequestVote r
  | heartbeat caller r => exact n.rounds_handleHeartbeat r
  | append caller r => exact n.rounds_handleAppendEntries r
  | install r => exact n.rounds_handleInstallSnapshot r complete keepFrom

theorem rounds_onFollowerProbed (peer : String) (ctx : FollowerTimeout) (ok overloaded : Bool) :
    (n.onFollowerProbed peer ctx ok overloaded).rounds = n.rounds := by
  unfold onFollowerProbed
  split
  · split <;> rfl
  split
  · rfl
  split
  · dsimp only
    split
    · rfl
    · split <;> rfl
  · rfl

theorem rounds_onAppendResponse (peer : String) (overloaded : Bool) (r : AppendEntriesRequest)
    (resp : Option AppendEntriesResponse) (caller : AppendCaller) :
    (n.onAppendResponse peer overloaded r resp caller).rounds = n.rounds := by
  cases caller with
  | replicate =>
    cases resp with
    | none => rfl
    | some a =>
      simp only [onAppendResponse, onReplicateResponse]
      split
      · exact n.rounds_stepDown _
      split
      · rfl
      split
      · exact rounds_maybeCommit _
      · rfl
  | forward =>
    cases resp with
    | none => rfl
    | some a =>
      simp only [onAppendResponse, onForwardResponse]
      split
      · exact n.rounds_stepDown _
      split <;> rfl
  | followerTimeout ctx =>
    cases resp with
    | none => exact n.rounds_onFollowerProbed peer ctx false overloaded
    | some a =>
      simp only [onAppendResponse]
      split
      · exact rounds_onFollowerProbed _ peer ctx true overloaded
      · exact n.rounds_onFollowerProbed peer ctx false overloaded

theorem rounds_onInstallResponse (peer : String) (s : Snapshot) (resp : Option InstallSnapshotResponse) :
    (n.onInstallResponse peer s resp).rounds = n.rounds := by
  cases resp with
  | none => rfl
  | some a =>
    simp only [onInstallResponse]
    split
    · exact n.rounds_stepDown _
    split <;> rfl

theorem rounds_onVoteResponse (term : Nat) (resp : RequestVoteResponse) : (n.onVoteResponse term resp).rounds = n.rounds := by
  unfold onVoteResponse
  split
  · rfl
  · split <;> rfl

/-- Every callback but that of a round. -/
theorem rounds_onResponse (peer : String) (overloaded : Bool) {request : Request} (reply : Option Response)
    (hne : ∀ round r, request ≠ .heartbeat (.broadcast round) r) :
    (n.onResponse peer overloaded request reply).rounds = n.rounds := by
  have hheartbeat : ∀ resp caller, (∀ round, caller ≠ .broadcast round) →
      (n.onHeartbeatResponse peer overloaded resp caller).rounds = n.rounds := by
    intro resp caller hcaller
    cases caller with
    | broadcast round => exact absurd rfl (hcaller round)
    | mentorTimeout =>
      simp only [onHeartbeatResponse]
      split <;> rfl
    | followerTimeout ctx =>
      simp only [onHeartbeatResponse]
      split
      · exact rounds_onFollowerProbed _ peer ctx true overloaded
      · exact n.rounds_onFollowerProbed peer ctx false overloaded
  unfold onResponse
  split
  · exact n.rounds_onVoteResponse _ _
  · rfl
  · next caller r resp => exact hheartbeat _ caller fun round h => hne round r (by rw [h])
  · next caller r _ => exact hheartbeat _ caller fun round h => hne round r (by rw [h])
  · exact n.rounds_onAppendResponse peer overloaded _ _ _
  · exact n.rounds_onAppendResponse peer overloaded _ _ _
  · exact n.rounds_onInstallResponse peer _ _
  · exact n.rounds_onInstallResponse peer _ _

/-- The callback of a round notes a newer term or counts one success. -/
theorem rounds_onResponse_broadcast (peer : String) (overloaded : Bool) (k : Nat) (r : HeartbeatRequest)
    (reply : Option Response) :
    (n.onResponse peer overloaded (.heartbeat (.broadcast k) r) reply).rounds = n.rounds ∨
    (∃ t, (n.onResponse peer overloaded (.heartbeat (.broadcast k) r) reply).rounds =
      n.rounds.adjust k fun b => { b with highestTerm := t }) ∨
    ∃ a, reply = some (.heartbeat a) ∧ a.success = true ∧
      (n.onResponse peer overloaded (.heartbeat (.broadcast k) r) reply).rounds =
        n.rounds.adjust k fun b => { b with successCount := b.successCount + 1 } := by
  have hfail : (n.onBroadcastResponse k peer none).rounds = n.rounds := by
    unfold onBroadcastResponse
    split
    · rfl
    · rfl
    · next hresp => cases hresp
  rcases reply with _ | (a | a | a | a)
  · exact .inl hfail
  · exact .inl hfail
  · simp only [onResponse, onHeartbeatResponse, onBroadcastResponse]
    split
    · exact .inl rfl
    · next hresp => cases hresp
    next b a' _ hresp =>
    cases hresp
    split
    · exact .inr (.inl ⟨a.term, rfl⟩)
    split
    · next hok => exact .inr (.inr ⟨a, rfl, hok, rfl⟩)
    · exact .inl rfl
  · exact .inl hfail
  · exact .inl hfail

theorem rounds_appendEntry (e : LogEntry) : (n.appendEntry e).1.rounds = n.rounds := by
  unfold appendEntry
  dsimp only
  split <;> rfl

theorem rounds_firstTerm : n.firstTerm.rounds = n.rounds := by
  unfold firstTerm
  split <;> rfl

theorem rounds_becomeLeader : n.becomeLeader.1.rounds = n.rounds := by
  unfold becomeLeader
  dsimp only
  split
  · exact n.rounds_firstTerm
  next topology _ =>
  have happend := rounds_appendEntry
    { n.firstTerm with leaderId := n.firstTerm.selfId, topology } noopEntry
  split
  · next heq =>
    rw [heq] at happend
    exact happend.trans n.rounds_firstTerm
  · next heq =>
    rw [heq] at happend
    exact happend.trans n.rounds_firstTerm

theorem rounds_finishElection (e : Election) : (n.finishElection e).rounds = n.rounds := by
  unfold finishElection
  dsimp only
  split
  · exact rounds_stepDown _ _
  split
  · rfl
  split
  swap
  · rfl
  have hlead := rounds_becomeLeader { n with election := none }
  split
  · next heq =>
    rw [heq] at hlead
    exact hlead
  · next heq =>
    rw [heq] at hlead
    exact (rounds_maybeCommit _).trans hlead

theorem rounds_maybeTriggerSnapshot (k : Nat) : (n.maybeTriggerSnapshot k).rounds = n.rounds := by
  unfold maybeTriggerSnapshot
  split <;> rfl

theorem rounds_execute (codec : CommandCodec) (k : Nat) (e : LogEntry) (outcome : Except String Unit) :
    (n.execute codec k e outcome).rounds = n.rounds := by
  unfold execute
  split <;> rfl

theorem rounds_propose (codec : CommandCodec) (e : LogEntry) : (n.propose codec e).1.rounds = n.rounds := by
  have happend := n.rounds_appendEntry e
  unfold propose
  split
  · rfl
  split
  · next heq =>
    rw [heq] at happend
    exact happend
  · next heq =>
    rw [heq] at happend
    exact happend

end

theorem rounds_replicatePeerOnce {peer : String} {request : Request} (h : n.replicatePeerOnce peer = some (n', request)) :
    n'.rounds = n.rounds := by
  obtain ⟨-, p, -, -, ⟨rfl, -⟩ | ⟨entries, prevLogTerm, -, -, rfl, -⟩⟩ := replicatePeerOnce_eq_some h
  · rfl
  · rfl

theorem rounds_forwardToFollower {follower : String} {request : Request}
    (h : n.forwardToFollower = some (n', follower, request)) : n'.rounds = n.rounds := by
  obtain ⟨-, p, -, ⟨rfl, -⟩ | ⟨entries, prevLogTerm, -, -, rfl, -⟩⟩ := forwardToFollower_eq_some h
  · rfl
  · rfl

theorem rounds_checkMentorTimeout {mentor : String} {message : Option (String × Request)}
    (h : n.checkMentorTimeout mentor = some (n', message)) : n'.rounds = n.rounds := by
  unfold checkMentorTimeout at h
  split at h
  · cases h
  dsimp only at h
  split at h
  · cases h
    rfl
  split at h
  · cases h
    rfl
  · cases h
    rfl

theorem rounds_rebalanceTopology (h : n.rebalanceTopology = .ok n') : n'.rounds = n.rounds := by
  unfold rebalanceTopology at h
  split at h
  · cases h
  · cases h
    rfl

theorem rounds_applyCommittedEntry {codec : CommandCodec} {outcome : Except String Unit} {e : LogEntry}
    (h : n.applyCommittedEntry codec outcome = some (n', e)) : n'.rounds = n.rounds := by
  unfold applyCommittedEntry at h
  split at h
  swap
  · cases h
  split at h
  · cases h
  cases h
  rw [rounds_maybeTriggerSnapshot]
  exact n.rounds_execute codec _ _ outcome

theorem rounds_saveSnapshot {keepFrom : Nat} (h : n.saveSnapshot keepFrom = some n') : n'.rounds = n.rounds := by
  unfold saveSnapshot at h
  split at h
  · cases h
  split at h
  · cases h
    rfl
  · cases h
    rfl

end Node

namespace Cluster

variable {codec : CommandCodec} {c c' : Cluster}

/-- No round starts and none is answered. -/
structure Silent (c c' : Cluster) : Prop where
  rounds : ∀ q k b, (c'.nodes q).rounds.find? k = some b → (c.nodes q).rounds.find? k = some b
  calls : ∀ (i : Nat) (call' : Call) (k : Nat) (r : HeartbeatRequest), c'.calls[i]? = some call' →
    call'.request = .heartbeat (.broadcast k) r → ∃ call, c.calls[i]? = some call ∧ call'.key = call.key

theorem Silent.refl (c : Cluster) : Silent c c := ⟨fun _ _ _ => id, fun _ call _ _ hcall _ => ⟨call, hcall, rfl⟩⟩

theorem Silent.put {p : String} {n' : Node}
    (hn' : ∀ k b, n'.rounds.find? k = some b → (c.nodes p).rounds.find? k = some b) : Silent c (c.put p n') where
  rounds := fun q k b hb => by
    by_cases hq : q = p
    · rw [hq, put_self] at hb
      rw [hq]
      exact hn' k b hb
    · rw [put_other c n' hq] at hb
      exact hb
  calls := (Silent.refl c).calls

theorem Silent.keep {p : String} {n' : Node} (hn' : n'.rounds = (c.nodes p).rounds) : Silent c (c.put p n') :=
  .put fun _ _ hb => hn' ▸ hb

theorem Silent.restart (c : Cluster) (p : String) (n : Node) : Silent c (c.put p n.restart) :=
  .put fun _ _ hb => by cases hb

theorem Silent.record (h : Silent c c') (history : History) : Silent c (c'.record history) := ⟨h.rounds, h.calls⟩

theorem Silent.send (h : Silent c c') {p : String} {messages : List (String × Request)}
    (hnew : ∀ m ∈ messages, ∀ k r, m.2 ≠ .heartbeat (.broadcast k) r) : Silent c (c'.send p messages) where
  rounds := h.rounds
  calls := fun i call k r hcall hr => by
    by_cases hi : i < c'.calls.length
    · exact h.calls i call k r ((List.getElem?_append_left hi).symm.trans hcall) hr
    · have hmem := List.mem_of_getElem? ((List.getElem?_append_right (Nat.le_of_not_lt hi)).symm.trans hcall)
      obtain ⟨m, hm, rfl⟩ := List.mem_map.mp hmem
      exact absurd hr (hnew m hm k r)

theorem Silent.setCall (h : Silent c c') {i : Nat} {call call' : Call} (hcall : c'.calls[i]? = some call)
    (hkey : call'.key = call.key) : Silent c (c'.setCall i call') where
  rounds := h.rounds
  calls := fun j x k r hx hr => by
    by_cases hij : i = j
    · subst hij
      rw [Cluster.setCall, List.getElem?_set_self (List.getElem?_eq_some_iff.mp hcall).1] at hx
      cases hx
      have hrequest : call.request = .heartbeat (.broadcast k) r := by
        simp only [Call.key, Prod.mk.injEq] at hkey
        rw [← hkey.2.2]
        exact hr
      obtain ⟨y, hy, heq⟩ := h.calls i call k r hcall hrequest
      exact ⟨y, hy, hkey.trans heq⟩
    · exact h.calls j x k r ((List.getElem?_set_ne hij).symm.trans hx) hr

theorem Silent.dropCalls (h : Silent c c') (p : String) : Silent c (c'.dropCalls p) where
  rounds := h.rounds
  calls := fun i x k r hx hr => by
    obtain ⟨y, hy, rfl⟩ := Option.map_eq_some_iff.mp (List.getElem?_map.symm.trans hx)
    by_cases hsrc : y.src = p
    · rw [if_pos hsrc] at hr ⊢
      exact h.calls i y k r hy hr
    · rw [if_neg hsrc] at hr ⊢
      exact h.calls i y k r hy hr

/-- The action starts no round and answers no heartbeat of a round. -/
def Aside (c : Cluster) : Action → Prop
  | .beginBroadcast _ => False
  | .receive i _ => ∀ call ∈ c.calls[i]?, ∀ k r, call.request ≠ .heartbeat (.broadcast k) r
  | .fail i _ => ∀ call ∈ c.calls[i]?, ∀ k r, call.request ≠ .heartbeat (.broadcast k) r
  | _ => True

theorem silent_finishCall {i : Nat} {call : Call} (overloaded : Bool) (reply : Option Response)
    (hcall : c.calls[i]? = some call) (hne : ∀ k r, call.request ≠ .heartbeat (.broadcast k) r) :
    Silent c (c.finishCall i call overloaded reply) := by
  refine Silent.record (Silent.setCall (Silent.keep ?_) hcall ?_) _
  · exact Node.rounds_onResponse _ call.dst overloaded reply hne
  · rfl

theorem silent_of_step {a : Action} (hs : step codec c a = some c') (ha : c.Aside a) : Silent c c' := by
  cases a with
  | start p =>
    simp only [Cluster.step, Cluster.start] at hs
    split at hs
    swap
    · cases hs
    have hlead := (c.nodes p).rounds_becomeLeader
    split at hs
    · next n' _ heq =>
      cases hs
      exact ((Silent.restart c p n').dropCalls p).record _
    · next n' _ heq =>
      rw [heq] at hlead
      cases hs
      exact (Silent.keep (n'.rounds_maybeCommit.trans hlead)).record _
  | startElection p =>
    simp only [Cluster.step, Cluster.startElection] at hs
    split at hs
    swap
    · cases hs
    cases hs
    refine Silent.record (Silent.send (Silent.keep ?_) fun m hm k r hr => ?_) _
    · rfl
    · obtain ⟨peer, -, rfl⟩ := List.mem_map.mp hm
      cases hr
  | finishElection p =>
    simp only [Cluster.step, Cluster.finishElection] at hs
    split at hs
    · cases hs
    next e _ =>
    split at hs
    · cases hs
      exact (Silent.keep (Node.rounds_finishElection _ e)).record _
    · cases hs
  | beginBroadcast p => exact ha.elim
  | finishBroadcast p round =>
    simp only [Cluster.step, Cluster.finishBroadcast] at hs
    split at hs
    · cases hs
    next b _ =>
    split at hs
    swap
    · cases hs
    cases hs
    refine .put fun k x hx => ?_
    have hrounds : ((c.nodes p).finishBroadcast round b).rounds = (c.nodes p).rounds.erase round := by
      unfold Node.finishBroadcast
      dsimp only
      split
      · exact Node.rounds_stepDown _ _
      · rfl
    rw [hrounds] at hx
    exact ((c.nodes p).rounds.find?_erase round k x).mp hx |>.2
  | replicate p peer =>
    simp only [Cluster.step, Cluster.replicate] at hs
    split at hs
    swap
    · cases hs
    obtain ⟨⟨n', request⟩, hn', rfl⟩ := Option.map_eq_some_iff.mp hs
    refine (Silent.keep (Node.rounds_replicatePeerOnce hn')).send fun m hm k r hr => ?_
    obtain rfl := List.mem_singleton.mp hm
    obtain ⟨-, -, ⟨s, -, -, rfl⟩ | ⟨x, j, rfl, -⟩⟩ := Node.replicatePeerOnce_cases hn'
    · cases hr
    · cases hr
  | forward p i =>
    simp only [Cluster.step, Cluster.forward] at hs
    split at hs
    swap
    · cases hs
    split at hs
    · cases hs
      exact .keep rfl
    next n' follower request hn' =>
    cases hs
    have hrounds := Node.rounds_forwardToFollower hn'
    refine (Silent.keep hrounds).send fun m hm k r hr => ?_
    obtain rfl := List.mem_singleton.mp hm
    obtain ⟨-, ⟨s, -, -, rfl⟩ | ⟨x, j, rfl, -⟩⟩ := Node.forwardToFollower_cases hn'
    · cases hr
    · cases hr
  | checkMentor p mentor =>
    simp only [Cluster.step, Cluster.checkMentor] at hs
    split at hs
    swap
    · cases hs
    obtain ⟨⟨n', message⟩, hn', rfl⟩ := Option.map_eq_some_iff.mp hs
    refine (Silent.keep (Node.rounds_checkMentorTimeout hn')).send fun m hm k r hr => ?_
    obtain ⟨-, -, -, hmessage⟩ := Node.checkMentorTimeout_cases hn'
    obtain ⟨info, hinfo⟩ := hmessage m (Option.mem_toList.mp hm)
    rw [hinfo] at hr
    cases hr
  | checkFollower p follower recent =>
    simp only [Cluster.step, Cluster.checkFollower] at hs
    split at hs
    swap
    · cases hs
    obtain ⟨request, hrequest, rfl⟩ := Option.map_eq_some_iff.mp hs
    refine (Silent.refl c).send fun m hm k r hr => ?_
    obtain rfl := List.mem_singleton.mp hm
    obtain ⟨-, -, ⟨ctx, info, rfl⟩ | ⟨ctx, x, rfl, -⟩⟩ := Node.checkFollowerTimeout_cases hrequest
    · cases hr
    · cases hr
  | deliver i complete keepFrom =>
    simp only [Cluster.step, Cluster.deliver] at hs
    split at hs
    · cases hs
    next call hcall =>
    split at hs
    swap
    · cases hs
    cases hs
    refine Silent.record (Silent.setCall (Silent.keep ?_) hcall ?_) _
    · exact Node.rounds_handle _ complete keepFrom call.request
    · rfl
  | receive i overloaded =>
    simp only [Cluster.step, Cluster.receive] at hs
    split at hs
    · cases hs
    next call hcall =>
    split at hs
    swap
    · cases hs
    cases hs
    exact silent_finishCall overloaded _ hcall (ha call hcall)
  | fail i overloaded =>
    simp only [Cluster.step, Cluster.fail] at hs
    split at hs
    · cases hs
    next call hcall =>
    split at hs
    swap
    · cases hs
    cases hs
    exact silent_finishCall overloaded _ hcall (ha call hcall)
  | rebalance p =>
    simp only [Cluster.step] at hs
    split at hs
    swap
    · cases hs
    obtain ⟨n', hn', rfl⟩ := Option.map_eq_some_iff.mp hs
    cases hrebalance : (c.nodes p).rebalanceTopology with
    | error err =>
      rw [hrebalance] at hn'
      cases hn'
    | ok m =>
      rw [hrebalance] at hn'
      cases hn'
      exact .keep (Node.rounds_rebalanceTopology hrebalance)
  | recoverWindows p expired =>
    simp only [Cluster.step] at hs
    split at hs
    · cases hs
      exact .keep rfl
    · cases hs
  | clientWrite p r =>
    simp only [Cluster.step, Cluster.clientWrite] at hs
    split at hs
    swap
    · cases hs
    split at hs
    · cases hs
      exact .keep rfl
    · cases hs
      exact .refl c
  | propose p i =>
    simp only [Cluster.step, Cluster.propose] at hs
    split at hs
    · cases hs
    next e _ =>
    have hrounds := Node.rounds_propose { c.nodes p with writes := (c.nodes p).writes.eraseIdx i } codec e
    split at hs
    · next heq =>
      cases hs
      rw [heq] at hrounds
      exact .keep hrounds
    · next heq =>
      cases hs
      rw [heq] at hrounds
      exact (Silent.keep hrounds).record _
  | apply p outcome =>
    simp only [Cluster.step, Cluster.apply] at hs
    split at hs
    · cases hs
    next n' e hn' =>
    cases hs
    exact (Silent.keep (Node.rounds_applyCommittedEntry hn')).record _
  | saveSnapshot p keepFrom =>
    obtain ⟨n', hn', rfl⟩ := Option.map_eq_some_iff.mp hs
    exact .keep (Node.rounds_saveSnapshot hn')
  | restart p =>
    simp only [Cluster.step] at hs
    split at hs
    swap
    · cases hs
    cases hs
    exact (Silent.restart c p _).dropCalls p

/-- A heartbeat of this round is acknowledged. -/
def Succeeds (k : Nat) (request : Request) (resp : Response) : Prop :=
  ∃ r a, request = .heartbeat (.broadcast k) r ∧ resp = .heartbeat a ∧ a.success = true

structure RoundInv (c : Cluster) : Prop where
  request : ∀ call ∈ c.calls, ∀ k r, call.request = .heartbeat (.broadcast k) r → call.src ∈ c.members.ids ∧
    call.dst ∈ normalizePeers call.src c.members.ids ∧ k < c.calls.length
  once : ∀ (i j : Nat) (call call' : Call) (k : Nat) (r r' : HeartbeatRequest), c.calls[i]? = some call →
    c.calls[j]? = some call' → call.request = .heartbeat (.broadcast k) r →
    call'.request = .heartbeat (.broadcast k) r' → call.src = call'.src → call.dst = call'.dst → i = j
  round : ∀ p k b, (c.nodes p).rounds.find? k = some b → p ∈ c.members.ids ∧ b.term ≤ (c.nodes p).currentTerm ∧
    (∀ call ∈ c.calls, call.src = p → ∀ r, call.request = .heartbeat (.broadcast k) r → r.term = b.term) ∧
    Counted c p (Succeeds k) b.successCount

theorem Onward.length_le (h : Onward c c') : c.calls.length ≤ c'.calls.length := by
  by_contra hlt
  obtain ⟨call', hcall', -⟩ := h.calls c'.calls.length c.calls[c'.calls.length]
    (List.getElem?_eq_getElem (Nat.lt_of_not_le hlt))
  exact absurd (List.getElem?_eq_some_iff.mp hcall').1 (Nat.lt_irrefl _)

theorem RoundInv.silent (h : RoundInv c) (hon : Onward c c') (hsilent : Silent c c') (hmembers : c'.members = c.members) :
    RoundInv c' where
  request := fun call hcall k r hr => by
    obtain ⟨i, hi⟩ := List.mem_iff_getElem?.mp hcall
    obtain ⟨x, hx, hkey⟩ := hsilent.calls i call k r hi hr
    simp only [Call.key, Prod.mk.injEq] at hkey
    obtain ⟨hsrc, hdst, hlt⟩ := h.request x (List.mem_of_getElem? hx) k r (hkey.2.2.symm.trans hr)
    rw [hkey.1, hkey.2.1, hmembers]
    exact ⟨hsrc, hdst, Nat.lt_of_lt_of_le hlt hon.length_le⟩
  once := fun i j call call' k r r' hi hj hr hr' hsrc hdst => by
    obtain ⟨x, hx, hkey⟩ := hsilent.calls i call k r hi hr
    obtain ⟨x', hx', hkey'⟩ := hsilent.calls j call' k r' hj hr'
    simp only [Call.key, Prod.mk.injEq] at hkey hkey'
    refine h.once i j x x' k r r' hx hx' (hkey.2.2.symm.trans hr) (hkey'.2.2.symm.trans hr') ?_ ?_
    · rw [← hkey.1, ← hkey'.1, hsrc]
    · rw [← hkey.2.1, ← hkey'.2.1, hdst]
  round := fun p k b hb => by
    obtain ⟨hmem, hterm, hcalls, hcount⟩ := h.round p k b (hsilent.rounds p k b hb)
    rw [hmembers]
    refine ⟨hmem, hterm.trans (hon.term p), fun call hcall hsrc r hr => ?_, hcount.onward hon⟩
    obtain ⟨i, hi⟩ := List.mem_iff_getElem?.mp hcall
    obtain ⟨x, hx, hkey⟩ := hsilent.calls i call k r hi hr
    simp only [Call.key, Prod.mk.injEq] at hkey
    exact hcalls x (List.mem_of_getElem? hx) (hkey.1.symm.trans hsrc) r (hkey.2.2.symm.trans hr)

/-- A round starts. Its number is new, so no earlier heartbeat belongs to it. -/
theorem RoundInv.beginBroadcast (h : RoundInv c) (hcfg : c.Configured) (hanswered : c.Answered) {p : String}
    (hs : c.beginBroadcast p = some c') : RoundInv c' := by
  unfold Cluster.beginBroadcast at hs
  dsimp only at hs
  split at hs
  swap
  · cases hs
  next hguard =>
  cases hs
  generalize hn' : ({ c.nodes p with
    rounds := (c.nodes p).rounds.insert c.calls.length
      { term := (c.nodes p).currentTerm, highestTerm := (c.nodes p).currentTerm } } : Node) = n'
  have hterm : n'.currentTerm = (c.nodes p).currentTerm := by rw [← hn']
  have hrounds : n'.rounds = (c.nodes p).rounds.insert c.calls.length
      { term := (c.nodes p).currentTerm, highestTerm := (c.nodes p).currentTerm } := by rw [← hn']
  generalize hmessages : ((c.nodes p).config.peers.map fun peer =>
    ((peer, .heartbeat (.broadcast c.calls.length) ((c.nodes p).heartbeat peer)) : String × Request)) = messages
  have hon := (Onward.put hanswered hterm.ge).send p messages
  have hcases : ∀ (i : Nat) (call : Call), ((c.put p n').send p messages).calls[i]? = some call →
      c.calls[i]? = some call ∨ ∃ peer, (c.nodes p).config.peers[i - c.calls.length]? = some peer ∧ c.calls.length ≤ i ∧
        i < ((c.put p n').send p messages).calls.length ∧
        call = { src := p, dst := peer, request := .heartbeat (.broadcast c.calls.length) ((c.nodes p).heartbeat peer) } := by
    intro i call hcall
    have hlt := (List.getElem?_eq_some_iff.mp hcall).1
    by_cases hi : i < c.calls.length
    · exact .inl ((List.getElem?_append_left hi).symm.trans hcall)
    · have hnew := (List.getElem?_append_right (Nat.le_of_not_lt hi)).symm.trans hcall
      rw [← hmessages] at hnew
      obtain ⟨m, hm, rfl⟩ := Option.map_eq_some_iff.mp (List.getElem?_map.symm.trans hnew)
      obtain ⟨peer, hpeer, rfl⟩ := Option.map_eq_some_iff.mp (List.getElem?_map.symm.trans hm)
      exact .inr ⟨peer, hpeer, Nat.le_of_not_lt hi, hlt, rfl⟩
  have hold : ∀ (i : Nat) (call : Call) (r : HeartbeatRequest), c.calls[i]? = some call →
      call.request ≠ .heartbeat (.broadcast c.calls.length) r := by
    intro i call r hcall hr
    exact Nat.lt_irrefl _ (h.request call (List.mem_of_getElem? hcall) _ r hr).2.2
  exact {
    request := fun call hcall k r hr => by
      obtain ⟨i, hi⟩ := List.mem_iff_getElem?.mp hcall
      rcases hcases i call hi with hx | ⟨peer, hpeer, hle, hlt, rfl⟩
      · obtain ⟨hsrc, hdst, hk⟩ := h.request call (List.mem_of_getElem? hx) k r hr
        exact ⟨hsrc, hdst, Nat.lt_of_lt_of_le hk hon.length_le⟩
      · cases hr
        rw [(hcfg p).2] at hpeer
        exact ⟨hguard.1, List.mem_of_getElem? hpeer, Nat.lt_of_le_of_lt hle hlt⟩
    once := fun i j call call' k r r' hi hj hr hr' hsrc hdst => by
      rcases hcases i call hi with hx | ⟨peer, hpeer, hle, -, rfl⟩
      · rcases hcases j call' hj with hx' | ⟨peer', hpeer', hle', -, rfl⟩
        · exact h.once i j call call' k r r' hx hx' hr hr' hsrc hdst
        · cases hr'
          exact absurd hr (hold i call r hx)
      · cases hr
        rcases hcases j call' hj with hx' | ⟨peer', hpeer', hle', -, rfl⟩
        · exact absurd hr' (hold j call' r' hx')
        · simp only at hdst
          subst hdst
          have hnodup : (c.nodes p).config.peers.Nodup := by
            rw [(hcfg p).2]
            exact c.members.nodup.filter _
          have heq := (List.getElem?_inj (List.getElem?_eq_some_iff.mp hpeer).1 hnodup).mp (hpeer.trans hpeer'.symm)
          omega
    round := fun q k b hb => by
      by_cases hnew : q = p ∧ k = c.calls.length
      · obtain ⟨rfl, rfl⟩ := hnew
        simp only [send_nodes, put_self] at hb ⊢
        rw [hrounds, Table.find?_insert, if_pos rfl] at hb
        cases hb
        refine ⟨hguard.1, hterm.ge, fun call hcall _ r hr => ?_, .one⟩
        obtain ⟨i, hi⟩ := List.mem_iff_getElem?.mp hcall
        rcases hcases i call hi with hx | ⟨peer, -, -, -, rfl⟩
        · exact absurd hr (hold i call r hx)
        · cases hr
          rfl
      · have hb' : (c.nodes q).rounds.find? k = some b := by
          by_cases hq : q = p
          · subst hq
            simp only [send_nodes, put_self] at hb
            rw [hrounds, Table.find?_insert, if_neg fun hk => hnew ⟨rfl, hk⟩] at hb
            exact hb
          · simp only [send_nodes, put_other c n' hq] at hb
            exact hb
        obtain ⟨hmem, hle, hcalls, hcount⟩ := h.round q k b hb'
        refine ⟨hmem, hle.trans (hon.term q), fun call hcall hsrc r hr => ?_, hcount.onward hon⟩
        obtain ⟨i, hi⟩ := List.mem_iff_getElem?.mp hcall
        rcases hcases i call hi with hx | ⟨peer, -, -, -, rfl⟩
        · exact hcalls call (List.mem_of_getElem? hx) hsrc r hr
        · cases hr
          exact absurd ⟨hsrc.symm, rfl⟩ hnew }

/-- The locals of one round change. -/
theorem RoundInv.adjust (h : RoundInv c) (hon : Onward c c') (hmembers : c'.members = c.members) {p : String} {k : Nat}
    {f : HeartbeatRound → HeartbeatRound} (hother : ∀ q, q ≠ p → (c'.nodes q).rounds = (c.nodes q).rounds)
    (hself : (c'.nodes p).rounds = (c.nodes p).rounds.adjust k f) (hterm : ∀ b, (f b).term = b.term)
    (hcount : ∀ b, (c.nodes p).rounds.find? k = some b → Counted c' p (Succeeds k) (f b).successCount)
    (hcalls : c'.calls.map Call.key = c.calls.map Call.key) : RoundInv c' := by
  have hkeys : ∀ (i : Nat) (call' : Call), c'.calls[i]? = some call' → ∃ call, c.calls[i]? = some call ∧ call'.key = call.key := by
    intro i call' hcall'
    have hkey : (c.calls.map Call.key)[i]? = some call'.key := by
      rw [← hcalls, List.getElem?_map, hcall']
      rfl
    obtain ⟨call, hcall, heq⟩ := Option.map_eq_some_iff.mp (List.getElem?_map.symm.trans hkey)
    exact ⟨call, hcall, heq.symm⟩
  let d : Cluster := { c' with nodes := fun q => { c'.nodes q with rounds := (c.nodes q).rounds } }
  have hd : RoundInv d :=
    h.silent ⟨hon.term, hon.votes, hon.calls, hon.answered⟩
      ⟨fun _ _ _ => id, fun i call' _ _ hcall' _ => hkeys i call' hcall'⟩ hmembers
  refine ⟨hd.request, hd.once, fun q j b hb => ?_⟩
  by_cases hq : q = p
  · subst hq
    rw [hself] at hb
    by_cases hj : j = k
    · subst hj
      rw [Table.find?_adjust_self] at hb
      obtain ⟨b', hb', rfl⟩ := Option.map_eq_some_iff.mp hb
      obtain ⟨hmem, hle, hterms, -⟩ := hd.round q j b' hb'
      rw [hterm]
      exact ⟨hmem, hle, hterms, hcount b' hb'⟩
    · rw [Table.find?_adjust_other _ _ _ _ hj] at hb
      exact hd.round q j b hb
  · rw [hother q hq] at hb
    exact hd.round q j b hb

/-- The answer of one peer is counted. -/
theorem RoundInv.answer (h : RoundInv c) {i : Nat} {call : Call} (overloaded : Bool)
    {reply : Option Response} (hcall : c.calls[i]? = some call) (hwaiting : call.waiting = true)
    (hreply : reply = call.reply ∨ reply = none) {k : Nat} {r : HeartbeatRequest}
    (hr : call.request = .heartbeat (.broadcast k) r) (hon : Onward c (c.finishCall i call overloaded reply)) :
    RoundInv (c.finishCall i call overloaded reply) := by
  have hother : ∀ q, q ≠ call.src →
      ((c.finishCall i call overloaded reply).nodes q).rounds = (c.nodes q).rounds := by
    intro q hq
    simp only [Cluster.finishCall, record_nodes, setCall_nodes, put_other c _ hq]
  have hself : ((c.finishCall i call overloaded reply).nodes call.src).rounds =
      ((c.nodes call.src).onResponse call.dst overloaded call.request reply).rounds := by
    simp only [Cluster.finishCall, record_nodes, setCall_nodes, put_self]
  have hkeys : (c.finishCall i call overloaded reply).calls.map Call.key = c.calls.map Call.key := map_key_set hcall rfl
  rw [hr] at hself
  rcases Node.rounds_onResponse_broadcast (c.nodes call.src) call.dst overloaded k r reply with
    heq | ⟨t, heq⟩ | ⟨a, ha, hok, heq⟩
  · refine h.silent hon (Silent.record (Silent.setCall (Silent.keep ?_) hcall ?_) _) rfl
    · rw [hr]
      exact heq
    · rfl
  · refine h.adjust hon rfl hother (hself.trans heq) (fun _ => rfl) (fun b hb => ?_) hkeys
    exact (h.round call.src k b hb).2.2.2.onward hon
  · have hanswer : call.reply = some (.heartbeat a) := by
      rcases hreply with hreply | hreply
      · exact hreply.symm.trans ha
      · rw [hreply] at ha
        cases ha
    refine h.adjust hon rfl hother (hself.trans heq) (fun _ => rfl) (fun b hb => ?_) hkeys
    have hset : (c.finishCall i call overloaded reply).calls[i]? = some { call with waiting := false } :=
      List.getElem?_set_self (List.getElem?_eq_some_iff.mp hcall).1
    exact (h.round call.src k b hb).2.2.2.more hon hcall hwaiting hset rfl rfl hanswer ⟨r, a, hr, rfl, hok⟩

theorem RoundInv.step (h : RoundInv c) (hcfg : c.Configured) (hanswered : c.Answered) {a : Action}
    (hs : step codec c a = some c') : RoundInv c' := by
  have hmoves := moves_of_step hs
  have hon := onward_of_moves hanswered hmoves
  have hmembers := (frame_of_moves hmoves).members
  by_cases ha : c.Aside a
  · exact h.silent hon (silent_of_step hs ha) hmembers
  cases a with
  | beginBroadcast p => exact h.beginBroadcast hcfg hanswered hs
  | receive i overloaded =>
    simp only [Aside, not_forall, not_not] at ha
    obtain ⟨call, hcall, k, r, hr⟩ := ha
    simp only [Cluster.step, Cluster.receive, Option.mem_def.mp hcall] at hs
    split at hs
    swap
    · cases hs
    next hguard =>
    cases hs
    exact h.answer overloaded hcall hguard.1 (.inl rfl) hr hon
  | fail i overloaded =>
    simp only [Aside, not_forall, not_not] at ha
    obtain ⟨call, hcall, k, r, hr⟩ := ha
    simp only [Cluster.step, Cluster.fail, Option.mem_def.mp hcall] at hs
    split at hs
    swap
    · cases hs
    next hwaiting =>
    cases hs
    exact h.answer overloaded hcall hwaiting (.inr rfl) hr hon
  | _ => exact absurd trivial ha

theorem RoundInv.init (members : Members) (config : String → Config) : RoundInv (init members config) where
  request := fun call hcall => by cases hcall
  once := fun i j call call' k r r' hcall => by cases hcall
  round := fun p k b hb => by cases hb

/-- A round that has enough successes was acknowledged by a majority. -/
theorem RoundInv.acknowledged (h : RoundInv c) {p : String} {k : Nat} {b : HeartbeatRound}
    (hb : (c.nodes p).rounds.find? k = some b) (hquorum : quorumSize (normalizePeers p c.members.ids) ≤ b.successCount) :
    IsMajority c.members.ids fun v => v = p ∨ ∃ call ∈ c.calls, call.src = p ∧ call.dst = v ∧
      ∃ r a, call.request = .heartbeat (.broadcast k) r ∧ r.term = b.term ∧ call.reply = some (.heartbeat a) ∧
        a.success = true := by
  obtain ⟨hmem, -, hterms, hcount⟩ := h.round p k b hb
  refine hcount.majority hmem hquorum ?_ ?_ (.inl rfl) ?_
  · rintro i j call call' resp resp' hi hj hsrc hsrc' ⟨r, -, hr, -⟩ ⟨r', -, hr', -⟩ hdst
    exact h.once i j call call' k r r' hi hj hr hr' (hsrc.trans hsrc'.symm) hdst
  · rintro call hcall resp hsrc ⟨r, -, hr, -⟩
    obtain ⟨-, hdst, -⟩ := h.request call hcall k r hr
    rw [hsrc] at hdst
    exact hdst
  · rintro call hcall resp hsrc hreply ⟨r, a, hr, rfl, hok⟩
    exact .inr ⟨call, hcall, hsrc, rfl, r, a, hr, hterms call hcall hsrc r hr, hreply, hok⟩

end Cluster

end RaftVdb
