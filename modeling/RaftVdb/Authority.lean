import RaftVdb.Moves

/-!
# Who may send log entries

A mentor forwards entries from a detached thread, under whatever term the node has when
the thread gets to run. If that is still the term of the request it was started for, and
that request came from the leader, the sender has the authority of the term's leader.
Otherwise the node may only have heard of the term from a candidate.
-/

namespace RaftVdb

open Lib

/-- The receiver accepted the call, a heartbeat or an `AppendEntries` of this term. -/
def Call.AcceptedIn (call : Call) (T : Nat) : Prop :=
  (∃ caller r resp, call.request = .heartbeat caller r ∧ r.term = T ∧ call.reply = some (.heartbeat resp) ∧
    resp.success = true) ∨
  ∃ caller r resp, call.request = .append caller r ∧ r.term = T ∧ call.reply = some (.append resp) ∧
    resp.success = true

namespace Node

/-- A request that the leader itself has sent. -/
def FromLeader (r : AppendEntriesRequest) : Prop := r.senderId = r.leaderId ∨ r.senderId = ""

instance (r : AppendEntriesRequest) : Decidable (FromLeader r) := by
  unfold FromLeader
  infer_instance

/-- What a node knows about leaders is true: `led` are the nodes that have led a term, and
`accepted T l` says that this node has accepted a message of `l` in term `T`. -/
structure Lawful (led : List (String × Nat)) (accepted : Nat → String → Prop) (p : String) (n : Node) : Prop where
  id : n.config.nodeId = p
  peers : p ∉ n.config.peers
  leads : n.state = .leader → (p, n.currentTerm) ∈ led
  positive : n.state = .candidate → n.currentTerm ≠ 0
  vote : n.state = .candidate → n.votedFor = p
  fresh : n.state = .candidate → ∀ r ∈ n.forwards, r.term ≠ n.currentTerm
  leader : n.leaderId ≠ "" → (n.leaderId, n.currentTerm) ∈ led ∨ n.state = .candidate
  copy_le : ∀ r ∈ n.forwards, r.term ≤ n.currentTerm
  copy : ∀ r ∈ n.forwards, FromLeader r → ∃ l, (l, r.term) ∈ led ∧ accepted r.term l

variable {led led' : List (String × Nat)} {accepted accepted' : Nat → String → Prop} {p : String} {n n' : Node}

theorem Lawful.mono (h : Lawful led accepted p n) (hled : led ⊆ led') (hacc : ∀ T l, accepted T l → accepted' T l) :
    Lawful led' accepted' p n :=
  { h with
    leads := fun hs => hled (h.leads hs)
    leader := fun hl => (h.leader hl).imp_left fun hx => hled hx
    copy := fun r hr hfrom => by
      obtain ⟨l, hl, ha⟩ := h.copy r hr hfrom
      exact ⟨l, hled hl, hacc _ _ ha⟩ }

/-- Only these fields matter. -/
theorem Lawful.congr (h : Lawful led accepted p n) (hconfig : n'.config = n.config)
    (hterm : n'.currentTerm = n.currentTerm) (hvote : n'.votedFor = n.votedFor) (hstate : n'.state = n.state)
    (hleader : n'.leaderId = n.leaderId) (hforwards : n'.forwards = n.forwards) : Lawful led accepted p n' := by
  constructor
  · rw [hconfig]
    exact h.id
  · rw [hconfig]
    exact h.peers
  · rw [hstate, hterm]
    exact h.leads
  · rw [hstate, hterm]
    exact h.positive
  · rw [hstate, hvote]
    exact h.vote
  · rw [hstate, hforwards, hterm]
    exact h.fresh
  · rw [hleader, hterm, hstate]
    exact h.leader
  · rw [hforwards, hterm]
    exact h.copy_le
  · rw [hforwards]
    exact h.copy

theorem Lawful.of_core (h : Lawful led accepted p n) (hcore : n'.core = n.core) : Lawful led accepted p n' :=
  h.congr (eq_of_core Node.config (fun _ => rfl) hcore) (eq_of_core Node.currentTerm (fun _ => rfl) hcore)
    (eq_of_core Node.votedFor (fun _ => rfl) hcore) (eq_of_core Node.state (fun _ => rfl) hcore)
    (eq_of_core Node.leaderId (fun _ => rfl) hcore) (eq_of_core Node.forwards (fun _ => rfl) hcore)

theorem Lawful.followed (h : Lawful led accepted p n) {term : Nat} {leaderId : String} (hle : n.currentTerm ≤ term)
    (hleader : leaderId ≠ "" → (leaderId, term) ∈ led) : Lawful led accepted p (n.followed term leaderId) where
  id := h.id
  peers := h.peers
  leads := fun hs => by cases hs
  positive := fun hs => by cases hs
  vote := fun hs => by cases hs
  fresh := fun hs => by cases hs
  leader := fun hne => .inl (hleader hne)
  copy_le := fun r hr => (h.copy_le r hr).trans hle
  copy := h.copy

theorem Lawful.stepDown (h : Lawful led accepted p n) (term : Nat) : Lawful led accepted p (n.stepDown term) := by
  rcases n.stepDown_cases term with ⟨-, heq⟩ | ⟨hle, hcore, -⟩
  · rw [heq]
    exact h
  · exact (h.followed hle (by simp)).of_core hcore

theorem Lawful.noted (h : Lawful led accepted p n) {term : Nat} {leaderId : String} (hle : n.currentTerm ≤ term)
    (hleader : leaderId ≠ "" → (leaderId, term) ∈ led) : Lawful led accepted p (n.noted term leaderId) := by
  unfold Node.noted
  split
  · exact h.followed hle hleader
  · next hcase =>
    simp only [not_or, not_lt, ne_eq, not_not] at hcase
    obtain ⟨hge, hstate⟩ := hcase
    have heq : term = n.currentTerm := Nat.le_antisymm hge hle
    exact { h with leader := fun hne => .inl (heq ▸ hleader hne) }

theorem Lawful.maybeCommit (h : Lawful led accepted p n) : Lawful led accepted p n.maybeCommit := by
  rcases n.maybeCommit_cases with heq | ⟨k, -, -, -, -, -, heq⟩
  · rw [heq]
    exact h
  · rw [heq]
    exact h.congr rfl rfl rfl rfl rfl rfl

theorem Lawful.advanceCommit (h : Lawful led accepted p n) (k : Nat) : Lawful led accepted p (n.advanceCommit k) := by
  rcases n.advanceCommit_cases k with ⟨heq, -⟩ | ⟨-, heq⟩
  · rw [heq]
    exact h
  · rw [heq]
    exact h.congr rfl rfl rfl rfl rfl rfl

/-- The dispatch of an accepted request. -/
theorem Lawful.dispatchForward (h : Lawful led accepted p n) {r : AppendEntriesRequest} (hstate : n.state = .follower)
    (hterm : r.term = n.currentTerm) (hcopy : FromLeader r → ∃ l, (l, r.term) ∈ led ∧ accepted r.term l) :
    Lawful led accepted p (n.dispatchForward r) := by
  rcases n.dispatchForward_cases r with heq | heq
  · rw [heq]
    exact h
  · rw [heq]
    refine { h with fresh := ?_, copy_le := ?_, copy := ?_ }
    · intro hs
      rw [hstate] at hs
      cases hs
    · intro x hx
      rcases List.mem_append.mp hx with hx | hx
      · exact h.copy_le x hx
      · obtain rfl := List.mem_singleton.mp hx
        exact hterm.le
    · intro x hx hfrom
      rcases List.mem_append.mp hx with hx | hx
      · exact h.copy x hx hfrom
      · obtain rfl := List.mem_singleton.mp hx
        exact hcopy hfrom

theorem Lawful.answers (h : Lawful led accepted p n) {peer : String} {request : Request} {reply : Option Response}
    (hn' : n.Answers peer request reply n') : Lawful led accepted p n' := by
  cases hn' with
  | noted hcore => exact h.of_core hcore
  | merged _ hcore => exact h.of_core hcore
  | committed _ _ hcore => exact (h.of_core hcore).maybeCommit
  | newer => exact h.stepDown _
  | counted => exact h.congr rfl rfl rfl rfl rfl rfl

theorem Lawful.handleRequestVote (h : Lawful led accepted p n) {r : RequestVoteRequest} (hne : r.candidateId ≠ p)
    (hp : p ≠ "") : Lawful led accepted p (n.handleRequestVote r).1 := by
  unfold Node.handleRequestVote
  split
  · exact h
  split
  · exact h
  next m hm =>
  have hlaw : Lawful led accepted p m := by
    split at hm
    · obtain ⟨hle, hcore, -⟩ := becomeFollower_eq_ok hm
      exact (h.followed hle (by simp)).of_core hcore
    · cases hm
      exact h
  split
  · next hgrant =>
    have hstate : m.state ≠ .candidate := by
      intro hs
      have hv := hlaw.vote hs
      rcases hgrant.1 with hempty | hsame
      · exact hp (hv.symm.trans hempty)
      · exact hne (hsame.symm.trans hv)
    exact {
      id := hlaw.id
      peers := hlaw.peers
      leads := fun hs => by cases hs
      positive := fun hs => by cases hs
      vote := fun hs => by cases hs
      fresh := fun hs => by cases hs
      leader := fun hl => .inl ((hlaw.leader hl).resolve_right hstate)
      copy_le := hlaw.copy_le
      copy := hlaw.copy }
  · exact hlaw

theorem Lawful.handleHeartbeat (h : Lawful led accepted p n) {r : HeartbeatRequest}
    (hleader : r.leaderId ≠ "" → (r.leaderId, r.term) ∈ led) : Lawful led accepted p (n.handleHeartbeat r).1 := by
  rcases n.handleHeartbeat_cases r with ⟨-, heq⟩ | ⟨hge, m, hcore, ⟨err, heq⟩ | heq⟩
  · rw [heq]
    exact h
  · rw [heq]
    exact (h.noted hge hleader).of_core hcore
  · rw [heq]
    exact ((h.noted hge hleader).of_core hcore).advanceCommit _

theorem Lawful.handleAppendEntries (h : Lawful led accepted p n) {r : AppendEntriesRequest}
    (hleader : r.leaderId ≠ "" → (r.leaderId, r.term) ∈ led)
    (hcopy : ∀ a, (n.handleAppendEntries r).2 = .ok a → a.success = true → FromLeader r →
      ∃ l, (l, r.term) ∈ led ∧ accepted r.term l) : Lawful led accepted p (n.handleAppendEntries r).1 := by
  rcases n.handleAppendEntries_cases r with ⟨-, heq, -⟩ | ⟨hge, m, hcore, ⟨heq, -⟩ | ⟨-, -, heq⟩⟩
  · rw [heq]
    exact h
  · rw [heq]
    exact (h.noted hge hleader).of_core hcore
  · have hm := (h.noted hge hleader).of_core hcore
    have hterm : m.currentTerm = r.term :=
      (eq_of_core Node.currentTerm (fun _ => rfl) hcore).trans (noted_currentTerm n r.leaderId hge)
    have hstate : m.state = .follower := (eq_of_core Node.state (fun _ => rfl) hcore).trans (noted_state n r.leaderId)
    rw [heq] at hcopy ⊢
    rcases m.finishAppend_cases r with ⟨err, -, hfin⟩ | ⟨-, hfin, a, ha, hok, -⟩
    · rw [hfin]
      exact hm.congr rfl rfl rfl rfl rfl rfl
    · rw [hfin]
      generalize hlog : (spliceEntries m.lastSnapshotIndex m.log r.entries).log = log
      have hspliced : Lawful led accepted p { m with log } := hm.congr rfl rfl rfl rfl rfl rfl
      refine (hspliced.advanceCommit r.leaderCommit).dispatchForward ?_ ?_ (hcopy a ha hok)
      · rcases advanceCommit_cases { m with log } r.leaderCommit with ⟨hsame, -⟩ | ⟨-, hsame⟩ <;> rw [hsame]
        · exact hstate
        · exact hstate
      · rcases advanceCommit_cases { m with log } r.leaderCommit with ⟨hsame, -⟩ | ⟨-, hsame⟩ <;> rw [hsame]
        · exact hterm.symm
        · exact hterm.symm

theorem Lawful.handleInstallSnapshot (h : Lawful led accepted p n) (r : InstallSnapshotRequest) (complete : Bool)
    (keepFrom : Nat) : Lawful led accepted p (n.handleInstallSnapshot r complete keepFrom).1 := by
  rcases n.handleInstallSnapshot_cases r complete keepFrom with heq | ⟨m, hm, hres⟩
  · rw [heq]
    exact h
  have hlaw : Lawful led accepted p m := by
    rcases hm with rfl | ⟨term, hle, hcore⟩
    · exact h
    · exact (h.followed hle (by simp)).of_core hcore
  rcases hres with heq | heq
  · rw [heq]
    exact hlaw
  · rw [heq]
    unfold applyInstalledSnapshot
    dsimp only
    split
    · exact hlaw.congr rfl rfl rfl rfl rfl rfl
    · exact hlaw.congr rfl rfl rfl rfl rfl rfl

/-- A new leader, once it is on record. -/
theorem Lawful.lead (h : Lawful led accepted p n) (hled : led ⊆ led') (hwon : (p, n'.currentTerm) ∈ led')
    (hconfig : n'.config = n.config) (hstate : n'.state = .leader) (hleader : n'.leaderId = n'.selfId)
    (hforwards : n'.forwards = n.forwards) (hle : n.currentTerm ≤ n'.currentTerm) : Lawful led' accepted p n' := by
  have hid : n'.config.nodeId = p := by
    rw [hconfig]
    exact h.id
  constructor
  · exact hid
  · rw [hconfig]
    exact h.peers
  · exact fun _ => hwon
  · rw [hstate]
    exact fun hs => by cases hs
  · rw [hstate]
    exact fun hs => by cases hs
  · rw [hstate]
    exact fun hs => by cases hs
  · rw [hleader, selfId, hid]
    exact fun _ => .inl hwon
  · rw [hforwards]
    exact fun r hr => (h.copy_le r hr).trans hle
  · rw [hforwards]
    exact (h.mono hled fun _ _ ha => ha).copy

/-- An election that is not won. -/
theorem Lawful.concludes (h : Lawful led accepted p n) {e : Election} (hn' : n.Concludes e n')
    (hlost : ¬ (n.state = .candidate ∧ n'.state = .leader)) : Lawful led accepted p n' := by
  have hidle : Lawful led accepted p { n with election := none } := h.congr rfl rfl rfl rfl rfl rfl
  cases hn' with
  | idle => exact hidle
  | newer => exact hidle.stepDown _
  | failed hstate hcore =>
    have hfirst : n.firstTerm = n := if_neg (h.positive hstate)
    rw [hfirst] at hcore
    refine Lawful.of_core ?_ hcore
    exact { hidle with leader := fun _ => .inr hstate }
  | @won m _ hstate _ _ _ hcore =>
    refine absurd ⟨hstate, ?_⟩ hlost
    have hm : m.state = .leader := eq_of_core Node.state (fun _ => rfl) hcore
    rcases m.maybeCommit_cases with heq | ⟨k, -, -, -, -, -, heq⟩
    · rw [heq]
      exact hm
    · rw [heq]
      exact hm

/-- A process that is started again knows nothing of leaders. -/
theorem Lawful.restart_of (h : Lawful led accepted p n) (hconfig : n'.config = n.config) :
    Lawful led accepted p n'.restart where
  id := by
    rw [← h.id, ← hconfig]
    rfl
  peers := by
    have hpeers := h.peers
    rw [← hconfig] at hpeers
    exact hpeers
  leads := fun hs => by cases hs
  positive := fun hs => by cases hs
  vote := fun hs => by cases hs
  fresh := fun hs => by cases hs
  leader := fun hne => absurd rfl hne
  copy_le := fun r hr => by cases hr
  copy := fun r hr => by cases hr

theorem Lawful.becomeCandidate (h : Lawful led accepted p n) (e : Option Election) :
    Lawful led accepted p { n.becomeCandidate with election := e } where
  id := h.id
  peers := h.peers
  leads := fun hs => by cases hs
  positive := fun _ => Nat.succ_ne_zero _
  vote := fun _ => h.id
  fresh := fun _ r hr heq => by
    have hle := h.copy_le r hr
    rw [heq] at hle
    exact Nat.not_succ_le_self _ hle
  leader := fun hne => absurd rfl hne
  copy_le := fun r hr => (h.copy_le r hr).trans (Nat.le_succ _)
  copy := h.copy

theorem Lawful.saveSnapshot (h : Lawful led accepted p n) {keepFrom : Nat} (heq : n.saveSnapshot keepFrom = some n') :
    Lawful led accepted p n' := by
  unfold Node.saveSnapshot at heq
  split at heq
  · cases heq
  · split at heq
    · cases heq
      exact h.congr rfl rfl rfl rfl rfl rfl
    · cases heq
      exact h.congr rfl rfl rfl rfl rfl rfl

end Node

/-- What a call must keep for its acceptance to stand. -/
theorem Call.AcceptedIn.congr {call call' : Call} {T : Nat} (h : call.AcceptedIn T) (hrequest : call'.request = call.request)
    (hreply : call.reply ≠ none → call'.reply = call.reply) : call'.AcceptedIn T := by
  rcases h with ⟨caller, r, resp, hreq, hT, hresp, hok⟩ | ⟨caller, r, resp, hreq, hT, hresp, hok⟩
  · exact .inl ⟨caller, r, resp, hrequest.trans hreq, hT, (hreply (by simp [hresp])).trans hresp, hok⟩
  · exact .inr ⟨caller, r, resp, hrequest.trans hreq, hT, (hreply (by simp [hresp])).trans hresp, hok⟩

namespace Cluster

/-- The node has accepted a heartbeat or an `AppendEntries` of `l` in term `T`. -/
def Accepted (c : Cluster) (p : String) (T : Nat) (l : String) : Prop :=
  ∃ call ∈ c.calls, call.src = l ∧ call.dst = p ∧ call.AcceptedIn T

/-- A sender with the authority of the leader of the term: it has led the term, or it
forwards and has accepted a message of the leader. -/
def Authorized (c : Cluster) (p : String) (caller : AppendCaller) (T : Nat) : Prop :=
  (p, T) ∈ c.history.led ∨ (caller = .forward ∧ ∃ l, (l, T) ∈ c.history.led ∧ c.Accepted p T l)

/-- A forwarding thread runs while a request of the leader of the current term waits for one, be it
the thread's own or another, or on a leader, or it has nobody to forward to. -/
def ForwardsInTerm (c : Cluster) : Action → Prop
  | .forward p _ =>
    (∃ copy ∈ (c.nodes p).forwards, copy.term = (c.nodes p).currentTerm ∧ Node.FromLeader copy) ∨
      (c.nodes p).state = .leader ∨ (c.nodes p).topology.getFollowerOf (c.nodes p).selfId = none
  | _ => True

instance (c : Cluster) : (a : Action) → Decidable (c.ForwardsInTerm a)
  | .forward p _ => inferInstanceAs (Decidable ((∃ copy ∈ (c.nodes p).forwards, _ ∧ _) ∨ _))
  | .start _ | .startElection _ | .finishElection _ | .beginBroadcast _ | .finishBroadcast _ _ |
    .replicate _ _ | .checkMentor _ _ | .checkFollower _ _ _ | .deliver _ _ _ | .receive _ _ | .fail _ _ |
    .rebalance _ | .recoverWindows _ _ | .clientWrite _ _ | .propose _ _ | .apply _ _ | .saveSnapshot _ _ |
    .restart _ => isTrue trivial

/-- What a request claims about leaders is true. -/
def LawfulCall (c : Cluster) (call : Call) : Prop :=
  match call.request with
  | .vote r => r.candidateId = call.src ∧ call.dst ≠ call.src
  | .heartbeat _ r => r.leaderId = call.src ∧ (call.src, r.term) ∈ c.history.led
  | .append caller r => (r.leaderId ≠ "" → (r.leaderId, r.term) ∈ c.history.led) ∧
      (Node.FromLeader r → (call.src, r.term) ∈ c.history.led) ∧ c.Authorized call.src caller r.term
  | .install _ => True

structure AuthorityInv (c : Cluster) : Prop where
  node : ∀ p, (c.nodes p).Lawful c.history.led (c.Accepted p) p
  call : ∀ call ∈ c.calls, c.LawfulCall call
  unanswered : ∀ call ∈ c.calls, call.delivered = false → call.reply = none

variable {c : Cluster}

/-- Calls and leaders on record stay on record. -/
structure Extends (c c' : Cluster) : Prop where
  led : c.history.led ⊆ c'.history.led
  accepted : ∀ p T l, c.Accepted p T l → c'.Accepted p T l

theorem Extends.call {c' : Cluster} (h : Extends c c') {call call' : Call} (hlaw : c.LawfulCall call)
    (hsrc : call'.src = call.src) (hdst : call'.dst = call.dst) (hrequest : call'.request = call.request) :
    c'.LawfulCall call' := by
  unfold LawfulCall at hlaw ⊢
  rw [hrequest, hsrc, hdst]
  cases hreq : call.request with
  | vote r =>
    rw [hreq] at hlaw
    exact hlaw
  | heartbeat caller r =>
    rw [hreq] at hlaw
    exact ⟨hlaw.1, h.led hlaw.2⟩
  | append caller r =>
    rw [hreq] at hlaw
    obtain ⟨hleader, hfrom, hauth⟩ := hlaw
    refine ⟨fun hne => h.led (hleader hne), fun hf => h.led (hfrom hf), ?_⟩
    rcases hauth with hled | ⟨hcaller, l, hl, hacc⟩
    · exact .inl (h.led hled)
    · exact .inr ⟨hcaller, l, h.led hl, h.accepted _ _ _ hacc⟩
  | install r => trivial

/-- One node changes, and history may grow. -/
theorem AuthorityInv.advance (hI : AuthorityInv c) {p : String} {n' : Node} {h : History} (hled : c.history.led ⊆ h.led)
    (hn' : n'.Lawful h.led (c.Accepted p) p) : AuthorityInv ((c.put p n').record h) := by
  have hext : Extends c ((c.put p n').record h) := ⟨hled, fun _ _ _ hacc => hacc⟩
  constructor
  · intro q
    by_cases hq : q = p
    · rw [hq, record_nodes, put_self]
      exact hn'
    · rw [record_nodes, put_other c n' hq]
      exact (hI.node q).mono hled fun _ _ ha => ha
  · exact fun call hcall => hext.call (hI.call call hcall) rfl rfl rfl
  · exact hI.unanswered

theorem AuthorityInv.put (hI : AuthorityInv c) {p : String} {n' : Node}
    (hn' : n'.Lawful c.history.led (c.Accepted p) p) : AuthorityInv (c.put p n') :=
  hI.advance (h := c.history) (fun _ => id) hn'

theorem AuthorityInv.record (hI : AuthorityInv c) {h : History} (hled : h.led = c.history.led) :
    AuthorityInv (c.record h) := by
  have hsame := hI.advance (p := "") (h := h) (by rw [hled]; exact fun _ => id) (by rw [hled]; exact hI.node "")
  rwa [put_same] at hsame

/-- New calls, and calls that change only in what the caller waits for. -/
theorem AuthorityInv.send (hI : AuthorityInv c) {p : String} {messages : List (String × Request)}
    (h : ∀ m ∈ messages, c.LawfulCall { src := p, dst := m.1, request := m.2 }) : AuthorityInv (c.send p messages) := by
  have hext : Extends c (c.send p messages) := by
    refine ⟨fun _ => id, ?_⟩
    rintro q T l ⟨call, hcall, hrest⟩
    exact ⟨call, List.mem_append_left _ hcall, hrest⟩
  constructor
  · exact fun q => (hI.node q).mono hext.led (hext.accepted q)
  · intro call hcall
    rcases List.mem_append.mp hcall with hcall | hcall
    · exact hext.call (hI.call call hcall) rfl rfl rfl
    · obtain ⟨m, hm, rfl⟩ := List.mem_map.mp hcall
      exact hext.call (h m hm) rfl rfl rfl
  · intro call hcall hnew
    rcases List.mem_append.mp hcall with hcall | hcall
    · exact hI.unanswered call hcall hnew
    · obtain ⟨m, hm, rfl⟩ := List.mem_map.mp hcall
      rfl

theorem AuthorityInv.setCall (hI : AuthorityInv c) {i : Nat} {call call' : Call} (hcall : c.calls[i]? = some call)
    (hsrc : call'.src = call.src) (hdst : call'.dst = call.dst) (hrequest : call'.request = call.request)
    (hreply : call.reply ≠ none → call'.reply = call.reply) (hnew : call'.delivered = false → call'.reply = none) :
    AuthorityInv (c.setCall i call') := by
  obtain ⟨hlt, hget⟩ := List.getElem?_eq_some_iff.mp hcall
  have hext : Extends c (c.setCall i call') := by
    refine ⟨fun _ => id, ?_⟩
    rintro q T l ⟨x, hx, hxl, hxq, hacc⟩
    obtain ⟨j, hj⟩ := List.mem_iff_getElem?.mp hx
    by_cases hji : j = i
    · subst hji
      obtain rfl : call = x := Option.some.inj (hcall.symm.trans hj)
      refine ⟨call', List.mem_iff_getElem?.mpr ⟨j, ?_⟩, hsrc.trans hxl, hdst.trans hxq, hacc.congr hrequest hreply⟩
      simp [Cluster.setCall, hlt]
    · refine ⟨x, List.mem_iff_getElem?.mpr ⟨j, ?_⟩, hxl, hxq, hacc⟩
      simp [Cluster.setCall, List.getElem?_set_ne (Ne.symm hji), hj]
  constructor
  · exact fun q => (hI.node q).mono hext.led (hext.accepted q)
  · intro x hx
    rcases List.mem_or_eq_of_mem_set hx with hx | rfl
    · exact hext.call (hI.call x hx) rfl rfl rfl
    · exact hext.call (hI.call call (List.mem_of_getElem? hcall)) hsrc hdst hrequest
  · intro x hx
    rcases List.mem_or_eq_of_mem_set hx with hx | rfl
    · exact hI.unanswered x hx
    · exact hnew

theorem AuthorityInv.dropCalls (hI : AuthorityInv c) (p : String) : AuthorityInv (c.dropCalls p) := by
  have hext : Extends c (c.dropCalls p) := by
    refine ⟨fun _ => id, ?_⟩
    rintro q T l ⟨x, hx, hxl, hxq, hacc⟩
    refine ⟨_, List.mem_map_of_mem hx, ?_⟩
    split
    · exact ⟨hxl, hxq, hacc.congr rfl fun _ => rfl⟩
    · exact ⟨hxl, hxq, hacc⟩
  constructor
  · exact fun q => (hI.node q).mono hext.led (hext.accepted q)
  · intro x hx
    obtain ⟨y, hy, rfl⟩ := List.mem_map.mp hx
    split
    · exact hext.call (hI.call y hy) rfl rfl rfl
    · exact hext.call (hI.call y hy) rfl rfl rfl
  · intro x hx
    obtain ⟨y, hy, rfl⟩ := List.mem_map.mp hx
    split
    · exact hI.unanswered y hy
    · exact hI.unanswered y hy

/-- A leader's requests are lawful. -/
theorem AuthorityInv.sends (hI : AuthorityInv c) {p : String} {m : String × Request}
    (hstate : (c.nodes p).state = .leader) (h : (c.nodes p).Sends m) :
    c.LawfulCall { src := p, dst := m.1, request := m.2 } := by
  have hled := (hI.node p).leads hstate
  have hid : (c.nodes p).selfId = p := (hI.node p).id
  cases h with
  | heartbeat peer caller info => exact ⟨hid, hled⟩
  | @append peer caller r hpeer hcaller hr hleader hsender =>
    rw [← hr.term] at hled
    refine ⟨fun _ => ?_, fun _ => hled, .inl hled⟩
    rw [hleader, hid]
    exact hled
  | install hs => trivial

/-- The requests of a forwarding thread are lawful, if it still runs in the right term. -/
theorem AuthorityInv.forwards (hI : AuthorityInv c) {p : String} {i : Nat} {m : String × Request} (hmem : p ∈ c.members.ids)
    (hok : c.ForwardsInTerm (.forward p i)) (h : (c.nodes p).Forwards m)
    (hfollower : (c.nodes p).topology.getFollowerOf (c.nodes p).selfId ≠ none) :
    c.LawfulCall { src := p, dst := m.1, request := m.2 } := by
  have hlaw := hI.node p
  have hid : (c.nodes p).selfId = p := hlaw.id
  have hp : p ≠ "" := fun he => c.members.named (he ▸ hmem)
  cases h with
  | install hs => trivial
  | @append peer r hr hleader hsender =>
    have hcandidate : (c.nodes p).state ≠ .candidate := by
      intro hs
      rcases hok with ⟨copy, hcopy, hterm, -⟩ | hstate | hnone
      · exact hlaw.fresh hs copy hcopy hterm
      · rw [hs] at hstate
        cases hstate
      · exact hfollower hnone
    have hknown : (c.nodes p).leaderId ≠ "" → ((c.nodes p).leaderId, r.term) ∈ c.history.led := by
      rw [hr.term]
      exact fun hne => (hlaw.leader hne).resolve_right hcandidate
    refine ⟨by rw [hleader]; exact hknown, fun hfrom => ?_, ?_⟩
    · rcases hfrom with hsame | hempty
      · rw [hsender, hid, hleader] at hsame
        rw [← hsame] at hknown
        exact hknown hp
      · exact absurd ((hid.symm.trans hsender.symm).trans hempty) hp
    · rcases hok with ⟨copy, hcopy, hterm, hfrom⟩ | hstate | hnone
      · obtain ⟨l, hl, hacc⟩ := hlaw.copy copy hcopy hfrom
        rw [hterm, ← hr.term] at hl hacc
        exact .inr ⟨rfl, l, hl, hacc⟩
      · exact .inl (hr.term ▸ hlaw.leads hstate)
      · exact absurd hnone hfollower

theorem AuthorityInv.deliver (hI : AuthorityInv c) {i : Nat} {complete : Bool} {keepFrom : Nat} {call : Call}
    (hcall : c.calls[i]? = some call) (hnew : call.delivered = false) (hdst : call.dst ∈ c.members.ids) :
    AuthorityInv (((c.put call.dst ((c.nodes call.dst).handle complete keepFrom call.request).1).setCall i
            { call with
              delivered := true
              reply := ((c.nodes call.dst).handle complete keepFrom call.request).2
              wal := ((c.nodes call.dst).handle complete keepFrom call.request).1.log }).record
          (c.history.handled call.dst (c.nodes call.dst) call.request
            ((c.nodes call.dst).handle complete keepFrom call.request).2)) := by
  have hcall' := List.mem_of_getElem? hcall
  have hreply := hI.unanswered call hcall' hnew
  have hlaw := hI.call call hcall'
  have hp : call.dst ≠ "" := fun he => c.members.named (he ▸ hdst)
  generalize hx : ({ call with
      delivered := true
      reply := ((c.nodes call.dst).handle complete keepFrom call.request).2
      wal := ((c.nodes call.dst).handle complete keepFrom call.request).1.log } : Call) = call'
  have hsrc' : call'.src = call.src := by rw [← hx]
  have hdst' : call'.dst = call.dst := by rw [← hx]
  have hrequest' : call'.request = call.request := by rw [← hx]
  have hreply' : call'.reply = ((c.nodes call.dst).handle complete keepFrom call.request).2 := by rw [← hx]
  have hset : AuthorityInv (c.setCall i call') := by
    refine hI.setCall hcall hsrc' hdst' hrequest' (fun hne => absurd hreply hne) ?_
    rw [← hx]
    exact fun h => by cases h
  refine hset.advance (by rw [History.led_handled]; exact fun _ => id) ?_
  rw [History.led_handled]
  have hnode := hset.node call.dst
  have hmem : call' ∈ (c.setCall i call').calls := by
    obtain ⟨hlt, -⟩ := List.getElem?_eq_some_iff.mp hcall
    exact List.mem_iff_getElem?.mpr ⟨i, by simp [Cluster.setCall, hlt]⟩
  unfold LawfulCall at hlaw
  cases hreq : call.request with
  | vote r =>
    rw [hreq] at hlaw
    refine hnode.handleRequestVote ?_ hp
    rw [hlaw.1]
    exact Ne.symm hlaw.2
  | heartbeat caller r =>
    rw [hreq] at hlaw
    refine hnode.handleHeartbeat fun _ => ?_
    rw [hlaw.1]
    exact hlaw.2
  | append caller r =>
    rw [hreq] at hlaw hrequest' hreply'
    refine hnode.handleAppendEntries hlaw.1 fun a ha hok hfrom => ⟨call.src, hlaw.2.1 hfrom, call', hmem, hsrc', hdst', ?_⟩
    refine .inr ⟨caller, r, a, hrequest', rfl, ?_, hok⟩
    rw [setCall_nodes] at ha
    rw [hreply']
    simp only [Node.handle]
    rw [ha]
    rfl
  | install r => exact hnode.handleInstallSnapshot r complete keepFrom

/-- A node becomes leader and is recorded as such. -/
theorem AuthorityInv.lead (hI : AuthorityInv c) {p : String} {m m₀ : Node} {h : History}
    (hled : h.led = c.history.led) (hm₀ : m.core = m₀.core) (hconfig : m₀.config = (c.nodes p).config)
    (hstate : m₀.state = .leader) (hleader : m₀.leaderId = m₀.selfId) (hforwards : m₀.forwards = (c.nodes p).forwards)
    (hle : (c.nodes p).currentTerm ≤ m₀.currentTerm) :
    AuthorityInv ((c.put p m.maybeCommit).record ((h.lead p m).commit p m m.maybeCommit)) := by
  have hterm : m.currentTerm = m₀.currentTerm := Node.eq_of_core Node.currentTerm (fun _ => rfl) hm₀
  have hrecord : ((h.lead p m).commit p m m.maybeCommit).led = (p, m₀.currentTerm) :: c.history.led := by
    rw [History.led_commit, ← hled, ← hterm]
    rfl
  refine hI.advance ?_ ?_
  · rw [hrecord]
    exact List.subset_cons_self _ _
  · rw [hrecord]
    have hlead : m₀.Lawful ((p, m₀.currentTerm) :: c.history.led) (c.Accepted p) p :=
      (hI.node p).lead (List.subset_cons_self _ _) List.mem_cons_self hconfig hstate hleader hforwards hle
    exact (hlead.of_core hm₀).maybeCommit

/-- Every step whose forwarding threads run in their term preserves the invariant. -/
theorem AuthorityInv.step (hI : AuthorityInv c) {codec : CommandCodec} {a : Action} {c' : Cluster}
    (hok : c.ForwardsInTerm a) (h : c.step codec a = some c') : AuthorityInv c' := by
  have hfirst := fun p => (c.nodes p).firstTerm_spec
  cases moves_of_step h with
  | work hcore hmatch hsends =>
    refine AuthorityInv.send (hI.put ((hI.node _).of_core hcore)) fun m hm => ?_
    exact hI.sends (hsends m hm).2.1 ((hsends m hm).2.2 (hI.node _).id)
  | @forward p i copy n' messages hmem hcopy hcore hmatch hsends =>
    have herase : Node.Lawful c.history.led (c.Accepted p) p
        { c.nodes p with forwards := (c.nodes p).forwards.eraseIdx i } :=
      { hI.node p with
        fresh := fun hs r hr => (hI.node p).fresh hs r (List.mem_of_mem_eraseIdx hr)
        copy_le := fun r hr => (hI.node p).copy_le r (List.mem_of_mem_eraseIdx hr)
        copy := fun r hr => (hI.node p).copy r (List.mem_of_mem_eraseIdx hr) }
    refine AuthorityInv.send (hI.put (herase.of_core hcore)) fun m hm => ?_
    exact hI.forwards hmem hok (hsends m hm).1 (hsends m hm).2
  | fall hle hcore hmatch => exact hI.put (((hI.node _).followed hle (by simp)).of_core hcore)
  | @stand p n' hmem hstate helection hn' =>
    have hlaw : n'.Lawful c.history.led (c.Accepted p) p := by
      rw [hn']
      exact (hI.node p).becomeCandidate _
    refine AuthorityInv.record (AuthorityInv.send (hI.put hlaw) fun m hm => ?_) rfl
    obtain ⟨peer, hpeer, rfl⟩ := List.mem_map.mp hm
    refine ⟨hlaw.id, fun heq => hlaw.peers ?_⟩
    rw [← show peer = p from heq]
    exact hpeer
  | lose he hn' hlost => exact hI.put ((hI.node _).concludes hn' hlost)
  | win he hstate hterm hquorum hlog hcore hmatch =>
    exact hI.lead rfl hcore (hfirst _).1 rfl rfl (hfirst _).2.2.1 (hfirst _).2.2.2.1
  | boot hmem hpeers hstate hlog hcore hmatch =>
    refine hI.lead ?_ hcore (hfirst _).1 rfl rfl (hfirst _).2.2.1 (hfirst _).2.2.2.1
    split <;> rfl
  | @crash p m hmem hpeers hcore =>
    refine AuthorityInv.record ((hI.put ?_).dropCalls _) (by split <;> rfl)
    refine Node.Lawful.restart_of (hI.node p) ?_
    exact (Node.eq_of_core Node.config (fun _ => rfl) hcore).trans (hfirst p).1
  | deliver hcall hnew hdst => exact hI.deliver hcall hnew hdst
  | @answer _ i call _ _ n' hcall hwaiting ha hn' =>
    have hset : AuthorityInv (c.setCall i { call with waiting := false }) :=
      hI.setCall hcall rfl rfl rfl (fun _ => rfl) (hI.unanswered call (List.mem_of_getElem? hcall))
    exact AuthorityInv.record (hset.put ((hset.node call.src).answers hn')) (by simp)
  | propose hwrite hstate hlog hcore hprogress =>
    refine AuthorityInv.record (hI.put (Node.Lawful.of_core ?_ hcore)) (by simp [History.write])
    exact (hI.node _).congr rfl rfl rfl rfl rfl rfl
  | apply hlt hread htask hcore hprogress =>
    refine AuthorityInv.record (hI.put (Node.Lawful.of_core ?_ hcore)) rfl
    exact (hI.node _).congr rfl rfl rfl rfl rfl rfl
  | saveSnapshot hn' => exact hI.put ((hI.node _).saveSnapshot hn')
  | restart hmem => exact (hI.put ((hI.node _).restart_of rfl)).dropCalls _

theorem AuthorityInv.init (members : Members) (config : String → Config) : AuthorityInv (init members config) where
  node p :=
    { id := rfl
      peers := fun hp => (mem_normalizePeers.mp hp).2.2 rfl
      leads := fun hs => by cases hs
      positive := fun hs => by cases hs
      vote := fun hs => by cases hs
      fresh := fun hs => by cases hs
      leader := fun hne => absurd rfl hne
      copy_le := fun r hr => by cases hr
      copy := fun r hr => by cases hr }
  call call hcall := by cases hcall
  unanswered call hcall := by cases hcall

/-- Authority of replication messages: if the forwarding threads run in the term they were
started in, every `AppendEntries` comes from a leader of its term or is forwarded by a
node that has accepted a message of that leader. -/
theorem append_authorized_of_forwardsInTerm (codec : CommandCodec) (members : Members) (config : String → Config)
    (schedule : List Action) (c : Cluster)
    (h : Transition.run (Transition.restrict ForwardsInTerm (step codec)) (init members config) schedule = some c)
    (call : Call) (hcall : call ∈ c.calls) (caller : AppendCaller) (r : AppendEntriesRequest)
    (hr : call.request = .append caller r) : c.Authorized call.src caller r.term := by
  have hI : AuthorityInv c := by
    refine Transition.run_invariant AuthorityInv (fun s a t hs hstep => ?_) (AuthorityInv.init members config) h
    obtain ⟨hok, hstep⟩ := Transition.restrict_eq_some.mp hstep
    exact hs.step hok hstep
  have hlaw := hI.call call hcall
  unfold LawfulCall at hlaw
  rw [hr] at hlaw
  exact hlaw.2.2

/-- The thread runs at once. -/
theorem append_authorized_of_prompt_forward : ∃ c call r,
    Transition.run (Transition.restrict ForwardsInTerm (step sampleCodec)) (init threeNodes (plainConfig 64))
      (mentorServed ++ [.forward "B" 0]) = some c ∧ c.calls[4]? = some call ∧ call.src = "B" ∧
      call.request = .append .forward r ∧ r.term = 1 ∧ c.Authorized call.src .forward r.term := by
  obtain ⟨c, hc, hcalls⟩ := Option.map_eq_some_iff.mp (show
    (Transition.run (Transition.restrict ForwardsInTerm (step sampleCodec)) (init threeNodes (plainConfig 64))
      (mentorServed ++ [.forward "B" 0])).map (fun c => c.calls[4]?.map fun call => (call.src, call.request)) =
      some (some ("B", .append .forward
        { term := 1
          leaderId := "A"
          prevLogIndex := 1
          prevLogTerm := 1
          entries := []
          leaderCommit := 0
          senderId := "B"
          topology := { role := "follower", sourceNodeId := "B", followerNodeId := "" } })) by decide +kernel)
  obtain ⟨call, hcall, hfields⟩ := Option.map_eq_some_iff.mp hcalls
  obtain ⟨hsrc, hrequest⟩ := Prod.mk.injEq .. ▸ hfields
  refine ⟨c, call, _, hc, hcall, hsrc, hrequest, rfl, ?_⟩
  exact append_authorized_of_forwardsInTerm sampleCodec threeNodes (plainConfig 64) _ c hc call
    (List.mem_of_getElem? hcall) _ _ hrequest

/-- Before the thread of `B` runs, `B` hears of term 2 from the candidate `C`. Nobody has
led that term, and `B` sends `AppendEntries` in it. -/
theorem append_unauthorized_after_vote_request : ∃ c call r,
    run sampleCodec threeNodes (plainConfig 64)
      (mentorServed ++ [.startElection "C", .fail 4 false, .fail 5 false, .finishElection "C", .startElection "C",
        .deliver 7 true 0, .forward "B" 0]) = some c ∧ call ∈ c.calls ∧ call.request = .append .forward r ∧
      ¬ c.Authorized call.src .forward r.term := by
  obtain ⟨c, hc, hfields⟩ := Option.map_eq_some_iff.mp (show
    (run sampleCodec threeNodes (plainConfig 64)
      (mentorServed ++ [.startElection "C", .fail 4 false, .fail 5 false, .finishElection "C", .startElection "C",
        .deliver 7 true 0, .forward "B" 0])).map
      (fun c => (c.history.led, c.calls[8]?.map fun call => call.request)) =
      some ([("A", 1)], some (.append .forward
        { term := 2
          leaderId := ""
          prevLogIndex := 1
          prevLogTerm := 1
          entries := []
          leaderCommit := 0
          senderId := "B"
          topology := { role := "follower", sourceNodeId := "B", followerNodeId := "" } })) by decide +kernel)
  obtain ⟨hled, hcalls⟩ := Prod.mk.injEq .. ▸ hfields
  obtain ⟨call, hcall, hrequest⟩ := Option.map_eq_some_iff.mp hcalls
  refine ⟨c, call, _, hc, List.mem_of_getElem? hcall, hrequest, ?_⟩
  unfold Authorized
  rw [hled]
  simp

end Cluster

end RaftVdb
