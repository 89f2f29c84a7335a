import RaftVdb.Rounds

/-!
# The leader lease

The cluster with one clock that all nodes read. A step draws a new election timeout where
the code calls `ResetElectionDeadlineLocked`, and touches the lease where it calls `Renew`
or `Invalidate`. `begun` records when each heartbeat round was started and is read by no
step.
-/

namespace RaftVdb

open Lib

/-- The settings of `RaftConfig` that elections and leases read, in milliseconds. -/
structure RaftConfig where
  heartbeatIntervalMs : Nat := 150
  electionTimeoutMinMs : Nat := 300
  electionTimeoutMaxMs : Nat := 600
  clockDriftBoundMs : Nat := 50
  leaseDurationMs : Nat := 250
  deriving DecidableEq, Repr

def validateLeaseConfig (cfg : RaftConfig) : Except String Unit :=
  if cfg.heartbeatIntervalMs = 0 then .error "raft.heartbeat_interval_ms 必须大于 0"
  else if cfg.electionTimeoutMinMs = 0 then .error "raft.election_timeout_min_ms 必须大于 0"
  else if cfg.electionTimeoutMaxMs < cfg.electionTimeoutMinMs then
    .error "raft.election_timeout_max_ms 不能小于 raft.election_timeout_min_ms"
  else if cfg.heartbeatIntervalMs ≥ cfg.electionTimeoutMinMs then
    .error "raft.heartbeat_interval_ms 必须小于 raft.election_timeout_min_ms"
  else if cfg.clockDriftBoundMs ≥ cfg.electionTimeoutMinMs then
    .error "raft.clock_drift_bound_ms 必须小于 raft.election_timeout_min_ms"
  else if cfg.leaseDurationMs ≠ cfg.electionTimeoutMinMs - cfg.clockDriftBoundMs then
    .error "raft.lease_duration_ms 必须等于 election_timeout_min_ms - clock_drift_bound_ms"
  else .ok ()

theorem validateLeaseConfig_ok {cfg : RaftConfig} (h : validateLeaseConfig cfg = .ok ()) :
    cfg.leaseDurationMs + cfg.clockDriftBoundMs = cfg.electionTimeoutMinMs := by
  unfold validateLeaseConfig at h
  split at h
  · cases h
  split at h
  · cases h
  split at h
  · cases h
  split at h
  · cases h
  split at h
  · cases h
  split at h
  · cases h
  omega

/-- `expire_time_`, where 0 stands for `time_point::min()`. -/
structure LeaseManager where
  expireTime : Nat := 0
  deriving DecidableEq, Repr

namespace LeaseManager

def invalidate (_ : LeaseManager) : LeaseManager := {}

def renew (l : LeaseManager) (now duration : Nat) : LeaseManager :=
  if duration = 0 then l.invalidate else { expireTime := now + duration }

def isValid (l : LeaseManager) (now : Nat) : Bool := now < l.expireTime

end LeaseManager

inductive LeaseCall where
  | renew
  | invalidate
  deriving DecidableEq, Repr

/-- What a step does to the clocks of the node that takes it. -/
structure Effect where
  /-- `ResetElectionDeadlineLocked` is called. -/
  resets : Bool := false
  lease : Option LeaseCall := none
  deriving DecidableEq, Repr

/-- The effect of `BecomeFollower`, of `BecomeCandidate` and of a new process. -/
def Effect.fresh : Effect := { resets := true, lease := some .invalidate }

namespace Node

/-- `BecomeFollower`, which refuses a smaller term. -/
def followEffect (n : Node) (term : Nat) : Effect := if term < n.currentTerm then {} else .fresh

/-- The start of `HandleHeartbeat` and of `HandleAppendEntries`. -/
def noteEffect (n : Node) (term : Nat) : Effect :=
  if term < n.currentTerm then {}
  else if term > n.currentTerm ∨ n.state ≠ .follower then .fresh
  else { resets := true }

/-- The request is a vote request that the node grants. -/
def grants (n : Node) : Request → Bool
  | .vote r => match (n.handleRequestVote r).2 with
    | .ok resp => resp.voteGranted
    | .error _ => false
  | _ => false

def handleEffect (n : Node) : Request → Effect
  | .vote r => if r.term > n.currentTerm then .fresh else { resets := n.grants (.vote r) }
  | .heartbeat _ r => n.noteEffect r.term
  | .append _ r => n.noteEffect r.term
  | .install r =>
    let leaderTerm := if r.leaderTerm = 0 then r.snapshot.raftTerm else r.leaderTerm
    if leaderTerm > n.currentTerm ∨ n.state ≠ .follower then n.followEffect leaderTerm else {}

/-- The callbacks that call `BecomeFollower` at once. -/
def responseEffect (n : Node) : Request → Option Response → Effect
  | .append .replicate _, some (.append resp) => if resp.term > n.currentTerm then .fresh else {}
  | .append .forward _, some (.append resp) => if resp.term > n.currentTerm then .fresh else {}
  | .install _, some (.install resp) => if resp.term > n.currentTerm then .fresh else {}
  | _, _ => {}

def finishElectionEffect (n : Node) (e : Election) : Effect :=
  if e.highestTerm > e.term then n.followEffect e.highestTerm
  else if n.state = .candidate ∧ (n.finishElection e).state = .leader then { lease := some .invalidate }
  else {}

def finishBroadcastEffect (n : Node) (b : HeartbeatRound) : Effect :=
  if b.highestTerm > b.term then n.followEffect b.highestTerm
  else if b.successCount ≥ quorumSize n.config.peers then { lease := some .renew }
  else {}

/-- `Start()` renews the lease of a new leader; if it fails the process is started again. -/
def startEffect (n : Node) : Effect :=
  match n.becomeLeader.2 with
  | .error _ => .fresh
  | .ok _ => { lease := some .renew }

variable (n : Node)

theorem followEffect_lease (term : Nat) : (n.followEffect term).lease ≠ some .renew := by
  unfold followEffect
  split <;> decide

theorem noteEffect_lease (term : Nat) : (n.noteEffect term).lease ≠ some .renew := by
  unfold noteEffect
  split
  · decide
  split <;> decide

theorem handleEffect_lease (request : Request) : (n.handleEffect request).lease ≠ some .renew := by
  cases request with
  | vote r =>
    simp only [handleEffect]
    split
    · decide
    · exact fun h => by cases h
  | heartbeat caller r => exact n.noteEffect_lease r.term
  | append caller r => exact n.noteEffect_lease r.term
  | install r =>
    simp only [handleEffect]
    generalize (if r.leaderTerm = 0 then r.snapshot.raftTerm else r.leaderTerm) = term
    split
    · exact n.followEffect_lease _
    · decide

theorem responseEffect_lease (request : Request) (reply : Option Response) :
    (n.responseEffect request reply).lease ≠ some .renew := by
  unfold responseEffect
  split
  · split <;> decide
  · split <;> decide
  · split <;> decide
  · decide

theorem finishElectionEffect_lease (e : Election) : (n.finishElectionEffect e).lease ≠ some .renew := by
  unfold finishElectionEffect
  split
  · exact n.followEffect_lease _
  split <;> decide

end Node

/-- The node whose clocks a step may touch, and how. -/
def Cluster.effect (c : Cluster) : Action → Option (String × Effect)
  | .start p => some (p, (c.nodes p).startEffect)
  | .startElection p => some (p, .fresh)
  | .finishElection p => (c.nodes p).election.map fun e => (p, (c.nodes p).finishElectionEffect e)
  | .finishBroadcast p round =>
    ((c.nodes p).rounds.find? round).map fun b => (p, (c.nodes p).finishBroadcastEffect b)
  | .deliver i _ _ => c.calls[i]?.map fun call => (call.dst, (c.nodes call.dst).handleEffect call.request)
  | .receive i _ => c.calls[i]?.map fun call => (call.src, (c.nodes call.src).responseEffect call.request call.reply)
  | .restart p => some (p, .fresh)
  | _ => none

namespace Cluster

variable {codec : CommandCodec} {c c' : Cluster}

/-- Only `Start()` and a heartbeat round renew a lease. -/
theorem effect_renew {a : Action} {p : String} {e : Effect} (h : c.effect a = some (p, e)) (hrenew : e.lease = some .renew) :
    a = .start p ∨ ∃ round b, a = .finishBroadcast p round ∧ (c.nodes p).rounds.find? round = some b ∧
      e = (c.nodes p).finishBroadcastEffect b := by
  cases a with
  | start q =>
    cases h
    exact .inl rfl
  | startElection q =>
    cases h
    cases hrenew
  | finishElection q =>
    obtain ⟨x, -, hx⟩ := Option.map_eq_some_iff.mp h
    cases hx
    exact absurd hrenew (Node.finishElectionEffect_lease _ x)
  | finishBroadcast q round =>
    obtain ⟨b, hb, hx⟩ := Option.map_eq_some_iff.mp h
    cases hx
    exact .inr ⟨round, b, rfl, hb, rfl⟩
  | deliver i complete keepFrom =>
    obtain ⟨call, -, hx⟩ := Option.map_eq_some_iff.mp h
    cases hx
    exact absurd hrenew (Node.handleEffect_lease _ call.request)
  | receive i overloaded =>
    obtain ⟨call, -, hx⟩ := Option.map_eq_some_iff.mp h
    cases hx
    exact absurd hrenew (Node.responseEffect_lease _ call.request call.reply)
  | restart q =>
    cases h
    cases hrenew
  | _ => cases h

/-- A new answer comes from the handler that ran in this step. -/
theorem reply_of_step {a : Action} (hs : step codec c a = some c') {call' : Call} (hcall' : call' ∈ c'.calls)
    {resp : Response} (hresp : call'.reply = some resp) :
    (∃ call ∈ c.calls, call'.key = call.key ∧ call.reply = some resp) ∨
    ∃ i complete keepFrom, a = .deliver i complete keepFrom ∧ ∃ call, c.calls[i]? = some call ∧ call'.key = call.key ∧
      c'.nodes call.dst = ((c.nodes call.dst).handle complete keepFrom call.request).1 ∧
      ((c.nodes call.dst).handle complete keepFrom call.request).2 = some resp := by
  have hsend : ∀ {p : String} {messages : List (String × Request)},
      call' ∈ c.calls ++ messages.map (fun m => ({ src := p, dst := m.1, request := m.2 } : Call)) →
      ∃ call ∈ c.calls, call'.key = call.key ∧ call.reply = some resp := by
    intro p messages hmem
    rcases List.mem_append.mp hmem with hmem | hmem
    · exact ⟨call', hmem, rfl, hresp⟩
    · obtain ⟨m, -, rfl⟩ := List.mem_map.mp hmem
      cases hresp
  have hdrop : ∀ {p : String}, call' ∈ c.calls.map (fun call => if call.src = p then { call with waiting := false } else call) →
      ∃ call ∈ c.calls, call'.key = call.key ∧ call.reply = some resp := by
    intro p hmem
    obtain ⟨call, hcall, rfl⟩ := List.mem_map.mp hmem
    by_cases hsrc : call.src = p
    · rw [if_pos hsrc] at hresp ⊢
      exact ⟨call, hcall, rfl, hresp⟩
    · rw [if_neg hsrc] at hresp ⊢
      exact ⟨call, hcall, rfl, hresp⟩
  have hmoves := moves_of_step hs
  cases hmoves with
  | work => exact .inl (hsend hcall')
  | forward => exact .inl (hsend hcall')
  | fall => exact .inl ⟨call', hcall', rfl, hresp⟩
  | stand => exact .inl (hsend hcall')
  | lose => exact .inl ⟨call', hcall', rfl, hresp⟩
  | win => exact .inl ⟨call', hcall', rfl, hresp⟩
  | boot => exact .inl ⟨call', hcall', rfl, hresp⟩
  | crash => exact .inl (hdrop hcall')
  | @deliver i complete keepFrom call hcall =>
    rcases List.mem_or_eq_of_mem_set hcall' with hmem | rfl
    · exact .inl ⟨call', hmem, rfl, hresp⟩
    · refine .inr ⟨i, complete, keepFrom, rfl, call, hcall, rfl, ?_, hresp⟩
      simp only [record_nodes, setCall_nodes, put_self]
  | @answer a i call overloaded reply n' hcall =>
    rcases List.mem_or_eq_of_mem_set hcall' with hmem | rfl
    · exact .inl ⟨call', hmem, rfl, hresp⟩
    · exact .inl ⟨call, List.mem_of_getElem? hcall, rfl, hresp⟩
  | propose => exact .inl ⟨call', hcall', rfl, hresp⟩
  | apply => exact .inl ⟨call', hcall', rfl, hresp⟩
  | saveSnapshot => exact .inl ⟨call', hcall', rfl, hresp⟩
  | restart => exact .inl (hdrop hcall')

/-- A new vote is that of a candidate, of a node without peers, or a granted request. -/
theorem votes_of_step {a : Action} (hs : step codec c a = some c') {x : Vote} (hx : x ∈ c'.history.votes) :
    x ∈ c.history.votes ∨ a = .startElection x.voter ∨ (c.nodes x.voter).config.peers = [] ∨
    ∃ i complete keepFrom, a = .deliver i complete keepFrom ∧ ∃ call, c.calls[i]? = some call ∧ call.dst = x.voter ∧
      (c.nodes call.dst).grants call.request = true := by
  have hmoves := moves_of_step hs
  cases hmoves with
  | work => exact .inl hx
  | forward => exact .inl hx
  | fall => exact .inl hx
  | stand =>
    rcases List.mem_cons.mp hx with rfl | hx
    · exact .inr (.inl rfl)
    · exact .inl hx
  | lose => exact .inl hx
  | win =>
    rw [record_history, History.votes_commit] at hx
    exact .inl hx
  | boot _ hpeers =>
    rw [record_history, History.votes_commit] at hx
    simp only [History.lead, History.write] at hx
    split at hx
    · rcases List.mem_cons.mp hx with rfl | hx
      · exact .inr (.inr (.inl hpeers))
      · exact .inl hx
    · exact .inl hx
  | crash _ hpeers =>
    simp only [record_history] at hx
    split at hx
    · rcases List.mem_cons.mp hx with rfl | hx
      · exact .inr (.inr (.inl hpeers))
      · exact .inl hx
    · exact .inl hx
  | @deliver i complete keepFrom call hcall =>
    cases hrequest : call.request with
    | vote r =>
      simp only [record_history, hrequest, Node.handle] at hx
      cases hresp : ((c.nodes call.dst).handleRequestVote r).2 with
      | error err =>
        rw [hresp] at hx
        exact .inl hx
      | ok resp =>
        simp only [hresp, Except.toOption, Option.map_some, History.handled] at hx
        split at hx
        · next hgrant =>
          rcases List.mem_cons.mp hx with rfl | hx
          · refine .inr (.inr (.inr ⟨i, complete, keepFrom, rfl, call, hcall, rfl, ?_⟩))
            simp only [hrequest, Node.grants, hresp]
            exact hgrant
          · exact .inl hx
        · exact .inl hx
    | heartbeat caller r =>
      rw [record_history, hrequest] at hx
      exact .inl hx
    | append caller r =>
      rw [record_history, hrequest] at hx
      exact .inl hx
    | install r =>
      rw [record_history, hrequest] at hx
      exact .inl hx
  | answer =>
    rw [record_history, History.votes_commit] at hx
    exact .inl hx
  | propose =>
    rw [record_history, History.votes_commit] at hx
    exact .inl hx
  | apply => exact .inl hx
  | saveSnapshot => exact .inl hx
  | restart => exact .inl hx

end Cluster

structure NodeClock where
  lease : LeaseManager := {}
  lastLeaderContact : Nat := 0
  electionDeadline : Nat
  deriving DecidableEq, Repr

def NodeClock.apply (k : NodeClock) (raft : RaftConfig) (now timeout : Nat) (e : Effect) : NodeClock where
  lease := match e.lease with
    | none => k.lease
    | some .renew => k.lease.renew now raft.leaseDurationMs
    | some .invalidate => k.lease.invalidate
  lastLeaderContact := if e.resets then now else k.lastLeaderContact
  electionDeadline := if e.resets then now + timeout else k.electionDeadline

structure Timed where
  cluster : Cluster
  now : Nat := 0
  clocks : String → NodeClock
  begun : Nat → Nat := fun _ => 0

namespace Timed

inductive Event where
  | tick (ms : Nat)
  /-- An action, with what `RandomElectionTimeout` returns in it. -/
  | act (a : Action) (timeout : Nat)

def init (members : Members) (config : String → Config) (timeouts : String → Nat) : Timed where
  cluster := Cluster.init members config
  clocks := fun p => { electionDeadline := timeouts p }

/-- `ElectionLoop` waits for the deadline. -/
def Allows (t : Timed) : Action → Prop
  | .startElection p => (t.clocks p).electionDeadline ≤ t.now
  | _ => True

instance (t : Timed) : (a : Action) → Decidable (t.Allows a)
  | .startElection p => inferInstanceAs (Decidable ((t.clocks p).electionDeadline ≤ t.now))
  | .start _ | .finishElection _ | .beginBroadcast _ | .finishBroadcast _ _ | .replicate _ _ | .forward _ _ |
    .checkMentor _ _ | .checkFollower _ _ _ | .deliver _ _ _ | .receive _ _ | .fail _ _ | .rebalance _ |
    .recoverWindows _ _ | .clientWrite _ _ | .propose _ _ | .apply _ _ | .saveSnapshot _ _ | .restart _ => isTrue trivial

/-- `RandomElectionTimeout` may return this. -/
def IsTimeout (raft : RaftConfig) (timeout : Nat) : Prop :=
  raft.electionTimeoutMinMs ≤ timeout ∧ timeout ≤ raft.electionTimeoutMaxMs

instance (raft : RaftConfig) (timeout : Nat) : Decidable (IsTimeout raft timeout) := inferInstanceAs (Decidable (_ ∧ _))

def clocksAfter (t : Timed) (raft : RaftConfig) (timeout : Nat) (a : Action) : String → NodeClock :=
  match t.cluster.effect a with
  | none => t.clocks
  | some (p, e) => Function.update t.clocks p ((t.clocks p).apply raft t.now timeout e)

def begunAfter (t : Timed) : Action → Nat → Nat
  | .beginBroadcast _ => Function.update t.begun t.cluster.calls.length t.now
  | _ => t.begun

def after (t : Timed) (raft : RaftConfig) (timeout : Nat) (a : Action) (cluster : Cluster) : Timed :=
  { t with cluster, clocks := t.clocksAfter raft timeout a, begun := t.begunAfter a }

def step (codec : CommandCodec) (raft : RaftConfig) (t : Timed) : Event → Option Timed
  | .tick ms => some { t with now := t.now + ms }
  | .act a timeout =>
    if t.Allows a ∧ IsTimeout raft timeout then (t.cluster.step codec a).map (t.after raft timeout a) else none

/-- A node grants a vote only when its last contact is the shortest election timeout ago, and a
round that renews the lease ends within the drift bound. -/
def Careful (raft : RaftConfig) (t : Timed) : Event → Prop
  | .act (.deliver i _ _) _ => ∀ call ∈ t.cluster.calls[i]?, (t.cluster.nodes call.dst).grants call.request = true →
      (t.clocks call.dst).lastLeaderContact + raft.electionTimeoutMinMs ≤ t.now
  | .act (.finishBroadcast p round) _ => ∀ b ∈ (t.cluster.nodes p).rounds.find? round,
      ((t.cluster.nodes p).finishBroadcastEffect b).lease = some .renew →
        t.now ≤ t.begun round + raft.clockDriftBoundMs
  | _ => True

instance (raft : RaftConfig) (t : Timed) (ev : Event) : Decidable (Careful raft t ev) := by
  unfold Careful
  split <;> infer_instance

variable {codec : CommandCodec} {raft : RaftConfig} {t t' : Timed}

/-- Until the shortest election timeout is over, counted from `start`, the node votes in no
term above `T`. -/
structure Withholds (raft : RaftConfig) (t : Timed) (v : String) (T start : Nat) : Prop where
  start_le : start ≤ t.now
  peers : normalizePeers v t.cluster.members.ids ≠ []
  contact : t.now < start + raft.electionTimeoutMinMs → start ≤ (t.clocks v).lastLeaderContact
  vote : t.now < start + raft.electionTimeoutMinMs → ∀ x ∈ t.cluster.history.votes, x.voter = v → x.term ≤ T

structure Inv (raft : RaftConfig) (t : Timed) : Prop where
  configured : t.cluster.Configured
  ballot : Cluster.BallotInv t.cluster
  round : Cluster.RoundInv t.cluster
  deadline : ∀ v, (t.clocks v).lastLeaderContact + raft.electionTimeoutMinMs ≤ (t.clocks v).electionDeadline
  begun : ∀ k, t.begun k ≤ t.now
  ack : ∀ call ∈ t.cluster.calls, ∀ k r a, call.request = .heartbeat (.broadcast k) r →
    call.reply = some (.heartbeat a) → a.success = true → Withholds raft t call.dst r.term (t.begun k)
  lease : ∀ p, 0 < (t.clocks p).lease.expireTime → p ∈ t.cluster.members.ids ∧
    (normalizePeers p t.cluster.members.ids ≠ [] → ∃ T start, T ≤ (t.cluster.nodes p).currentTerm ∧
      (t.clocks p).lease.expireTime ≤ start + raft.electionTimeoutMinMs ∧
      IsMajority t.cluster.members.ids fun v => v = p ∨ Withholds raft t v T start)

/-- A valid lease and a newer leader exclude each other. -/
theorem Inv.exclusive (h : Inv raft t) {p q : String} {T : Nat} (hlease : (t.clocks p).lease.isValid t.now = true)
    (hq : (q, T) ∈ t.cluster.history.led) (hne : q ≠ p) : T ≤ (t.cluster.nodes p).currentTerm := by
  have hnow : t.now < (t.clocks p).lease.expireTime := of_decide_eq_true hlease
  obtain ⟨hp, hmajority⟩ := h.lease p (Nat.lt_of_le_of_lt (Nat.zero_le _) hnow)
  obtain ⟨hqmem, hvoted⟩ := h.ballot.led q T hq
  have hnamed : ∀ v ∈ t.cluster.members.ids, v ≠ "" := by
    rintro v hv rfl
    exact t.cluster.members.named hv
  have hqpeers : normalizePeers q t.cluster.members.ids ≠ [] :=
    List.ne_nil_of_mem (mem_normalizePeers.mpr ⟨hp, hnamed p hp, hne.symm⟩)
  have hppeers : normalizePeers p t.cluster.members.ids ≠ [] :=
    List.ne_nil_of_mem (mem_normalizePeers.mpr ⟨hqmem, hnamed q hqmem, hne⟩)
  obtain ⟨S, start, hS, hexpire, hacked⟩ := hmajority hppeers
  obtain ⟨v, hwithholds, x, hx, hxv, hxT, -⟩ := hacked.meet (hvoted hqpeers)
  rcases hwithholds with rfl | hwithholds
  · have hle := h.ballot.vote x hx
    rw [hxv, hxT] at hle
    exact hle
  · have hle := hwithholds.vote (Nat.lt_of_lt_of_le hnow hexpire) x hx hxv
    rw [hxT] at hle
    exact hle.trans hS

/-- What a step does to a clock. -/
theorem clocksAfter_cases (raft : RaftConfig) (t : Timed) (timeout : Nat) (a : Action) (v : String) :
    (t.clocksAfter raft timeout a v = t.clocks v) ∨
    ∃ e, t.cluster.effect a = some (v, e) ∧ t.clocksAfter raft timeout a v = (t.clocks v).apply raft t.now timeout e := by
  unfold clocksAfter
  cases heffect : t.cluster.effect a with
  | none => exact .inl rfl
  | some pair =>
    obtain ⟨p, e⟩ := pair
    by_cases hv : v = p
    · subst hv
      exact .inr ⟨e, rfl, Function.update_self _ _ _⟩
    · exact .inl (Function.update_of_ne hv _ _)

theorem contact_clocksAfter (raft : RaftConfig) (t : Timed) (timeout : Nat) (a : Action) (v : String) :
    ((t.clocksAfter raft timeout a v).lastLeaderContact = (t.clocks v).lastLeaderContact ∧
      (t.clocksAfter raft timeout a v).electionDeadline = (t.clocks v).electionDeadline) ∨
    ((t.clocksAfter raft timeout a v).lastLeaderContact = t.now ∧
      (t.clocksAfter raft timeout a v).electionDeadline = t.now + timeout) := by
  rcases t.clocksAfter_cases raft timeout a v with heq | ⟨e, -, heq⟩
  · rw [heq]
    exact .inl ⟨rfl, rfl⟩
  · rw [heq]
    unfold NodeClock.apply
    cases e.resets with
    | false => exact .inl ⟨rfl, rfl⟩
    | true => exact .inr ⟨rfl, rfl⟩

theorem lease_clocksAfter (raft : RaftConfig) (t : Timed) (timeout : Nat) (a : Action) (p : String) :
    (t.clocksAfter raft timeout a p).lease = (t.clocks p).lease ∨
    (t.clocksAfter raft timeout a p).lease.expireTime = 0 ∨
    ∃ e, t.cluster.effect a = some (p, e) ∧ e.lease = some .renew ∧
      (t.clocksAfter raft timeout a p).lease.expireTime = t.now + raft.leaseDurationMs := by
  rcases t.clocksAfter_cases raft timeout a p with heq | ⟨e, heffect, heq⟩
  · rw [heq]
    exact .inl rfl
  · rw [heq]
    unfold NodeClock.apply
    dsimp only
    cases hlease : e.lease with
    | none => exact .inl rfl
    | some op =>
      cases op with
      | renew =>
        simp only [LeaseManager.renew]
        split
        · exact .inr (.inl rfl)
        · exact .inr (.inr ⟨e, heffect, hlease, rfl⟩)
      | invalidate => exact .inr (.inl rfl)

theorem Withholds.tick {v : String} {T start : Nat} (h : Withholds raft t v T start) (ms : Nat) :
    Withholds raft { t with now := t.now + ms } v T start where
  start_le := h.start_le.trans (Nat.le_add_right _ _)
  peers := h.peers
  contact := fun hlt => h.contact (Nat.lt_of_le_of_lt (Nat.le_add_right _ _) hlt)
  vote := fun hlt => h.vote (Nat.lt_of_le_of_lt (Nat.le_add_right _ _) hlt)

/-- No careful step makes a node vote that withholds its votes. -/
theorem Withholds.act (hinv : Inv raft t) {v : String} {T start : Nat} (h : Withholds raft t v T start) {a : Action}
    {timeout : Nat} {cluster : Cluster} (hallows : t.Allows a) (hcareful : Careful raft t (.act a timeout))
    (hs : t.cluster.step codec a = some cluster) : Withholds raft (t.after raft timeout a cluster) v T start where
  start_le := h.start_le
  peers := by
    simp only [after, (Cluster.frame_of_moves (Cluster.moves_of_step hs)).members]
    exact h.peers
  contact := fun hlt => by
    simp only [after]
    rcases t.contact_clocksAfter raft timeout a v with ⟨heq, -⟩ | ⟨heq, -⟩
    · rw [heq]
      exact h.contact hlt
    · rw [heq]
      exact h.start_le
  vote := fun hlt x hx hxv => by
    simp only [after] at hlt
    have hcontact := h.contact hlt
    have hdeadline := hinv.deadline v
    rcases Cluster.votes_of_step hs hx with hold | rfl | hpeers | ⟨i, complete, keepFrom, rfl, call, hcall, hdst, hgrant⟩
    · exact h.vote hlt x hold hxv
    · simp only [Allows, hxv] at hallows
      omega
    · rw [hxv, (hinv.configured v).2] at hpeers
      exact absurd hpeers h.peers
    · have hwait := hcareful call hcall hgrant
      rw [hdst, hxv] at hwait
      omega

/-- A heartbeat that succeeds brings the node to its term, and counts as a contact. -/
theorem heartbeat_success {n : Node} {complete : Bool} {keepFrom : Nat} {caller : HeartbeatCaller} {r : HeartbeatRequest}
    {a : HeartbeatResponse} (h : (n.handle complete keepFrom (.heartbeat caller r)).2 = some (.heartbeat a))
    (hok : a.success = true) : (n.handle complete keepFrom (.heartbeat caller r)).1.currentTerm = r.term ∧
      (n.handleEffect (.heartbeat caller r)).resets = true := by
  simp only [Node.handle] at h ⊢
  rcases n.handleHeartbeat_cases r with ⟨-, heq⟩ | ⟨hge, m, hcore, ⟨err, heq⟩ | heq⟩
  · rw [heq] at h
    cases h
    cases hok
  · rw [heq] at h
    cases h
  · rw [heq]
    have hterm : m.currentTerm = r.term :=
      (Node.eq_of_core Node.currentTerm (fun _ => rfl) hcore).trans (Node.noted_currentTerm n r.leaderId hge)
    refine ⟨?_, ?_⟩
    · rcases m.advanceCommit_cases r.commitIndex with ⟨hsame, -⟩ | ⟨-, hsame⟩ <;> rw [hsame]
      · exact hterm
      · exact hterm
    · simp only [Node.handleEffect, Node.noteEffect, if_neg (Nat.not_lt.mpr hge)]
      split <;> rfl

theorem Inv.tick (h : Inv raft t) (ms : Nat) : Inv raft { t with now := t.now + ms } where
  configured := h.configured
  ballot := h.ballot
  round := h.round
  deadline := h.deadline
  begun := fun k => (h.begun k).trans (Nat.le_add_right _ _)
  ack := fun call hcall k r a hr hreply hok => (h.ack call hcall k r a hr hreply hok).tick ms
  lease := fun p hpos => by
    obtain ⟨hp, hmajority⟩ := h.lease p hpos
    refine ⟨hp, fun hpeers => ?_⟩
    obtain ⟨T, start, hT, hexpire, hacked⟩ := hmajority hpeers
    exact ⟨T, start, hT, hexpire, hacked.mono fun v hv => hv.imp id fun hw => hw.tick ms⟩

theorem begunAfter_of_lt (t : Timed) (a : Action) {k : Nat} (hk : k < t.cluster.calls.length) :
    t.begunAfter a k = t.begun k := by
  unfold begunAfter
  split
  · exact Function.update_of_ne (Nat.ne_of_lt hk) _ _
  · rfl

theorem Inv.begunAfter_le (h : Inv raft t) (a : Action) (k : Nat) : t.begunAfter a k ≤ t.now := by
  unfold begunAfter
  split
  · by_cases hk : k = t.cluster.calls.length
    · rw [hk, Function.update_self]
    · rw [Function.update_of_ne hk]
      exact h.begun k
  · exact h.begun k

section

variable {a : Action} {timeout : Nat} {cluster : Cluster}

/-- A node that acknowledges a heartbeat of a round withholds its votes from then on. -/
theorem Inv.ack_after (h : Inv raft t) (hallows : t.Allows a) (hcareful : Careful raft t (.act a timeout))
    (hs : t.cluster.step codec a = some cluster) {call' : Call} (hcall' : call' ∈ cluster.calls) {k : Nat}
    {r : HeartbeatRequest} {resp : HeartbeatResponse} (hr : call'.request = .heartbeat (.broadcast k) r)
    (hreply : call'.reply = some (.heartbeat resp)) (hok : resp.success = true) :
    Withholds raft (t.after raft timeout a cluster) call'.dst r.term (t.begunAfter a k) := by
  rcases Cluster.reply_of_step hs hcall' hreply with
    ⟨call, hcall, hkey, hold⟩ | ⟨i, complete, keepFrom, rfl, call, hcall, hkey, hnode, hnew⟩
  · simp only [Call.key, Prod.mk.injEq] at hkey
    have hrequest := hkey.2.2.symm.trans hr
    rw [hkey.2.1, t.begunAfter_of_lt a (h.round.request call hcall k r hrequest).2.2]
    exact (h.ack call hcall k r resp hrequest hold hok).act h hallows hcareful hs
  · simp only [Call.key, Prod.mk.injEq] at hkey
    have hrequest := hkey.2.2.symm.trans hr
    rw [hrequest] at hnew hnode
    obtain ⟨hterm, hresets⟩ := heartbeat_success hnew hok
    rw [hkey.2.1]
    refine ⟨h.begunAfter_le _ k, ?_, fun _ => ?_, fun _ x hx hxv => ?_⟩
    · obtain ⟨hsrc, hdst, -⟩ := h.round.request call (List.mem_of_getElem? hcall) k r hrequest
      obtain ⟨-, -, hne⟩ := mem_normalizePeers.mp hdst
      simp only [after, (Cluster.frame_of_moves (Cluster.moves_of_step hs)).members]
      refine List.ne_nil_of_mem (mem_normalizePeers.mpr ⟨hsrc, ?_, hne.symm⟩)
      exact fun hempty => t.cluster.members.named (hempty ▸ hsrc)
    · have heffect : t.cluster.effect (.deliver i complete keepFrom) =
          some (call.dst, (t.cluster.nodes call.dst).handleEffect call.request) := by
        simp only [Cluster.effect, hcall, Option.map_some]
      simp only [after, clocksAfter, heffect, Function.update_self, NodeClock.apply, hrequest, hresets, if_true]
      exact h.begunAfter_le _ k
    · have hle := (h.ballot.step h.configured hs).vote x hx
      rw [hxv, hnode, hterm] at hle
      exact hle

/-- A lease that a round renews is over before its majority may vote again. -/
theorem Inv.renewed (hvalid : validateLeaseConfig raft = .ok ()) (h : Inv raft t) {p : String} {round : Nat}
    {b : HeartbeatRound} (hb : (t.cluster.nodes p).rounds.find? round = some b)
    (hrenew : ((t.cluster.nodes p).finishBroadcastEffect b).lease = some .renew)
    (hprompt : t.now ≤ t.begun round + raft.clockDriftBoundMs) :
    t.now + raft.leaseDurationMs ≤ t.begun round + raft.electionTimeoutMinMs ∧
      IsMajority t.cluster.members.ids fun v => v = p ∨ Withholds raft t v b.term (t.begun round) := by
  have hsum := validateLeaseConfig_ok hvalid
  have hquorum : quorumSize (normalizePeers p t.cluster.members.ids) ≤ b.successCount := by
    rw [← (h.configured p).2]
    unfold Node.finishBroadcastEffect at hrenew
    split at hrenew
    · exact absurd hrenew (Node.followEffect_lease _ _)
    split at hrenew
    · next hge => exact hge
    · cases hrenew
  refine ⟨by omega, (h.round.acknowledged hb hquorum).mono fun v hv => ?_⟩
  rcases hv with rfl | ⟨call, hcall, -, rfl, r, resp, hr, hT, hreply, hok⟩
  · exact .inl rfl
  · right
    rw [← hT]
    exact h.ack call hcall round r resp hr hreply hok

theorem Inv.lease_after (hvalid : validateLeaseConfig raft = .ok ()) (h : Inv raft t) (hallows : t.Allows a)
    (hcareful : Careful raft t (.act a timeout)) (hs : t.cluster.step codec a = some cluster) {p : String}
    (hpos : 0 < (t.clocksAfter raft timeout a p).lease.expireTime) :
    p ∈ t.cluster.members.ids ∧ (normalizePeers p t.cluster.members.ids ≠ [] →
      ∃ T start, T ≤ (t.cluster.nodes p).currentTerm ∧
        (t.clocksAfter raft timeout a p).lease.expireTime ≤ start + raft.electionTimeoutMinMs ∧
        IsMajority t.cluster.members.ids fun v => v = p ∨ Withholds raft (t.after raft timeout a cluster) v T start) := by
  have hkeep : ∀ {p T start}, (IsMajority t.cluster.members.ids fun v => v = p ∨ Withholds raft t v T start) →
      IsMajority t.cluster.members.ids fun v => v = p ∨ Withholds raft (t.after raft timeout a cluster) v T start :=
    fun hacked => hacked.mono fun v hv => hv.imp id fun hw => hw.act h hallows hcareful hs
  rcases t.lease_clocksAfter raft timeout a p with heq | hzero | ⟨e, heffect, hrenew, hexpire⟩
  · rw [heq] at hpos ⊢
    obtain ⟨hp, hmajority⟩ := h.lease p hpos
    refine ⟨hp, fun hpeers => ?_⟩
    obtain ⟨T, start, hT, hle, hacked⟩ := hmajority hpeers
    exact ⟨T, start, hT, hle, hkeep hacked⟩
  · rw [hzero] at hpos
    exact absurd hpos (Nat.lt_irrefl 0)
  · rw [hexpire]
    rcases Cluster.effect_renew heffect hrenew with rfl | ⟨round, b, rfl, hb, rfl⟩
    · have hsolo : p ∈ t.cluster.members.ids ∧ (t.cluster.nodes p).config.peers = [] := by
        simp only [Cluster.step, Cluster.start] at hs
        split at hs
        · next hguard => exact ⟨hguard.1, hguard.2.1⟩
        · cases hs
      refine ⟨hsolo.1, fun hpeers => absurd ?_ hpeers⟩
      rw [← (h.configured p).2]
      exact hsolo.2
    · obtain ⟨hp, hle, -, -⟩ := h.round.round p round b hb
      obtain ⟨hexpire', hacked⟩ := h.renewed hvalid hb hrenew (hcareful b hb hrenew)
      exact ⟨hp, fun _ => ⟨b.term, t.begun round, hle, hexpire', hkeep hacked⟩⟩

theorem Inv.act (hvalid : validateLeaseConfig raft = .ok ()) (h : Inv raft t) (hallows : t.Allows a)
    (htimeout : IsTimeout raft timeout) (hcareful : Careful raft t (.act a timeout))
    (hs : t.cluster.step codec a = some cluster) : Inv raft (t.after raft timeout a cluster) := by
  have hmoves := Cluster.moves_of_step hs
  have hframe := Cluster.frame_of_moves hmoves
  have hon := Cluster.onward_of_moves h.ballot.answered hmoves
  refine ⟨h.configured.frame hframe, h.ballot.step h.configured hs, h.round.step h.configured h.ballot.answered hs,
    fun v => ?_, h.begunAfter_le a, ?_, fun p hpos => ?_⟩
  · simp only [after]
    rcases t.contact_clocksAfter raft timeout a v with ⟨hc, hd⟩ | ⟨hc, hd⟩
    · rw [hc, hd]
      exact h.deadline v
    · rw [hc, hd]
      exact Nat.add_le_add_left htimeout.1 _
  · intro call' hcall' k r resp hr hreply hok
    exact h.ack_after hallows hcareful hs hcall' hr hreply hok
  · obtain ⟨hp, hmajority⟩ := h.lease_after hvalid hallows hcareful hs hpos
    have hmembers : (t.after raft timeout a cluster).cluster.members = t.cluster.members := hframe.members
    rw [hmembers]
    refine ⟨hp, fun hpeers => ?_⟩
    obtain ⟨T, start, hT, hexpire, hacked⟩ := hmajority hpeers
    exact ⟨T, start, hT.trans (hon.term p), hexpire, hacked⟩

end

theorem Inv.step (hvalid : validateLeaseConfig raft = .ok ()) (h : Inv raft t) {ev : Event} (hcareful : Careful raft t ev)
    (hs : step codec raft t ev = some t') : Inv raft t' := by
  cases ev with
  | tick ms =>
    cases hs
    exact h.tick ms
  | act a timeout =>
    simp only [Timed.step] at hs
    split at hs
    swap
    · cases hs
    next hguard =>
    obtain ⟨cluster, hcluster, rfl⟩ := Option.map_eq_some_iff.mp hs
    exact h.act hvalid hguard.1 hguard.2 hcareful hcluster

theorem Inv.init (members : Members) (config : String → Config) {timeouts : String → Nat}
    (htimeouts : ∀ p, IsTimeout raft (timeouts p)) : Inv raft (init members config timeouts) where
  configured := Cluster.configured_init members config
  ballot := .init members config
  round := .init members config
  deadline := fun v => by
    rw [Timed.init]
    simpa using (htimeouts v).1
  begun := fun _ => Nat.le_refl _
  ack := fun call hcall => by cases hcall
  lease := fun p hpos => absurd hpos (Nat.lt_irrefl 0)

/-- In every careful run a leader with a valid lease has no other leader above it. -/
theorem lease_exclusive (codec : CommandCodec) (members : Members) (config : String → Config) (raft : RaftConfig)
    (hvalid : validateLeaseConfig raft = .ok ()) (timeouts : String → Nat) (htimeouts : ∀ p, IsTimeout raft (timeouts p))
    (events : List Event) (t : Timed)
    (h : Transition.run (Transition.restrict (Careful raft) (step codec raft)) (init members config timeouts) events =
      some t) :
    ∀ p, (t.cluster.nodes p).state = .leader → (t.clocks p).lease.isValid t.now = true →
      ∀ q T, q ≠ p → (q, T) ∈ t.cluster.history.led → T ≤ (t.cluster.nodes p).currentTerm := by
  have hinv : Inv raft t := by
    refine Transition.run_invariant (Inv raft) (fun s ev s' hi hst => ?_) (.init members config htimeouts) h
    obtain ⟨hcareful, hst⟩ := Transition.restrict_eq_some.mp hst
    exact hi.step hvalid hcareful hst
  intro p _ hlease q T hne hq
  exact hinv.exclusive hlease hq hne

/-- Short timeouts for three nodes. -/
def shortTimeouts : RaftConfig where
  heartbeatIntervalMs := 50
  electionTimeoutMinMs := 150
  electionTimeoutMaxMs := 300
  clockDriftBoundMs := 10
  leaseDurationMs := 140

def firstTimeouts (p : String) : Nat := if p = "A" then 200 else if p = "C" then 150 else 300

theorem firstTimeouts_isTimeout (p : String) : IsTimeout shortTimeouts (firstTimeouts p) := by
  unfold firstTimeouts
  split
  · decide
  split <;> decide

/-- `C` fails to win term 1 at 150; `A` wins it at 200 with the vote of `B`, and renews its lease
over a heartbeat to `B`. -/
def leaseTaken : List Event :=
  [.tick 150, .act (.startElection "C") 150, .act (.fail 0 false) 150, .act (.fail 1 false) 150,
    .act (.finishElection "C") 150, .tick 50, .act (.startElection "A") 150, .act (.deliver 2 true 0) 150,
    .act (.receive 2 false) 150, .act (.fail 3 false) 150, .act (.finishElection "A") 150,
    .act (.beginBroadcast "A") 150, .act (.deliver 4 true 0) 150, .act (.receive 4 false) 150, .act (.fail 5 false) 150,
    .act (.finishBroadcast "A" 4) 150]

/-- `C` wins term 2 with the vote of `B`. -/
def secondElection : List Event :=
  [.act (.startElection "C") 150, .act (.deliver 7 true 0) 150, .act (.receive 7 false) 150, .act (.fail 6 false) 150,
    .act (.finishElection "C") 150]

/-- `B` has waited for its shortest timeout when it votes for `C`, which then takes a lease. -/
theorem lease_exclusive_after_wait :
    ∃ t, Transition.run (Transition.restrict (Careful shortTimeouts) (step sampleCodec shortTimeouts))
        (init threeNodes (plainConfig 64) firstTimeouts)
        (leaseTaken ++ [.tick 150] ++ secondElection ++
          [.act (.beginBroadcast "C") 150, .act (.deliver 9 true 0) 150, .act (.receive 9 false) 150,
            .act (.fail 8 false) 150, .act (.finishBroadcast "C" 8) 150]) = some t ∧
      (t.cluster.nodes "C").state = .leader ∧ (t.clocks "C").lease.isValid t.now = true ∧
      ("A", 1) ∈ t.cluster.history.led ∧ 1 ≤ (t.cluster.nodes "C").currentTerm := by
  have hrun : ∃ t, Transition.run (Transition.restrict (Careful shortTimeouts) (step sampleCodec shortTimeouts))
        (init threeNodes (plainConfig 64) firstTimeouts)
        (leaseTaken ++ [.tick 150] ++ secondElection ++
          [.act (.beginBroadcast "C") 150, .act (.deliver 9 true 0) 150, .act (.receive 9 false) 150,
            .act (.fail 8 false) 150, .act (.finishBroadcast "C" 8) 150]) = some t ∧
      (t.cluster.nodes "C").state = .leader ∧ (t.clocks "C").lease.isValid t.now = true ∧
      ("A", 1) ∈ t.cluster.history.led := by
    decide +kernel
  obtain ⟨t, ht, hstate, hlease, hled⟩ := hrun
  exact ⟨t, ht, hstate, hlease, hled, lease_exclusive sampleCodec threeNodes (plainConfig 64) shortTimeouts rfl firstTimeouts
    firstTimeouts_isTimeout _ t ht "C" hstate hlease "A" 1 (by decide) hled⟩

/-- `B` heard from `A` at 200 and votes for `C` at 300, while the lease of `A` runs until 340. -/
theorem second_leader_under_lease :
    ∃ t, Transition.run (step sampleCodec shortTimeouts) (init threeNodes (plainConfig 64) firstTimeouts)
        (leaseTaken ++ [.tick 100] ++ secondElection) = some t ∧
      (t.cluster.nodes "A").state = .leader ∧ (t.clocks "A").lease.isValid t.now = true ∧
      ("C", 2) ∈ t.cluster.history.led ∧ (t.cluster.nodes "A").currentTerm = 1 := by
  decide +kernel

end Timed

end RaftVdb
