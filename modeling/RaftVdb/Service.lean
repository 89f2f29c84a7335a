import RaftVdb.Client

/-!
# Clients and the cluster

Clients call `Upsert` and `Delete`, and `WithRetry` sends one RPC after another for each call.
An RPC reaches the node that it is addressed to late or not at all, the handler there waits
for the record of the request, and its answer may come when the client has given up on it.
A node is addressed by its id.
-/

namespace RaftVdb

open Lib

/-- What `Upsert` or `Delete` is called with; a vector by the bit patterns of its components. -/
inductive WriteCall where
  | upsert (id : Nat) (vector : List UInt32)
  | delete (id : Nat)
  deriving DecidableEq, Repr

/-- A logical write, under the request id of all its attempts. -/
structure Issue where
  client : String
  call : WriteCall
  requestId : String
  deriving DecidableEq, Repr

namespace Issue

def request (issue : Issue) : ClientWriteRequest :=
  match issue.call with
  | .upsert id vector => { requestId := issue.requestId, cmdType := 1, id, vector := serializeFloatVectorBytes vector }
  | .delete id => { requestId := issue.requestId, cmdType := 2, id }

/-- What is to be executed for it. -/
def command (issue : Issue) : Command :=
  match issue.call with
  | .upsert id vector => .upsert { id, vector := vector.map UInt32.toNat, requestId := issue.requestId }
  | .delete id => .delete { id, requestId := issue.requestId }

@[simp] theorem request_requestId (issue : Issue) : issue.request.requestId = issue.requestId := by
  unfold request
  cases issue.call <;> rfl

theorem request_command (issue : Issue) : issue.request.command = some issue.command := by
  unfold request command
  cases issue.call with
  | upsert id vector => simp [ClientWriteRequest.command, parseFloatVectorBytes_serialize, Except.toOption]
  | delete id => rfl

end Issue

/-- How far `WithRetry` has got. -/
structure RetryState where
  attempt : UInt32 := 0
  target : String := ""
  result : Option (Except String Unit) := none

/-- The RPC of an attempt; `op` is the place of the logical write. -/
structure WriteRpc where
  op : Nat
  attempt : UInt32
  target : String
  request : ClientWriteRequest
  deriving DecidableEq, Repr

inductive RpcStage where
  | sent
  /-- The handler waits for the record of the request. -/
  | waiting
  | answered (response : ClientWriteResponse)
  /-- The handler has died with its process. -/
  | dropped
  deriving DecidableEq, Repr

structure Service where
  cluster : Cluster
  clients : String → DBClient
  issues : List Issue := []
  retries : Nat → RetryState := fun _ => {}
  rpcs : List WriteRpc := []
  stages : Nat → RpcStage := fun _ => .sent

inductive ServiceAction where
  /-- A step of the cluster that no client has a part in. -/
  | cluster (a : Action)
  /-- A client calls `Upsert` or `Delete`; `probe` is what `ProbeLeaderConcurrently` would find. -/
  | call (client : String) (call : WriteCall) (probe : Except String String)
  /-- `HandleClientWrite` runs up to where it waits. -/
  | handle (i : Nat)
  /-- The handler goes on because its request is committed or the time is over. -/
  | wake (i : Nat)
  /-- `Propose` has failed. -/
  | refuse (i : Nat) (error : String)
  | receive (i : Nat) (pick : Nat)
  /-- The RPC of the current attempt fails for the client. -/
  | lose (op : Nat) (pick : Nat)

/-- The answer of a handler that does not find its request committed. -/
def Node.refuseWrite (n : Node) (error : String) : ClientWriteResponse :=
  if n.state ≠ .leader then { success := false, redirectTo := n.leaderAddr } else { success := false, error }

/-- The answer of a handler that has waited. Its listener is told what is recorded. -/
def Node.awaitWrite (n : Node) (requestId : String) : ClientWriteResponse :=
  match n.dedup.check requestId with
  | .alreadyCommitted entry => { success := entry.success, error := entry.error }
  | _ => n.refuseWrite ""

namespace Service

def init (members : Members) (config : String → Config) (settings : String → DBClient) : Service where
  cluster := Cluster.init members config
  clients := fun id => { settings id with clientId := id, clientSeq := 0 }

/-- The RPC of an attempt goes out. -/
def send (s : Service) (op : Nat) (issue : Issue) (r : RetryState) : Service :=
  { s with
    retries := Function.update s.retries op r
    rpcs := s.rpcs ++ [{ op, attempt := r.attempt, target := r.target, request := issue.request }]
    stages := Function.update s.stages s.rpcs.length .sent }

/-- The loop of `WithRetry` ends. -/
def finish (s : Service) (op : Nat) (r : RetryState) (result : Except String Unit) : Service :=
  { s with retries := Function.update s.retries op { r with result := some result } }

/-- The logical write that a client enters next. -/
def nextIssue (s : Service) (client : String) (call : WriteCall) : Issue :=
  { client, call, requestId := (s.clients client).nextRequestId.1 }

def enter (s : Service) (issue : Issue) : Service :=
  { s with
    clients := Function.update s.clients issue.client (s.clients issue.client).nextRequestId.2
    issues := s.issues ++ [issue] }

/-- `Upsert` or `Delete` up to its first RPC. -/
def call (s : Service) (client : String) (call : WriteCall) (probe : Except String String) : Service :=
  match call with
  | .upsert _ [] => s
  | _ =>
    let issue := s.nextIssue client call
    match if (s.clients client).leaderAddr = "" then probe else .ok (s.clients client).leaderAddr with
    | .error err => (s.enter issue).finish s.issues.length {} (.error err)
    | .ok target => (s.enter issue).send s.issues.length issue { target }

/-- One iteration of the loop of `WithRetry`, from its answer on. -/
def settle (s : Service) (op : Nat) (issue : Issue) (answer : Except String ClientWriteResponse) (pick : Nat) : Service :=
  let client := s.clients issue.client
  let r := s.retries op
  match DBClient.judge client.peers pick r.target answer with
  | .finish (.ok _) =>
    { s.finish op r (.ok ()) with clients := Function.update s.clients issue.client { client with leaderAddr := r.target } }
  | .finish (.error err) => s.finish op r (.error err)
  | .again target =>
    if r.attempt = client.config.maxRetryCount then s.finish op r (.error "重试次数超过上限，仍未定位到可用 Leader")
    else s.send op issue { r with attempt := r.attempt + 1, target }

def setStage (s : Service) (i : Nat) (stage : RpcStage) : Service := { s with stages := Function.update s.stages i stage }

/-- The handlers of a process die with it. -/
def dropHandlers (s : Service) (p : String) : Service :=
  { s with stages := fun i => if s.stages i = .waiting ∧ (s.rpcs[i]?).map WriteRpc.target = some p then .dropped else s.stages i }

def handle (codec : CommandCodec) (s : Service) (i : Nat) (rpc : WriteRpc) : Option Service :=
  (s.cluster.step codec (.clientWrite rpc.target rpc.request)).map fun cluster =>
    { s with cluster }.setStage i
      (match (s.cluster.nodes rpc.target).checkClientWrite codec rpc.request with
        | .reply response => .answered response
        | _ => .waiting)

def step (codec : CommandCodec) (s : Service) : ServiceAction → Option Service
  | .cluster (.clientWrite _ _) => none
  | .cluster (.restart p) => (s.cluster.step codec (.restart p)).map fun cluster => { s with cluster }.dropHandlers p
  | .cluster a => (s.cluster.step codec a).map fun cluster => { s with cluster }
  | .call client call probe => some (s.call client call probe)
  | .handle i =>
    (s.rpcs[i]?).bind fun rpc => if s.stages i = .sent then s.handle codec i rpc else none
  | .wake i =>
    (s.rpcs[i]?).bind fun rpc =>
      if s.stages i = .waiting then
        some (s.setStage i (.answered ((s.cluster.nodes rpc.target).awaitWrite rpc.request.requestId)))
      else none
  | .refuse i error =>
    (s.rpcs[i]?).bind fun rpc =>
      if s.stages i = .waiting then some (s.setStage i (.answered ((s.cluster.nodes rpc.target).refuseWrite error))) else none
  | .receive i pick =>
    (s.rpcs[i]?).bind fun rpc => (s.issues[rpc.op]?).bind fun issue =>
      match s.stages i with
      | .answered response =>
        if (s.retries rpc.op).result = none ∧ (s.retries rpc.op).attempt = rpc.attempt then
          some (s.settle rpc.op issue (.ok response) pick)
        else none
      | _ => none
  | .lose op pick =>
    (s.issues[op]?).bind fun issue =>
      if (s.retries op).result = none then some (s.settle op issue (.error "ClientWrite RPC 失败") pick) else none

def run (codec : CommandCodec) (members : Members) (config : String → Config) (settings : String → DBClient)
    (schedule : List ServiceAction) : Option Service :=
  Transition.run (step codec) (init members config settings) schedule

variable {codec : CommandCodec} {s s' : Service}

/-- A call is over, with success only if its answer was one, or its next RPC goes out. -/
theorem settle_cases (s : Service) (op : Nat) (issue : Issue) (answer : Except String ClientWriteResponse) (pick : Nat) :
    (∃ response, answer = .ok response ∧ response.success = true ∧ s.settle op issue answer pick =
      { s.finish op (s.retries op) (.ok ()) with
        clients := Function.update s.clients issue.client
          { s.clients issue.client with leaderAddr := (s.retries op).target } }) ∨
    (∃ err, s.settle op issue answer pick = s.finish op (s.retries op) (.error err)) ∨
    ∃ target, (s.retries op).attempt ≠ (s.clients issue.client).config.maxRetryCount ∧ s.settle op issue answer pick =
      s.send op issue { s.retries op with attempt := (s.retries op).attempt + 1, target } := by
  unfold settle
  dsimp only
  split
  · next response hjudge =>
    obtain ⟨hanswer, hsuccess⟩ := DBClient.judge_eq_ok hjudge
    exact .inl ⟨response, hanswer, hsuccess, rfl⟩
  · exact .inr (.inl ⟨_, rfl⟩)
  · split
    · exact .inr (.inl ⟨_, rfl⟩)
    · next target _ hmore => exact .inr (.inr ⟨target, hmore, rfl⟩)

/-- What a step of the service does. -/
inductive Moves (codec : CommandCodec) (s : Service) : ServiceAction → Service → Prop
  /-- The cluster has moved; handlers may have died. -/
  | cluster {a : Action} {c' : Cluster} {stages : Nat → RpcStage} (hclient : ∀ p r, a ≠ .clientWrite p r)
      (hs : s.cluster.step codec a = some c') (hstages : ∀ i r, stages i = .answered r → s.stages i = .answered r) :
      Moves codec s (.cluster a) { s with cluster := c', stages }
  | rejected {a : ServiceAction} : Moves codec s a s
  | failed {client : String} {call : WriteCall} {probe : Except String String} (err : String) :
      Moves codec s (.call client call probe)
        ((s.enter (s.nextIssue client call)).finish s.issues.length {} (.error err))
  | begun {client : String} {call : WriteCall} {probe : Except String String} (target : String) :
      Moves codec s (.call client call probe)
        ((s.enter (s.nextIssue client call)).send s.issues.length (s.nextIssue client call) { target })
  | handled {i : Nat} {rpc : WriteRpc} {c' : Cluster} {stage : RpcStage} (hrpc : s.rpcs[i]? = some rpc)
      (hs : s.cluster.step codec (.clientWrite rpc.target rpc.request) = some c')
      (hstage : ∀ response, stage = .answered response →
        (s.cluster.nodes rpc.target).checkClientWrite codec rpc.request = .reply response) :
      Moves codec s (.handle i) ({ s with cluster := c' }.setStage i stage)
  /-- A handler has ended. -/
  | answered {a : ServiceAction} {i : Nat} {rpc : WriteRpc} {response : ClientWriteResponse} (hrpc : s.rpcs[i]? = some rpc)
      (hresponse : response.success = true → ∃ entry,
        (s.cluster.nodes rpc.target).dedup.check rpc.request.requestId = .alreadyCommitted entry) :
      Moves codec s a (s.setStage i (.answered response))
  | settled {a : ServiceAction} {op : Nat} {issue : Issue} {answer : Except String ClientWriteResponse} {pick : Nat}
      (hissue : s.issues[op]? = some issue)
      (hanswer : ∀ response, answer = .ok response → ∃ i rpc, s.rpcs[i]? = some rpc ∧ rpc.op = op ∧ s.stages i = .answered response) :
      Moves codec s a (s.settle op issue answer pick)

theorem refuseWrite_success (n : Node) (error : String) : (n.refuseWrite error).success = false := by
  unfold Node.refuseWrite
  split <;> rfl

theorem moves_of_step {a : ServiceAction} (h : s.step codec a = some s') : s.Moves codec a s' := by
  cases a with
  | cluster a =>
    cases a with
    | clientWrite => cases h
    | restart p =>
      obtain ⟨c', hc', rfl⟩ := Option.map_eq_some_iff.mp h
      refine .cluster (fun p r => nofun) hc' fun i r hi => ?_
      split at hi
      · cases hi
      · exact hi
    | start | startElection | finishElection | beginBroadcast | finishBroadcast | replicate | forward | checkMentor |
      checkFollower | deliver | receive | fail | rebalance | recoverWindows | propose | apply | saveSnapshot =>
      obtain ⟨c', hc', rfl⟩ := Option.map_eq_some_iff.mp h
      exact .cluster (fun p r => nofun) hc' fun i r hi => hi
  | call client call probe =>
    obtain rfl := Option.some.inj h
    unfold Service.call
    split
    · exact .rejected
    dsimp only
    split
    · exact .failed _
    · exact .begun _
  | handle i =>
    obtain ⟨rpc, hrpc, h⟩ := Option.bind_eq_some_iff.mp h
    split at h
    swap
    · cases h
    obtain ⟨c', hc', rfl⟩ := Option.map_eq_some_iff.mp h
    refine .handled hrpc hc' fun response hstage => ?_
    split at hstage
    · next hcheck =>
      cases hstage
      exact hcheck
    · cases hstage
  | wake i =>
    obtain ⟨rpc, hrpc, h⟩ := Option.bind_eq_some_iff.mp h
    split at h
    swap
    · cases h
    obtain rfl := Option.some.inj h
    refine .answered hrpc fun hsuccess => ?_
    unfold Node.awaitWrite at hsuccess
    split at hsuccess
    · next hcheck => exact ⟨_, hcheck⟩
    · rw [refuseWrite_success] at hsuccess
      cases hsuccess
  | refuse i error =>
    obtain ⟨rpc, hrpc, h⟩ := Option.bind_eq_some_iff.mp h
    split at h
    swap
    · cases h
    obtain rfl := Option.some.inj h
    refine .answered hrpc fun hsuccess => ?_
    rw [refuseWrite_success] at hsuccess
    cases hsuccess
  | receive i pick =>
    obtain ⟨rpc, hrpc, h⟩ := Option.bind_eq_some_iff.mp h
    obtain ⟨issue, hissue, h⟩ := Option.bind_eq_some_iff.mp h
    split at h
    swap
    · cases h
    next response hstage =>
    split at h
    swap
    · cases h
    obtain rfl := Option.some.inj h
    refine .settled hissue fun r hr => ?_
    cases hr
    exact ⟨i, rpc, hrpc, rfl, hstage⟩
  | lose op pick =>
    obtain ⟨issue, hissue, h⟩ := Option.bind_eq_some_iff.mp h
    split at h
    swap
    · cases h
    obtain rfl := Option.some.inj h
    exact .settled hissue fun r hr => by cases hr

/-! ## Request ids and attempts -/

/-- Every logical write has an id of its own, which all its RPCs carry, and there are at most as
many of these as its attempts allow. -/
structure Numbered (s : Service) : Prop where
  named : ∀ id, (s.clients id).clientId = id
  seq_le : ∀ id, (s.clients id).clientSeq.toNat ≤ s.issues.length
  issued : ∀ issue ∈ s.issues, ∃ n, issue.requestId = issue.client ++ "-" ++ toString n ∧
    n ≤ (s.clients issue.client).clientSeq.toNat
  nodup : (s.issues.map Issue.requestId).Nodup
  rpc : ∀ rpc ∈ s.rpcs, ∃ issue, s.issues[rpc.op]? = some issue ∧ rpc.request = issue.request
  attempt_le : ∀ op issue, s.issues[op]? = some issue →
    (s.retries op).attempt ≤ (s.clients issue.client).config.maxRetryCount
  count_le : ∀ op issue, s.issues[op]? = some issue →
    (s.rpcs.countP fun rpc => rpc.op = op) ≤ (s.retries op).attempt.toNat + 1

theorem numbered_init (members : Members) (config : String → Config) (settings : String → DBClient) :
    (init members config settings).Numbered where
  named id := rfl
  seq_le id := Nat.le_refl 0
  issued issue h := by cases h
  nodup := List.nodup_nil
  rpc rpc h := by cases h
  attempt_le op issue h := by cases h
  count_le op issue h := by cases h

/-- What the clients do not learn from does not change this. -/
structure SameClients (s s' : Service) : Prop where
  named : ∀ id, (s'.clients id).clientId = (s.clients id).clientId
  seq : ∀ id, (s'.clients id).clientSeq = (s.clients id).clientSeq
  config : ∀ id, (s'.clients id).config = (s.clients id).config
  issues : s'.issues = s.issues
  rpcs : s'.rpcs = s.rpcs
  attempt : ∀ op, (s'.retries op).attempt = (s.retries op).attempt

theorem Numbered.same (h : s.Numbered) (hs : SameClients s s') : s'.Numbered := by
  obtain ⟨hnamed, hseq, hconfig, hissues, hrpcs, hattempt⟩ := hs
  refine ⟨fun id => (hnamed id).trans (h.named id), ?_, ?_, ?_, ?_, ?_, ?_⟩
  · simp only [hissues, hseq]
    exact h.seq_le
  · simp only [hissues, hseq]
    exact h.issued
  · rw [hissues]
    exact h.nodup
  · rw [hissues, hrpcs]
    exact h.rpc
  · simp only [hissues, hattempt, hconfig]
    exact h.attempt_le
  · simp only [hissues, hattempt, hrpcs]
    exact h.count_le

theorem sameClients_finish (s : Service) (op : Nat) (result : Except String Unit) :
    SameClients s (s.finish op (s.retries op) result) := by
  refine ⟨fun _ => rfl, fun _ => rfl, fun _ => rfl, rfl, rfl, fun i => ?_⟩
  show (Function.update s.retries op _ i).attempt = _
  by_cases hi : i = op
  · rw [hi, Function.update_self]
  · rw [Function.update_of_ne hi]

theorem Numbered.rpc_lt (h : s.Numbered) {op : Nat} (hop : s.issues.length ≤ op) : (s.rpcs.countP fun rpc => rpc.op = op) = 0 := by
  rw [List.countP_eq_zero]
  intro rpc hrpc heq
  obtain ⟨issue, hissue, -⟩ := h.rpc rpc hrpc
  have hlt := (List.getElem?_eq_some_iff.mp hissue).1
  have := of_decide_eq_true heq
  omega

/-- A further attempt. -/
theorem Numbered.resend (h : s.Numbered) {op : Nat} {issue : Issue} (hissue : s.issues[op]? = some issue)
    (hmore : (s.retries op).attempt ≠ (s.clients issue.client).config.maxRetryCount) (target : String) :
    (s.send op issue { s.retries op with attempt := (s.retries op).attempt + 1, target }).Numbered := by
  have hlt : (s.retries op).attempt < (s.clients issue.client).config.maxRetryCount :=
    UInt32.lt_of_le_of_ne (h.attempt_le op issue hissue) hmore
  have hsucc : ((s.retries op).attempt + 1).toNat = (s.retries op).attempt.toNat + 1 := by
    have := UInt32.lt_iff_toNat_lt.mp hlt
    have := (s.clients issue.client).config.maxRetryCount.toNat_lt
    rw [UInt32.toNat_add, UInt32.toNat_one]
    omega
  refine ⟨h.named, h.seq_le, h.issued, h.nodup, fun rpc hrpc => ?_, fun i x hx => ?_, fun i x hx => ?_⟩
  · rcases List.mem_append.mp hrpc with hrpc | hrpc
    · exact h.rpc rpc hrpc
    · obtain rfl := List.mem_singleton.mp hrpc
      exact ⟨issue, hissue, rfl⟩
  · show (Function.update s.retries op _ i).attempt ≤ _
    by_cases hi : i = op
    · subst hi
      rw [Function.update_self]
      cases hissue.symm.trans hx
      rw [UInt32.le_iff_toNat_le, hsucc]
      exact UInt32.lt_iff_toNat_lt.mp hlt
    · rw [Function.update_of_ne hi]
      exact h.attempt_le i x hx
  · show (s.rpcs ++ _).countP _ ≤ (Function.update s.retries op _ i).attempt.toNat + 1
    have hcount := h.count_le i x hx
    rw [List.countP_append, List.countP_singleton]
    by_cases hi : i = op
    · subst hi
      rw [Function.update_self, if_pos (by simp), hsucc]
      omega
    · rw [Function.update_of_ne hi, if_neg (by simpa using Ne.symm hi)]
      omega

/-- A client enters a logical write, under an id that was not given out before. -/
theorem Numbered.enter (h : s.Numbered) (hlen : s.issues.length + 1 < 2 ^ 64) (client : String) (call : WriteCall)
    {r : RetryState} (hr : r.attempt = 0) (more : List WriteRpc) (stages : Nat → RpcStage)
    (hone : more.length ≤ 1)
    (hmore : ∀ rpc ∈ more, rpc.op = s.issues.length ∧ rpc.request = (s.nextIssue client call).request) :
    Numbered { s.enter (s.nextIssue client call) with
      retries := Function.update s.retries s.issues.length r
      rpcs := s.rpcs ++ more
      stages } := by
  have hseq := h.seq_le client
  have hnext : (s.clients client).nextRequestId.2.clientSeq.toNat = (s.clients client).clientSeq.toNat + 1 := by
    show ((s.clients client).clientSeq + 1).toNat = _
    rw [UInt64.toNat_add, UInt64.toNat_one, Nat.mod_eq_of_lt (by omega)]
  have hid : (s.nextIssue client call).requestId = client ++ "-" ++ toString ((s.clients client).clientSeq.toNat + 1) := by
    show (s.clients client).clientId ++ "-" ++ toString (s.clients client).nextRequestId.2.clientSeq.toNat = _
    rw [h.named, hnext]
  have hsame : ∀ id, (Function.update s.clients client (s.clients client).nextRequestId.2 id).clientId = (s.clients id).clientId ∧
      (Function.update s.clients client (s.clients client).nextRequestId.2 id).config = (s.clients id).config ∧
      (s.clients id).clientSeq.toNat ≤ (Function.update s.clients client (s.clients client).nextRequestId.2 id).clientSeq.toNat ∧
      (Function.update s.clients client (s.clients client).nextRequestId.2 id).clientSeq.toNat ≤ s.issues.length + 1 := by
    intro id
    by_cases hid : id = client
    · subst hid
      rw [Function.update_self]
      exact ⟨rfl, rfl, by omega, by omega⟩
    · rw [Function.update_of_ne hid]
      exact ⟨rfl, rfl, le_refl _, Nat.le_succ_of_le (h.seq_le id)⟩
  have hold : ∀ {op : Nat} {issue : Issue}, (s.issues ++ [s.nextIssue client call])[op]? = some issue →
      s.issues[op]? = some issue ∨ (op = s.issues.length ∧ issue = s.nextIssue client call) := by
    intro op issue hissue
    rcases Nat.lt_or_ge op s.issues.length with hlt | hge
    · exact .inl (by rwa [List.getElem?_append_left hlt] at hissue)
    · rw [List.getElem?_append_right hge, List.getElem?_singleton] at hissue
      split at hissue
      · cases hissue
        exact .inr ⟨by omega, rfl⟩
      · cases hissue
  have hzero : r.attempt.toNat = 0 := by
    rw [hr]
    rfl
  refine ⟨fun id => (hsame id).1.trans (h.named id), fun id => ?_, fun issue hissue => ?_, ?_, fun rpc hrpc => ?_, fun op issue hissue => ?_,
    fun op issue hissue => ?_⟩
  · show _ ≤ (s.issues ++ [s.nextIssue client call]).length
    rw [List.length_append]
    exact (hsame id).2.2.2
  · rcases List.mem_append.mp hissue with hissue | hissue
    · obtain ⟨n, hn, hle⟩ := h.issued issue hissue
      exact ⟨n, hn, hle.trans (hsame _).2.2.1⟩
    · obtain rfl := List.mem_singleton.mp hissue
      refine ⟨_, hid, ?_⟩
      show _ ≤ (Function.update s.clients client _ client).clientSeq.toNat
      rw [Function.update_self]
      exact hnext.ge
  · show ((s.issues ++ [s.nextIssue client call]).map Issue.requestId).Nodup
    rw [List.map_append, List.map_singleton, ← List.concat_eq_append]
    refine h.nodup.concat fun hin => ?_
    obtain ⟨issue, hissue, heq⟩ := List.mem_map.mp hin
    obtain ⟨n, hn, hle⟩ := h.issued issue hissue
    rw [hn, hid] at heq
    -- the numbers that the client has given out are smaller
    obtain ⟨hclient, rfl⟩ := DBClient.requestId_inj heq
    rw [hclient] at hle
    omega
  · rcases List.mem_append.mp hrpc with hrpc | hrpc
    · obtain ⟨issue, hissue, hrequest⟩ := h.rpc rpc hrpc
      exact ⟨issue, List.getElem?_append_left (List.getElem?_eq_some_iff.mp hissue).1 ▸ hissue, hrequest⟩
    · obtain ⟨hop, hrequest⟩ := hmore rpc hrpc
      refine ⟨s.nextIssue client call, ?_, hrequest⟩
      rw [hop]
      exact List.getElem?_concat_length
  · show (Function.update s.retries s.issues.length r op).attempt ≤ (Function.update s.clients client _ issue.client).config.maxRetryCount
    rw [show (s.nextIssue client call).client = client from rfl, (hsame _).2.1]
    rcases hold hissue with hissue | ⟨rfl, rfl⟩
    · rw [Function.update_of_ne (List.getElem?_eq_some_iff.mp hissue).1.ne]
      exact h.attempt_le op issue hissue
    · rw [Function.update_self, hr]
      exact UInt32.zero_le
  · show (s.rpcs ++ more).countP _ ≤ (Function.update s.retries s.issues.length r op).attempt.toNat + 1
    rw [List.countP_append]
    rcases hold hissue with hissue | ⟨rfl, rfl⟩
    · have hlt := (List.getElem?_eq_some_iff.mp hissue).1
      have hnone : (more.countP fun rpc => rpc.op = op) = 0 := by
        rw [List.countP_eq_zero]
        intro rpc hrpc heq
        have := (hmore rpc hrpc).1
        have := of_decide_eq_true heq
        omega
      rw [Function.update_of_ne hlt.ne, hnone]
      exact h.count_le op issue hissue
    · have hnone := h.rpc_lt (le_refl s.issues.length)
      have hle := List.countP_le_length (p := fun rpc : WriteRpc => decide (rpc.op = s.issues.length)) (l := more)
      rw [Function.update_self, hnone, hzero]
      omega

theorem Numbered.step (h : s.Numbered) {a : ServiceAction} (hs : s.step codec a = some s') (hlen : s'.issues.length < 2 ^ 64) :
    s'.Numbered := by
  cases moves_of_step hs with
  | cluster => exact h.same ⟨fun _ => rfl, fun _ => rfl, fun _ => rfl, rfl, rfl, fun _ => rfl⟩
  | rejected => exact h
  | failed err =>
    have hlen : (s.issues ++ [_]).length < 2 ^ 64 := hlen
    rw [List.length_append] at hlen
    have hnew := fun client call => h.enter hlen client call (r := { result := some (.error err) }) rfl [] s.stages
      (Nat.zero_le 1) fun rpc hrpc => by cases hrpc
    simp only [List.append_nil] at hnew
    exact hnew _ _
  | begun target =>
    have hlen : (s.issues ++ [_]).length < 2 ^ 64 := hlen
    rw [List.length_append] at hlen
    exact h.enter hlen _ _ (r := { target }) rfl _ _ (Nat.le_refl 1) fun rpc hrpc => by
      obtain rfl := List.mem_singleton.mp hrpc
      exact ⟨rfl, rfl⟩
  | handled => exact h.same ⟨fun _ => rfl, fun _ => rfl, fun _ => rfl, rfl, rfl, fun _ => rfl⟩
  | answered => exact h.same ⟨fun _ => rfl, fun _ => rfl, fun _ => rfl, rfl, rfl, fun _ => rfl⟩
  | @settled a op issue answer pick hissue hanswer =>
    rcases s.settle_cases op issue answer pick with ⟨response, -, -, heq⟩ | ⟨err, heq⟩ | ⟨target, hmore, heq⟩
    · rw [heq]
      refine (h.same (sameClients_finish s op (.ok ()))).same ?_
      have hlearn : ∀ id, ∃ addr, Function.update s.clients issue.client
          { s.clients issue.client with leaderAddr := (s.retries op).target } id = { s.clients id with leaderAddr := addr } := by
        intro id
        by_cases hid : id = issue.client
        · rw [hid, Function.update_self]
          exact ⟨_, rfl⟩
        · rw [Function.update_of_ne hid]
          exact ⟨_, rfl⟩
      refine ⟨fun id => ?_, fun id => ?_, fun id => ?_, rfl, rfl, fun _ => rfl⟩
      all_goals
        obtain ⟨addr, hid⟩ := hlearn id
        dsimp only
        rw [hid]
        rfl
    · rw [heq]
      exact h.same (sameClients_finish s op (.error err))
    · rw [heq]
      exact h.resend hissue hmore target

/-- Issues stay. -/
theorem issues_le_of_step {a : ServiceAction} (hs : s.step codec a = some s') : s.issues <+: s'.issues := by
  cases moves_of_step hs with
  | cluster | rejected | handled | answered => exact List.prefix_rfl
  | failed | begun => exact List.prefix_append ..
  | @settled a op issue answer pick hissue hanswer =>
    rcases s.settle_cases op issue answer pick with ⟨response, -, -, heq⟩ | ⟨err, heq⟩ | ⟨target, hmore, heq⟩
    all_goals
      rw [heq]
      exact List.prefix_rfl

/-- As long as the clients do not run out of numbers, no two logical writes share a request id.
All RPCs of one are the same request, and there are no more than `max_retry_count + 1` of them. -/
theorem writes_keep_their_ids (codec : CommandCodec) (members : Members) (config : String → Config) (settings : String → DBClient)
    (schedule : List ServiceAction) (s : Service) (h : Service.run codec members config settings schedule = some s)
    (hlen : s.issues.length < 2 ^ 64) :
    (s.issues.map Issue.requestId).Nodup ∧ ∀ op issue, s.issues[op]? = some issue →
      (∀ rpc ∈ s.rpcs, rpc.op = op → rpc.request = issue.request) ∧
      (s.rpcs.countP fun rpc => rpc.op = op) ≤ (s.clients issue.client).config.maxRetryCount.toNat + 1 := by
  have hnumbered : s.issues.length < 2 ^ 64 → s.Numbered :=
    Transition.run_invariant (fun s => s.issues.length < 2 ^ 64 → s.Numbered)
      (fun _ _ _ hs hstep hlen => (hs (lt_of_le_of_lt (issues_le_of_step hstep).length_le hlen)).step hstep hlen)
      (fun _ => numbered_init members config settings) h
  have hs := hnumbered hlen
  refine ⟨hs.nodup, fun op issue hissue => ⟨fun rpc hrpc hop => ?_, ?_⟩⟩
  · obtain ⟨x, hx, hrequest⟩ := hs.rpc rpc hrpc
    rw [hop, hissue] at hx
    cases hx
    exact hrequest
  · exact (hs.count_le op issue hissue).trans (Nat.succ_le_succ (UInt32.le_iff_toNat_le.mp (hs.attempt_le op issue hissue)))

/-- `A` and `B` do not answer the client, which has three attempts and goes to the next peer each
time. Another write of the client comes to `A` in between. -/
theorem writes_keep_their_ids_of_two : ∃ s,
    Service.run sampleCodec threeNodes (plainConfig 64)
        (fun _ => { peers := ["A", "B", "C"], config := { maxRetryCount := 2 }, clientId := "" })
        [.call "c" (.delete 1) (.ok "A"), .lose 0 0, .call "c" (.delete 1) (.ok "A"), .lose 0 1, .lose 0 0] = some s ∧
      s.issues.length = 2 ∧ (s.issues.map Issue.requestId).Nodup ∧
      (s.rpcs.countP fun rpc => rpc.op = 0) ≤ 3 := by
  obtain ⟨s, hs, hissues, hmax⟩ := Transition.exists_of_run
    (o := Service.run sampleCodec threeNodes (plainConfig 64)
      (fun _ => { peers := ["A", "B", "C"], config := { maxRetryCount := 2 }, clientId := "" })
      [.call "c" (.delete 1) (.ok "A"), .lose 0 0, .call "c" (.delete 1) (.ok "A"), .lose 0 1, .lose 0 0])
    (P := fun s => s.issues = [⟨"c", .delete 1, "c-1"⟩, ⟨"c", .delete 1, "c-2"⟩] ∧ (s.clients "c").config.maxRetryCount = 2)
    (by decide +kernel)
  have hids := writes_keep_their_ids sampleCodec threeNodes (plainConfig 64) _ _ s hs (by rw [hissues]; decide)
  have hcount := (hids.2 0 _ (by rw [hissues]; rfl)).2
  rw [hmax] at hcount
  exact ⟨s, hs, by rw [hissues]; rfl, hids.1, hcount⟩

end Service

end RaftVdb
