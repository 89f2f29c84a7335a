import RaftVdb.Client
import RaftVdb.Lib.Transition

/-!
# `ProbeLeaderConcurrently`

One thread for each peer asks it for the leader. The threads share the flag `found`, which the
first one with an address sets before it stores what it has found, and the first error. The
caller looks at these when all threads have been joined.
-/

namespace RaftVdb

open Lib

structure LeaderInfo where
  leaderId : String := ""
  leaderAddr : String := ""
  term : Nat := 0
  deriving DecidableEq, Repr

def Node.getLeaderInfo (n : Node) : LeaderInfo where
  leaderId := n.leaderId
  leaderAddr := n.leaderAddr
  term := n.currentTerm

/-- How far a thread is. -/
inductive ProbeStage where
  | start
  /-- `QueryLeaderOn` runs. -/
  | query
  /-- The error is to be stored. -/
  | fail (error : String)
  /-- An address has come, and `found` is to be exchanged. -/
  | claim (info : LeaderInfo)
  /-- `found` was not set before, and the leader is to be stored. -/
  | select (info : LeaderInfo)
  | done
  deriving DecidableEq, Repr

structure Probe where
  stages : List ProbeStage
  found : Bool := false
  lastError : String := ""
  selected : LeaderInfo := {}
  deriving DecidableEq, Repr

namespace Probe

/-- One thread for each peer that is not empty. -/
def launch (peers : List String) : Probe where
  stages := (peers.filter fun peer => peer ≠ "").map fun _ => .start

def setStage (p : Probe) (i : Nat) (stage : ProbeStage) : Probe := { p with stages := p.stages.set i stage }

/-- What a thread does next; `answer` is what it is told if it asks. -/
def advance (answer : Except String LeaderInfo) (p : Probe) (i : Nat) : ProbeStage → Option Probe
  | .start => some (p.setStage i (if p.found then .done else .query))
  | .query => some (p.setStage i (match answer with
      | .error err => .fail err
      | .ok info => if info.leaderAddr = "" then .done else .claim info))
  | .fail err => some { p.setStage i .done with lastError := if p.lastError = "" then err else p.lastError }
  | .claim info => some (if p.found then p.setStage i .done else { p.setStage i (.select info) with found := true })
  | .select info => some { p.setStage i .done with selected := info }
  | .done => none

/-- The thread of a number goes on. -/
def step (answer : Nat → Except String LeaderInfo) (p : Probe) (i : Nat) : Option Probe :=
  (p.stages[i]?).bind (p.advance (answer i) i)

/-- All threads have ended. -/
def Joined (p : Probe) : Prop := ∀ stage ∈ p.stages, stage = .done

instance (p : Probe) : Decidable p.Joined := inferInstanceAs (Decidable (∀ stage ∈ p.stages, stage = .done))

def result (p : Probe) : Except String LeaderInfo :=
  if p.selected.leaderAddr ≠ "" then .ok p.selected
  else if p.lastError ≠ "" then .error ("未找到可用 Leader: " ++ p.lastError)
  else .error "未找到可用 Leader：所有节点仍在选举中"

/-- What a thread is about to do comes from its answer, and one that has ended has left what it
has learned, or found the flag set. -/
def Tells (answer : Except String LeaderInfo) (p : Probe) : ProbeStage → Prop
  | .start => True
  | .query => True
  | .fail err => answer = .error err
  | .claim info => answer = .ok info ∧ info.leaderAddr ≠ ""
  | .select info => answer = .ok info ∧ info.leaderAddr ≠ "" ∧ p.found = true
  | .done => p.found = true ∨ (∃ info, answer = .ok info ∧ info.leaderAddr = "") ∨
      ∃ err, answer = .error err ∧ (p.lastError = "" → err = "")

structure Inv (answer : Nat → Except String LeaderInfo) (p : Probe) : Prop where
  tells : ∀ i stage, p.stages[i]? = some stage → p.Tells (answer i) stage
  /-- Whoever has set the flag stores the leader, or has done so. -/
  found : p.found = true → p.selected.leaderAddr ≠ "" ∨ ∃ info, .select info ∈ p.stages
  selected : p.selected.leaderAddr ≠ "" → ∃ i, i < p.stages.length ∧ answer i = .ok p.selected
  lastError : p.lastError ≠ "" → ∃ i, i < p.stages.length ∧ answer i = .error p.lastError

variable {answer : Nat → Except String LeaderInfo} {p p' : Probe}

theorem inv_launch (answer : Nat → Except String LeaderInfo) (peers : List String) : (launch peers).Inv answer where
  tells i stage hstage := by
    obtain ⟨_, -, rfl⟩ := List.mem_map.mp (List.mem_of_getElem? hstage)
    trivial
  found h := by cases h
  selected h := absurd rfl h
  lastError h := absurd rfl h

/-- A flag that is set and an error that is stored stay. -/
theorem Tells.mono {a : Except String LeaderInfo} {stage : ProbeStage} (h : p.Tells a stage) (hfound : p.found = true → p'.found = true)
    (herror : p'.lastError = "" → p.lastError = "") : p'.Tells a stage := by
  cases stage with
  | done =>
    rcases h with h | h | ⟨err, ha, he⟩
    · exact .inl (hfound h)
    · exact .inr (.inl h)
    · exact .inr (.inr ⟨err, ha, fun hnone => he (herror hnone)⟩)
  | select info => exact ⟨h.1, h.2.1, hfound h.2.2⟩
  | start | query | fail | claim => exact h

theorem tells_set {i : Nat} {stage : ProbeStage} (h : ∀ j stage, p.stages[j]? = some stage → p.Tells (answer j) stage)
    (hfound : p.found = true → p'.found = true) (herror : p'.lastError = "" → p.lastError = "")
    (hstages : p'.stages = p.stages.set i stage) (hnew : p'.Tells (answer i) stage) (j : Nat) (stage' : ProbeStage)
    (hj : p'.stages[j]? = some stage') : p'.Tells (answer j) stage' := by
  rw [hstages, List.getElem?_set] at hj
  split at hj
  · next heq =>
    subst heq
    split at hj
    · cases hj
      exact hnew
    · cases hj
  · exact (h j stage' hj).mono hfound herror

/-- A thread that is not storing the leader goes on; the others do not move. -/
theorem found_set {i : Nat} {old stage : ProbeStage} (hold : p.stages[i]? = some old) (hother : ∀ info, old ≠ .select info)
    (h : p.selected.leaderAddr ≠ "" ∨ ∃ info, .select info ∈ p.stages) :
    p.selected.leaderAddr ≠ "" ∨ ∃ info, .select info ∈ p.stages.set i stage := by
  refine h.imp_right fun ⟨info, hinfo⟩ => ⟨info, ?_⟩
  obtain ⟨j, hj⟩ := List.mem_iff_getElem?.mp hinfo
  refine List.mem_of_getElem? (i := j) ?_
  rw [List.getElem?_set_ne]
  · exact hj
  · rintro rfl
    exact hother info (Option.some.inj (hold.symm.trans hj))

theorem Inv.step (h : p.Inv answer) {i : Nat} (hs : p.step answer i = some p') : p'.Inv answer := by
  obtain ⟨stage, hstage, hs⟩ := Option.bind_eq_some_iff.mp hs
  have htells := h.tells i stage hstage
  have hlt := (List.getElem?_eq_some_iff.mp hstage).1
  have hlen : ∀ {new : ProbeStage}, i < (p.stages.set i new).length := by
    intro new
    rw [List.length_set]
    exact hlt
  cases stage with
  | start =>
    obtain rfl := Option.some.inj hs
    refine ⟨tells_set h.tells id id rfl ?_, fun hf => found_set hstage (fun _ => nofun) (h.found hf), ?_, ?_⟩
    · cases hfound : p.found with
      | true => exact .inl hfound
      | false => trivial
    · simpa [setStage] using h.selected
    · simpa [setStage] using h.lastError
  | query =>
    obtain rfl := Option.some.inj hs
    refine ⟨tells_set h.tells id id rfl ?_, fun hf => found_set hstage (fun _ => nofun) (h.found hf), ?_, ?_⟩
    · cases hanswer : answer i with
      | error err => exact rfl
      | ok info =>
        dsimp only
        split
        · next hnone => exact .inr (.inl ⟨info, rfl, hnone⟩)
        · next hsome => exact ⟨rfl, hsome⟩
    · simpa [setStage] using h.selected
    · simpa [setStage] using h.lastError
  | fail err =>
    obtain rfl := Option.some.inj hs
    refine ⟨tells_set h.tells id (fun hnone => ?_) rfl ?_, fun hf => found_set hstage (fun _ => nofun) (h.found hf), ?_, ?_⟩
    · dsimp only at hnone
      split at hnone
      · next hempty => exact hempty
      · exact hnone
    · refine .inr (.inr ⟨err, htells, fun hnone => ?_⟩)
      dsimp only at hnone
      split at hnone
      · exact hnone
      · next hne => exact absurd hnone hne
    · simpa [setStage] using h.selected
    · intro hne
      dsimp only at hne ⊢
      split at hne
      · next hempty =>
        rw [if_pos hempty]
        exact ⟨i, hlen, htells⟩
      · next hsome =>
        rw [if_neg hsome]
        simpa [setStage] using h.lastError hsome
  | claim info =>
    obtain ⟨hanswer, haddr⟩ := htells
    simp only [advance, Option.some.injEq] at hs
    subst hs
    split
    · next hfound =>
      refine ⟨tells_set h.tells id id rfl (.inl hfound), fun hf => found_set hstage (fun _ => nofun) (h.found hf), ?_, ?_⟩
      · simpa [setStage] using h.selected
      · simpa [setStage] using h.lastError
    · refine ⟨tells_set h.tells (fun _ => rfl) id rfl ⟨hanswer, haddr, rfl⟩, fun _ => .inr ⟨info, ?_⟩, ?_, ?_⟩
      · exact List.mem_of_getElem? (List.getElem?_set_self hlt)
      · simpa [setStage] using h.selected
      · simpa [setStage] using h.lastError
  | select info =>
    obtain ⟨hanswer, haddr, hfound⟩ := htells
    obtain rfl := Option.some.inj hs
    refine ⟨tells_set h.tells id id rfl (.inl hfound), fun _ => .inl haddr, fun _ => ⟨i, hlen, hanswer⟩, ?_⟩
    simpa [setStage] using h.lastError
  | done => cases hs

theorem length_of_step {i : Nat} (hs : p.step answer i = some p') : p'.stages.length = p.stages.length := by
  obtain ⟨stage, -, hs⟩ := Option.bind_eq_some_iff.mp hs
  cases stage with
  | start | query | fail | select =>
    cases hs
    exact List.length_set ..
  | claim info =>
    cases hs
    split <;> exact List.length_set ..
  | done => cases hs

/-- There is a thread for each peer that is not empty. -/
theorem length_of_run {answer : Nat → Except String LeaderInfo} {peers : List String} {schedule : List Nat}
    (h : Transition.run (step answer) (launch peers) schedule = some p) :
    p.stages.length = (peers.filter fun peer => peer ≠ "").length :=
  Transition.run_invariant (fun p => p.stages.length = (peers.filter fun peer => peer ≠ "").length)
    (fun _ _ _ hp hs => (length_of_step hs).trans hp) (List.length_map _) h

/-- Whatever the order of the threads, `ProbeLeaderConcurrently` finds a leader exactly if some
peer names one, and it returns what such a peer has said. If not, it returns the error of a
peer, or none of them has failed. -/
theorem probe_finds_leader (answer : Nat → Except String LeaderInfo) (peers : List String) (schedule : List Nat) (p : Probe)
    (h : Transition.run (step answer) (launch peers) schedule = some p) (hjoined : p.Joined) :
    (∃ i info, i < p.stages.length ∧ answer i = .ok info ∧ info.leaderAddr ≠ "" ∧ p.result = .ok info) ∨
    ((∀ i info, i < p.stages.length → answer i = .ok info → info.leaderAddr = "") ∧
      ((∃ i err, i < p.stages.length ∧ answer i = .error err ∧ err ≠ "" ∧ p.result = .error ("未找到可用 Leader: " ++ err)) ∨
        ((∀ i err, i < p.stages.length → answer i = .error err → err = "") ∧
          p.result = .error "未找到可用 Leader：所有节点仍在选举中"))) := by
  have hinv := Transition.run_invariant (fun p => p.Inv answer) (fun _ _ _ hp hs => hp.step hs) (inv_launch answer peers) h
  have hdone : ∀ i, i < p.stages.length → p.Tells (answer i) .done := fun i hi =>
    hinv.tells i .done (by rw [List.getElem?_eq_getElem hi, hjoined _ (List.getElem_mem hi)])
  unfold result
  by_cases haddr : p.selected.leaderAddr = ""
  · have hfound : p.found ≠ true := by
      intro hfound
      rcases hinv.found hfound with hne | ⟨info, hinfo⟩
      · exact hne haddr
      · cases hjoined _ hinfo
    refine .inr ⟨fun i info hi hanswer => ?_, ?_⟩
    · rcases hdone i hi with hf | ⟨x, hx, hnone⟩ | ⟨err, herr, -⟩
      · exact absurd hf hfound
      · cases hanswer.symm.trans hx
        exact hnone
      · cases hanswer.symm.trans herr
    rw [if_neg (not_not.mpr haddr)]
    by_cases herror : p.lastError = ""
    · refine .inr ⟨fun i err hi hanswer => ?_, by rw [if_neg (not_not.mpr herror)]⟩
      rcases hdone i hi with hf | ⟨x, hx, -⟩ | ⟨e, he, hempty⟩
      · exact absurd hf hfound
      · cases hanswer.symm.trans hx
      · cases hanswer.symm.trans he
        exact hempty herror
    · obtain ⟨i, hi, hanswer⟩ := hinv.lastError herror
      exact .inl ⟨i, _, hi, hanswer, herror, by rw [if_pos herror]⟩
  · obtain ⟨i, hi, hanswer⟩ := hinv.selected haddr
    exact .inl ⟨i, _, hi, hanswer, haddr, by rw [if_pos haddr]⟩

/-- What matters to the callers: a leader that a peer has named, or an error if no peer names one. -/
theorem finds_or_fails (answer : Nat → Except String LeaderInfo) (peers : List String) (schedule : List Nat) (p : Probe)
    (h : Transition.run (step answer) (launch peers) schedule = some p) (hjoined : p.Joined) :
    (∃ i info, i < p.stages.length ∧ answer i = .ok info ∧ info.leaderAddr ≠ "" ∧ p.result = .ok info) ∨
    ((∀ i info, i < p.stages.length → answer i = .ok info → info.leaderAddr = "") ∧ ∃ err, p.result = .error err) := by
  rcases probe_finds_leader answer peers schedule p h hjoined with hfound | ⟨hnone, ⟨_, _, -, -, -, herror⟩ | ⟨-, herror⟩⟩
  · exact .inl hfound
  · exact .inr ⟨hnone, _, herror⟩
  · exact .inr ⟨hnone, _, herror⟩

end Probe

namespace DBClient

/-- `Connect`, with what `ProbeLeaderConcurrently` finds. `clientId` is the one that is asked for,
or else the one of `GenerateClientId`. -/
def connect (peers : List String) (config : ClientConfig) (clientId : String) (probe : Except String LeaderInfo) :
    Except String DBClient :=
  match validatePeers peers with
  | .error err => .error err
  | .ok () => probe.map fun leader => { peers, config, clientId, leaderAddr := leader.leaderAddr }

theorem validatePeers_of_mem {peers : List String} {peer : String} (hmem : peer ∈ peers) (hne : peer ≠ "") :
    validatePeers peers = .ok () := by
  have hany : (peers.any fun peer => peer ≠ "") = true := List.any_eq_true.mpr ⟨peer, hmem, decide_eq_true hne⟩
  rw [validatePeers, if_neg (List.ne_nil_of_mem hmem), if_neg (by rw [hany]; simp)]

/-- Whatever the order of the threads, `Connect` succeeds exactly if some peer names a leader, and
then the client knows one that was named. -/
theorem connect_finds (peers : List String) (config : ClientConfig) (clientId : String)
    (answer : Nat → Except String LeaderInfo) (schedule : List Nat) (p : Probe)
    (h : Transition.run (Probe.step answer) (Probe.launch peers) schedule = some p) (hjoined : p.Joined) :
    ((∃ client, connect peers config clientId p.result = .ok client) ↔
      ∃ i leader, i < p.stages.length ∧ answer i = .ok leader ∧ leader.leaderAddr ≠ "") ∧
    ∀ client, connect peers config clientId p.result = .ok client →
      ∃ i leader, i < p.stages.length ∧ answer i = .ok leader ∧ client = { peers, config, clientId, leaderAddr := leader.leaderAddr } := by
  rcases Probe.finds_or_fails answer peers schedule p h hjoined with ⟨i, leader, hi, hanswer, haddr, hresult⟩ | ⟨hnone, err, hresult⟩
  · have hpeers : 0 < (peers.filter fun peer => peer ≠ "").length := Probe.length_of_run h ▸ Nat.zero_lt_of_lt hi
    obtain ⟨peer, hpeer⟩ := List.exists_mem_of_length_pos hpeers
    obtain ⟨hmem, hne⟩ := List.mem_filter.mp hpeer
    rw [connect, validatePeers_of_mem hmem (of_decide_eq_true hne), hresult]
    refine ⟨⟨fun _ => ⟨i, leader, hi, hanswer, haddr⟩, fun _ => ⟨_, rfl⟩⟩, fun client hclient => ?_⟩
    cases hclient
    exact ⟨i, leader, hi, hanswer, rfl⟩
  · have hfails : ∀ client, connect peers config clientId p.result ≠ .ok client := by
      intro client hclient
      rw [connect, hresult] at hclient
      split at hclient <;> cases hclient
    refine ⟨⟨fun ⟨client, hclient⟩ => absurd hclient (hfails client), ?_⟩, fun client hclient => absurd hclient (hfails client)⟩
    rintro ⟨i, leader, hi, hanswer, haddr⟩
    exact absurd (hnone i leader hi hanswer) haddr

/-- `GetLeader`, with what `QueryLeaderOn` and `ProbeLeaderConcurrently` would find. -/
def getLeader (client : DBClient) (query : String → Except String LeaderInfo) (probe : Except String LeaderInfo) :
    Except String LeaderInfo × DBClient :=
  let cached := if client.leaderAddr = "" then none
    else (query client.leaderAddr).toOption.filter fun leader => leader.leaderAddr ≠ ""
  match cached with
  | some leader => (.ok leader, { client with leaderAddr := leader.leaderAddr })
  | none => match probe with
    | .error err => (.error err, client)
    | .ok leader => (.ok leader, { client with leaderAddr := leader.leaderAddr })

/-- Whatever the order of the threads, `GetLeader` succeeds exactly if the leader that the client
knew or some peer names a leader. Whom it returns has been named so, and this is whom the
client knows from then on. -/
theorem get_leader_finds (client : DBClient) (query : String → Except String LeaderInfo) (answer : Nat → Except String LeaderInfo)
    (schedule : List Nat) (p : Probe) (h : Transition.run (Probe.step answer) (Probe.launch client.peers) schedule = some p)
    (hjoined : p.Joined) :
    ((∃ leader, (client.getLeader query p.result).1 = .ok leader) ↔
      (client.leaderAddr ≠ "" ∧ ∃ leader, query client.leaderAddr = .ok leader ∧ leader.leaderAddr ≠ "") ∨
        ∃ i leader, i < p.stages.length ∧ answer i = .ok leader ∧ leader.leaderAddr ≠ "") ∧
    ∀ leader, (client.getLeader query p.result).1 = .ok leader →
      (client.getLeader query p.result).2 = { client with leaderAddr := leader.leaderAddr } ∧ leader.leaderAddr ≠ "" ∧
        (query client.leaderAddr = .ok leader ∨ ∃ i, i < p.stages.length ∧ answer i = .ok leader) := by
  have hprobe := Probe.finds_or_fails answer client.peers schedule p h hjoined
  unfold getLeader
  dsimp only
  generalize hcached : (if client.leaderAddr = "" then none
    else (query client.leaderAddr).toOption.filter fun leader => leader.leaderAddr ≠ "") = cached
  cases cached with
  | some known =>
    split at hcached
    · cases hcached
    next hknows =>
    obtain ⟨hquery, haddr⟩ := Option.filter_eq_some_iff.mp hcached
    have hquery := Transition.ok_of_toOption hquery
    have haddr : known.leaderAddr ≠ "" := of_decide_eq_true haddr
    refine ⟨⟨fun _ => .inl ⟨hknows, known, hquery, haddr⟩, fun _ => ⟨known, rfl⟩⟩, fun leader hleader => ?_⟩
    cases hleader
    exact ⟨rfl, haddr, .inl hquery⟩
  | none =>
    have hunknown : ¬ (client.leaderAddr ≠ "" ∧ ∃ leader, query client.leaderAddr = .ok leader ∧ leader.leaderAddr ≠ "") := by
      rintro ⟨hknows, leader, hquery, haddr⟩
      rw [if_neg hknows, hquery] at hcached
      exact Option.filter_eq_none_iff.mp hcached leader rfl (decide_eq_true haddr)
    rcases hprobe with ⟨i, info, hi, hanswer, haddr, hresult⟩ | ⟨hnone, err, hresult⟩
    · rw [hresult]
      refine ⟨⟨fun _ => .inr ⟨i, info, hi, hanswer, haddr⟩, fun _ => ⟨info, rfl⟩⟩, fun leader hleader => ?_⟩
      cases hleader
      exact ⟨rfl, haddr, .inr ⟨i, hi, hanswer⟩⟩
    · rw [hresult]
      refine ⟨⟨fun ⟨leader, hleader⟩ => (by cases hleader), fun hnamed => ?_⟩, fun leader hleader => (by cases hleader)⟩
      rcases hnamed with hknown | ⟨i, leader, hi, hanswer, haddr⟩
      · exact absurd hknown hunknown
      · exact absurd (hnone i leader hi hanswer) haddr

/-- A node that takes `leaderId` for the leader of `term`. -/
def following (leaderId : String) (term : Nat) : Node :=
  { Node.create { nodeId := "C", peers := [], snapshotThreshold := 0, batchMaxEntries := 64 } {} {} none with
    currentTerm := term, leaderId }

def threePeers : Nat → Except String LeaderInfo
  | 0 => .error "GetLeader RPC 失败: "
  | 1 => .ok (following "A" 1).getLeaderInfo
  | _ => .ok (following "B" 2).getLeaderInfo

/-- The peers that know of a leader name different ones. The last thread is the first to set the
flag, and is overtaken before it stores its leader. -/
theorem get_leader_finds_newer : ∃ p,
    Transition.run (Probe.step threePeers) (Probe.launch ["A", "B", "C"]) [0, 1, 2, 0, 1, 2, 2, 1, 0, 2] = some p ∧
      (getLeader { peers := ["A", "B", "C"], leaderAddr := "A", clientId := "c" } (fun _ => .error "") p.result).2.leaderAddr = "B" := by
  obtain ⟨p, hp, hjoined, hresult⟩ := Transition.exists_of_run
    (o := Transition.run (Probe.step threePeers) (Probe.launch ["A", "B", "C"]) [0, 1, 2, 0, 1, 2, 2, 1, 0, 2])
    (P := fun p => p.Joined ∧ p.result.toOption = some { leaderId := "B", leaderAddr := "B", term := 2 }) (by decide +kernel)
  obtain ⟨hclient, -⟩ := (get_leader_finds { peers := ["A", "B", "C"], leaderAddr := "A", clientId := "c" } (fun _ => .error "")
    threePeers _ p hp hjoined).2 { leaderId := "B", leaderAddr := "B", term := 2 } (by rw [Transition.ok_of_toOption hresult]; rfl)
  exact ⟨p, hp, by rw [hclient]⟩

end DBClient

end RaftVdb
