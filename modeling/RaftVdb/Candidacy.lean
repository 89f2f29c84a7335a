import RaftVdb.Progress
import RaftVdb.Votes

/-!
# The votes behind a leader

`StartElection` on one node, cut into its critical sections of `state_mutex_` and the
reads between them, interleaved with the steps of the RPC handlers. The check of role and
term and the promotion are two critical sections; `BecomeLeader` takes whatever term it
finds. `grants` lists who has granted a vote in answer to a request of which term, the
candidate itself included, and `led` the terms in which the node became leader.
-/

namespace RaftVdb.Candidacy

open Lib

/-- The locals of `StartElection` while its threads wait for the peers. -/
structure Poll where
  term : Nat
  highestTerm : Nat
  grantedVotes : Nat := 1
  waiting : List String
  deriving DecidableEq, Repr

/-- `StartElection`, by the next step it will take. -/
inductive Thread where
  /-- Before the read of `current_term_` for the request. -/
  | reading
  | polling (poll : Poll)
  /-- Before `BecomeFollower` with the highest term of the answers. -/
  | following (term : Nat)
  | checking (term : Nat) (grantedVotes : Nat)
  /-- Before `BecomeLeader`. -/
  | promoting (term : Nat)
  deriving DecidableEq, Repr

structure State where
  node : Votes.State
  peers : List String
  thread : Option Thread := none
  grants : List (String × Nat) := []
  led : List Nat := []
  deriving DecidableEq, Repr

inductive Action where
  /-- A handler is called, or takes its next step with this end of its `Save`. -/
  | enter (c : Votes.Call)
  | advance (i : Nat) (logIsUpToDate : Bool) (save : Votes.Save)
  | becomeCandidate (save : Votes.Save)
  | readTerm
  /-- The call to a peer ends, with the term and the vote of the response if there is one. -/
  | respond (peer : String) (response : Option (Nat × Bool))
  | join
  | becomeFollower (save : Votes.Save)
  | check
  /-- The critical section of `BecomeLeader`, which may fail after it has set `leader_id_`. -/
  | becomeLeader (save : Votes.Save) (ok : Bool)
  | crash (undone : Nat)
  deriving DecidableEq, Repr

/-- One voter thread, with the lock on the responses. -/
def Poll.respond (p : Poll) (peer : String) : Option (Nat × Bool) → Poll
  | none => { p with waiting := p.waiting.erase peer }
  | some (term, granted) =>
    { p with
      highestTerm := max p.highestTerm term
      grantedVotes := if granted then p.grantedVotes + 1 else p.grantedVotes
      waiting := p.waiting.erase peer }

/-- `BecomeLeader` of a node with peers. -/
def promote (s : State) (save : Votes.Save) (ok : Bool) : State :=
  match Votes.becomeLeader s.node save with
  | (node, false) => { s with node, thread := none }
  | (leader, true) =>
    if ok then { s with node := leader, thread := none, led := leader.currentTerm :: s.led }
    else { s with node := { leader with role := s.node.role }, thread := none }

def step (s : State) : Action → Option State
  | .enter c => (Votes.step s.node (.enter c)).map fun node => { s with node }
  | .advance i logIsUpToDate save =>
    (Votes.step s.node (.advance i logIsUpToDate save)).map fun node => { s with node }
  | .crash undone => (Votes.step s.node (.crash undone)).map fun node => { s with node, thread := none }
  | .becomeCandidate save =>
    if s.thread = none ∧ s.node.role ≠ .leader then
      match Votes.becomeCandidate s.node save with
      | (node, false) => some { s with node }
      | (node, true) =>
        some { s with node, thread := some .reading, grants := (node.selfId, node.currentTerm) :: s.grants }
    else none
  | .readTerm =>
    match s.thread with
    | some .reading =>
      let term := s.node.currentTerm
      some { s with thread := some (.polling { term, highestTerm := term, waiting := s.peers }) }
    | _ => none
  | .respond peer response =>
    match s.thread with
    | some (.polling p) =>
      if peer ∈ p.waiting then
        some
          { s with
            thread := some (.polling (p.respond peer response))
            grants := if (response.map Prod.snd).getD false then (peer, p.term) :: s.grants else s.grants }
      else none
    | _ => none
  | .join =>
    match s.thread with
    | some (.polling p) =>
      if p.waiting = [] then
        some { s with thread := some (if p.highestTerm > p.term then .following p.highestTerm
          else .checking p.term p.grantedVotes) }
      else none
    | _ => none
  | .becomeFollower save =>
    match s.thread with
    | some (.following term) => some { s with node := (Votes.becomeFollower s.node term "" save).1, thread := none }
    | _ => none
  | .check =>
    match s.thread with
    | some (.checking term grantedVotes) =>
      some { s with thread :=
        if s.node.role ≠ .candidate ∨ s.node.currentTerm ≠ term then none
        else if grantedVotes ≥ quorumSize s.peers then some (.promoting term)
        else none }
    | _ => none
  | .becomeLeader save ok =>
    match s.thread with
    | some (.promoting _) => some (promote s save ok)
    | _ => none

/-- A quorum of the members has granted this node its vote in the term. -/
def Elected (s : State) (term : Nat) : Prop :=
  ∃ voters : List String, voters.Nodup ∧ voters ⊆ s.node.selfId :: s.peers ∧
    quorumSize s.peers ≤ voters.length ∧ ∀ v ∈ voters, (v, term) ∈ s.grants

/-- `BecomeLeader` finds the term of the election, which has not wrapped around to zero. -/
def PromotesInTerm (s : State) : Action → Prop
  | .becomeLeader _ _ => ∀ term, s.thread = some (.promoting term) → s.node.currentTerm = term ∧ term ≠ 0
  | _ => True

instance (s : State) (a : Action) : Decidable (PromotesInTerm s a) := by
  cases a with
  | becomeLeader save ok =>
    simp only [PromotesInTerm]
    match s.thread with
    | some (.promoting term) =>
      exact decidable_of_iff (s.node.currentTerm = term ∧ term ≠ 0) (by simp)
    | none | some .reading | some (.polling _) | some (.following _) | some (.checking _ _) =>
      exact isTrue (by simp)
  | _ => exact isTrue trivial

/-! ## What a handler can do to a candidate -/

/-- A step that makes no candidate and leaves a candidate its term. -/
structure Keeps (n n' : Votes.State) : Prop where
  selfId : n'.selfId = n.selfId
  candidate : n'.role = .candidate → n.role = .candidate ∧ n'.currentTerm = n.currentTerm

theorem Keeps.refl (n : Votes.State) : Keeps n n := ⟨rfl, fun h => ⟨h, rfl⟩⟩

theorem keeps_persistMeta {n n' : Votes.State} {term : Nat} {votedFor : String} {save : Votes.Save} {ok : Bool}
    (h : Votes.persistMeta n term votedFor save = (n', ok)) : Keeps n n' := by
  cases save <;> cases h <;> exact ⟨rfl, fun h => ⟨h, rfl⟩⟩

theorem keeps_becomeFollower (n : Votes.State) (term : Nat) (leaderId : String) (save : Votes.Save) :
    Keeps n (Votes.becomeFollower n term leaderId save).1 := by
  unfold Votes.becomeFollower
  split
  · exact .refl n
  split
  · next hs => exact keeps_persistMeta hs
  · next hs => exact ⟨(keeps_persistMeta hs).selfId, fun h => by cases h⟩

theorem keeps_advanceCall (n : Votes.State) (logIsUpToDate : Bool) (save : Votes.Save) (c : Votes.Call) :
    Keeps n (Votes.advanceCall n logIsUpToDate save c).1 := by
  cases c with
  | voteRead term candidateId =>
    simp only [Votes.advanceCall]
    split
    · exact .refl n
    · split <;> exact .refl n
  | voteFollow term candidateId =>
    have hnext := keeps_becomeFollower n term "" save
    simp only [Votes.advanceCall]
    split <;> next hs =>
      rw [hs] at hnext
      exact hnext
  | voteDecide term candidateId =>
    simp only [Votes.advanceCall, Votes.decideVote]
    split
    · split
      · next hs => exact keeps_persistMeta hs
      · next hs => exact ⟨(keeps_persistMeta hs).selfId, fun h => by cases h⟩
    · exact .refl n
  | appendLock term leaderId =>
    simp only [Votes.advanceCall]
    split
    · exact .refl n
    · exact ⟨rfl, fun h => ⟨h, rfl⟩⟩
  | follow term leaderId => exact keeps_becomeFollower n term leaderId save
  | appendRead term leaderId | appendState term leaderId currentTerm | snapshotRead term | snapshotTerm term
  | snapshotState term =>
    simp only [Votes.advanceCall]
    split <;> exact .refl n

theorem keeps_advance {n n' : Votes.State} {i : Nat} {logIsUpToDate : Bool} {save : Votes.Save}
    (h : Votes.step n (.advance i logIsUpToDate save) = some n') : Keeps n n' := by
  simp only [Votes.step, Option.map_eq_some_iff] at h
  obtain ⟨c, -, rfl⟩ := h
  exact ⟨(keeps_advanceCall n logIsUpToDate save c).selfId, (keeps_advanceCall n logIsUpToDate save c).candidate⟩

theorem keeps_becomeCandidate_refused {n n' : Votes.State} {save : Votes.Save}
    (h : Votes.becomeCandidate n save = (n', false)) : Keeps n n' := by
  unfold Votes.becomeCandidate at h
  split at h
  · next hs =>
    cases h
    exact keeps_persistMeta hs
  · cases h

theorem selfId_becomeCandidate {n n' : Votes.State} {save : Votes.Save} {ok : Bool}
    (h : Votes.becomeCandidate n save = (n', ok)) : n'.selfId = n.selfId := by
  unfold Votes.becomeCandidate at h
  split at h <;> next hs =>
    cases h
    exact (keeps_persistMeta hs).selfId

theorem keeps_restart {n n' : Votes.State} {undone : Nat} (h : Votes.restart n undone = some n') : Keeps n n' := by
  unfold Votes.restart at h
  split at h
  · cases h
  · cases h
    exact ⟨rfl, fun h => by cases h⟩

/-! ## The invariant -/

/-- So many votes of the term, that of the candidate aside, come from distinct peers that
no thread waits for. -/
def Counted (s : State) (term grantedVotes : Nat) (waiting : List String) : Prop :=
  ∃ voters : List String, voters.Nodup ∧ voters ⊆ s.peers ∧ (∀ v ∈ voters, v ∉ waiting) ∧
    grantedVotes ≤ voters.length + 1 ∧ ∀ v ∈ voters, (v, term) ∈ s.grants

/-- What the thread of `StartElection` can rely on. -/
def ThreadInv (s : State) : Thread → Prop
  | .reading => True
  | .polling p => p.waiting.Nodup ∧ p.waiting ⊆ s.peers ∧ Counted s p.term p.grantedVotes p.waiting
  | .following _ => True
  | .checking term grantedVotes => Counted s term grantedVotes []
  | .promoting term => Elected s term

structure Inv (s : State) : Prop where
  nodup : s.peers.Nodup
  self : s.node.selfId ∉ s.peers
  candidate : s.node.role = .candidate → (s.node.selfId, s.node.currentTerm) ∈ s.grants
  thread : ∀ t ∈ s.thread, ThreadInv s t
  led : ∀ term ∈ s.led, Elected s term

variable {s s' : State}

theorem Elected.mono {term : Nat} (h : Elected s term) (hself : s'.node.selfId = s.node.selfId)
    (hpeers : s'.peers = s.peers) (hgrants : s.grants ⊆ s'.grants) : Elected s' term := by
  obtain ⟨voters, hnodup, hsub, hquorum, hgrant⟩ := h
  refine ⟨voters, hnodup, ?_, ?_, fun v hv => hgrants (hgrant v hv)⟩
  · rw [hself, hpeers]
    exact hsub
  · rw [hpeers]
    exact hquorum

theorem Counted.mono {term grantedVotes : Nat} {waiting waiting' : List String} (h : Counted s term grantedVotes waiting)
    (hpeers : s'.peers = s.peers) (hgrants : s.grants ⊆ s'.grants) (hwaiting : waiting' ⊆ waiting) :
    Counted s' term grantedVotes waiting' := by
  obtain ⟨voters, hnodup, hsub, hfree, hcount, hgrant⟩ := h
  refine ⟨voters, hnodup, ?_, fun v hv hw => hfree v hv (hwaiting hw), hcount, fun v hv => hgrants (hgrant v hv)⟩
  rw [hpeers]
  exact hsub

theorem ThreadInv.mono {t : Thread} (h : ThreadInv s t) (hself : s'.node.selfId = s.node.selfId)
    (hpeers : s'.peers = s.peers) (hgrants : s.grants ⊆ s'.grants) : ThreadInv s' t := by
  cases t with
  | reading => trivial
  | polling p =>
    obtain ⟨hnodup, hsub, hcounted⟩ := h
    exact ⟨hnodup, by rw [hpeers]; exact hsub, hcounted.mono hpeers hgrants (List.Subset.refl _)⟩
  | following term => trivial
  | checking term grantedVotes => exact Counted.mono h hpeers hgrants (List.Subset.refl _)
  | promoting term => exact Elected.mono h hself hpeers hgrants

/-- A step of a handler, with the thread where it is or gone. -/
theorem Inv.keep (h : Inv s) {node : Votes.State} {thread : Option Thread} (hkeep : Keeps s.node node)
    (hthread : ∀ t ∈ thread, ThreadInv s t) : Inv { s with node, thread } where
  nodup := h.nodup
  self := by
    simp only [hkeep.selfId]
    exact h.self
  candidate hs := by
    obtain ⟨hold, hterm⟩ := hkeep.candidate hs
    simp only [hkeep.selfId, hterm]
    exact h.candidate hold
  thread t ht := (hthread t ht).mono hkeep.selfId rfl (List.Subset.refl _)
  led term hterm := (h.led term hterm).mono hkeep.selfId rfl (List.Subset.refl _)

/-- A new candidate has its own vote. -/
theorem Inv.becomeCandidate (h : Inv s) {node : Votes.State} (hself : node.selfId = s.node.selfId) :
    Inv { s with node, thread := some .reading, grants := (node.selfId, node.currentTerm) :: s.grants } where
  nodup := h.nodup
  self := by
    simp only [hself]
    exact h.self
  candidate _ := List.mem_cons_self
  thread t ht := by
    cases ht
    trivial
  led term hterm := (h.led term hterm).mono hself rfl (List.subset_cons_self _ _)

/-- A peer that grants its vote is one more voter. -/
theorem Counted.respond {p : Poll} (h : Counted s p.term p.grantedVotes p.waiting) {peer : String}
    (hpeer : peer ∈ p.waiting) (hnodup : p.waiting.Nodup) (hsub : p.waiting ⊆ s.peers) (response : Option (Nat × Bool)) :
    Counted
      { s with
        thread := some (.polling (p.respond peer response))
        grants := if (response.map Prod.snd).getD false then (peer, p.term) :: s.grants else s.grants }
      p.term (p.respond peer response).grantedVotes (p.waiting.erase peer) := by
  have herase : p.waiting.erase peer ⊆ p.waiting := List.erase_subset
  match response with
  | none => exact h.mono rfl (List.Subset.refl _) herase
  | some (term, false) => exact h.mono rfl (List.Subset.refl _) herase
  | some (term, true) =>
    obtain ⟨voters, hvoters, hin, hfree, hcount, hgrant⟩ := h
    refine ⟨peer :: voters, ?_, ?_, ?_, ?_, ?_⟩
    · exact List.nodup_cons.mpr ⟨fun hv => hfree peer hv hpeer, hvoters⟩
    · exact List.cons_subset.mpr ⟨hsub hpeer, hin⟩
    · intro v hv
      rcases List.mem_cons.mp hv with rfl | hv
      · exact hnodup.not_mem_erase
      · exact fun hw => hfree v hv (herase hw)
    · simp only [Poll.respond, if_true, List.length_cons]
      omega
    · intro v hv
      rcases List.mem_cons.mp hv with rfl | hv
      · exact List.mem_cons_self
      · exact List.mem_cons_of_mem _ (hgrant v hv)

/-- The candidate's own vote makes the counted ones a quorum. -/
theorem Inv.elected (h : Inv s) {term grantedVotes : Nat} (hcounted : Counted s term grantedVotes [])
    (hrole : s.node.role = .candidate) (hterm : s.node.currentTerm = term)
    (hquorum : quorumSize s.peers ≤ grantedVotes) : Elected s term := by
  obtain ⟨voters, hnodup, hsub, -, hcount, hgrant⟩ := hcounted
  refine ⟨s.node.selfId :: voters, ?_, ?_, ?_, ?_⟩
  · exact List.nodup_cons.mpr ⟨fun hv => h.self (hsub hv), hnodup⟩
  · exact List.cons_subset_cons _ hsub
  · simp only [List.length_cons]
    omega
  · intro v hv
    rcases List.mem_cons.mp hv with rfl | hv
    · rw [← hterm]
      exact h.candidate hrole
    · exact hgrant v hv

theorem Inv.promote (h : Inv s) {term : Nat} (save : Votes.Save) (ok : Bool) (helected : Elected s term)
    (hcurrent : s.node.currentTerm = term) (hpos : term ≠ 0) : Inv (promote s save ok) := by
  have hleader : Votes.becomeLeader s.node save =
      ({ s.node with leaderId := s.node.selfId, role := .leader }, true) := by
    unfold Votes.becomeLeader
    rw [if_neg (by rw [hcurrent]; exact hpos)]
  unfold Candidacy.promote
  rw [hleader]
  cases ok with
  | false =>
    exact h.keep ⟨rfl, fun hs => ⟨hs, rfl⟩⟩ fun t ht => by cases ht
  | true =>
    refine ⟨h.nodup, h.self, ?_, ?_, ?_⟩
    · intro hs
      cases hs
    · intro t ht
      cases ht
    · intro t ht
      rcases List.mem_cons.mp ht with rfl | ht
      · rw [show ({ s.node with leaderId := s.node.selfId, role := .leader } : Votes.State).currentTerm = term from hcurrent]
        exact helected.mono rfl rfl (List.Subset.refl _)
      · exact (h.led t ht).mono rfl rfl (List.Subset.refl _)

theorem Inv.step (h : Inv s) {a : Action} (hok : PromotesInTerm s a) (hs : step s a = some s') : Inv s' := by
  have hgo : ∀ {node}, Keeps s.node node → Inv { s with node } := fun hkeep => h.keep hkeep h.thread
  cases a with
  | enter c =>
    cases hs
    exact hgo ⟨rfl, fun hr => ⟨hr, rfl⟩⟩
  | advance i logIsUpToDate save =>
    simp only [Candidacy.step, Option.map_eq_some_iff] at hs
    obtain ⟨node, hnode, rfl⟩ := hs
    exact hgo (keeps_advance hnode)
  | crash undone =>
    simp only [Candidacy.step, Option.map_eq_some_iff] at hs
    obtain ⟨node, hnode, rfl⟩ := hs
    exact h.keep (keeps_restart hnode) fun t ht => by cases ht
  | becomeCandidate save =>
    simp only [Candidacy.step] at hs
    split at hs
    · split at hs
      · next node hnode =>
        cases hs
        exact hgo (keeps_becomeCandidate_refused hnode)
      · next node hnode =>
        cases hs
        exact h.becomeCandidate (selfId_becomeCandidate hnode)
    · cases hs
  | readTerm =>
    simp only [Candidacy.step] at hs
    split at hs
    · cases hs
      refine h.keep (.refl _) fun t ht => ?_
      cases ht
      exact ⟨h.nodup, List.Subset.refl _, [], List.nodup_nil, List.nil_subset _, by simp, by simp, by simp⟩
    · cases hs
  | respond peer response =>
    simp only [Candidacy.step] at hs
    split at hs
    · next p hthread =>
      split at hs
      · next hpeer =>
        cases hs
        obtain ⟨hnodup, hsub, hcounted⟩ := h.thread _ hthread
        have hgrants : s.grants ⊆
            (if (response.map Prod.snd).getD false then (peer, p.term) :: s.grants else s.grants) := by
          split
          · exact List.subset_cons_self _ _
          · exact List.Subset.refl _
        have hwaiting : (p.respond peer response).waiting = p.waiting.erase peer := by
          cases response <;> rfl
        have hterm : (p.respond peer response).term = p.term := by
          cases response <;> rfl
        refine ⟨h.nodup, h.self, fun hr => hgrants (h.candidate hr), ?_, fun T hT => (h.led T hT).mono rfl rfl hgrants⟩
        intro t ht
        cases ht
        simp only [ThreadInv, hwaiting, hterm]
        exact ⟨hnodup.erase peer, fun v hv => hsub (List.erase_subset hv), hcounted.respond hpeer hnodup hsub response⟩
      · cases hs
    · cases hs
  | join =>
    simp only [Candidacy.step] at hs
    split at hs
    · next p hthread =>
      split at hs
      · next hempty =>
        cases hs
        obtain ⟨-, -, hcounted⟩ := h.thread _ hthread
        refine h.keep (.refl _) fun t ht => ?_
        cases ht
        split
        · trivial
        · rw [hempty] at hcounted
          exact hcounted
      · cases hs
    · cases hs
  | becomeFollower save =>
    simp only [Candidacy.step] at hs
    split at hs
    · next term hthread =>
      cases hs
      exact h.keep (keeps_becomeFollower s.node term "" save) fun t ht => by cases ht
    · cases hs
  | check =>
    simp only [Candidacy.step] at hs
    split at hs
    · next term grantedVotes hthread =>
      cases hs
      refine h.keep (.refl _) fun t ht => ?_
      split at ht
      · cases ht
      next hcheck =>
      split at ht
      · next hquorum =>
        cases ht
        obtain ⟨hrole, hterm⟩ := not_or.mp hcheck
        exact h.elected (h.thread _ hthread) (not_not.mp hrole) (not_not.mp hterm) hquorum
      · cases ht
    · cases hs
  | becomeLeader save ok =>
    simp only [Candidacy.step] at hs
    split at hs
    · next term hthread =>
      cases hs
      obtain ⟨hcurrent, hpos⟩ := hok term hthread
      exact h.promote save ok (h.thread _ hthread) hcurrent hpos
    · cases hs

/-- In every run in which each promotion finds the term of its election, a node that became
leader holds the votes of a quorum for that term. -/
theorem led_elected_of_promotesInTerm (node : Votes.State) (ids : List String) (hids : ids.Nodup)
    (hrole : node.role = .follower) (schedule : List Action) (s : State)
    (h : Transition.run (Transition.restrict PromotesInTerm step)
      { node, peers := normalizePeers node.selfId ids } schedule = some s) :
    ∀ term ∈ s.led, Elected s term := by
  have hinit : Inv { node, peers := normalizePeers node.selfId ids } := by
    refine ⟨hids.filter _, ?_, ?_, ?_, ?_⟩
    · simp [normalizePeers]
    · intro hr
      exact absurd (hrole.symm.trans hr) (by decide)
    · intro t ht
      cases ht
    · intro term hterm
      cases hterm
  refine (Transition.run_invariant Inv (fun s a t hi hst => ?_) hinit h).led
  obtain ⟨hok, hst⟩ := Transition.restrict_eq_some.mp hst
  exact hi.step hok hst

/-- Without a vote in the term nobody is elected. -/
theorem not_elected_of_grants {term : Nat} (h : ∀ g ∈ s.grants, g.2 ≠ term) : ¬ Elected s term := by
  rintro ⟨voters, -, -, hquorum, hgrant⟩
  cases voters with
  | nil => simp [quorumSize] at hquorum
  | cons v rest => exact h _ (hgrant v List.mem_cons_self) rfl

/-- `a` stands in term 1, gets the vote of `b` and passes the check. -/
def ballot : List Action :=
  [.becomeCandidate .saved, .readTerm, .respond "c" none, .respond "b" (some (1, true)), .join, .check]

theorem led_elected_after_ballot :
    ∃ s, Transition.run (Transition.restrict PromotesInTerm step)
      { node := { selfId := "a" }, peers := normalizePeers "a" ["a", "b", "c"] }
      (ballot ++ [.becomeLeader .saved true]) = some s ∧ s.led = [1] ∧ ∀ term ∈ s.led, Elected s term :=
  ⟨_, rfl, rfl, led_elected_of_promotesInTerm { selfId := "a" } ["a", "b", "c"] (by decide) rfl
    (ballot ++ [.becomeLeader .saved true]) _ rfl⟩

/-- Between the check and the promotion a vote request of term 5 arrives. `a` votes for `c`
and becomes leader of term 5, in which nobody has voted for it. -/
theorem led_unelected_after_vote_request :
    ∃ s, Transition.run step
      { node := { selfId := "a" }, peers := normalizePeers "a" ["a", "b", "c"] }
      (ballot ++ [.enter (.voteRead 5 "c"), .advance 0 true .saved, .advance 0 true .saved,
        .advance 0 true .saved, .becomeLeader .saved true]) = some s ∧
      s.node.role = .leader ∧ s.node.currentTerm = 5 ∧ s.led = [5] ∧ ¬ Elected s 5 := by
  refine ⟨_, rfl, rfl, rfl, rfl, ?_⟩
  exact not_elected_of_grants (by decide)

end RaftVdb.Candidacy
