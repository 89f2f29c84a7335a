import RaftVdb.Election
import RaftVdb.Moves

/-!
# Counted answers

`StartElection` and `BroadcastHeartbeat` send one request to each peer and count the good
answers. A count stands for that many calls, all answered and no longer waited for, and
calls of one poll go to different peers. So a leader was voted for by a majority, whatever
`BecomeFollower` did to the votes since.
-/

namespace RaftVdb

open Lib

namespace Node

/-- No way back to an earlier term, and no new election. -/
structure Abides (n n' : Node) : Prop where
  term : n.currentTerm ≤ n'.currentTerm
  election : n'.election = none ∨ n'.election = n.election

variable {n n' m : Node}

theorem Abides.refl (n : Node) : Abides n n := ⟨Nat.le_refl _, .inr rfl⟩

theorem Abides.trans (h : Abides n m) (h' : Abides m n') : Abides n n' where
  term := h.term.trans h'.term
  election := by
    rcases h'.election with hnone | heq
    · exact .inl hnone
    · rw [heq]
      exact h.election

theorem Abides.of_core (h : n'.core = m.core) (hm : Abides n m) : Abides n n' where
  term := by
    rw [eq_of_core Node.currentTerm (fun _ => rfl) h]
    exact hm.term
  election := by
    rw [eq_of_core Node.election (fun _ => rfl) h]
    exact hm.election

theorem abides_followed {term : Nat} (h : n.currentTerm ≤ term) (leaderId : String) : Abides n (n.followed term leaderId) :=
  ⟨h, .inr rfl⟩

theorem abides_noted {term : Nat} (h : n.currentTerm ≤ term) (leaderId : String) : Abides n (n.noted term leaderId) := by
  unfold noted
  split
  · exact abides_followed h leaderId
  · exact ⟨Nat.le_refl _, .inr rfl⟩

theorem abides_stepDown (n : Node) (term : Nat) : Abides n (n.stepDown term) := by
  rcases n.stepDown_cases term with ⟨-, heq⟩ | ⟨hle, hcore, -⟩
  · rw [heq]
    exact .refl n
  · exact .of_core hcore (abides_followed hle "")

theorem abides_maybeCommit (n : Node) : Abides n n.maybeCommit := by
  rcases n.maybeCommit_cases with heq | ⟨k, -, -, -, -, -, heq⟩
  · rw [heq]
    exact .refl n
  · rw [heq]
    exact ⟨Nat.le_refl _, .inr rfl⟩

theorem abides_firstTerm (n : Node) : Abides n n.firstTerm := by
  unfold firstTerm
  split
  · next hzero => exact ⟨by rw [hzero]; exact Nat.zero_le _, .inr rfl⟩
  · exact .refl n

theorem abides_handleRequestVote (n : Node) (r : RequestVoteRequest) : Abides n (n.handleRequestVote r).1 := by
  rcases n.handleRequestVote_cases r with ⟨hease, -⟩ | ⟨m, hease, -, -, -, -, heq⟩
  · exact ⟨hease.term, hease.election⟩
  · rw [heq]
    exact ⟨hease.term, hease.election⟩

theorem abides_handleHeartbeat (n : Node) (r : HeartbeatRequest) : Abides n (n.handleHeartbeat r).1 := by
  rcases n.handleHeartbeat_cases r with ⟨-, heq⟩ | ⟨hge, m, hcore, ⟨err, heq⟩ | heq⟩
  · rw [heq]
    exact .refl n
  · rw [heq]
    exact .of_core hcore (abides_noted hge r.leaderId)
  · rw [heq]
    refine (Abides.of_core hcore (abides_noted hge r.leaderId)).trans ?_
    rcases m.advanceCommit_cases r.commitIndex with ⟨hsame, -⟩ | ⟨-, hsame⟩ <;> rw [hsame]
    · exact .refl m
    · exact ⟨Nat.le_refl _, .inr rfl⟩

theorem abides_handleAppendEntries (n : Node) (r : AppendEntriesRequest) : Abides n (n.handleAppendEntries r).1 := by
  rcases n.handleAppendEntries_cases r with ⟨-, heq, -⟩ | ⟨hge, m, hcore, ⟨heq, -⟩ | ⟨-, -, heq⟩⟩
  · rw [heq]
    exact .refl n
  · rw [heq]
    exact .of_core hcore (abides_noted hge r.leaderId)
  · rw [heq]
    refine (Abides.of_core hcore (abides_noted hge r.leaderId)).trans ?_
    have hballot := m.ballot_finishAppend r
    simp only [ballot, Prod.mk.injEq] at hballot
    exact ⟨hballot.2.1.ge, .inr hballot.2.2.2.2⟩

theorem abides_handleInstallSnapshot (n : Node) (r : InstallSnapshotRequest) (complete : Bool) (keepFrom : Nat) :
    Abides n (n.handleInstallSnapshot r complete keepFrom).1 := by
  rcases n.handleInstallSnapshot_cases r complete keepFrom with heq | ⟨m, hm, hres⟩
  · rw [heq]
    exact .refl n
  have habides : Abides n m := by
    rcases hm with rfl | ⟨term, hle, hcore⟩
    · exact .refl m
    · exact .of_core hcore (abides_followed hle "")
  rcases hres with heq | heq <;> rw [heq]
  · exact habides
  · have hballot := m.ballot_applyInstalledSnapshot r.snapshot keepFrom
    simp only [ballot, Prod.mk.injEq] at hballot
    exact habides.trans ⟨hballot.2.1.ge, .inr hballot.2.2.2.2⟩

theorem abides_handle (n : Node) (complete : Bool) (keepFrom : Nat) (request : Request) :
    Abides n (n.handle complete keepFrom request).1 := by
  cases request with
  | vote r => exact n.abides_handleRequestVote r
  | heartbeat caller r => exact n.abides_handleHeartbeat r
  | append caller r => exact n.abides_handleAppendEntries r
  | install r => exact n.abides_handleInstallSnapshot r complete keepFrom

theorem Concludes.abides {e : Election} (h : n.Concludes e n') : Abides n n' ∧ n'.election = none := by
  have hidle : Abides n { n with election := none } := ⟨Nat.le_refl _, .inl rfl⟩
  cases h with
  | idle => exact ⟨hidle, rfl⟩
  | newer => exact ⟨hidle.trans (abides_stepDown _ _), election_stepDown _ _⟩
  | failed _ hcore =>
    have hterm : Abides n { n.firstTerm with election := none, leaderId := n.firstTerm.selfId } :=
      ⟨(abides_firstTerm n).term, .inl rfl⟩
    exact ⟨.of_core hcore hterm, eq_of_core Node.election (fun _ => rfl) hcore⟩
  | @won m log _ _ _ _ hcore =>
    have hterm : Abides n { n.firstTerm with election := none, leaderId := n.firstTerm.selfId, log, state := .leader } :=
      ⟨(abides_firstTerm n).term, .inl rfl⟩
    have hm := Abides.of_core hcore hterm
    have hnone : m.election = none := eq_of_core Node.election (fun _ => rfl) hcore
    refine ⟨hm.trans (abides_maybeCommit m), ?_⟩
    rcases (abides_maybeCommit m).election with h | h
    · exact h
    · exact h.trans hnone

theorem abides_saveSnapshot {keepFrom : Nat} (h : n.saveSnapshot keepFrom = some n') : Abides n n' := by
  have hballot := ballot_saveSnapshot h
  simp only [ballot, Prod.mk.injEq] at hballot
  exact ⟨hballot.2.1.ge, .inr hballot.2.2.2.2⟩

theorem abides_restart (n : Node) : Abides n n.restart := ⟨Nat.le_refl _, .inl rfl⟩

end Node

/-- A call goes on. -/
structure Call.Onward (call call' : Call) : Prop where
  key : call'.key = call.key
  waiting : call.waiting = false → call'.waiting = false
  reply : ∀ resp, call.reply = some resp → call'.reply = some resp

theorem Call.Onward.refl (call : Call) : call.Onward call := ⟨rfl, id, fun _ => id⟩

namespace Cluster

variable {codec : CommandCodec} {c c' : Cluster}

/-- A call that has been answered was delivered. -/
def Answered (c : Cluster) : Prop := ∀ call ∈ c.calls, call.reply.isSome → call.delivered = true

/-- What every step only adds to. -/
structure Onward (c c' : Cluster) : Prop where
  term : ∀ q, (c.nodes q).currentTerm ≤ (c'.nodes q).currentTerm
  votes : c.history.votes ⊆ c'.history.votes
  calls : ∀ (i : Nat) (call : Call), c.calls[i]? = some call → ∃ call', c'.calls[i]? = some call' ∧ call.Onward call'
  answered : c'.Answered

theorem term_put {p : String} {n' : Node} (h : (c.nodes p).currentTerm ≤ n'.currentTerm) (q : String) :
    (c.nodes q).currentTerm ≤ ((c.put p n').nodes q).currentTerm := by
  by_cases hq : q = p
  · rw [hq, put_self]
    exact h
  · rw [put_other c n' hq]

theorem Onward.put (h : c.Answered) {p : String} {n' : Node} (hn' : (c.nodes p).currentTerm ≤ n'.currentTerm) :
    Onward c (c.put p n') where
  term := term_put hn'
  votes := fun _ => id
  calls := fun _ call hcall => ⟨call, hcall, .refl call⟩
  answered := h

theorem Onward.record (h : Onward c c') {history : History} (hvotes : c'.history.votes ⊆ history.votes) :
    Onward c (c'.record history) where
  term := h.term
  votes := fun _ hx => hvotes (h.votes hx)
  calls := h.calls
  answered := h.answered

theorem Onward.send (h : Onward c c') (p : String) (messages : List (String × Request)) :
    Onward c (c'.send p messages) where
  term := h.term
  votes := h.votes
  calls := fun i call hcall => by
    obtain ⟨call', hcall', honward⟩ := h.calls i call hcall
    exact ⟨call', List.getElem?_append_left (List.getElem?_eq_some_iff.mp hcall').1 ▸ hcall', honward⟩
  answered := fun call hcall => by
    rcases List.mem_append.mp hcall with hcall | hcall
    · exact h.answered call hcall
    · obtain ⟨m, -, rfl⟩ := List.mem_map.mp hcall
      exact fun hsome => by cases hsome

theorem Onward.setCall (h : Onward c c') {i : Nat} {call call' : Call} (hcall : c'.calls[i]? = some call)
    (honward : call.Onward call') (hanswered : call'.reply.isSome → call'.delivered = true) :
    Onward c (c'.setCall i call') where
  term := h.term
  votes := h.votes
  calls := fun j x hx => by
    obtain ⟨x', hx', hon⟩ := h.calls j x hx
    by_cases hij : i = j
    · subst hij
      rw [hcall] at hx'
      cases hx'
      refine ⟨call', ?_, ?_⟩
      · exact List.getElem?_set_self (List.getElem?_eq_some_iff.mp hcall).1
      · exact ⟨honward.key.trans hon.key, fun hw => honward.waiting (hon.waiting hw),
          fun resp hr => honward.reply resp (hon.reply resp hr)⟩
    · refine ⟨x', ?_, hon⟩
      rw [Cluster.setCall]
      exact (List.getElem?_set_ne hij).trans hx'
  answered := fun x hx => by
    rcases List.mem_or_eq_of_mem_set hx with hx | rfl
    · exact h.answered x hx
    · exact hanswered

theorem Onward.dropCalls (h : Onward c c') (p : String) : Onward c (c'.dropCalls p) where
  term := h.term
  votes := h.votes
  calls := fun i call hcall => by
    obtain ⟨call', hcall', hon⟩ := h.calls i call hcall
    refine ⟨_, List.getElem?_map.trans (congrArg _ hcall'), ?_⟩
    dsimp only
    split
    · exact ⟨hon.key, fun _ => rfl, hon.reply⟩
    · exact hon
  answered := fun x hx => by
    obtain ⟨y, hy, rfl⟩ := List.mem_map.mp hx
    split
    · exact h.answered y hy
    · exact h.answered y hy

theorem votes_handled_subset (h : History) (p : String) (n : Node) (request : Request) (reply : Option Response) :
    h.votes ⊆ (h.handled p n request reply).votes := by
  unfold History.handled
  split
  · split
    · exact List.subset_cons_self _ _
    · exact fun _ => id
  · exact fun _ => id
  · exact fun _ => id

theorem onward_of_moves (h : c.Answered) {a : Action} (hmove : Moves codec c a c') : Onward c c' := by
  cases hmove with
  | work hcore => exact (Onward.put h (Node.Abides.of_core hcore (.refl _)).term).send _ _
  | forward _ _ hcore => exact (Onward.put h (Node.Abides.of_core hcore ⟨Nat.le_refl _, .inr rfl⟩).term).send _ _
  | fall hle hcore => exact .put h (Node.Abides.of_core hcore (Node.abides_followed hle "")).term
  | @stand p n' _ _ _ hn' =>
    have hterm : (c.nodes p).currentTerm ≤ n'.currentTerm := by
      rw [hn']
      exact Nat.le_succ _
    exact ((Onward.put h hterm).send _ _).record (List.subset_cons_self _ _)
  | lose _ hn' => exact .put h hn'.abides.1.term
  | @win p e m _ _ _ _ _ _ hcore =>
    have hm : (c.nodes p).currentTerm ≤ m.currentTerm := by
      rw [Node.eq_of_core Node.currentTerm (fun _ => rfl) hcore]
      exact (Node.abides_firstTerm _).term
    refine (Onward.put h (hm.trans (Node.abides_maybeCommit m).term)).record ?_
    rw [History.votes_commit]
    exact fun _ => id
  | @boot p m _ _ _ _ _ hcore =>
    have hm : (c.nodes p).currentTerm ≤ m.currentTerm := by
      rw [Node.eq_of_core Node.currentTerm (fun _ => rfl) hcore]
      exact (Node.abides_firstTerm _).term
    refine (Onward.put h (hm.trans (Node.abides_maybeCommit m).term)).record ?_
    rw [History.votes_commit]
    simp only [History.lead, History.write]
    split
    · exact List.subset_cons_self _ _
    · exact fun _ => id
  | @crash p m _ _ hcore =>
    have hm : (c.nodes p).currentTerm ≤ m.currentTerm := by
      rw [Node.eq_of_core Node.currentTerm (fun _ => rfl) hcore]
      exact (Node.abides_firstTerm _).term
    refine ((Onward.put h (hm.trans (Node.abides_restart m).term)).dropCalls p).record ?_
    split
    · exact List.subset_cons_self _ _
    · exact fun _ => id
  | @deliver i complete keepFrom call hcall hnew hdst =>
    have hunanswered : call.reply = none := by
      by_contra hne
      have := h call (List.mem_of_getElem? hcall) (Option.isSome_iff_ne_none.mpr hne)
      rw [hnew] at this
      cases this
    refine Onward.record (Onward.setCall (.put h (Node.abides_handle _ complete keepFrom _).term) hcall ?_ ?_)
      (votes_handled_subset _ _ _ _ _)
    · refine ⟨rfl, id, fun resp hr => ?_⟩
      rw [hunanswered] at hr
      cases hr
    · exact fun _ => rfl
  | @answer a i call _ _ n' hcall _ _ hn' =>
    have hterm : (c.nodes call.src).currentTerm ≤ n'.currentTerm := by
      cases hn' with
      | noted hcore => exact (Node.Abides.of_core hcore (.refl _)).term
      | merged _ hcore => exact (Node.Abides.of_core hcore (.refl _)).term
      | committed _ _ hcore => exact ((Node.Abides.of_core hcore (.refl _)).trans (Node.abides_maybeCommit _)).term
      | newer => exact (Node.abides_stepDown _ _).term
      | counted => exact Nat.le_refl _
    refine Onward.record (Onward.setCall (.put h hterm) hcall ?_ ?_) ?_
    · exact ⟨rfl, fun _ => rfl, fun _ => id⟩
    · exact h call (List.mem_of_getElem? hcall)
    · rw [History.votes_commit]
      exact fun _ => id
  | propose _ _ _ hcore =>
    refine (Onward.put h (Node.Abides.of_core hcore ⟨Nat.le_refl _, .inr rfl⟩).term).record ?_
    rw [History.votes_commit]
    exact fun _ => id
  | apply _ _ _ hcore =>
    exact (Onward.put h (Node.Abides.of_core hcore ⟨Nat.le_refl _, .inr rfl⟩).term).record fun _ => id
  | saveSnapshot hn' => exact .put h (Node.abides_saveSnapshot hn').term
  | restart => exact (Onward.put h (Node.abides_restart _).term).dropCalls _

/-- A count of good answers to requests of a node, which starts with the node itself. -/
def Counted (c : Cluster) (p : String) (good : Request → Response → Prop) (count : Nat) : Prop :=
  ∃ ids : List Nat, ids.Nodup ∧ count = ids.length + 1 ∧ ∀ i ∈ ids, ∃ (call : Call) (resp : Response),
    c.calls[i]? = some call ∧ call.src = p ∧ call.waiting = false ∧ call.reply = some resp ∧ good call.request resp

section

variable {p : String} {good : Request → Response → Prop} {count : Nat}

theorem Counted.one : Counted c p good 1 := ⟨[], List.nodup_nil, rfl, fun i hi => by cases hi⟩

theorem Counted.onward (h : Counted c p good count) (ho : Onward c c') : Counted c' p good count := by
  obtain ⟨ids, hnodup, hcount, hids⟩ := h
  refine ⟨ids, hnodup, hcount, fun i hi => ?_⟩
  obtain ⟨call, resp, hcall, hsrc, hwaiting, hreply, hgood⟩ := hids i hi
  obtain ⟨call', hcall', hon⟩ := ho.calls i call hcall
  have hkey := hon.key
  simp only [Call.key, Prod.mk.injEq] at hkey
  refine ⟨call', resp, hcall', hkey.1.trans hsrc, hon.waiting hwaiting, hon.reply resp hreply, ?_⟩
  rw [hkey.2.2]
  exact hgood

/-- One more answer. -/
theorem Counted.more (h : Counted c p good count) (ho : Onward c c') {i : Nat} {call call' : Call} {resp : Response}
    (hcall : c.calls[i]? = some call) (hwaiting : call.waiting = true) (hcall' : c'.calls[i]? = some call')
    (hsrc : call'.src = p) (hdone : call'.waiting = false) (hreply : call'.reply = some resp)
    (hgood : good call'.request resp) : Counted c' p good (count + 1) := by
  have hold := h.onward ho
  obtain ⟨ids, hnodup, hcount, hids⟩ := h
  have hnew : i ∉ ids := by
    intro hi
    obtain ⟨x, -, hx, -, hfalse, -⟩ := hids i hi
    rw [hcall] at hx
    cases hx
    rw [hwaiting] at hfalse
    cases hfalse
  refine ⟨i :: ids, List.nodup_cons.mpr ⟨hnew, hnodup⟩, ?_, ?_⟩
  · rw [List.length_cons, hcount]
  · intro j hj
    rcases List.mem_cons.mp hj with rfl | hj
    · exact ⟨call', resp, hcall', hsrc, hdone, hreply, hgood⟩
    · obtain ⟨x, resp', hx, hxsrc, hxdone, hxreply, hxgood⟩ := hids j hj
      obtain ⟨x', hx', hon⟩ := ho.calls j x hx
      have hkey := hon.key
      simp only [Call.key, Prod.mk.injEq] at hkey
      refine ⟨x', resp', hx', hkey.1.trans hxsrc, hon.waiting hxdone, hon.reply resp' hxreply, ?_⟩
      rw [hkey.2.2]
      exact hxgood

/-- A count that reaches the quorum stands for a majority, if each peer is asked once. -/
theorem Counted.majority (h : Counted c p good count) (hp : p ∈ c.members.ids)
    (hquorum : quorumSize (normalizePeers p c.members.ids) ≤ count)
    (honce : ∀ (i j : Nat) (call call' : Call) (resp resp' : Response), c.calls[i]? = some call →
      c.calls[j]? = some call' → call.src = p → call'.src = p → good call.request resp → good call'.request resp' →
      call.dst = call'.dst → i = j)
    (hpeer : ∀ call ∈ c.calls, ∀ resp, call.src = p → good call.request resp →
      call.dst ∈ normalizePeers p c.members.ids)
    {A : String → Prop} (hself : A p)
    (hother : ∀ call ∈ c.calls, ∀ resp, call.src = p → call.reply = some resp → good call.request resp → A call.dst) :
    IsMajority c.members.ids A := by
  obtain ⟨ids, hnodup, hcount, hids⟩ := h
  have hdst : ∀ i ∈ ids, ∃ (call : Call) (resp : Response), c.calls[i]? = some call ∧
      ((c.calls[i]?.map Call.dst).getD "") = call.dst ∧ call.src = p ∧ call.reply = some resp ∧
      good call.request resp := by
    intro i hi
    obtain ⟨call, resp, hcall, hsrc, -, hreply, hgood⟩ := hids i hi
    refine ⟨call, resp, hcall, ?_, hsrc, hreply, hgood⟩
    rw [hcall]
    rfl
  have hmem : ∀ q ∈ ids.map fun i => (c.calls[i]?.map Call.dst).getD "", q ∈ normalizePeers p c.members.ids ∧ A q := by
    intro q hq
    obtain ⟨i, hi, rfl⟩ := List.mem_map.mp hq
    obtain ⟨call, resp, hcall, heq, hsrc, hreply, hgood⟩ := hdst i hi
    rw [heq]
    have hin := List.mem_of_getElem? hcall
    exact ⟨hpeer call hin resp hsrc hgood, hother call hin resp hsrc hreply hgood⟩
  refine ⟨p :: ids.map fun i => (c.calls[i]?.map Call.dst).getD "", ?_, ?_, ?_, ?_⟩
  · refine List.nodup_cons.mpr ⟨fun hin => (mem_normalizePeers.mp (hmem p hin).1).2.2 rfl, ?_⟩
    refine hnodup.map_on fun i hi j hj heq => ?_
    obtain ⟨call, resp, hcall, hd, hsrc, -, hgood⟩ := hdst i hi
    obtain ⟨call', resp', hcall', hd', hsrc', -, hgood'⟩ := hdst j hj
    exact honce i j call call' resp resp' hcall hcall' hsrc hsrc' hgood hgood' (hd.symm.trans (heq.trans hd'))
  · exact List.cons_subset.mpr ⟨hp, fun q hq => (mem_normalizePeers.mp (hmem q hq).1).1⟩
  · have := length_normalizePeers hp
    rw [quorumSize] at hquorum
    rw [List.length_cons, List.length_map]
    omega
  · exact List.forall_mem_cons.mpr ⟨hself, fun q hq => (hmem q hq).2⟩

end

/-- A vote of this term is granted. -/
def Grants (T : Nat) (request : Request) (resp : Response) : Prop :=
  ∃ r a, request = .vote r ∧ r.term = T ∧ resp = .vote a ∧ a.voteGranted = true

/-- What is true of the ballots without any assumption on `BecomeFollower`. -/
structure BallotInv (c : Cluster) : Prop where
  answered : c.Answered
  request : ∀ call ∈ c.calls, ∀ r, call.request = .vote r → call.src ∈ c.members.ids ∧ r.candidateId = call.src ∧
    call.dst ∈ normalizePeers call.src c.members.ids ∧ r.term ≤ (c.nodes call.src).currentTerm
  once : ∀ (i j : Nat) (call call' : Call) (r r' : RequestVoteRequest), c.calls[i]? = some call →
    c.calls[j]? = some call' → call.request = .vote r → call'.request = .vote r' → call.src = call'.src →
    r.term = r'.term → call.dst = call'.dst → i = j
  granted : ∀ call ∈ c.calls, ∀ T resp, call.reply = some resp → Grants T call.request resp →
    c.history.Voted call.dst T call.src
  vote : ∀ x ∈ c.history.votes, x.term ≤ (c.nodes x.voter).currentTerm
  election : ∀ p e, (c.nodes p).election = some e → p ∈ c.members.ids ∧ e.term ≠ 0 ∧
    e.term ≤ (c.nodes p).currentTerm ∧ c.history.Voted p e.term p ∧ Counted c p (Grants e.term) e.grantedVotes
  led : ∀ p T, (p, T) ∈ c.history.led → p ∈ c.members.ids ∧
    (normalizePeers p c.members.ids ≠ [] → IsMajority c.members.ids fun v => c.history.Voted v T p)

theorem Onward.refl (h : c.Answered) : Onward c c where
  term := fun _ => Nat.le_refl _
  votes := fun _ => id
  calls := fun _ call hcall => ⟨call, hcall, .refl call⟩
  answered := h

theorem BallotInv.put (h : BallotInv c) {p : String} {n' : Node} (hn' : (c.nodes p).Abides n') : BallotInv (c.put p n') where
  answered := h.answered
  request := fun call hcall r hr => by
    obtain ⟨hsrc, hid, hdst, hterm⟩ := h.request call hcall r hr
    exact ⟨hsrc, hid, hdst, hterm.trans (term_put hn'.term call.src)⟩
  once := h.once
  granted := h.granted
  vote := fun x hx => (h.vote x hx).trans (term_put hn'.term x.voter)
  election := fun q e he => by
    have hold : (c.nodes q).election = some e := by
      by_cases hq : q = p
      · rw [hq, put_self] at he
        rw [hq]
        rcases hn'.election with hnone | hsame
        · rw [hnone] at he
          cases he
        · rw [← hsame]
          exact he
      · rw [put_other c n' hq] at he
        exact he
    obtain ⟨hmem, hpos, hle, hself, hcount⟩ := h.election q e hold
    exact ⟨hmem, hpos, hle.trans (term_put hn'.term q), hself, hcount⟩
  led := h.led

/-- Other calls, without new vote requests. -/
theorem BallotInv.recall (h : BallotInv c) {calls : List Call} (hon : Onward c { c with calls })
    (hold : ∀ (j : Nat) (x : Call) (r : RequestVoteRequest), calls[j]? = some x → x.request = .vote r →
      ∃ y, c.calls[j]? = some y ∧ x.key = y.key)
    (hgranted : ∀ x ∈ calls, ∀ T resp, x.reply = some resp → Grants T x.request resp →
      c.history.Voted x.dst T x.src) : BallotInv { c with calls } where
  answered := hon.answered
  request := fun x hx r hr => by
    obtain ⟨j, hj⟩ := List.mem_iff_getElem?.mp hx
    obtain ⟨y, hy, hkey⟩ := hold j x r hj hr
    simp only [Call.key, Prod.mk.injEq] at hkey
    rw [hkey.1, hkey.2.1]
    exact h.request y (List.mem_of_getElem? hy) r (hkey.2.2.symm.trans hr)
  once := fun j k x x' r r' hx hx' hr hr' hsrc hterm hdst => by
    obtain ⟨y, hy, hkey⟩ := hold j x r hx hr
    obtain ⟨y', hy', hkey'⟩ := hold k x' r' hx' hr'
    simp only [Call.key, Prod.mk.injEq] at hkey hkey'
    refine h.once j k y y' r r' hy hy' (hkey.2.2.symm.trans hr) (hkey'.2.2.symm.trans hr') ?_ hterm ?_
    · rw [← hkey.1, ← hkey'.1, hsrc]
    · rw [← hkey.2.1, ← hkey'.2.1, hdst]
  granted := hgranted
  vote := h.vote
  election := fun q e he => by
    obtain ⟨hp, hpos, hle, hself, hcount⟩ := h.election q e he
    exact ⟨hp, hpos, hle, hself, hcount.onward hon⟩
  led := h.led

theorem BallotInv.send (h : BallotInv c) (p : String) {messages : List (String × Request)}
    (hnew : ∀ m ∈ messages, ∀ r, m.2 ≠ .vote r) : BallotInv (c.send p messages) := by
  refine h.recall ((Onward.refl h.answered).send p messages) ?_ ?_
  · intro i call r hcall hr
    by_cases hi : i < c.calls.length
    · exact ⟨call, (List.getElem?_append_left hi).symm.trans hcall, rfl⟩
    · have hmem := List.mem_of_getElem? ((List.getElem?_append_right (Nat.le_of_not_lt hi)).symm.trans hcall)
      obtain ⟨m, hm, rfl⟩ := List.mem_map.mp hmem
      exact absurd hr (hnew m hm r)
  · intro call hcall T resp hreply hgood
    rcases List.mem_append.mp hcall with hcall | hcall
    · exact h.granted call hcall T resp hreply hgood
    · obtain ⟨m, -, rfl⟩ := List.mem_map.mp hcall
      cases hreply

theorem BallotInv.setCall (h : BallotInv c) {i : Nat} {call call' : Call} (hcall : c.calls[i]? = some call)
    (honward : call.Onward call') (hanswered : call'.reply.isSome → call'.delivered = true)
    (hgranted : ∀ T resp, call'.reply = some resp → Grants T call'.request resp → c.history.Voted call'.dst T call'.src) :
    BallotInv (c.setCall i call') := by
  refine h.recall ((Onward.refl h.answered).setCall hcall honward hanswered) ?_ ?_
  · intro j x r hx hr
    by_cases hij : i = j
    · subst hij
      rw [List.getElem?_set_self (List.getElem?_eq_some_iff.mp hcall).1] at hx
      cases hx
      exact ⟨call, hcall, honward.key⟩
    · exact ⟨x, (List.getElem?_set_ne hij).symm.trans hx, rfl⟩
  · intro x hx T resp hreply hgood
    rcases List.mem_or_eq_of_mem_set hx with hx | rfl
    · exact h.granted x hx T resp hreply hgood
    · exact hgranted T resp hreply hgood

theorem BallotInv.dropCalls (h : BallotInv c) (p : String) : BallotInv (c.dropCalls p) := by
  refine h.recall ((Onward.refl h.answered).dropCalls p) ?_ ?_
  · intro j x r hx hr
    obtain ⟨y, hy, rfl⟩ := Option.map_eq_some_iff.mp (List.getElem?_map.symm.trans hx)
    refine ⟨y, hy, ?_⟩
    split
    · rfl
    · rfl
  · intro x hx T resp hreply hgood
    obtain ⟨y, hy, rfl⟩ := List.mem_map.mp hx
    by_cases hsrc : y.src = p
    · rw [if_pos hsrc] at hreply hgood ⊢
      exact h.granted y hy T resp hreply hgood
    · rw [if_neg hsrc] at hreply hgood ⊢
      exact h.granted y hy T resp hreply hgood

/-- Votes may be added. -/
theorem BallotInv.record (h : BallotInv c) {history : History} (hsub : c.history.votes ⊆ history.votes)
    (hvote : ∀ x ∈ history.votes, x ∈ c.history.votes ∨ x.term ≤ (c.nodes x.voter).currentTerm)
    (hled : history.led = c.history.led) : BallotInv (c.record history) where
  answered := h.answered
  request := h.request
  once := h.once
  granted := fun call hcall T resp hreply hgood => (h.granted call hcall T resp hreply hgood).mono hsub
  vote := fun x hx => (hvote x hx).elim (h.vote x) id
  election := fun q e he => by
    obtain ⟨hp, hpos, hle, hself, hcount⟩ := h.election q e he
    exact ⟨hp, hpos, hle, hself.mono hsub, hcount⟩
  led := fun p T hT => by
    rw [record_history, hled] at hT
    obtain ⟨hp, hquorum⟩ := h.led p T hT
    exact ⟨hp, fun hpeers => (hquorum hpeers).mono fun v hv => hv.mono hsub⟩

/-- A history with the same votes and leaders. -/
theorem BallotInv.congr (h : BallotInv c) {history : History} (hvotes : history.votes = c.history.votes)
    (hled : history.led = c.history.led) : BallotInv (c.record history) := by
  refine h.record ?_ ?_ hled
  · rw [hvotes]
    exact fun _ => id
  · rw [hvotes]
    exact fun x hx => .inl hx

/-- A node starts an election. -/
theorem BallotInv.stand (h : BallotInv c) (hcfg : c.Configured) {p : String} {n' : Node} (hmem : p ∈ c.members.ids)
    (hn' : n' = { (c.nodes p).becomeCandidate with
      election := some { term := (c.nodes p).currentTerm + 1, highestTerm := (c.nodes p).currentTerm + 1 } }) :
    BallotInv (((c.put p n').send p (n'.config.peers.map fun peer => (peer, .vote n'.requestVote))).record
      (c.history.stand p n')) := by
  obtain ⟨hid, hpeers⟩ := hcfg p
  have hterm : n'.currentTerm = (c.nodes p).currentTerm + 1 := by
    rw [hn']
    rfl
  have hle : (c.nodes p).currentTerm ≤ n'.currentTerm := by omega
  have hconfig : n'.config = (c.nodes p).config := by rw [hn']; rfl
  have hcandidate : n'.requestVote.candidateId = p ∧ n'.requestVote.term = (c.nodes p).currentTerm + 1 := by
    rw [hn']
    exact ⟨hid, rfl⟩
  have hon := ((Onward.put h.answered hle).send p (n'.config.peers.map fun peer => (peer, .vote n'.requestVote))).record
    (show c.history.votes ⊆ (c.history.stand p n').votes from List.subset_cons_self _ _)
  have hcases : ∀ (i : Nat) (call : Call),
      (((c.put p n').send p (n'.config.peers.map fun peer => (peer, .vote n'.requestVote))).record
        (c.history.stand p n')).calls[i]? = some call →
      (c.calls[i]? = some call) ∨ (∃ peer, n'.config.peers[i - c.calls.length]? = some peer ∧ c.calls.length ≤ i ∧
        call = { src := p, dst := peer, request := .vote n'.requestVote }) := by
    intro i call hcall
    by_cases hi : i < c.calls.length
    · exact .inl ((List.getElem?_append_left hi).symm.trans hcall)
    · have hnew := (List.getElem?_append_right (Nat.le_of_not_lt hi)).symm.trans hcall
      obtain ⟨m, hm, rfl⟩ := Option.map_eq_some_iff.mp (List.getElem?_map.symm.trans hnew)
      obtain ⟨peer, hpeer, rfl⟩ := Option.map_eq_some_iff.mp (List.getElem?_map.symm.trans hm)
      exact .inr ⟨peer, hpeer, Nat.le_of_not_lt hi, rfl⟩
  exact {
    answered := hon.answered
    request := fun call hcall r hr => by
      obtain ⟨i, hi⟩ := List.mem_iff_getElem?.mp hcall
      rcases hcases i call hi with hold | ⟨peer, hpeer, -, rfl⟩
      · obtain ⟨hsrc, hcand, hdst, hbound⟩ := h.request call (List.mem_of_getElem? hold) r hr
        exact ⟨hsrc, hcand, hdst, hbound.trans (hon.term call.src)⟩
      · cases hr
        refine ⟨hmem, hcandidate.1, ?_, ?_⟩
        · rw [hconfig, hpeers] at hpeer
          exact List.mem_of_getElem? hpeer
        · rw [hcandidate.2, ← hterm]
          simp only [record_nodes, send_nodes, put_self]
          exact Nat.le_refl _
    once := fun i j call call' r r' hi hj hr hr' hsrc hT hdst => by
      have hfresh : ∀ (k : Nat) (x : Call) (y : RequestVoteRequest), c.calls[k]? = some x → x.request = .vote y → x.src = p →
          y.term ≠ (c.nodes p).currentTerm + 1 := by
        intro k x y hx hy hxp heq
        obtain ⟨-, -, -, hbound⟩ := h.request x (List.mem_of_getElem? hx) y hy
        rw [hxp] at hbound
        omega
      rcases hcases i call hi with hold | ⟨peer, hpeer, hlen, rfl⟩
      · rcases hcases j call' hj with hold' | ⟨peer', hpeer', hlen', rfl⟩
        · exact h.once i j call call' r r' hold hold' hr hr' hsrc hT hdst
        · cases hr'
          exact absurd (hT.trans hcandidate.2) (hfresh i call r hold hr hsrc)
      · cases hr
        rcases hcases j call' hj with hold' | ⟨peer', hpeer', hlen', rfl⟩
        · exact absurd (hT.symm.trans hcandidate.2) (hfresh j call' r' hold' hr' hsrc.symm)
        · cases hr'
          simp only at hdst
          subst hdst
          have hnodup : n'.config.peers.Nodup := by
            rw [hconfig, hpeers]
            exact c.members.nodup.filter _
          have heq := (List.getElem?_inj (List.getElem?_eq_some_iff.mp hpeer).1 hnodup).mp (hpeer.trans hpeer'.symm)
          omega
    granted := fun call hcall T resp hreply hgood => by
      obtain ⟨i, hi⟩ := List.mem_iff_getElem?.mp hcall
      rcases hcases i call hi with hold | ⟨peer, -, -, rfl⟩
      · exact (h.granted call (List.mem_of_getElem? hold) T resp hreply hgood).mono hon.votes
      · cases hreply
    vote := fun x hx => by
      rcases List.mem_cons.mp hx with rfl | hx
      · simp only [record_nodes, send_nodes, put_self]
        exact Nat.le_refl _
      · exact (h.vote x hx).trans (hon.term x.voter)
    election := fun q e he => by
      by_cases hq : q = p
      · subst hq
        simp only [record_nodes, send_nodes, put_self] at he ⊢
        rw [hn'] at he
        cases he
        refine ⟨hmem, Nat.succ_ne_zero _, hterm.ge, ?_, .one⟩
        exact ⟨_, List.mem_cons_self, rfl, hterm, rfl⟩
      · simp only [record_nodes, send_nodes, put_other c n' hq] at he ⊢
        obtain ⟨hq', hpos, hbound, hself, hcount⟩ := h.election q e he
        exact ⟨hq', hpos, hbound, hself.mono hon.votes, hcount.onward hon⟩
    led := fun q T hT => by
      obtain ⟨hq, hquorum⟩ := h.led q T hT
      exact ⟨hq, fun hne => (hquorum hne).mono fun v hv => hv.mono hon.votes⟩ }

/-- One more leader, with its voters. -/
theorem BallotInv.lead (h : BallotInv c) {history : History} {p : String} {T : Nat} (hmem : p ∈ c.members.ids)
    (hvotes : history.votes = c.history.votes) (hled : history.led = (p, T) :: c.history.led)
    (hquorum : normalizePeers p c.members.ids ≠ [] → IsMajority c.members.ids fun v => c.history.Voted v T p) :
    BallotInv (c.record history) := by
  have hsub : c.history.votes ⊆ history.votes := by
    rw [hvotes]
    exact fun _ => id
  exact {
    answered := h.answered
    request := h.request
    once := h.once
    granted := fun call hcall T resp hreply hgood => (h.granted call hcall T resp hreply hgood).mono hsub
    vote := fun x hx => h.vote x (hvotes ▸ hx)
    election := fun q e he => by
      obtain ⟨hq, hpos, hle, hself, hcount⟩ := h.election q e he
      exact ⟨hq, hpos, hle, hself.mono hsub, hcount⟩
    led := fun q S hS => by
      rw [record_history, hled] at hS
      rcases List.mem_cons.mp hS with heq | hS
      · cases heq
        exact ⟨hmem, fun hpeers => (hquorum hpeers).mono fun v hv => hv.mono hsub⟩
      · obtain ⟨hq, hquorum'⟩ := h.led q S hS
        exact ⟨hq, fun hpeers => (hquorum' hpeers).mono fun v hv => hv.mono hsub⟩ }

/-- An election that has enough votes was won by a majority. -/
theorem BallotInv.elected (h : BallotInv c) {p : String} {e : Election} (he : (c.nodes p).election = some e)
    (hquorum : quorumSize (normalizePeers p c.members.ids) ≤ e.grantedVotes) :
    IsMajority c.members.ids fun v => c.history.Voted v e.term p := by
  obtain ⟨hmem, -, -, hself, hcount⟩ := h.election p e he
  refine hcount.majority hmem hquorum ?_ ?_ hself ?_
  · rintro i j call call' resp resp' hi hj hsrc hsrc' ⟨r, -, hr, hT, -⟩ ⟨r', -, hr', hT', -⟩ hdst
    exact h.once i j call call' r r' hi hj hr hr' (hsrc.trans hsrc'.symm) (hT.trans hT'.symm) hdst
  · rintro call hcall resp hsrc ⟨r, -, hr, -⟩
    obtain ⟨-, -, hdst, -⟩ := h.request call hcall r hr
    rw [hsrc] at hdst
    exact hdst
  · intro call hcall resp hsrc hreply hgood
    have hvoted := h.granted call hcall e.term resp hreply hgood
    rw [hsrc] at hvoted
    exact hvoted

/-- A handler answers. -/
theorem BallotInv.deliver (h : BallotInv c) {i : Nat} {call : Call} (hcall : c.calls[i]? = some call)
    (hnew : call.delivered = false) (complete : Bool) (keepFrom : Nat) :
    BallotInv (((c.put call.dst ((c.nodes call.dst).handle complete keepFrom call.request).1).setCall i
        { call with
          delivered := true
          reply := ((c.nodes call.dst).handle complete keepFrom call.request).2
          wal := ((c.nodes call.dst).handle complete keepFrom call.request).1.log }).record
      (c.history.handled call.dst (c.nodes call.dst) call.request
        ((c.nodes call.dst).handle complete keepFrom call.request).2)) := by
  have habides := (c.nodes call.dst).abides_handle complete keepFrom call.request
  have hput := h.put habides
  have hunanswered : call.reply = none := by
    by_contra hne
    have := h.answered call (List.mem_of_getElem? hcall) (Option.isSome_iff_ne_none.mpr hne)
    rw [hnew] at this
    cases this
  have hrecord : BallotInv ((c.put call.dst ((c.nodes call.dst).handle complete keepFrom call.request).1).record
      (c.history.handled call.dst (c.nodes call.dst) call.request
        ((c.nodes call.dst).handle complete keepFrom call.request).2)) := by
    refine hput.record (votes_handled_subset _ _ _ _ _) (fun x hx => ?_) (History.led_handled _ _ _ _ _)
    cases hrequest : call.request with
    | vote r =>
      rw [hrequest] at hx
      simp only [Node.handle] at hx ⊢
      rcases (c.nodes call.dst).handleRequestVote_cases r with ⟨-, hno⟩ | ⟨m, -, hterm, -, -, -, heq⟩
      · cases hresp : ((c.nodes call.dst).handleRequestVote r).2 with
        | error err =>
          rw [hresp] at hx
          exact .inl hx
        | ok resp =>
          rw [hresp] at hx
          simp only [Except.toOption, Option.map_some, History.handled, hno resp hresp, Bool.false_eq_true, if_false] at hx
          exact .inl hx
      · rw [heq] at hx
        simp only [Except.toOption, Option.map_some, History.handled, if_true] at hx
        rcases List.mem_cons.mp hx with rfl | hx
        · right
          rw [put_self, heq]
          exact hterm.ge
        · exact .inl hx
    | heartbeat caller r =>
      rw [hrequest] at hx
      exact .inl hx
    | append caller r =>
      rw [hrequest] at hx
      exact .inl hx
    | install r =>
      rw [hrequest] at hx
      exact .inl hx
  refine hrecord.setCall hcall ⟨rfl, id, fun resp hr => ?_⟩ (fun _ => rfl) ?_
  · rw [hunanswered] at hr
    cases hr
  · rintro T resp hreply ⟨r, a, hr, hT, hresp, hgrant⟩
    subst hT
    subst hresp
    simp only at hreply hr
    obtain ⟨-, hid, -⟩ := h.request call (List.mem_of_getElem? hcall) r hr
    rw [hr] at hreply ⊢
    simp only [record_history, hreply, History.handled, hgrant, if_true]
    exact ⟨_, List.mem_cons_self, rfl, rfl, hid⟩

/-- A call is over for its caller. -/
theorem BallotInv.over (h : BallotInv c) {i : Nat} {call : Call} (hcall : c.calls[i]? = some call) :
    BallotInv (c.setCall i { call with waiting := false }) := by
  have hmem := List.mem_of_getElem? hcall
  exact h.setCall hcall ⟨rfl, fun _ => rfl, fun _ => id⟩ (h.answered call hmem) (h.granted call hmem)

/-- The answer of one voter is counted. -/
theorem BallotInv.count (h : BallotInv c) {i : Nat} {call : Call} {r : RequestVoteRequest} {resp : RequestVoteResponse}
    (hcall : c.calls[i]? = some call) (hrequest : call.request = .vote r) (hreply : call.reply = some (.vote resp))
    (hwaiting : call.waiting = true) :
    BallotInv ((c.setCall i { call with waiting := false }).put call.src
      ((c.nodes call.src).onVoteResponse r.term resp)) := by
  have hover := h.over hcall
  have hmem := List.mem_of_getElem? hcall
  have hon : Onward c (c.setCall i { call with waiting := false }) :=
    (Onward.refl h.answered).setCall hcall ⟨rfl, fun _ => rfl, fun _ => id⟩ (h.answered call hmem)
  have hset : (c.setCall i { call with waiting := false }).calls[i]? = some { call with waiting := false } :=
    List.getElem?_set_self (List.getElem?_eq_some_iff.mp hcall).1
  unfold Node.onVoteResponse
  cases he : (c.nodes call.src).election with
  | none => exact hover.put (.refl _)
  | some e =>
    dsimp only
    split
    swap
    · exact hover.put (.refl _)
    next hT =>
    obtain ⟨hsrc, hpos, hle, hself, hcount⟩ := h.election call.src e he
    refine { hover with request := ?_, vote := ?_, election := ?_ }
    · intro x hx y hy
      obtain ⟨hxsrc, hid, hdst, hbound⟩ := hover.request x hx y hy
      refine ⟨hxsrc, hid, hdst, hbound.trans (term_put ?_ x.src)⟩
      exact Nat.le_refl _
    · intro x hx
      refine (hover.vote x hx).trans (term_put ?_ x.voter)
      exact Nat.le_refl _
    · intro q e' he'
      by_cases hq : q = call.src
      · subst hq
        rw [put_self] at he' ⊢
        cases he'
        refine ⟨hsrc, hpos, hle, hself, ?_⟩
        dsimp only
        split
        · next hgrant =>
          have hmore := hcount.more hon hcall hwaiting hset rfl rfl hreply ⟨r, resp, hrequest, hT.symm, rfl, hgrant⟩
          exact hmore
        · have hsame := hcount.onward hon
          exact hsame
      · rw [put_other _ _ hq] at he' ⊢
        exact hover.election q e' he'

theorem BallotInv.finishCall (h : BallotInv c) {i : Nat} {call : Call} (overloaded : Bool) {reply : Option Response}
    (hcall : c.calls[i]? = some call) (hwaiting : call.waiting = true) (hreply : reply = call.reply ∨ reply = none) :
    BallotInv (c.finishCall i call overloaded reply) := by
  refine BallotInv.congr ?_ (by simp) (by simp)
  have habides : ∀ n', (c.nodes call.src).Abides n' →
      BallotInv ((c.put call.src n').setCall i { call with waiting := false }) := fun n' hn' => (h.put hn').over hcall
  by_cases hvote : ∀ r, call.request ≠ .vote r
  · have hease := Node.onResponse_eases (n := c.nodes call.src) call.dst overloaded reply hvote
    exact habides _ ⟨hease.term, hease.election⟩
  simp only [not_forall, not_not] at hvote
  obtain ⟨r, hr⟩ := hvote
  obtain ⟨src, dst, request, delivered, answer, wal, waiting⟩ := call
  dsimp only at hr hreply hwaiting habides ⊢
  subst hr
  by_cases hresp : ∃ resp, reply = some (.vote resp)
  · obtain ⟨resp, rfl⟩ := hresp
    have hsame : answer = some (.vote resp) := by
      rcases hreply with h | h
      · exact h.symm
      · cases h
    exact h.count hcall rfl hsame hwaiting
  · rw [Node.onResponse_vote fun resp h => hresp ⟨resp, h⟩]
    exact habides _ (.refl _)

/-- A node without peers makes itself leader, and votes for itself if it had no term. -/
theorem BallotInv.stood (h : BallotInv c) {p : String} {n' : Node} (hn' : (c.nodes p).Abides n')
    (hterm : (c.nodes p).firstTerm.currentTerm ≤ n'.currentTerm) :
    BallotInv ((c.put p n').record
      (if (c.nodes p).currentTerm = 0 then c.history.stand p (c.nodes p).firstTerm else c.history)) := by
  split
  · refine (h.put hn').record (List.subset_cons_self _ _) (fun x hx => ?_) rfl
    rcases List.mem_cons.mp hx with rfl | hx
    · right
      rw [put_self]
      exact hterm
    · exact .inl hx
  · exact (h.put hn').congr rfl rfl

theorem BallotInv.step (h : BallotInv c) (hcfg : c.Configured) {a : Action} (hs : step codec c a = some c') :
    BallotInv c' := by
  have hmoves := moves_of_step hs
  cases hmoves with
  | work hcore _ hsends =>
    refine (h.put (.of_core hcore (.refl _))).send _ fun m hm r hr => ?_
    have hsend := (hsends m hm).2.2 (hcfg _).1
    cases hsend with
    | heartbeat => cases hr
    | append => cases hr
    | install => cases hr
  | forward _ _ hcore _ hsends =>
    refine (h.put (.of_core hcore ⟨Nat.le_refl _, .inr rfl⟩)).send _ fun m hm r hr => ?_
    have hforward := (hsends m hm).1
    cases hforward with
    | append => cases hr
    | install => cases hr
  | fall hle hcore => exact h.put (.of_core hcore (Node.abides_followed hle ""))
  | stand hmem _ _ hn' => exact h.stand hcfg hmem hn'
  | lose _ hn' => exact h.put hn'.abides.1
  | @win p e m log he hstate hterm hquorum _ hcore =>
    obtain ⟨hmem, hpos, -⟩ := h.election p e he
    have hfirst : (c.nodes p).firstTerm = c.nodes p := Node.firstTerm_of_ne_zero (hterm ▸ hpos)
    rw [hfirst] at hcore
    have habides : (c.nodes p).Abides m := .of_core hcore ⟨Nat.le_refl _, .inl rfl⟩
    have hT : m.currentTerm = e.term := (Node.eq_of_core Node.currentTerm (fun _ => rfl) hcore).trans hterm
    rw [(hcfg p).2] at hquorum
    have hvoted := h.elected he hquorum
    refine (h.put (habides.trans (Node.abides_maybeCommit m))).lead (T := m.currentTerm) hmem ?_ ?_ fun _ => ?_
    · rw [History.votes_commit]
      rfl
    · rw [History.led_commit]
      rfl
    · rw [hT]
      exact hvoted
  | @boot p m log hmem hpeers _ _ hcore =>
    have habides : (c.nodes p).Abides m := by
      have hfirst := Node.abides_firstTerm (c.nodes p)
      exact .of_core hcore ⟨hfirst.term, hfirst.election⟩
    have hsame := Node.eq_of_core Node.currentTerm (fun _ => rfl) hcore
    have hterm : (c.nodes p).firstTerm.currentTerm ≤ m.maybeCommit.currentTerm :=
      hsame.ge.trans (Node.abides_maybeCommit m).term
    have hstood := h.stood (habides.trans (Node.abides_maybeCommit m)) hterm
    refine hstood.lead (T := m.currentTerm) hmem ?_ ?_ fun hne => absurd ?_ hne
    · rw [History.votes_commit]
      rfl
    · rw [History.led_commit]
      rfl
    · exact (hcfg p).2.symm.trans hpeers
  | @crash p m _ _ hcore =>
    have habides : (c.nodes p).Abides m := by
      have hfirst := Node.abides_firstTerm (c.nodes p)
      exact .of_core hcore ⟨hfirst.term, hfirst.election⟩
    have hterm : (c.nodes p).firstTerm.currentTerm ≤ m.restart.currentTerm :=
      (Node.eq_of_core Node.currentTerm (fun _ => rfl) hcore).ge
    exact (h.stood (habides.trans (Node.abides_restart m)) hterm).dropCalls p
  | deliver hcall hnew => exact h.deliver hcall hnew _ _
  | answer hcall hwaiting ha hn' =>
    rcases ha with ⟨rfl, rfl⟩ | ⟨rfl, rfl⟩
    · simp only [Cluster.step, Cluster.receive, hcall] at hs
      split at hs
      · rw [← Option.some.inj hs]
        exact h.finishCall _ hcall hwaiting (.inl rfl)
      · cases hs
    · simp only [Cluster.step, Cluster.fail, hcall, if_pos hwaiting] at hs
      rw [← Option.some.inj hs]
      exact h.finishCall _ hcall hwaiting (.inr rfl)
  | propose _ _ _ hcore =>
    refine (h.put (.of_core hcore ⟨Nat.le_refl _, .inr rfl⟩)).congr ?_ ?_
    · rw [History.votes_commit]
      rfl
    · rw [History.led_commit]
      rfl
  | apply _ _ _ hcore => exact (h.put (.of_core hcore ⟨Nat.le_refl _, .inr rfl⟩)).congr rfl rfl
  | saveSnapshot hn' => exact h.put (Node.abides_saveSnapshot hn')
  | restart => exact (h.put (Node.abides_restart _)).dropCalls _

theorem BallotInv.init (members : Members) (config : String → Config) : BallotInv (init members config) where
  answered := fun call hcall => by cases hcall
  request := fun call hcall => by cases hcall
  once := fun i j call call' r r' hcall => by cases hcall
  granted := fun call hcall => by cases hcall
  vote := fun x hx => by cases hx
  election := fun p e he => by cases he
  led := fun p T hT => by cases hT

end Cluster

end RaftVdb
