import RaftVdb.Moves

/-!
# Answers from an earlier leadership

The callback of an `AppendEntries` compares the term of the answer with the current term.
The term of the request is not remembered, and the progress table has been rebuilt since.
An answer to a request of an earlier term finds nothing to change once the peer has caught up
with the log of the new term.
-/

namespace RaftVdb

open Lib

def PeerProgress.counters (p : PeerProgress) : Nat × Nat × Nat := (p.matchIndex, p.nextIndex, p.inFlight)

/-- What the table says of a peer: `match_index`, `next_index` and `in_flight`. -/
def countersOf (t : ProgressTable) (peer : String) : Option (Nat × Nat × Nat) :=
  (t.find? peer).map PeerProgress.counters

theorem countersOf_adjust (t : ProgressTable) (peer q : String) {f : PeerProgress → PeerProgress}
    (hf : ∀ p ∈ t.find? peer, (f p).counters = p.counters) : countersOf (t.adjust peer f) q = countersOf t q := by
  unfold countersOf
  by_cases hq : q = peer
  · subst hq
    rw [Table.find?_adjust_self, Option.map_map]
    cases hrow : t.find? q with
    | none => rfl
    | some p => exact congrArg some (hf p hrow)
  · rw [Table.find?_adjust_other _ _ _ _ hq]

theorem countersOf_modify (t : ProgressTable) (peer q : String) {f : PeerProgress → PeerProgress} {p : PeerProgress}
    (hrow : t.find? peer = some p) (hf : (f p).counters = p.counters) :
    countersOf (t.modify peer {} f) q = countersOf t q := by
  unfold countersOf
  rw [Table.find?_modify]
  split
  · next hq =>
    rw [hq, hrow]
    exact congrArg some hf
  · rfl

namespace Node

/-- No counter has changed and the commit index has not advanced. -/
structure Unmoved (n n' : Node) : Prop where
  counters : ∀ q, countersOf n'.progress q = countersOf n.progress q
  commit : n'.commitIndex ≤ n.commitIndex

variable {n n' m : Node}

theorem Unmoved.refl (n : Node) : Unmoved n n := ⟨fun _ => rfl, le_rfl⟩

theorem Unmoved.trans (h : Unmoved n m) (h' : Unmoved m n') : Unmoved n n' :=
  ⟨fun q => (h'.counters q).trans (h.counters q), h'.commit.trans h.commit⟩

/-- Nothing is under way to the peer, and an acknowledgement up to `m` is no news. -/
def Acknowledged (row : Option PeerProgress) (m : Nat) : Prop :=
  ∃ p ∈ row, p.inFlight = 0 ∧ m ≤ p.matchIndex ∧ m < p.nextIndex

/-- The peer has the whole log on record, all of which is committed, and nothing is under way to it. -/
def CaughtUp (n : Node) (peer : String) : Prop :=
  n.commitIndex = n.logicalLastIndex ∧ ∃ p ∈ n.progress.find? peer,
    p.matchIndex = n.logicalLastIndex ∧ p.nextIndex = n.logicalLastIndex + 1 ∧ p.inFlight = 0

/-- A late answer finds the peer caught up, and is a success within the log. Else the call has
failed, and its request did not begin before the end of the log. -/
def FindsCaughtUp (n : Node) (peer : String) (r : AppendEntriesRequest) (resp : Option AppendEntriesResponse) :
    AppendCaller → Prop
  | .replicate => n.CaughtUp peer ∧
    match resp with
    | none => n.logicalLastIndex ≤ r.prevLogIndex
    | some resp => resp.term ≤ n.currentTerm ∧ resp.success = true ∧ resp.matchIndex ≤ n.logicalLastIndex
  | .forward => n.CaughtUp peer ∧
    match resp with
    | none => True
    | some resp => resp.term ≤ n.currentTerm ∧ resp.success = true ∧ resp.matchIndex ≤ n.logicalLastIndex
  | .followerTimeout _ => ∀ a ∈ resp, a.success = true → n.CaughtUp peer ∧ a.matchIndex ≤ n.logicalLastIndex

instance (n : Node) (peer : String) : Decidable (n.CaughtUp peer) :=
  match h : n.progress.find? peer with
  | none => isFalse fun hup => by simp [CaughtUp, h] at hup
  | some p => decidable_of_iff (n.commitIndex = n.logicalLastIndex ∧
      p.matchIndex = n.logicalLastIndex ∧ p.nextIndex = n.logicalLastIndex + 1 ∧ p.inFlight = 0) (by simp [CaughtUp, h])

instance (n : Node) (peer : String) (r : AppendEntriesRequest) (resp : Option AppendEntriesResponse) :
    (caller : AppendCaller) → Decidable (n.FindsCaughtUp peer r resp caller)
  | .replicate =>
    match resp with
    | none => inferInstanceAs (Decidable (_ ∧ n.logicalLastIndex ≤ r.prevLogIndex))
    | some resp => inferInstanceAs (Decidable (_ ∧ resp.term ≤ n.currentTerm ∧ _ ∧ _))
  | .forward =>
    match resp with
    | none => inferInstanceAs (Decidable (_ ∧ True))
    | some resp => inferInstanceAs (Decidable (_ ∧ resp.term ≤ n.currentTerm ∧ _ ∧ _))
  | .followerTimeout _ => inferInstanceAs (Decidable (∀ a ∈ resp, a.success = true → _))

theorem CaughtUp.acknowledged {peer : String} {m : Nat} (h : n.CaughtUp peer) (hm : m ≤ n.logicalLastIndex) :
    Acknowledged (n.progress.find? peer) m := by
  obtain ⟨-, p, hp, hmatch, hnext, hidle⟩ := h
  exact ⟨p, hp, hidle, by omega, by omega⟩

theorem countersOf_ack {t : ProgressTable} {peer : String} {m : Nat} (h : Acknowledged (t.find? peer) m) (q : String) :
    countersOf (updatePeerAck t peer m) q = countersOf t q := by
  obtain ⟨p, hrow, hidle, hmatch, hnext⟩ := h
  refine countersOf_modify t peer q hrow ?_
  simp only [resetPeerRollbackState, PeerProgress.counters, Prod.mk.injEq]
  omega

/-- A failed call takes `next_index` back to where its request began. -/
theorem CaughtUp.failure {peer : String} {restore : Nat} (h : n.CaughtUp peer)
    (hrestore : restore > 0 → n.logicalLastIndex < restore) (q : String) :
    countersOf (updatePeerFailure n.progress peer restore) q = countersOf n.progress q := by
  obtain ⟨-, p, hrow, hmatch, hnext, hidle⟩ := h
  refine countersOf_modify _ peer q hrow ?_
  simp only [PeerProgress.counters, Prod.mk.injEq, true_and]
  split
  · next hpos =>
    have hlt := hrestore hpos
    omega
  · omega

theorem countersOf_onFollowerProbed (n : Node) (peer : String) (ctx : FollowerTimeout) (ok overloaded : Bool)
    (q : String) : countersOf (n.onFollowerProbed peer ctx ok overloaded).progress q = countersOf n.progress q := by
  unfold onFollowerProbed
  split
  · split <;> rfl
  split
  · rfl
  split
  · split
    · dsimp only
      rw [countersOf_adjust, countersOf_adjust]
      · exact fun _ _ => rfl
      · exact fun _ _ => rfl
    · split
      · rfl
      · exact countersOf_adjust _ _ _ fun _ _ => rfl
  · rfl

/-- Where everything is committed `MaybeCommit` finds nothing. -/
theorem commitIndex_maybeCommit_of_committed (h : n.commitIndex = n.logicalLastIndex) :
    n.maybeCommit.commitIndex = n.commitIndex := by
  rcases n.maybeCommit_cases with heq | ⟨k, -, hlt, hle, -⟩
  · rw [heq]
  · omega

theorem progress_maybeCommit (n : Node) : n.maybeCommit.progress = n.progress :=
  eq_of_maybeCommit Node.progress (fun _ _ => rfl) n

theorem unmoved_ackPeer {peer : String} {m : Nat} (h : n.CaughtUp peer) (hm : m ≤ n.logicalLastIndex) :
    Unmoved n (n.ackPeer peer m) :=
  ⟨countersOf_ack (h.acknowledged hm), le_rfl⟩

theorem FindsCaughtUp.onReplicateResponse {peer : String} {r : AppendEntriesRequest}
    {resp : Option AppendEntriesResponse} (h : n.FindsCaughtUp peer r resp .replicate) (hleader : n.state = .leader) :
    Unmoved n (n.onReplicateResponse peer r resp) := by
  obtain ⟨hup, h⟩ := h
  cases resp with
  | none => exact ⟨hup.failure fun _ => Nat.lt_succ_of_le h, le_rfl⟩
  | some resp =>
    obtain ⟨hterm, hsuccess, hm⟩ := h
    rw [Node.onReplicateResponse, if_neg (Nat.not_lt.mpr hterm), if_neg (by simp [hleader]), if_pos hsuccess]
    have hacked := unmoved_ackPeer hup hm
    refine hacked.trans ⟨fun q => by rw [progress_maybeCommit], ?_⟩
    exact (commitIndex_maybeCommit_of_committed (n := n.ackPeer peer resp.matchIndex) hup.1).le

theorem FindsCaughtUp.onForwardResponse {peer : String} {r : AppendEntriesRequest}
    {resp : Option AppendEntriesResponse} (h : n.FindsCaughtUp peer r resp .forward) :
    Unmoved n (n.onForwardResponse peer r resp) := by
  obtain ⟨hup, h⟩ := h
  cases resp with
  | none => exact ⟨hup.failure fun hpos => absurd hpos (Nat.lt_irrefl 0), le_rfl⟩
  | some resp =>
    obtain ⟨hterm, hsuccess, hm⟩ := h
    rw [Node.onForwardResponse, if_neg (Nat.not_lt.mpr hterm), if_pos hsuccess]
    exact unmoved_ackPeer hup hm

/-- An answer that finds the peer caught up changes nothing. -/
theorem FindsCaughtUp.unmoved {peer : String} {r : AppendEntriesRequest} {resp : Option AppendEntriesResponse}
    {caller : AppendCaller} (h : n.FindsCaughtUp peer r resp caller) (hleader : n.state = .leader) (overloaded : Bool) :
    Unmoved n (n.onAppendResponse peer overloaded r resp caller) := by
  cases caller with
  | replicate => exact h.onReplicateResponse hleader
  | forward => exact h.onForwardResponse
  | followerTimeout ctx =>
    have hprobed : ∀ (m : Node) (ok : Bool), Unmoved m (m.onFollowerProbed peer ctx ok overloaded) := fun m ok =>
      ⟨m.countersOf_onFollowerProbed peer ctx ok overloaded,
        le_of_eq (eq_of_core Node.commitIndex (fun _ => rfl) (m.core_onFollowerProbed peer ctx ok overloaded))⟩
    cases resp with
    | none => exact hprobed n false
    | some resp =>
      simp only [onAppendResponse]
      split
      · next hsuccess =>
        obtain ⟨hup, hm⟩ := h resp rfl hsuccess
        exact (unmoved_ackPeer hup hm).trans (hprobed _ true)
      · exact hprobed n false

end Node

/-! ## In a cluster -/

def appendAnswer : Option Response → Option AppendEntriesResponse
  | some (.append resp) => some resp
  | _ => none

theorem onResponse_append (n : Node) (peer : String) (overloaded : Bool) (caller : AppendCaller)
    (r : AppendEntriesRequest) (reply : Option Response) :
    n.onResponse peer overloaded (.append caller r) reply =
      n.onAppendResponse peer overloaded r (appendAnswer reply) caller := by
  cases reply with
  | none => rfl
  | some resp => cases resp <;> rfl

namespace Cluster

/-- The call that a step ends at its caller, and its answer. -/
def answer (c : Cluster) : Action → Option (Call × Option Response)
  | .receive i _ => (c.calls[i]?).map fun call => (call, call.reply)
  | .fail i _ => (c.calls[i]?).map fun call => (call, none)
  | _ => none

/-- A leader gets the answer to an `AppendEntries` of an earlier term. -/
def Late (c : Cluster) (p : String) (a : Action) : Prop :=
  ∃ call reply caller r, c.answer a = some (call, reply) ∧ call.src = p ∧ call.request = .append caller r ∧
    (c.nodes p).state = .leader ∧ r.term < (c.nodes p).currentTerm

/-- Such an answer finds the peer caught up. -/
def LateFindsCaughtUp (c : Cluster) (a : Action) : Prop :=
  match c.answer a with
  | none => True
  | some (call, reply) =>
    match call.request with
    | .append caller r => (c.nodes call.src).state = .leader → r.term < (c.nodes call.src).currentTerm →
        (c.nodes call.src).FindsCaughtUp call.dst r (appendAnswer reply) caller
    | _ => True

instance (c : Cluster) (a : Action) : Decidable (c.LateFindsCaughtUp a) :=
  match h : c.answer a with
  | none => isTrue (by simp only [LateFindsCaughtUp, h])
  | some (call, reply) =>
    match hr : call.request with
    | .append caller r => decidable_of_iff ((c.nodes call.src).state = .leader →
        r.term < (c.nodes call.src).currentTerm → (c.nodes call.src).FindsCaughtUp call.dst r (appendAnswer reply) caller)
        (by simp only [LateFindsCaughtUp, h, hr])
    | .heartbeat .. => isTrue (by simp only [LateFindsCaughtUp, h, hr])
    | .vote .. => isTrue (by simp only [LateFindsCaughtUp, h, hr])
    | .install .. => isTrue (by simp only [LateFindsCaughtUp, h, hr])

/-- The node at which a step takes place. -/
def site (c : Cluster) : Action → String
  | .start p | .startElection p | .finishElection p | .beginBroadcast p | .finishBroadcast p _ | .replicate p _
  | .forward p _ | .checkMentor p _ | .checkFollower p _ _ | .rebalance p | .recoverWindows p _ | .clientWrite p _
  | .propose p _ | .apply p _ | .saveSnapshot p _ | .restart p => p
  | .deliver i _ _ => ((c.calls[i]?).map Call.dst).getD ""
  | .receive i _ | .fail i _ => ((c.calls[i]?).map Call.src).getD ""

variable {codec : CommandCodec} {c c' : Cluster}

theorem nodes_finishCall (c : Cluster) (i : Nat) (call : Call) (overloaded : Bool) (reply : Option Response) (q : String) :
    (c.finishCall i call overloaded reply).nodes q = if q = call.src then
      (c.nodes call.src).onResponse call.dst overloaded call.request reply else c.nodes q := by
  unfold finishCall
  simp only [record_nodes, setCall_nodes, put, Function.update_apply]

/-- A step leaves the other nodes alone. -/
theorem nodes_of_site_ne {a : Action} (h : c.step codec a = some c') {q : String} (hq : q ≠ c.site a) :
    c'.nodes q = c.nodes q := by
  cases a with
  | start p =>
    simp only [step, start] at h
    split at h
    · split at h
      · cases h
        exact put_other c _ hq
      · cases h
        exact put_other c _ hq
    · cases h
  | startElection p =>
    simp only [step, startElection] at h
    split at h
    · cases h
      exact put_other c _ hq
    · cases h
  | finishElection p =>
    simp only [step, finishElection] at h
    split at h
    · cases h
    · split at h
      · cases h
        exact put_other c _ hq
      · cases h
  | beginBroadcast p =>
    simp only [step, beginBroadcast] at h
    split at h
    · cases h
      exact put_other c _ hq
    · cases h
  | finishBroadcast p round =>
    simp only [step, finishBroadcast] at h
    split at h
    · cases h
    · split at h
      · cases h
        exact put_other c _ hq
      · cases h
  | replicate p peer =>
    simp only [step, replicate] at h
    split at h
    · obtain ⟨x, -, rfl⟩ := Option.map_eq_some_iff.mp h
      exact put_other c _ hq
    · cases h
  | forward p i =>
    simp only [step, forward] at h
    split at h
    · split at h
      · cases h
        exact put_other c _ hq
      · cases h
        exact put_other c _ hq
    · cases h
  | checkMentor p mentor =>
    simp only [step, checkMentor] at h
    split at h
    · obtain ⟨x, -, rfl⟩ := Option.map_eq_some_iff.mp h
      exact put_other c _ hq
    · cases h
  | checkFollower p follower recent =>
    simp only [step, checkFollower] at h
    split at h
    · obtain ⟨x, -, rfl⟩ := Option.map_eq_some_iff.mp h
      rfl
    · cases h
  | deliver i complete keepFrom =>
    simp only [step, deliver] at h
    split at h
    · cases h
    · next call hcall =>
      simp only [site, hcall, Option.map_some, Option.getD_some] at hq
      split at h
      · cases h
        exact put_other c _ hq
      · cases h
  | receive i overloaded =>
    simp only [step, receive] at h
    split at h
    · cases h
    · next call hcall =>
      simp only [site, hcall, Option.map_some, Option.getD_some] at hq
      split at h
      · cases h
        rw [nodes_finishCall, if_neg hq]
      · cases h
  | fail i overloaded =>
    simp only [step, fail] at h
    split at h
    · cases h
    · next call hcall =>
      simp only [site, hcall, Option.map_some, Option.getD_some] at hq
      split at h
      · cases h
        rw [nodes_finishCall, if_neg hq]
      · cases h
  | rebalance p =>
    simp only [step] at h
    split at h
    · obtain ⟨n, -, rfl⟩ := Option.map_eq_some_iff.mp h
      exact put_other c n hq
    · cases h
  | recoverWindows p expired =>
    simp only [step] at h
    split at h
    · cases h
      exact put_other c _ hq
    · cases h
  | clientWrite p r =>
    simp only [step, clientWrite] at h
    split at h
    · split at h
      · cases h
        exact put_other c _ hq
      · cases h
        rfl
    · cases h
  | propose p i =>
    simp only [step, propose] at h
    split at h
    · cases h
    · split at h
      · cases h
        exact put_other c _ hq
      · cases h
        exact put_other c _ hq
  | apply p outcome =>
    simp only [step, apply] at h
    split at h
    · cases h
    · cases h
      exact put_other c _ hq
  | saveSnapshot p keepFrom =>
    simp only [step] at h
    obtain ⟨n, -, rfl⟩ := Option.map_eq_some_iff.mp h
    exact put_other c n hq
  | restart p =>
    simp only [step] at h
    split at h
    · cases h
      exact put_other c _ hq
    · cases h

theorem unmoved_of_late {p : String} {a : Action} (hlate : c.Late p a) (hok : c.LateFindsCaughtUp a)
    (h : c.step codec a = some c') : (c.nodes p).Unmoved (c'.nodes p) := by
  obtain ⟨call, reply, caller, r, hanswer, rfl, hrequest, hleader, hterm⟩ := hlate
  unfold LateFindsCaughtUp at hok
  rw [hanswer] at hok
  simp only [hrequest] at hok
  have hnews := hok hleader hterm
  have hfinish : ∃ i overloaded, c' = c.finishCall i call overloaded reply := by
    unfold answer at hanswer
    split at hanswer
    · next i overloaded =>
      obtain ⟨call', hcall, heq⟩ := Option.map_eq_some_iff.mp hanswer
      cases heq
      simp only [step, receive, hcall] at h
      split at h
      · exact ⟨i, overloaded, (Option.some.inj h).symm⟩
      · cases h
    · next i overloaded =>
      obtain ⟨call', hcall, heq⟩ := Option.map_eq_some_iff.mp hanswer
      cases heq
      simp only [step, fail, hcall] at h
      split at h
      · exact ⟨i, overloaded, (Option.some.inj h).symm⟩
      · cases h
    · cases hanswer
  obtain ⟨i, overloaded, rfl⟩ := hfinish
  rw [nodes_finishCall, if_pos rfl, hrequest, onResponse_append]
  exact hnews.unmoved hleader overloaded

/-- While a schedule runs, nothing happens at a node but late answers. -/
def OnlyLate (codec : CommandCodec) (p : String) : Cluster → List Action → Prop
  | _, [] => True
  | c, a :: as => (c.site a ≠ p ∨ c.Late p a) ∧ ∀ c', c.step codec a = some c' → OnlyLate codec p c' as

theorem unmoved_of_onlyLate {p : String} {during : List Action}
    (h : Transition.run (Transition.restrict LateFindsCaughtUp (step codec)) c during = some c')
    (honly : OnlyLate codec p c during) : (c.nodes p).Unmoved (c'.nodes p) := by
  induction during generalizing c with
  | nil =>
    cases h
    exact .refl _
  | cons a as ih =>
    obtain ⟨u, hu, hrest⟩ := Transition.run_cons_eq_some.mp h
    obtain ⟨hok, hstep⟩ := Transition.restrict_eq_some.mp hu
    have hthen := ih hrest (honly.2 u hstep)
    rcases honly.1 with hother | hlate
    · rw [nodes_of_site_ne hstep (Ne.symm hother)] at hthen
      exact hthen
    · exact (unmoved_of_late hlate hok hstep).trans hthen

/-- In a run in which late answers find their peers caught up, they do nothing, in whatever order
they come and whatever the other nodes do meanwhile. -/
theorem late_answers_inert (codec : CommandCodec) (members : Members) (config : String → Config)
    (before during : List Action) (c' : Cluster) (p : String)
    (hrun : Transition.run (Transition.restrict LateFindsCaughtUp (step codec)) (init members config) (before ++ during) =
      some c') :
    ∃ c, Transition.run (Transition.restrict LateFindsCaughtUp (step codec)) (init members config) before = some c ∧
      (OnlyLate codec p c during → (c.nodes p).Unmoved (c'.nodes p)) := by
  rw [Transition.run_append, Option.bind_eq_some_iff] at hrun
  obtain ⟨c, hc, hc'⟩ := hrun
  exact ⟨c, hc, unmoved_of_onlyLate hc'⟩

/-- `A` leads term 1 and gets its entry to `B`, whose answer is still on the way when `B`
stands in term 2 and `A` is elected again in term 3. -/
def ledTwice : List Action :=
  mentorServed ++
    [.startElection "B", .deliver 4 true 0, .startElection "A", .deliver 6 true 0, .receive 6 false, .fail 7 false,
      .finishElection "A"]

/-- `B` has acknowledged both entries to the leader of term 3. -/
def servedAgain : List Action :=
  [.replicate "A" "B", .deliver 8 true 0, .receive 8 false, .replicate "A" "B", .deliver 9 true 0, .receive 9 false]

theorem late_answers_inert_after_acknowledgement :
    ∃ c c', Transition.run (Transition.restrict LateFindsCaughtUp (step sampleCodec)) (init threeNodes (plainConfig 64))
        (ledTwice ++ servedAgain) = some c ∧
      c.history.led = [("A", 3), ("A", 1)] ∧
      Transition.run (Transition.restrict LateFindsCaughtUp (step sampleCodec)) c [.receive 3 false] = some c' ∧
      (c.nodes "A").Unmoved (c'.nodes "A") := by
  obtain ⟨c, c', hc, hled, hlate, hc'⟩ : ∃ c c',
      Transition.run (Transition.restrict LateFindsCaughtUp (step sampleCodec)) (init threeNodes (plainConfig 64))
        (ledTwice ++ servedAgain) = some c ∧ c.history.led = [("A", 3), ("A", 1)] ∧
      c.Late "A" (.receive 3 false) ∧
      Transition.run (Transition.restrict LateFindsCaughtUp (step sampleCodec)) c [.receive 3 false] = some c' :=
    ⟨_, _, rfl, rfl, ⟨_, _, _, _, rfl, rfl, rfl, rfl, by decide⟩, rfl⟩
  obtain ⟨u, hu, hinert⟩ := late_answers_inert sampleCodec threeNodes (plainConfig 64) (ledTwice ++ servedAgain)
    [.receive 3 false] c' "A" (by rw [Transition.run_append, hc]; exact hc')
  rw [hc] at hu
  cases hu
  exact ⟨c, c', hc, hled, hc', hinert ⟨.inr hlate, fun _ _ => trivial⟩⟩

/-- The answer from term 1 is merged into the table of term 3. -/
theorem late_answer_is_merged :
    ∃ c c', run sampleCodec threeNodes (plainConfig 64) ledTwice = some c ∧
      c.history.led = [("A", 3), ("A", 1)] ∧ (c.nodes "A").state = .leader ∧ (c.nodes "A").currentTerm = 3 ∧
      step sampleCodec c (.receive 3 false) = some c' ∧
      countersOf (c.nodes "A").progress "B" = some (0, 3, 0) ∧ countersOf (c'.nodes "A").progress "B" = some (1, 3, 0) :=
  ⟨_, _, rfl, rfl, rfl, rfl, rfl, rfl, rfl⟩

end Cluster

end RaftVdb
