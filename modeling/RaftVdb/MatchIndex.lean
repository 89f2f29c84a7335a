import RaftVdb.Polls
import RaftVdb.Replication

/-!
# The match index of a leader

A follower acknowledges all of its log, not the entries of the request. If it keeps a
tail behind these entries that is not in the log of the leader, the leader counts entries
that the follower does not have. A response that arrives in a later term than the request
was sent in is merged as well. Without these two the match index of every peer is sound.
-/

namespace RaftVdb

open Lib Leaders

namespace Node

/-- A candidate whose election is still open. -/
def Campaigning (n : Node) : Prop := n.state = .candidate ∧ ∃ e, n.election = some e ∧ e.term = n.currentTerm

/-- No new leader and no new candidate. -/
structure Defers (n n' : Node) : Prop where
  term : n.currentTerm ≤ n'.currentTerm
  leader : n'.state = .leader → n.state = .leader ∧ n'.currentTerm = n.currentTerm
  campaigning : n'.Campaigning → n.Campaigning ∧ n'.currentTerm = n.currentTerm ∧ n'.leaderId = n.leaderId

variable {n n' m : Node}

theorem Defers.refl (n : Node) : Defers n n := ⟨le_refl _, fun h => ⟨h, rfl⟩, fun h => ⟨h, rfl, rfl⟩⟩

theorem Defers.of_follower (hle : n.currentTerm ≤ n'.currentTerm) (hstate : n'.state = .follower) : Defers n n' := by
  refine ⟨hle, fun h => ?_, fun h => ?_⟩
  · rw [hstate] at h
    cases h
  · have hcandidate := h.1
    rw [hstate] at hcandidate
    cases hcandidate

/-- The fields that matter stay. -/
theorem Defers.congr (h : Defers n m) (hterm : n'.currentTerm = m.currentTerm) (hstate : n'.state = m.state)
    (helection : n'.election = m.election ∨ n'.election = none) (hleader : n'.leaderId = m.leaderId) : Defers n n' where
  term := by rw [hterm]; exact h.term
  leader := by rw [hstate, hterm]; exact h.leader
  campaigning := by
    rintro ⟨hcandidate, e, he, heterm⟩
    rcases helection with hsame | hnone
    · rw [hterm, hleader]
      exact h.campaigning ⟨hstate ▸ hcandidate, e, hsame ▸ he, hterm ▸ heterm⟩
    · rw [hnone] at he
      cases he

theorem Defers.of_core (h : Defers n m) (hcore : n'.core = m.core) : Defers n n' :=
  h.congr (eq_of_core Node.currentTerm (fun _ => rfl) hcore) (eq_of_core Node.state (fun _ => rfl) hcore)
    (.inl (eq_of_core Node.election (fun _ => rfl) hcore)) (eq_of_core Node.leaderId (fun _ => rfl) hcore)

theorem Defers.maybeCommit (h : Defers n m) : Defers n m.maybeCommit := by
  rcases m.maybeCommit_cases with heq | ⟨k, -, -, -, -, -, heq⟩
  · rw [heq]
    exact h
  · rw [heq]
    exact h.congr rfl rfl (.inl rfl) rfl

theorem defers_stepDown (n : Node) (term : Nat) : Defers n (n.stepDown term) := by
  rcases n.stepDown_cases term with ⟨-, heq⟩ | ⟨hle, hcore, -⟩
  · rw [heq]
    exact .refl n
  · exact .of_follower (show n.currentTerm ≤ _ by rw [eq_of_core Node.currentTerm (fun _ => rfl) hcore]; exact hle)
      (eq_of_core Node.state (fun _ => rfl) hcore)

theorem Answers.defers {peer : String} {request : Request} {reply : Option Response}
    (h : n.Answers peer request reply n') : Defers n n' := by
  cases h with
  | noted hcore => exact (Defers.refl n).of_core hcore
  | merged _ hcore => exact (Defers.refl n).of_core hcore
  | committed _ _ hcore => exact ((Defers.refl n).of_core hcore).maybeCommit
  | newer => exact defers_stepDown n _
  | counted he hterm =>
    refine ⟨le_refl _, fun hs => ⟨hs, rfl⟩, ?_⟩
    rintro ⟨hcandidate, x, hx, hxterm⟩
    cases hx
    exact ⟨⟨hcandidate, _, he, hterm ▸ hxterm⟩, rfl, rfl⟩

theorem Concludes.defers {e : Election} (h : n.Concludes e n') (hpos : n.state = .candidate → n.currentTerm ≠ 0)
    (hlost : ¬ (n.state = .candidate ∧ n'.state = .leader)) : Defers n n' := by
  cases h with
  | idle => exact (Defers.refl n).congr rfl rfl (.inr rfl) rfl
  | newer =>
    have hdown := defers_stepDown { n with election := none } e.highestTerm
    refine ⟨hdown.term, hdown.leader, fun hs => ?_⟩
    obtain ⟨⟨-, x, hx, -⟩, -⟩ := hdown.campaigning hs
    cases hx
  | failed hstate hcore =>
    have hfirst : n.firstTerm = n := if_neg (hpos hstate)
    rw [hfirst] at hcore
    refine ⟨?_, fun hs => ?_, ?_⟩
    · exact (eq_of_core Node.currentTerm (fun _ => rfl) hcore).ge
    · rw [eq_of_core Node.state (fun _ => rfl) hcore] at hs
      exact absurd (hstate.symm.trans hs) (by decide)
    · rintro ⟨-, x, hx, -⟩
      rw [eq_of_core Node.election (fun _ => rfl) hcore] at hx
      cases hx
  | @won m _ hstate _ _ _ hcore =>
    refine absurd ⟨hstate, ?_⟩ hlost
    have hm : m.state = .leader := eq_of_core Node.state (fun _ => rfl) hcore
    rcases m.maybeCommit_cases with heq | ⟨k, -, -, -, -, -, heq⟩
    · rw [heq]
      exact hm
    · rw [heq]
      exact hm

/-- Who stays leader through the end of an election keeps its progress table. -/
theorem Concludes.progress_of_leader {e : Election} (h : n.Concludes e n')
    (hlost : ¬ (n.state = .candidate ∧ n'.state = .leader)) (hs : n'.state = .leader) : n'.progress = n.progress := by
  cases h with
  | idle => rfl
  | newer =>
    rcases stepDown_cases { n with election := none } e.highestTerm with ⟨-, heq⟩ | ⟨-, hcore, -⟩
    · rw [heq]
    · have hfollower : _ = RaftState.follower := eq_of_core Node.state (fun _ => rfl) hcore
      exact absurd (hfollower.symm.trans hs) (by decide)
  | failed hstate => exact absurd ⟨hstate, hs⟩ hlost
  | won hstate => exact absurd ⟨hstate, hs⟩ hlost

theorem state_advanceCommit (n : Node) (k : Nat) : (n.advanceCommit k).state = n.state := by
  rcases n.advanceCommit_cases k with ⟨heq, -⟩ | ⟨-, heq⟩ <;> rw [heq]

theorem state_dispatchForward (n : Node) (r : AppendEntriesRequest) : (n.dispatchForward r).state = n.state := by
  rcases n.dispatchForward_cases r with heq | heq <;> rw [heq]

/-- Whoever is no follower after a handler has rejected the request. -/
theorem handle_eq_of_state {complete : Bool} {keepFrom : Nat} {request : Request} (hinstall : ∀ r, request ≠ .install r)
    (h : (n.handle complete keepFrom request).1.state ≠ .follower) : (n.handle complete keepFrom request).1 = n := by
  cases request with
  | install r => exact absurd rfl (hinstall r)
  | vote r =>
    simp only [handle] at h ⊢
    unfold handleRequestVote at h ⊢
    split
    · rfl
    next hge =>
    rw [if_neg hge] at h
    split
    · rfl
    next m hm =>
    rw [hm] at h
    dsimp only at h
    split
    · next hgrant => exact absurd (by rw [if_pos hgrant]) h
    next hdeny =>
    rw [if_neg hdeny] at h
    split at hm
    · exact absurd (eq_of_core Node.state (fun _ => rfl) (becomeFollower_eq_ok hm).2.1) h
    · cases hm
      rfl
  | heartbeat caller r =>
    simp only [handle] at h ⊢
    rcases n.handleHeartbeat_cases r with ⟨-, heq⟩ | ⟨-, m, hcore, hres⟩
    · rw [heq]
    have hm : m.state = .follower := (eq_of_core Node.state (fun _ => rfl) hcore).trans (noted_state n r.leaderId)
    rcases hres with ⟨err, heq⟩ | heq
    · rw [heq] at h
      exact absurd hm h
    · rw [heq, state_advanceCommit] at h
      exact absurd hm h
  | append caller r =>
    simp only [handle] at h ⊢
    rcases n.handleAppendEntries_cases r with ⟨-, heq, -⟩ | ⟨-, m, hcore, hres⟩
    · exact heq
    have hm : m.state = .follower := (eq_of_core Node.state (fun _ => rfl) hcore).trans (noted_state n r.leaderId)
    rcases hres with ⟨heq, -⟩ | ⟨-, -, heq⟩
    · rw [heq] at h
      exact absurd hm h
    · rw [heq] at h
      rcases m.finishAppend_cases r with ⟨err, -, hfin⟩ | ⟨-, hfin, -⟩
      · rw [hfin] at h
        exact absurd hm h
      · rw [hfin, state_dispatchForward, state_advanceCommit] at h
        exact absurd hm h

theorem defers_handle (n : Node) (complete : Bool) (keepFrom : Nat) {request : Request}
    (hinstall : ∀ r, request ≠ .install r) : Defers n (n.handle complete keepFrom request).1 := by
  by_cases hstate : (n.handle complete keepFrom request).1.state = .follower
  · exact .of_follower (n.abides_handle complete keepFrom request).term hstate
  · rw [handle_eq_of_state hinstall hstate]
    exact .refl n

/-- An entry of the request disagrees with the log. -/
def Clashes (n : Node) (r : AppendEntriesRequest) : Prop :=
  ∃ e ∈ r.entries, ∃ x ∈ n.log.entries, x.index = e.index ∧ x.term ≠ e.term

instance (n : Node) (r : AppendEntriesRequest) : Decidable (n.Clashes r) :=
  inferInstanceAs (Decidable (∃ e ∈ r.entries, ∃ x ∈ n.log.entries, x.index = e.index ∧ x.term ≠ e.term))

/-- Unless the request is rejected, the node keeps nothing behind its entries that is not in
the log of the leader: some entry conflicts, the log ends with them, or it is all the
leader's. -/
def KeepsLeaderTail (n : Node) (leaderLog : List LogEntry) (r : AppendEntriesRequest) : Prop :=
  n.currentTerm ≤ r.term → n.rejectPrev r = none →
    n.Clashes r ∨ n.log.lastIndex ≤ r.prevLogIndex + r.entries.length ∨ n.log.entries <+: leaderLog

instance (n : Node) (leaderLog : List LogEntry) (r : AppendEntriesRequest) :
    Decidable (n.KeepsLeaderTail leaderLog r) :=
  inferInstanceAs (Decidable (n.currentTerm ≤ r.term → n.rejectPrev r = none →
    n.Clashes r ∨ n.log.lastIndex ≤ r.prevLogIndex + r.entries.length ∨ n.log.entries <+: leaderLog))

/-- With such a tail the whole log after the loop is the leader's. -/
theorem Outcome.le_of_keepsLeaderTail {l : List LogEntry} {r : AppendEntriesRequest} {s : Splice}
    (h : Outcome n.log.entries l r.prevLogIndex r.entries.length s) (hr : Carried l r) (hlog : n.log.FromOne)
    (htail : n.Clashes r ∨ n.log.lastIndex ≤ r.prevLogIndex + r.entries.length ∨ n.log.entries <+: l) :
    s.log.entries <+: l := by
  cases h with
  | extended hle htrunc hs =>
    rw [hs]
    exact List.take_prefix _ _
  | replaced hj hlt htake hx he hterm htrunc hs =>
    rw [hs]
    exact List.take_prefix _ _
  | kept hlt hle htrunc hs =>
    rw [hs]
    rcases htail with ⟨e, he, x, hx, hindex, hterm⟩ | hshort | hall
    · exfalso
      obtain ⟨i, hi⟩ := List.mem_iff_getElem?.mp he
      obtain ⟨j, hj⟩ := List.mem_iff_getElem?.mp hx
      have hxindex := hlog.index j x hj
      have heindex := hr.numbered i e hi
      obtain rfl : j = r.prevLogIndex + i := by omega
      have hilt := (List.getElem?_eq_some_iff.mp hi).1
      have hli : l[r.prevLogIndex + i]? = some e := by
        rw [← List.getElem?_drop]
        obtain ⟨rest, hrest⟩ := hr.entries
        rw [← hrest, List.getElem?_append_left hilt]
        exact hi
      have hsame : n.log.entries[r.prevLogIndex + i]? = some e := by
        obtain ⟨rest, hrest⟩ := hle
        have hlen := hr.length_le
        rw [← hrest, List.getElem?_append_left (by rw [List.length_take]; omega),
          List.getElem?_take_of_lt (by omega)]
        exact hli
      rw [hj] at hsame
      cases hsame
      exact hterm rfl
    · rw [hlog.last] at hshort
      omega
    · exact hall

end Node

namespace Cluster

/-- The call is an `AppendEntries` that its sender has sent to a member as leader of the term
that it still leads. -/
structure OfLeader (c : Cluster) (call : Call) (r : AppendEntriesRequest) : Prop where
  request : ∃ caller, call.request = .append caller r
  state : (c.nodes call.src).state = .leader
  term : r.term = (c.nodes call.src).currentTerm
  leader : r.leaderId = call.src
  dst : call.dst ∈ c.members.ids

structure AckInv (c : Cluster) : Prop where
  campaigning : ∀ p, (c.nodes p).Campaigning → (c.nodes p).leaderId = ""
  src : ∀ call ∈ c.calls, call.src ∈ c.members.ids
  term_le : ∀ call ∈ c.calls, ∀ caller r, call.request = .append caller r → r.term ≤ (c.nodes call.src).currentTerm
  fresh : ∀ call ∈ c.calls, ∀ caller r, call.request = .append caller r → (c.nodes call.src).Campaigning →
    r.term = (c.nodes call.src).currentTerm → r.leaderId ≠ call.src
  carried : ∀ call ∈ c.calls, ∀ r, c.OfLeader call r → Node.Carried (c.history.leaderLog r.term) r
  replied : ∀ call ∈ c.calls, call.reply ≠ none → call.delivered = true ∧ call.dst ∈ c.members.ids
  wal : ∀ call ∈ c.calls, ∀ r a, c.OfLeader call r → call.reply = some (.append a) → a.success = true →
    call.wal.FromOne ∧ a.matchIndex = call.wal.entries.length ∧ call.wal.entries <+: c.history.leaderLog r.term
  matched : ∀ p, (c.nodes p).state = .leader → ∀ q, matchIndexOf (c.nodes p).progress q = 0 ∨
    ∃ call ∈ c.calls, ∃ r a, c.OfLeader call r ∧ call.src = p ∧ call.dst = q ∧ call.reply = some (.append a) ∧
      a.success = true ∧ a.matchIndex = matchIndexOf (c.nodes p).progress q

variable {codec : CommandCodec} {c c' : Cluster}

/-- A call whose sender leads keeps doing so through a change that makes no leader. -/
theorem OfLeader.of_put {p : String} {n' : Node} {call : Call} {r : AppendEntriesRequest}
    (hkeep : (c.nodes p).Defers n') (h : (c.put p n').OfLeader call r) : c.OfLeader call r := by
  by_cases hsrc : call.src = p
  · have hstate := h.state
    have hterm := h.term
    rw [hsrc, put_self] at hstate hterm
    obtain ⟨hstate', hterm'⟩ := hkeep.leader hstate
    exact ⟨h.request, hsrc ▸ hstate', by rw [hsrc, hterm, hterm'], h.leader, h.dst⟩
  · have hstate := h.state
    have hterm := h.term
    rw [put_other c n' hsrc] at hstate hterm
    exact ⟨h.request, hstate, hterm, h.leader, h.dst⟩

theorem OfLeader.put {p : String} {n' : Node} {call : Call} {r : AppendEntriesRequest} (h : c.OfLeader call r)
    (hsrc : call.src = p → n'.state = .leader ∧ n'.currentTerm = (c.nodes p).currentTerm) :
    (c.put p n').OfLeader call r := by
  refine ⟨h.request, ?_, ?_, h.leader, h.dst⟩
  · by_cases hp : call.src = p
    · rw [hp, put_self]
      exact (hsrc hp).1
    · rw [put_other c n' hp]
      exact h.state
  · by_cases hp : call.src = p
    · rw [hp, put_self, (hsrc hp).2, ← hp]
      exact h.term
    · rw [put_other c n' hp]
      exact h.term

/-- One node changes; no leader is made, and a leader may have merged acknowledgements. -/
theorem AckInv.put (hI : AckInv c) {p : String} {n' : Node} (hkeep : (c.nodes p).Defers n')
    (hmatch : n'.state = .leader → ∀ q, matchIndexOf n'.progress q = matchIndexOf (c.nodes p).progress q ∨
      ∃ call ∈ c.calls, ∃ r a, c.OfLeader call r ∧ call.src = p ∧ call.dst = q ∧ call.reply = some (.append a) ∧
        a.success = true ∧ a.matchIndex = matchIndexOf n'.progress q) : AckInv (c.put p n') where
  campaigning q hq := by
    by_cases hqp : q = p
    · rw [hqp, put_self] at hq ⊢
      obtain ⟨hcampaigning, -, hleader⟩ := hkeep.campaigning hq
      rw [hleader]
      exact hI.campaigning p hcampaigning
    · rw [put_other c n' hqp] at hq ⊢
      exact hI.campaigning q hq
  src := hI.src
  term_le call hcall caller r hr := by
    by_cases hsrc : call.src = p
    · rw [hsrc, put_self]
      exact (hsrc ▸ hI.term_le call hcall caller r hr).trans hkeep.term
    · rw [put_other c n' hsrc]
      exact hI.term_le call hcall caller r hr
  fresh call hcall caller r hr hcampaigning hterm := by
    by_cases hsrc : call.src = p
    · rw [hsrc, put_self] at hcampaigning hterm
      obtain ⟨hcampaigning', hterm', -⟩ := hkeep.campaigning hcampaigning
      exact hI.fresh call hcall caller r hr (hsrc ▸ hcampaigning') (by rw [hsrc, hterm, hterm'])
    · rw [put_other c n' hsrc] at hcampaigning hterm
      exact hI.fresh call hcall caller r hr hcampaigning hterm
  carried call hcall r hr := hI.carried call hcall r (hr.of_put hkeep)
  replied := hI.replied
  wal call hcall r a hr := hI.wal call hcall r a (hr.of_put hkeep)
  matched q hq x := by
    by_cases hqp : q = p
    · subst hqp
      rw [put_self] at hq ⊢
      obtain ⟨hstate, hterm⟩ := hkeep.leader hq
      have hlead : ∀ {call r}, c.OfLeader call r → call.src = q → (c.put q n').OfLeader call r := fun h _ =>
        h.put fun _ => ⟨hq, hterm⟩
      rcases hmatch hq x with hsame | ⟨call, hcall, r, a, hl, hsrc, hdst, hreply, hok, heq⟩
      · rw [hsame]
        rcases hI.matched q hstate x with hzero | ⟨call, hcall, r, a, hl, hsrc, hdst, hreply, hok, heq⟩
        · exact .inl hzero
        · exact .inr ⟨call, hcall, r, a, hlead hl hsrc, hsrc, hdst, hreply, hok, heq⟩
      · exact .inr ⟨call, hcall, r, a, hlead hl hsrc, hsrc, hdst, hreply, hok, heq⟩
    · rw [put_other c n' hqp] at hq ⊢
      rcases hI.matched q hq x with hzero | ⟨call, hcall, r, a, hl, hsrc, hdst, hreply, hok, heq⟩
      · exact .inl hzero
      · exact .inr ⟨call, hcall, r, a, hl.put fun hp => absurd (hsrc.symm.trans hp) hqp, hsrc, hdst, hreply, hok, heq⟩

/-- The logs of current leaders grow. -/
theorem AckInv.record (hI : AckInv c) {h : History} (hgrow : ∀ p, (c.nodes p).state = .leader →
    c.history.leaderLog (c.nodes p).currentTerm <+: h.leaderLog (c.nodes p).currentTerm) : AckInv (c.record h) where
  campaigning := hI.campaigning
  src := hI.src
  term_le := hI.term_le
  fresh := hI.fresh
  carried call hcall r hr := by
    have hl : c.OfLeader call r := ⟨hr.request, hr.state, hr.term, hr.leader, hr.dst⟩
    have hle := hgrow call.src hl.state
    rw [← hl.term] at hle
    exact (hI.carried call hcall r hl).mono hle
  replied := hI.replied
  wal call hcall r a hr hreply hok := by
    have hl : c.OfLeader call r := ⟨hr.request, hr.state, hr.term, hr.leader, hr.dst⟩
    have hle := hgrow call.src hl.state
    rw [← hl.term] at hle
    obtain ⟨hfrom, hmatch, hlog⟩ := hI.wal call hcall r a hl hreply hok
    exact ⟨hfrom, hmatch, hlog.trans hle⟩
  matched p hp q := by
    rcases hI.matched p hp q with hzero | ⟨call, hcall, r, a, hl, hrest⟩
    · exact .inl hzero
    · exact .inr ⟨call, hcall, r, a, ⟨hl.request, hl.state, hl.term, hl.leader, hl.dst⟩, hrest⟩

/-- Requests that a node may put on the wire. -/
def Sendable (c : Cluster) (p : String) (m : String × Request) : Prop :=
  ∀ caller r, m.2 = .append caller r → r.term = (c.nodes p).currentTerm ∧
    ((c.nodes p).Campaigning → r.leaderId ≠ p) ∧
    ((c.nodes p).state = .leader → Node.Carried (c.history.leaderLog r.term) r)

theorem AckInv.send (hI : AckInv c) {p : String} {messages : List (String × Request)} (hmem : messages ≠ [] → p ∈ c.members.ids)
    (h : ∀ m ∈ messages, c.Sendable p m) : AckInv (c.send p messages) := by
  have hlead : ∀ {call r}, (c.send p messages).OfLeader call r → c.OfLeader call r := fun h =>
    ⟨h.request, h.state, h.term, h.leader, h.dst⟩
  constructor
  · exact hI.campaigning
  · intro call hcall
    rcases List.mem_append.mp hcall with hcall | hcall
    · exact hI.src call hcall
    · obtain ⟨m, hm, rfl⟩ := List.mem_map.mp hcall
      exact hmem (List.ne_nil_of_mem hm)
  · intro call hcall caller r hr
    rcases List.mem_append.mp hcall with hcall | hcall
    · exact hI.term_le call hcall caller r hr
    · obtain ⟨m, hm, rfl⟩ := List.mem_map.mp hcall
      exact (h m hm caller r hr).1.le
  · intro call hcall caller r hr hcampaigning hterm
    rcases List.mem_append.mp hcall with hcall | hcall
    · exact hI.fresh call hcall caller r hr hcampaigning hterm
    · obtain ⟨m, hm, rfl⟩ := List.mem_map.mp hcall
      exact (h m hm caller r hr).2.1 hcampaigning
  · intro call hcall r hr
    rcases List.mem_append.mp hcall with hcall | hcall
    · exact hI.carried call hcall r (hlead hr)
    · obtain ⟨m, hm, rfl⟩ := List.mem_map.mp hcall
      obtain ⟨caller, hcaller⟩ := hr.request
      exact (h m hm caller r hcaller).2.2 hr.state
  · intro call hcall hreply
    rcases List.mem_append.mp hcall with hcall | hcall
    · exact hI.replied call hcall hreply
    · obtain ⟨m, hm, rfl⟩ := List.mem_map.mp hcall
      exact absurd rfl hreply
  · intro call hcall r a hr hreply hok
    rcases List.mem_append.mp hcall with hcall | hcall
    · exact hI.wal call hcall r a (hlead hr) hreply hok
    · obtain ⟨m, hm, rfl⟩ := List.mem_map.mp hcall
      cases hreply
  · intro q hq x
    rcases hI.matched q hq x with hzero | ⟨call, hcall, r, a, hl, hrest⟩
    · exact .inl hzero
    · exact .inr ⟨call, List.mem_append_left _ hcall, r, a, ⟨hl.request, hl.state, hl.term, hl.leader, hl.dst⟩, hrest⟩

/-- Calls that differ from the old ones only in that nobody waits for them any more. -/
theorem AckInv.recall (hI : AckInv c) {calls : List Call}
    (h : ∀ x ∈ calls, ∃ y ∈ c.calls, x = { y with waiting := x.waiting })
    (h' : ∀ y ∈ c.calls, ∃ x ∈ calls, x = { y with waiting := x.waiting }) : AckInv { c with calls } := by
  constructor
  · exact hI.campaigning
  · intro x hx
    obtain ⟨y, hy, heq⟩ := h x hx
    rw [heq]
    exact hI.src y hy
  · intro x hx
    obtain ⟨y, hy, heq⟩ := h x hx
    rw [heq]
    exact hI.term_le y hy
  · intro x hx
    obtain ⟨y, hy, heq⟩ := h x hx
    rw [heq]
    exact hI.fresh y hy
  · intro x hx r hr
    obtain ⟨y, hy, heq⟩ := h x hx
    rw [heq] at hr
    exact hI.carried y hy r ⟨hr.request, hr.state, hr.term, hr.leader, hr.dst⟩
  · intro x hx
    obtain ⟨y, hy, heq⟩ := h x hx
    rw [heq]
    exact hI.replied y hy
  · intro x hx r a hr
    obtain ⟨y, hy, heq⟩ := h x hx
    rw [heq] at hr ⊢
    exact hI.wal y hy r a ⟨hr.request, hr.state, hr.term, hr.leader, hr.dst⟩
  · intro p hp q
    rcases hI.matched p hp q with hzero | ⟨y, hy, r, a, hl, hrest⟩
    · exact .inl hzero
    · obtain ⟨x, hx, heq⟩ := h' y hy
      refine .inr ⟨x, hx, r, a, ?_⟩
      rw [heq]
      exact ⟨⟨hl.request, hl.state, hl.term, hl.leader, hl.dst⟩, hrest⟩

theorem AckInv.settle (hI : AckInv c) {i : Nat} {call : Call} (hcall : c.calls[i]? = some call) :
    AckInv (c.setCall i { call with waiting := false }) := by
  have hlt := (List.getElem?_eq_some_iff.mp hcall).1
  refine hI.recall (fun x hx => ?_) fun y hy => ?_
  · rcases List.mem_or_eq_of_mem_set hx with hx | rfl
    · exact ⟨x, hx, rfl⟩
    · exact ⟨call, List.mem_of_getElem? hcall, rfl⟩
  · obtain ⟨j, hj⟩ := List.mem_iff_getElem?.mp hy
    by_cases hji : j = i
    · subst hji
      obtain rfl : call = y := Option.some.inj (hcall.symm.trans hj)
      exact ⟨_, List.mem_iff_getElem?.mpr ⟨j, List.getElem?_set_self hlt⟩, rfl⟩
    · exact ⟨y, List.mem_iff_getElem?.mpr ⟨j, by rw [List.getElem?_set_ne (Ne.symm hji)]; exact hj⟩, rfl⟩

theorem AckInv.dropCalls (hI : AckInv c) (p : String) : AckInv (c.dropCalls p) := by
  refine hI.recall (fun x hx => ?_) fun y hy => ?_
  · obtain ⟨y, hy, rfl⟩ := List.mem_map.mp hx
    refine ⟨y, hy, ?_⟩
    split <;> rfl
  · refine ⟨_, List.mem_map_of_mem hy, ?_⟩
    split <;> rfl

/-- A new leader has merged nothing, and none of its requests of the term names it as leader. -/
theorem AckInv.lead (hI : AckInv c) {p : String} {n' : Node} {h : History} (hstate : n'.state = .leader)
    (hle : (c.nodes p).currentTerm ≤ n'.currentTerm) (hmatch : ∀ q, matchIndexOf n'.progress q = 0)
    (hnone : ∀ call ∈ c.calls, ∀ caller r, call.request = .append caller r → call.src = p → call.dst ∈ c.members.ids →
      r.term = n'.currentTerm → r.leaderId ≠ p)
    (hsame : ∀ q, q ≠ p → (c.nodes q).state = .leader →
      h.leaderLog (c.nodes q).currentTerm = c.history.leaderLog (c.nodes q).currentTerm) :
    AckInv ((c.put p n').record h) := by
  have hlead : ∀ {call r}, call ∈ c.calls → ((c.put p n').record h).OfLeader call r →
      c.OfLeader call r ∧ h.leaderLog r.term = c.history.leaderLog r.term := by
    intro call r hcall hr
    obtain ⟨caller, hcaller⟩ := hr.request
    have hne : call.src ≠ p := by
      intro hsrc
      have hterm := hr.term
      rw [record_nodes, hsrc, put_self] at hterm
      exact hnone call hcall caller r hcaller hsrc hr.dst hterm (hr.leader.trans hsrc)
    have hs := hr.state
    have ht := hr.term
    rw [record_nodes, put_other c n' hne] at hs ht
    refine ⟨⟨hr.request, hs, ht, hr.leader, hr.dst⟩, ?_⟩
    rw [ht]
    exact hsame call.src hne hs
  have hcandidate : ¬ n'.Campaigning := fun hs => by
    have := hs.1
    rw [hstate] at this
    cases this
  constructor
  · intro q hq
    by_cases hqp : q = p
    · rw [hqp, record_nodes, put_self] at hq
      exact absurd hq hcandidate
    · rw [record_nodes, put_other c n' hqp] at hq ⊢
      exact hI.campaigning q hq
  · exact hI.src
  · intro call hcall caller r hr
    by_cases hsrc : call.src = p
    · rw [record_nodes, hsrc, put_self]
      exact (hsrc ▸ hI.term_le call hcall caller r hr).trans hle
    · rw [record_nodes, put_other c n' hsrc]
      exact hI.term_le call hcall caller r hr
  · intro call hcall caller r hr hcampaigning hterm
    by_cases hsrc : call.src = p
    · rw [record_nodes, hsrc, put_self] at hcampaigning
      exact absurd hcampaigning hcandidate
    · rw [record_nodes, put_other c n' hsrc] at hcampaigning hterm
      exact hI.fresh call hcall caller r hr hcampaigning hterm
  · intro call hcall r hr
    obtain ⟨hl, heq⟩ := hlead hcall hr
    rw [record_history, heq]
    exact hI.carried call hcall r hl
  · exact hI.replied
  · intro call hcall r a hr
    obtain ⟨hl, heq⟩ := hlead hcall hr
    rw [record_history, heq]
    exact hI.wal call hcall r a hl
  · intro q hq x
    by_cases hqp : q = p
    · rw [hqp, record_nodes, put_self]
      exact .inl (hmatch x)
    · rw [record_nodes, put_other c n' hqp] at hq ⊢
      rcases hI.matched q hq x with hzero | ⟨call, hcall, r, a, hl, hsrc, hrest⟩
      · exact .inl hzero
      · have hput : (c.put p n').OfLeader call r := hl.put fun hp => absurd (hsrc.symm.trans hp) hqp
        exact .inr ⟨call, hcall, r, a, ⟨hput.request, hput.state, hput.term, hput.leader, hput.dst⟩, hsrc, hrest⟩

/-- The moves that make a leader. -/
theorem AckInv.elected (hI : AckInv c) {p : String} {m : Node} {h : History} (hstate : m.state = .leader)
    (hle : (c.nodes p).currentTerm ≤ m.currentTerm) (hmatch : ∀ q, matchIndexOf m.progress q = 0)
    (hlog : h.leaderLog = c.history.leaderLog)
    (hnone : ∀ call ∈ c.calls, ∀ caller r, call.request = .append caller r → call.src = p → call.dst ∈ c.members.ids →
      r.term = m.currentTerm → r.leaderId ≠ p)
    (hother : ∀ q, q ≠ p → (c.nodes q).state = .leader → (c.nodes q).currentTerm ≠ m.currentTerm) :
    AckInv ((c.put p m.maybeCommit).record ((h.lead p m).commit p m m.maybeCommit)) := by
  have hterm := Node.eq_of_maybeCommit Node.currentTerm (fun _ _ => rfl) m
  refine hI.lead ?_ (hterm ▸ hle) ?_ (hterm ▸ hnone) fun q hne hq => ?_
  · exact (Node.eq_of_maybeCommit Node.state (fun _ _ => rfl) m).trans hstate
  · rw [Node.eq_of_maybeCommit Node.progress (fun _ _ => rfl) m]
    exact hmatch
  · have hleaders : ((h.lead p m).commit p m m.maybeCommit).leaderLog = (h.lead p m).leaderLog :=
      congrArg Leaders.leaderLog (History.leaders_commit ..)
    rw [hleaders, ← hlog]
    exact Function.update_of_ne (hother q hne hq) ..

/-- The response of a request that is answered now is sound. -/
theorem AckInv.answered (hI : AckInv c) {i : Nat} {call : Call} (call' : Call) (hcall : c.calls[i]? = some call)
    (hnew : call.delivered = false) (hmember : call.dst ∈ c.members.ids) (hsrc : call'.src = call.src) (hdst : call'.dst = call.dst)
    (hrequest : call'.request = call.request) (hdelivered : call'.delivered = true)
    (hwal : ∀ r a, c.OfLeader call r → call'.reply = some (.append a) → a.success = true →
      call'.wal.FromOne ∧ a.matchIndex = call'.wal.entries.length ∧ call'.wal.entries <+: c.history.leaderLog r.term) :
    AckInv (c.setCall i call') := by
  have hmem := List.mem_of_getElem? hcall
  have hback : ∀ {r}, (c.setCall i call').OfLeader call' r → c.OfLeader call r := fun hr =>
    ⟨hrequest ▸ hr.request, hsrc ▸ hr.state, by rw [← hsrc]; exact hr.term, hsrc ▸ hr.leader, hdst ▸ hr.dst⟩
  have hsame : ∀ {x r}, (c.setCall i call').OfLeader x r → c.OfLeader x r := fun hr =>
    ⟨hr.request, hr.state, hr.term, hr.leader, hr.dst⟩
  constructor
  · exact hI.campaigning
  · intro x hx
    rcases List.mem_or_eq_of_mem_set hx with hx | rfl
    · exact hI.src x hx
    · rw [hsrc]
      exact hI.src call hmem
  · intro x hx
    rcases List.mem_or_eq_of_mem_set hx with hx | rfl
    · exact hI.term_le x hx
    · rw [hsrc, hrequest]
      exact hI.term_le call hmem
  · intro x hx
    rcases List.mem_or_eq_of_mem_set hx with hx | rfl
    · exact hI.fresh x hx
    · rw [hsrc, hrequest]
      exact hI.fresh call hmem
  · intro x hx r hr
    rcases List.mem_or_eq_of_mem_set hx with hx | rfl
    · exact hI.carried x hx r (hsame hr)
    · exact hI.carried call hmem r (hback hr)
  · intro x hx hreply
    rcases List.mem_or_eq_of_mem_set hx with hx | rfl
    · exact hI.replied x hx hreply
    · rw [hdst]
      exact ⟨hdelivered, hmember⟩
  · intro x hx r a hr
    rcases List.mem_or_eq_of_mem_set hx with hx | rfl
    · exact hI.wal x hx r a (hsame hr)
    · exact hwal r a (hback hr)
  · intro p hp q
    rcases hI.matched p hp q with hzero | ⟨y, hy, r, a, hl, hy₁, hy₂, hreply, hrest⟩
    · exact .inl hzero
    · obtain ⟨j, hj⟩ := List.mem_iff_getElem?.mp hy
      have hji : j ≠ i := by
        rintro rfl
        obtain rfl : call = y := Option.some.inj (hcall.symm.trans hj)
        rw [(hI.replied call hy (by rw [hreply]; simp)).1] at hnew
        cases hnew
      refine .inr ⟨y, List.mem_iff_getElem?.mpr ⟨j, ?_⟩, r, a,
        ⟨hl.request, hl.state, hl.term, hl.leader, hl.dst⟩, hy₁, hy₂, hreply, hrest⟩
      simp only [setCall]
      rw [List.getElem?_set_ne (Ne.symm hji)]
      exact hj

/-- The tail that the receiver keeps behind a request of a leader is the leader's. -/
def TailSound (c : Cluster) (src dst : String) : Request → Prop
  | .append _ r => (c.nodes src).state = .leader → r.term = (c.nodes src).currentTerm → r.leaderId = src →
      (c.nodes dst).KeepsLeaderTail (c.history.leaderLog r.term) r
  | _ => True

instance (c : Cluster) (src dst : String) (request : Request) : Decidable (c.TailSound src dst request) :=
  match request with
  | .append _ r => inferInstanceAs (Decidable ((c.nodes src).state = .leader → r.term = (c.nodes src).currentTerm →
      r.leaderId = src → (c.nodes dst).KeepsLeaderTail (c.history.leaderLog r.term) r))
  | .vote _ => isTrue trivial
  | .heartbeat _ _ => isTrue trivial
  | .install _ => isTrue trivial

/-- A leader merges an acknowledgement in the term in which it sent the request as leader, or
it learns nothing from it. -/
def MergesInTerm (c : Cluster) (src dst : String) : Request → Option Response → Prop
  | .append _ r, some (.append a) => a.success = true → (c.nodes src).state = .leader →
      (r.term = (c.nodes src).currentTerm ∧ r.leaderId = src) ∨ a.matchIndex ≤ matchIndexOf (c.nodes src).progress dst
  | _, _ => True

instance (c : Cluster) (src dst : String) (request : Request) (reply : Option Response) :
    Decidable (c.MergesInTerm src dst request reply) :=
  match request, reply with
  | .append _ r, some (.append a) => inferInstanceAs (Decidable (a.success = true → (c.nodes src).state = .leader →
      (r.term = (c.nodes src).currentTerm ∧ r.leaderId = src) ∨ a.matchIndex ≤ matchIndexOf (c.nodes src).progress dst))
  | .append _ _, none => isTrue trivial
  | .append _ _, some (.vote _) => isTrue trivial
  | .append _ _, some (.heartbeat _) => isTrue trivial
  | .append _ _, some (.install _) => isTrue trivial
  | .vote _, _ => isTrue trivial
  | .heartbeat _ _, _ => isTrue trivial
  | .install _, _ => isTrue trivial

/-- What a leader counts is sound. -/
def SoundAcks (c : Cluster) : Action → Prop
  | .deliver i _ _ => ∀ call ∈ c.calls[i]?, c.TailSound call.src call.dst call.request
  | .receive i _ => ∀ call ∈ c.calls[i]?, c.MergesInTerm call.src call.dst call.request call.reply
  | _ => True

instance (c : Cluster) : (a : Action) → Decidable (c.SoundAcks a)
  | .deliver i _ _ => inferInstanceAs (Decidable (∀ call ∈ c.calls[i]?, _))
  | .receive i _ => inferInstanceAs (Decidable (∀ call ∈ c.calls[i]?, _))
  | .start _ | .startElection _ | .finishElection _ | .beginBroadcast _ | .finishBroadcast _ _ |
    .replicate _ _ | .forward _ _ | .checkMentor _ _ | .checkFollower _ _ _ | .fail _ _ | .rebalance _ |
    .recoverWindows _ _ | .clientWrite _ _ | .propose _ _ | .apply _ _ | .saveSnapshot _ _ | .restart _ => isTrue trivial

theorem AckInv.deliver (hI : AckInv c) (hR : ReplicationInv c) {i : Nat} {complete : Bool} {keepFrom : Nat} {call : Call}
    (hcall : c.calls[i]? = some call) (hnew : call.delivered = false) (hmember : call.dst ∈ c.members.ids)
    (htail : c.TailSound call.src call.dst call.request) :
    AckInv ((c.setCall i
        { call with
          delivered := true
          reply := ((c.nodes call.dst).handle complete keepFrom call.request).2
          wal := ((c.nodes call.dst).handle complete keepFrom call.request).1.log }).put call.dst
      ((c.nodes call.dst).handle complete keepFrom call.request).1) := by
  have hinstall := hR.install call (List.mem_of_getElem? hcall)
  refine AckInv.put (hI.answered
      { call with
        delivered := true
        reply := ((c.nodes call.dst).handle complete keepFrom call.request).2
        wal := ((c.nodes call.dst).handle complete keepFrom call.request).1.log }
      hcall hnew hmember rfl rfl rfl rfl fun r a hl hreply hok => ?_)
    ((c.nodes call.dst).defers_handle complete keepFrom hinstall) fun hs q => .inl ?_
  swap
  · rw [Node.handle_eq_of_state hinstall (by rw [hs]; decide)]
    rfl
  obtain ⟨caller, hreq⟩ := hl.request
  rw [hreq] at hreply htail ⊢
  have hnode := hR.node call.dst
  have hsrc := (hR.node call.src).leads hl.state
  rw [← hl.term] at hsrc
  have hcarried := hI.carried call (List.mem_of_getElem? hcall) r hl
  simp only [Node.handle] at hreply ⊢
  rcases (c.nodes call.dst).handleAppendEntries_cases r with ⟨-, -, hno⟩ | ⟨hge, m, hcore, ⟨-, hno⟩ | ⟨hprev, -, heq⟩⟩
  · cases hres : ((c.nodes call.dst).handleAppendEntries r).2 with
    | error err =>
      rw [hres] at hreply
      cases hreply
    | ok b =>
      rw [hres] at hreply
      cases hreply
      rw [hno a hres] at hok
      cases hok
  · cases hres : ((c.nodes call.dst).handleAppendEntries r).2 with
    | error err =>
      rw [hres] at hreply
      cases hreply
    | ok b =>
      rw [hres] at hreply
      cases hreply
      rw [hno a hres] at hok
      cases hok
  have hm := (hnode.noted r.leaderId hge).of_core hcore
  have hmlog : m.log = (c.nodes call.dst).log :=
    (Node.eq_of_core Node.log (fun _ => rfl) hcore).trans (Node.noted_log _ r.leaderId)
  have hreject := Node.rejectPrev_congr hnode.plain.index hnode.plain.log hm.plain.index hmlog hprev
  have hkeep := htail hl.state hl.term hl.leader hge hreject
  obtain ⟨herr, hfrom, hout⟩ := Node.spliceEntries_outcome hm.plain.index hm.plain.log hm.log
    (hR.leaderLogs r.term ⟨call.src, hsrc.1⟩) hcarried hprev
  rw [heq] at hreply ⊢
  rcases m.finishAppend_cases r with ⟨err, herr', -⟩ | ⟨-, hfin, b, hb, -, -, hmatch⟩
  · rw [herr] at herr'
    cases herr'
  rw [hb] at hreply
  cases hreply
  rw [hfin]
  generalize Node.spliceEntries m.lastSnapshotIndex m.log r.entries = s at hfrom hout hmatch
  have hwal : ((Node.advanceCommit { m with log := s.log } r.leaderCommit).dispatchForward r).log = s.log := by
    rcases Node.dispatchForward_cases (Node.advanceCommit { m with log := s.log } r.leaderCommit) r with hd | hd <;> rw [hd]
    all_goals
      rcases Node.advanceCommit_cases { m with log := s.log } r.leaderCommit with ⟨ha, -⟩ | ⟨-, ha⟩ <;> rw [ha]
  rw [hwal]
  refine ⟨hfrom, ?_, ?_⟩
  · rw [hmatch, hm.plain.index, hfrom.last, Nat.zero_max]
  · rw [hmlog] at hout
    exact Node.Outcome.le_of_keepsLeaderTail (n := c.nodes call.dst) hout hcarried hnode.plain.log hkeep

/-- A candidate has sent nothing in its new term. -/
theorem AckInv.stand (hI : AckInv c) {p : String} {n' : Node} (hstate : n'.state = .candidate)
    (hterm : (c.nodes p).currentTerm < n'.currentTerm) (hleader : n'.leaderId = "") : AckInv (c.put p n') := by
  have hback : ∀ {call r}, (c.put p n').OfLeader call r → c.OfLeader call r := by
    intro call r hr
    have hne : call.src ≠ p := by
      intro hsrc
      have hs := hr.state
      rw [hsrc, put_self, hstate] at hs
      cases hs
    have hs := hr.state
    have ht := hr.term
    rw [put_other c n' hne] at hs ht
    exact ⟨hr.request, hs, ht, hr.leader, hr.dst⟩
  constructor
  · intro q hq
    by_cases hqp : q = p
    · rw [hqp, put_self]
      exact hleader
    · rw [put_other c n' hqp] at hq ⊢
      exact hI.campaigning q hq
  · exact hI.src
  · intro call hcall caller r hr
    by_cases hsrc : call.src = p
    · rw [hsrc, put_self]
      exact (hsrc ▸ hI.term_le call hcall caller r hr).trans hterm.le
    · rw [put_other c n' hsrc]
      exact hI.term_le call hcall caller r hr
  · intro call hcall caller r hr hcampaigning heq
    by_cases hsrc : call.src = p
    · rw [hsrc, put_self] at heq
      have hle := hI.term_le call hcall caller r hr
      rw [hsrc] at hle
      omega
    · rw [put_other c n' hsrc] at hcampaigning heq
      exact hI.fresh call hcall caller r hr hcampaigning heq
  · exact fun call hcall r hr => hI.carried call hcall r (hback hr)
  · exact hI.replied
  · exact fun call hcall r a hr => hI.wal call hcall r a (hback hr)
  · intro q hq x
    by_cases hqp : q = p
    · rw [hqp, put_self, hstate] at hq
      cases hq
    · rw [put_other c n' hqp] at hq ⊢
      rcases hI.matched q hq x with hzero | ⟨call, hcall, r, a, hl, hsrc, hrest⟩
      · exact .inl hzero
      · exact .inr ⟨call, hcall, r, a, hl.put fun hp => absurd (hsrc.symm.trans hp) hqp, hsrc, hrest⟩

theorem sendable_of_sends (hR : ReplicationInv c) {p : String} (hstate : (c.nodes p).state = .leader)
    {m : String × Request} (h : (c.nodes p).Sends m) : c.Sendable p m := by
  intro caller r hr
  cases h with
  | heartbeat => cases hr
  | install => cases hr
  | append hpeer hcaller hcarries =>
    cases hr
    refine ⟨hcarries.term, fun hcampaigning => ?_, fun _ => ?_⟩
    · exact absurd (hcampaigning.1.symm.trans hstate) (by decide)
    · have hnode := hR.node p
      have hown : (c.nodes p).log.entries = c.history.leaderLog (c.nodes p).currentTerm := (hnode.leads hstate).2
      rw [hcarries.term, ← hown]
      exact hcarries.carried hnode.plain.index hnode.plain.log

theorem AckInv.forwards (hI : AckInv c) (hR : ReplicationInv c) {p : String} (hmem : p ∈ c.members.ids)
    {m : String × Request} (h : (c.nodes p).Forwards m) : c.Sendable p m := by
  intro caller r hr
  cases h with
  | install => cases hr
  | append hcarries hleader =>
    cases hr
    refine ⟨hcarries.term, fun hcampaigning heq => ?_, fun hstate => ?_⟩
    · rw [hleader, hI.campaigning p hcampaigning] at heq
      exact c.members.named (heq ▸ hmem)
    · have hnode := hR.node p
      have hown : (c.nodes p).log.entries = c.history.leaderLog (c.nodes p).currentTerm := (hnode.leads hstate).2
      rw [hcarries.term, ← hown]
      exact hcarries.carried hnode.plain.index hnode.plain.log

/-- The end of a call merges what the response acknowledges, if anything. -/
theorem AckInv.answer (hI : AckInv c) (hR : ReplicationInv c) {i : Nat} {call : Call} {n' : Node} {reply : Option Response}
    (hcall : c.calls[i]? = some call) (hreply : reply = none ∨ reply = call.reply)
    (hmerge : c.MergesInTerm call.src call.dst call.request reply)
    (h : (c.nodes call.src).Answers call.dst call.request reply n') : AckInv (c.put call.src n') := by
  have hmem := List.mem_of_getElem? hcall
  have hacked : ∀ {m k : Nat}, Node.Acks call.request reply m → (c.nodes call.src).state = .leader →
      k = max (matchIndexOf (c.nodes call.src).progress call.dst) m →
      k = matchIndexOf (c.nodes call.src).progress call.dst ∨ ∃ x ∈ c.calls, ∃ r a, c.OfLeader x r ∧
        x.src = call.src ∧ x.dst = call.dst ∧ x.reply = some (.append a) ∧ a.success = true ∧ a.matchIndex = k := by
    intro m k hacks hstate hk
    generalize hreq : call.request = request at hacks hmerge
    cases hacks with
    | install => exact absurd hreq (hR.install call hmem _)
    | @append caller r a hok =>
      have hsome : call.reply = some (.append a) := (hreply.resolve_left (by simp)).symm
      rcases hmerge hok hstate with ⟨hterm, hleader⟩ | hold
      · have hl : c.OfLeader call r :=
          ⟨⟨caller, hreq⟩, hstate, hterm, hleader, (hI.replied call hmem (by rw [hsome]; simp)).2⟩
        rcases Nat.le_total a.matchIndex (matchIndexOf (c.nodes call.src).progress call.dst) with hle | hle
        · exact .inl (hk.trans (Nat.max_eq_left hle))
        · exact .inr ⟨call, hmem, r, a, hl, rfl, rfl, hsome, hok, (hk.trans (Nat.max_eq_right hle)).symm⟩
      · exact .inl (hk.trans (Nat.max_eq_left hold))
  have hmerged : ∀ {m : Nat} {t : ProgressTable}, Node.Acks call.request reply m → (c.nodes call.src).state = .leader →
      (∀ q, matchIndexOf t q = if q = call.dst then max (matchIndexOf (c.nodes call.src).progress q) m
        else matchIndexOf (c.nodes call.src).progress q) →
      ∀ q, matchIndexOf t q = matchIndexOf (c.nodes call.src).progress q ∨ ∃ x ∈ c.calls, ∃ r a, c.OfLeader x r ∧
        x.src = call.src ∧ x.dst = q ∧ x.reply = some (.append a) ∧ a.success = true ∧ a.matchIndex = matchIndexOf t q := by
    intro m t hacks hstate hmatch q
    rw [hmatch q]
    split
    · next hq =>
      subst hq
      exact hacked hacks hstate rfl
    · exact .inl rfl
  refine hI.put h.defers fun hs => ?_
  have hstate := (h.defers.leader hs).1
  cases h with
  | noted hcore hmatch => exact fun q => .inl (hmatch q)
  | merged hacks hcore hmatch => exact hmerged hacks hstate hmatch
  | @committed m n' hacks _ hcore hmatch =>
    refine hmerged hacks hstate fun q => ?_
    rw [← hmatch q]
    rcases n'.maybeCommit_cases with heq | ⟨k, -, -, -, -, -, heq⟩ <;> rw [heq]
  | @newer term hlt =>
    intro q
    rcases (c.nodes call.src).stepDown_cases term with ⟨-, heq⟩ | ⟨-, hcore, -⟩
    · rw [heq]
      exact .inl rfl
    · have hfollower : _ = RaftState.follower := Node.eq_of_core Node.state (fun _ => rfl) hcore
      exact absurd (hfollower.symm.trans hs) (by decide)
  | counted => exact fun q => .inl rfl

/-- Every step preserves the invariant. -/
theorem AckInv.step (hI : AckInv c) (hR : ReplicationInv c) (hcfg : c.Configured) (honce : c'.LedOnce) {a : Action}
    (hok : c.SoundAcks a) (h : c.step codec a = some c') : AckInv c' := by
  have hmoves := moves_of_step h
  have hframe := frame_of_moves hmoves
  have hsame : ∀ {p q : String} {T : Nat}, (p, T) ∈ c'.history.led → q ≠ p → (c.nodes q).state = .leader →
      (c.nodes q).currentTerm ≠ T := by
    intro p q T hp hne hq heq
    exact hne (honce q p T (hframe.led (heq ▸ ((hR.node q).leads hq).1)) hp)
  cases hmoves with
  | @work _ p n' messages hcore hmatch hsends =>
    refine AckInv.put (hI.send (fun hne => ?_) fun m hm => ?_) ((Node.Defers.refl _).of_core hcore) fun _ q => .inl (hmatch q)
    · obtain ⟨m, hm⟩ := List.exists_mem_of_ne_nil _ hne
      exact (hsends m hm).1
    · obtain ⟨-, hstate, hsend⟩ := hsends m hm
      exact sendable_of_sends hR hstate (hsend (hcfg p).1)
  | @forward p i copy n' messages hmem hcopy hcore hmatch hsends =>
    refine AckInv.put (hI.send (fun _ => hmem) fun m hm => hI.forwards hR hmem (hsends m hm).1) ?_ fun _ q => .inl (hmatch q)
    refine Node.Defers.of_core ?_ hcore
    exact (Node.Defers.refl _).congr rfl rfl (.inl rfl) rfl
  | fall hle hcore hmatch =>
    have hstate := Node.eq_of_core Node.state (fun _ => rfl) hcore
    refine hI.put (.of_follower ?_ hstate) fun hs => ?_
    · rw [Node.eq_of_core Node.currentTerm (fun _ => rfl) hcore]
      exact hle
    · rw [hstate] at hs
      cases hs
  | @stand p n' hmem hstate helection hn' =>
    subst hn'
    refine AckInv.record (AckInv.send (hI.stand rfl (Nat.lt_succ_self _) rfl) (fun _ => hmem) fun m hm => ?_) fun _ _ => ?_
    · obtain ⟨peer, -, rfl⟩ := List.mem_map.mp hm
      intro caller r hr
      cases hr
    · exact List.prefix_refl _
  | lose he hn' hlost =>
    have hdefers := hn'.defers (hR.node _).positive hlost
    refine hI.put hdefers fun hs q => .inl ?_
    rw [hn'.progress_of_leader hlost hs]
  | @win p e m log he hstate hterm hquorum hlog hcore hmatch =>
    have hfirst : (c.nodes p).firstTerm = c.nodes p := if_neg ((hR.node p).positive hstate)
    rw [hfirst] at hcore
    have hmterm : m.currentTerm = _ := Node.eq_of_core Node.currentTerm (fun _ => rfl) hcore
    have hmstate : m.state = _ := Node.eq_of_core Node.state (fun _ => rfl) hcore
    refine hI.elected hmstate hmterm.ge hmatch rfl ?_ fun q hne hq => hsame (by simp [History.lead]) hne hq
    intro call hcall caller r hr hsrc _ heq
    subst hsrc
    exact hI.fresh call hcall caller r hr ⟨hstate, e, he, hterm.symm⟩ (heq.trans hmterm)
  | @boot p m log hmem hpeers hstate hlog hcore hmatch =>
    have hmterm : m.currentTerm = _ := Node.eq_of_core Node.currentTerm (fun _ => rfl) hcore
    have hmstate : m.state = _ := Node.eq_of_core Node.state (fun _ => rfl) hcore
    have hle := (c.nodes p).abides_firstTerm.term
    refine hI.elected hmstate (hle.trans hmterm.ge) hmatch (by split <;> rfl) ?_ fun q hne hq => ?_
    · intro call hcall caller r hr hsrc hdst _ _
      have halone : normalizePeers p c.members.ids = [] := (hcfg p).2.symm.trans hpeers
      have hself : call.dst = p := by
        by_contra hne
        have hin : call.dst ∈ normalizePeers p c.members.ids :=
          mem_normalizePeers.mpr ⟨hdst, fun he => c.members.named (he ▸ hdst), hne⟩
        rw [halone] at hin
        cases hin
      exact hR.peers call hcall caller r hr hdst (hself ▸ halone)
    · exact hsame (by simp [History.lead]) hne hq
  | @crash p m hmem hpeers hcore =>
    have hle : (c.nodes p).currentTerm ≤ m.restart.currentTerm := by
      show _ ≤ m.currentTerm
      rw [Node.eq_of_core Node.currentTerm (fun _ => rfl) hcore]
      exact (c.nodes p).abides_firstTerm.term
    refine AckInv.record (AckInv.dropCalls (hI.put (.of_follower hle rfl) fun hs => by cases hs) p) fun q _ => ?_
    rw [show (if (c.nodes p).currentTerm = 0 then c.history.stand p (c.nodes p).firstTerm else c.history).leaderLog =
      c.history.leaderLog by split <;> rfl]
    exact List.prefix_refl _
  | deliver hcall hnew hdst =>
    refine AckInv.record (hI.deliver hR hcall hnew hdst (hok _ hcall)) fun q _ => ?_
    rw [show (c.history.handled _ _ _ _).leaderLog = c.history.leaderLog from
      congrArg Leaders.leaderLog (History.leaders_handled ..)]
    exact List.prefix_refl _
  | @answer _ i call _ reply n' hcall hwaiting ha hn' =>
    have hput : AckInv (c.put call.src n') := by
      rcases ha with ⟨rfl, rfl⟩ | ⟨rfl, rfl⟩
      · exact hI.answer hR hcall (.inr rfl) (hok call hcall) hn'
      · refine hI.answer hR hcall (.inl rfl) ?_ hn'
        unfold MergesInTerm
        split <;> simp_all
    refine (hput.settle hcall).record fun q _ => ?_
    rw [show (c.history.commit _ _ _).leaderLog = c.history.leaderLog from congrArg Leaders.leaderLog (History.leaders_commit ..)]
    exact List.prefix_refl _
  | @propose p i e n' log hwrite hstate hlog hcore hprogress =>
    have hterm : n'.currentTerm = _ := Node.eq_of_core Node.currentTerm (fun _ => rfl) hcore
    have hlog' : n'.log = log := Node.eq_of_core Node.log (fun _ => rfl) hcore
    obtain ⟨-, hentries⟩ := Node.Logged.append (hR.node p) hlog rfl
    have hown : (c.nodes p).log.entries = c.history.leaderLog (c.nodes p).currentTerm := ((hR.node p).leads hstate).2
    have hwrite : ((c.history.write n').commit p (c.nodes p) n').leaderLog =
        Function.update c.history.leaderLog n'.currentTerm n'.log.entries :=
      congrArg Leaders.leaderLog (History.leaders_commit ..)
    have hput : AckInv (c.put p n') := by
      refine hI.put (Node.Defers.of_core ?_ hcore) fun _ q => .inl (by rw [hprogress])
      exact (Node.Defers.refl _).congr rfl rfl (.inl rfl) rfl
    refine hput.record fun q hq => ?_
    rw [hwrite]
    by_cases hqT : ((c.put p n').nodes q).currentTerm = n'.currentTerm
    · rw [hqT, Function.update_self, hlog', hentries, hown, hterm]
      exact List.prefix_append _ _
    · rw [Function.update_of_ne hqT]
      exact List.prefix_refl _
  | @apply p outcome n' e task hlt hread htask hcore hprogress =>
    refine AckInv.record (hI.put ?_ fun _ q => .inl (by rw [hprogress])) fun q _ => List.prefix_refl _
    refine Node.Defers.of_core ?_ hcore
    exact (Node.Defers.refl _).congr rfl rfl (.inl rfl) rfl
  | @saveSnapshot p keepFrom n' hn' =>
    unfold Node.saveSnapshot at hn'
    rw [(hR.node p).plain.task] at hn'
    cases hn'
  | @restart p hmem =>
    have hput : AckInv (c.put p (c.nodes p).restart) := hI.put (.of_follower (Nat.le_refl _) rfl) fun hs => by cases hs
    exact hput.dropCalls p

theorem AckInv.init (members : Members) (config : String → Config) : AckInv (init members config) where
  campaigning p hp := rfl
  src call hcall := by cases hcall
  term_le call hcall := by cases hcall
  fresh call hcall := by cases hcall
  carried call hcall := by cases hcall
  replied call hcall := by cases hcall
  wal call hcall := by cases hcall
  matched p hp := by cases hp

/-- The match index that a node has on record for a peer is 0, or the peer has acknowledged it,
and its log agreed with that of the node when it did. -/
def MatchSound (c : Cluster) (p q : String) : Prop :=
  matchIndexOf (c.nodes p).progress q = 0 ∨ ∃ call ∈ c.calls, ∃ a, call.src = p ∧ call.dst = q ∧
    call.reply = some (.append a) ∧ a.success = true ∧ a.matchIndex = matchIndexOf (c.nodes p).progress q ∧
    ∀ i, 1 ≤ i → i ≤ min a.matchIndex (c.nodes p).logicalLastIndex →
      ∃ e, call.wal.read i = .ok e ∧ (c.nodes p).log.read i = .ok e

theorem AckInv.matchSound (hI : AckInv c) (hR : ReplicationInv c) {p : String} (hleader : (c.nodes p).state = .leader)
    (q : String) : c.MatchSound p q := by
  rcases hI.matched p hleader q with hzero | ⟨call, hcall, r, a, hl, hsrc, hdst, hreply, hok, hmatch⟩
  · exact .inl hzero
  refine .inr ⟨call, hcall, a, hsrc, hdst, hreply, hok, hmatch, fun i hi hle => ?_⟩
  obtain ⟨hwal, hlen, hprefix⟩ := hI.wal call hcall r a hl hreply hok
  have hplain := (hR.node p).plain
  have hown : (c.nodes p).log.entries = c.history.leaderLog r.term := by
    rw [hl.term, hsrc]
    exact ((hR.node p).leads hleader).2
  obtain ⟨j, rfl⟩ : ∃ j, i = j + 1 := ⟨i - 1, by omega⟩
  have hj : j < call.wal.entries.length := by omega
  have he : call.wal.entries[j]? = some call.wal.entries[j] := List.getElem?_eq_getElem hj
  refine ⟨call.wal.entries[j], hwal.read_eq_ok.mpr he, hplain.log.read_eq_ok.mpr ?_⟩
  obtain ⟨rest, hrest⟩ := hprefix
  rw [hown, ← hrest, List.getElem?_append_left hj]
  exact he

/-- If no follower keeps a tail that is not its leader's behind the entries it accepts, and no
leader learns from a response to a request of another leadership, the match index of every
peer is sound. -/
theorem match_index_sound (codec : CommandCodec) (members : Members) (config : String → Config) (schedule : List Action)
    (c : Cluster) (hthreshold : ∀ p, (config p).snapshotThreshold = 0)
    (h : Transition.run (Transition.restrict SoundAcks (step codec)) (init members config) schedule = some c)
    (honce : c.LedOnce) (p q : String) (hleader : (c.nodes p).state = .leader) : c.MatchSound p q := by
  have hboth : c.Configured ∧ (c.LedOnce → ReplicationInv c ∧ AckInv c) := by
    refine Transition.run_invariant (fun c => c.Configured ∧ (c.LedOnce → ReplicationInv c ∧ AckInv c)) ?_
      ⟨configured_init members config, fun _ => ⟨.init hthreshold, .init members config⟩⟩ h
    rintro s a t ⟨hcfg, hinv⟩ hstep
    obtain ⟨hok, hstep⟩ := Transition.restrict_eq_some.mp hstep
    have hframe := frame_of_moves (moves_of_step hstep)
    refine ⟨hcfg.frame hframe, fun ht => ?_⟩
    obtain ⟨hR, hI⟩ := hinv (ht.frame hframe)
    exact ⟨hR.step hcfg ht hstep, hI.step hR hcfg ht hok hstep⟩
  obtain ⟨hR, hI⟩ := hboth.2 honce
  exact hI.matchSound hR hleader q

/-- The leader `A` has merged what `B` acknowledged. -/
theorem match_index_sound_after_acknowledgement : ∃ c,
    Transition.run (Transition.restrict SoundAcks (step sampleCodec)) (init threeNodes (plainConfig 64))
      (mentorServed ++ [.receive 3 false]) = some c ∧ matchIndexOf (c.nodes "A").progress "B" = 1 ∧
      c.MatchSound "A" "B" := by
  obtain ⟨c, hc, honce, hstate, hmatch⟩ := Transition.exists_of_run
    (o := Transition.run (Transition.restrict SoundAcks (step sampleCodec)) (init threeNodes (plainConfig 64))
      (mentorServed ++ [.receive 3 false]))
    (P := fun c => c.LedOnce ∧ (c.nodes "A").state = .leader ∧ matchIndexOf (c.nodes "A").progress "B" = 1)
    (by decide +kernel)
  exact ⟨c, hc, hmatch, match_index_sound sampleCodec threeNodes (plainConfig 64) _ c (fun _ => rfl) hc honce "A" "B" hstate⟩

/-- `A` has written an entry that nobody else has, when `B` takes over with the vote of `C`. -/
def overtaken : List Action :=
  mentorServed ++ [.clientWrite "A" { requestId := "x", cmdType := 2, id := 1 }, .propose "A" 0, .startElection "B",
    .deliver 5 true 0, .receive 5 false, .fail 4 false, .finishElection "B"]

/-- With one entry in a batch, `B` backs up to the first entry of `A`, and `A` acknowledges it
together with the entry of its own behind it. -/
theorem match_index_counts_foreign_entry : ∃ c,
    run sampleCodec threeNodes (plainConfig 1)
      (overtaken ++ [.replicate "B" "A", .deliver 6 true 0, .receive 6 false, .replicate "B" "A", .deliver 7 true 0,
        .receive 7 false]) = some c ∧ c.LedOnce ∧ (c.nodes "B").state = .leader ∧ ¬ c.MatchSound "B" "A" := by
  obtain ⟨c, hc, honce, hstate, hmatch, hlast, hread, hcalls⟩ := Transition.exists_of_run
    (o := run sampleCodec threeNodes (plainConfig 1)
      (overtaken ++ [.replicate "B" "A", .deliver 6 true 0, .receive 6 false, .replicate "B" "A", .deliver 7 true 0,
        .receive 7 false]))
    (P := fun c => c.LedOnce ∧ (c.nodes "B").state = .leader ∧ matchIndexOf (c.nodes "B").progress "A" = 2 ∧
      (c.nodes "B").logicalLastIndex = 2 ∧ ((c.nodes "B").log.read 2).toOption.map LogEntry.term = some 2 ∧
      ∀ call ∈ c.calls, call.src = "B" → call.dst = "A" → (call.wal.read 2).toOption.map LogEntry.term ≠ some 2)
    (by decide +kernel)
  refine ⟨c, hc, honce, hstate, ?_⟩
  rintro (hzero | ⟨call, hcall, a, hsrc, hdst, -, -, hm, hagree⟩)
  · rw [hmatch] at hzero
    cases hzero
  · obtain ⟨e, hwal, hlog⟩ := hagree 2 (by omega) (by rw [hm, hmatch, hlast]; omega)
    refine hcalls call hcall hsrc hdst ?_
    rw [hwal]
    rw [hlog] at hread
    exact hread

end Cluster

end RaftVdb
