import RaftVdb.Moves

/-!
# Going back after rejections

A peer that rejects an `AppendEntries` without a usable hint makes the sender go back from
an anchor, one index further with each failure and from a threshold on in powers of two.
The anchor is where the series of failures began, and the powers of two end with the twentieth.
`next_index` goes down with every rejection exactly as long as the distance to the anchor
grows, or the hint moves the anchor itself.
-/

namespace RaftVdb

open Lib

/-- Who has sent the rejected request. -/
inductive SenderKind where
  | replicate (entries : Nat)
  | forward
  deriving DecidableEq, Repr

structure Rejection where
  sender : SenderKind
  conflictIndex : Nat
  deriving DecidableEq, Repr

namespace PeerProgress

/-- The row of the peer when the request is under way. -/
def dispatch (p : PeerProgress) : SenderKind → PeerProgress
  | .replicate entries => { p with inFlight := p.inFlight + 1, nextIndex := p.nextIndex + entries }
  | .forward => { p with inFlight := p.inFlight + 1 }

/-- What the callback of the sender books before it looks at the conflict index. -/
def settle (p : PeerProgress) : SenderKind → PeerProgress
  | .replicate _ => { p with inFlight := 0, healthy := true }
  | .forward => { p with inFlight := p.inFlight - 1, healthy := true }

/-- A request from the current `next_index` is rejected, with no hint below that index. -/
def reject (cfg : Config) (p : PeerProgress) (r : Rejection) : Option PeerProgress :=
  if r.conflictIndex = 0 ∨ p.nextIndex ≤ r.conflictIndex then
    some (rejectPeer cfg ((p.dispatch r.sender).settle r.sender) p.nextIndex r.conflictIndex)
  else none

/-- The index `next_index` is lowered to stays positive, and is lower until it is 1. -/
def Lowered (cfg : Config) (p : PeerProgress) (r : Rejection) : Prop :=
  ∀ p' ∈ p.reject cfg r, 1 ≤ p'.nextIndex ∧ (p'.nextIndex < p.nextIndex ∨ p.nextIndex ≤ 1)

/-- The configured window, doubled in `uint32_t`. -/
def linearThreshold (cfg : Config) : Nat := max 1 (cfg.pipelineWindowSize * 2 % 2 ^ 32)

/-- There is room to go back further: the failure is not beyond the twenty-first of the exponential
phase, or the hint lies below the anchor. -/
def Room (cfg : Config) (p : PeerProgress) (r : Rejection) : Prop :=
  p.nextIndex ≤ 1 ∨ p.rollbackFailures + 1 < 2 ^ 32 ∧
    (p.rollbackFailures < linearThreshold cfg + 21 ∨
      r.conflictIndex ≠ 0 ∧ r.conflictIndex < p.rollbackAnchorIndex)

instance (cfg : Config) (p : PeerProgress) (r : Rejection) : Decidable (p.Lowered cfg r) :=
  inferInstanceAs (Decidable (∀ p' ∈ p.reject cfg r, _))

instance (cfg : Config) (p : PeerProgress) (r : Rejection) : Decidable (p.Room cfg r) :=
  inferInstanceAs (Decidable (_ ∨ _))

/-- How far `next_index` lies behind the anchor after this many failures. -/
def distance (threshold failures : Nat) : Nat :=
  if failures > threshold then threshold + 2 ^ min (failures - threshold - 1) 20 else failures

/-- The failed attempts that a rejection without a usable hint brings on record. -/
def failedAttempts (p : PeerProgress) : Nat := (p.rollbackFailures + 1) % 2 ^ 32

/-- The anchor of the retreat: the first attempt of the series, or the smallest hint. -/
def anchor (p : PeerProgress) (attempted conflict : Nat) : Nat :=
  let first := if p.rollbackAnchorIndex = 0 then attempted else p.rollbackAnchorIndex
  if conflict = 0 then first else min conflict first

/-- No failure is on record, or `next_index` lies at the distance of the failures from the anchor. -/
def OnTrack (cfg : Config) (p : PeerProgress) : Prop :=
  p.rollbackFailures < 2 ^ 32 ∧
    (p.rollbackAnchorIndex = 0 ∧ p.rollbackFailures = 0 ∨
      p.nextIndex = max 1 (p.rollbackAnchorIndex - distance (linearThreshold cfg) p.rollbackFailures))

end PeerProgress

/-! ## The senders and their callbacks -/

namespace Node

variable {n n' : Node} {peer : String} {p : PeerProgress} {r : AppendEntriesRequest} {resp : AppendEntriesResponse}

theorem replicatePeerOnce_append (hrow : n.progress.find? peer = some p)
    (h : n.replicatePeerOnce peer = some (n', .append .replicate r)) :
    n.state = .leader ∧ r.prevLogIndex = p.nextIndex - 1 ∧ n' = { n with
      progress := n.progress.adjust peer fun p => p.dispatch (.replicate r.entries.length) } := by
  obtain ⟨hleader, q, hq, -, ⟨-, s, -, hinstall⟩ | ⟨entries, prevLogTerm, -, -, rfl, happend⟩⟩ :=
    replicatePeerOnce_eq_some h
  · cases hinstall
  · cases happend
    cases hrow.symm.trans hq
    exact ⟨hleader, rfl, rfl⟩

theorem forwardToFollower_append (hrow : n.progress.find? peer = some p)
    (h : n.forwardToFollower = some (n', peer, .append .forward r)) :
    r.prevLogIndex = p.nextIndex - 1 ∧ n' = { n with
      progress := n.progress.modify peer {} fun q =>
        { q with nextIndex := max q.nextIndex p.nextIndex, inFlight := q.inFlight + 1 } } := by
  obtain ⟨-, q, hq, ⟨-, s, -, hinstall⟩ | ⟨entries, prevLogTerm, -, -, rfl, happend⟩⟩ := forwardToFollower_eq_some h
  · cases hinstall
  · cases happend
    rw [hrow, Option.getD_some] at hq
    subst hq
    exact ⟨rfl, rfl⟩

/-- A rejection of what `ReplicatePeerOnce` has sent from the row of the peer. -/
theorem find?_onReplicateResponse_rejected (hrow : n.progress.find? peer = some p) (hpos : 1 ≤ p.nextIndex)
    (h : n.replicatePeerOnce peer = some (n', .append .replicate r)) (hterm : resp.term ≤ n.currentTerm)
    (hrejected : resp.success = false) (hhint : resp.conflictIndex = 0 ∨ p.nextIndex ≤ resp.conflictIndex) :
    (n'.onReplicateResponse peer r (some resp)).progress.find? peer =
      p.reject n.config ⟨.replicate r.entries.length, resp.conflictIndex⟩ := by
  obtain ⟨hleader, hprev, rfl⟩ := replicatePeerOnce_append hrow h
  have hattempted : r.prevLogIndex + 1 = p.nextIndex := by omega
  rw [onReplicateResponse, if_neg (Nat.not_lt.mpr hterm), if_neg (not_not.mpr hleader), if_neg (by simp [hrejected]),
    PeerProgress.reject, if_pos hhint, hattempted]
  simp only [Table.find?_adjust_self, hrow, Option.map_some]
  rfl

/-- A rejection of what `ForwardToFollower` has sent from the row of the follower. -/
theorem find?_onForwardResponse_rejected (hrow : n.progress.find? peer = some p) (hpos : 1 ≤ p.nextIndex)
    (h : n.forwardToFollower = some (n', peer, .append .forward r)) (hterm : resp.term ≤ n.currentTerm)
    (hrejected : resp.success = false) (hhint : resp.conflictIndex = 0 ∨ p.nextIndex ≤ resp.conflictIndex) :
    (n'.onForwardResponse peer r (some resp)).progress.find? peer = p.reject n.config ⟨.forward, resp.conflictIndex⟩ := by
  obtain ⟨hprev, rfl⟩ := forwardToFollower_append hrow h
  have hattempted : r.prevLogIndex + 1 = p.nextIndex := by omega
  rw [onForwardResponse, if_neg (Nat.not_lt.mpr hterm), if_neg (by simp [hrejected]), PeerProgress.reject, if_pos hhint,
    hattempted]
  simp only [Table.find?_modify, if_true, hrow, Option.getD_some, Nat.max_self]
  rfl

end Node

namespace PeerProgress

variable {cfg : Config} {p p' : PeerProgress} {r : Rejection} {threshold failures : Nat}

theorem distance_linear (h : failures ≤ threshold) : distance threshold failures = failures :=
  if_neg (Nat.not_lt.mpr h)

theorem distance_exponential (threshold rounds : Nat) :
    distance threshold (threshold + rounds + 1) = threshold + 2 ^ min rounds 20 := by
  rw [distance, if_pos (by omega), show threshold + rounds + 1 - threshold - 1 = rounds from by omega]

/-- The distance never shrinks, and grows up to the twenty-first failure behind the threshold. -/
theorem distance_succ (threshold failures : Nat) :
    distance threshold failures ≤ distance threshold (failures + 1) ∧
      (distance threshold failures < distance threshold (failures + 1) ↔ failures < threshold + 21) := by
  rcases Nat.lt_trichotomy failures threshold with hlt | heq | hgt
  · rw [distance_linear hlt.le, distance_linear hlt]
    omega
  · subst heq
    rw [distance_linear le_rfl, distance_exponential failures 0]
    simp
  · obtain ⟨rounds, rfl⟩ := Nat.exists_eq_add_of_lt hgt
    rw [distance_exponential, Nat.add_assoc threshold rounds 1, distance_exponential]
    by_cases hrounds : rounds < 20
    · have hgrows : 2 ^ rounds < 2 ^ (rounds + 1) := Nat.pow_lt_pow_right (by omega) (by omega)
      rw [Nat.min_eq_left hrounds.le, Nat.min_eq_left hrounds]
      omega
    · rw [Nat.min_eq_right (by omega), Nat.min_eq_right (by omega)]
      omega

theorem smallest_hint (conflict first : Nat) :
    (if conflict ≠ 0 ∧ conflict < first then conflict else first) = if conflict = 0 then first else min conflict first := by
  split_ifs <;> omega

theorem max_one_sub (a r : Nat) : (if a > r then a - r else 1) = max 1 (a - r) := by
  split_ifs <;> omega

/-- A usable hint is taken as it is, else the row goes back from the anchor. -/
theorem nextIndex_rejectPeer (cfg : Config) (p : PeerProgress) (attempted conflict : Nat) :
    (rejectPeer cfg p attempted conflict).nextIndex =
      if conflict > 0 ∧ conflict < attempted then conflict
      else max 1 (p.anchor attempted conflict - distance (linearThreshold cfg) p.failedAttempts) := by
  unfold rejectPeer
  split
  · rfl
  · rw [anchor, ← smallest_hint, ← max_one_sub]
    rfl

theorem rollbackAnchorIndex_applyPeerRollbackState (cfg : Config) (p : PeerProgress) (attempted conflict : Nat) :
    (applyPeerRollbackState cfg p attempted conflict).rollbackAnchorIndex = anchor p attempted conflict := by
  rw [anchor, ← smallest_hint]
  rfl

/-- What a rejection does to the row. -/
theorem reject_spec (h : p.reject cfg r = some p') :
    (r.conflictIndex = 0 ∨ p.nextIndex ≤ r.conflictIndex) ∧
      p'.rollbackAnchorIndex = anchor p p.nextIndex r.conflictIndex ∧
      p'.rollbackFailures = failedAttempts p ∧
      p'.nextIndex = max 1 (p'.rollbackAnchorIndex - distance (linearThreshold cfg) (failedAttempts p)) := by
  obtain ⟨sender, conflict⟩ := r
  rw [reject] at h
  split at h
  case isFalse => cases h
  next hhint =>
    cases h
    have hnone : ¬ (conflict > 0 ∧ conflict < p.nextIndex) := by
      dsimp only at hhint
      omega
    have hanchor : (rejectPeer cfg ((p.dispatch sender).settle sender) p.nextIndex conflict).rollbackAnchorIndex =
        anchor p p.nextIndex conflict := by
      rw [rejectPeer, if_neg hnone, rollbackAnchorIndex_applyPeerRollbackState]
      cases sender <;> rfl
    refine ⟨hhint, hanchor, ?_, ?_⟩
    · rw [rejectPeer, if_neg hnone]
      cases sender <;> rfl
    · rw [hanchor, nextIndex_rejectPeer, if_neg hnone]
      cases sender <;> rfl

/-- A series of failures starts at the current `next_index`. -/
theorem onTrack_reset (cfg : Config) (p : PeerProgress) : (resetPeerRollbackState p).OnTrack cfg :=
  ⟨Nat.two_pow_pos 32, .inl ⟨rfl, rfl⟩⟩

theorem OnTrack.reject (h : p.reject cfg r = some p') : p'.OnTrack cfg := by
  obtain ⟨-, -, hfailures, hnext⟩ := reject_spec h
  refine ⟨?_, .inr ?_⟩
  · rw [hfailures]
    exact Nat.mod_lt _ (Nat.two_pow_pos 32)
  · rw [hfailures]
    exact hnext

/-- The anchor does not move up, and stands still without a hint below it. -/
theorem anchor_eq (hanchor : p.rollbackAnchorIndex ≠ 0) (attempted conflict : Nat) :
    anchor p attempted conflict =
      if conflict ≠ 0 ∧ conflict < p.rollbackAnchorIndex then conflict else p.rollbackAnchorIndex := by
  rw [smallest_hint, anchor, if_neg hanchor]

/-- One rejection lowers `next_index` exactly if there is room. -/
theorem OnTrack.lowered_iff (hp : p.OnTrack cfg) (h : p.reject cfg r = some p') : p.Lowered cfg r ↔ p.Room cfg r := by
  obtain ⟨hhint, hanchor, hfailures, hnext⟩ := reject_spec h
  have hlowered : p.Lowered cfg r ↔ 1 ≤ p'.nextIndex ∧ (p'.nextIndex < p.nextIndex ∨ p.nextIndex ≤ 1) := by
    unfold Lowered
    rw [h]
    exact ⟨fun hall => hall p' rfl, fun hp' q hq => by cases hq; exact hp'⟩
  have hpos : 1 ≤ p'.nextIndex := by omega
  rw [hlowered, and_iff_right hpos, or_comm]
  unfold Room
  refine or_congr_right' fun hone => ?_
  obtain ⟨hlimit, hstart | htrack⟩ := hp
  · have hfirst : failedAttempts p = 1 := by
      rw [failedAttempts, hstart.2]
      rfl
    have hthreshold : 1 ≤ linearThreshold cfg := Nat.le_max_left 1 _
    have hattempted : anchor p p.nextIndex r.conflictIndex = p.nextIndex := by
      rw [anchor, ← smallest_hint, if_pos hstart.1, if_neg (by omega)]
    rw [hanchor, hattempted, hfirst, distance_linear hthreshold] at hnext
    omega
  · have hanchored : p.rollbackAnchorIndex ≠ 0 := by omega
    rw [hanchor, anchor_eq hanchored] at hnext
    obtain ⟨hgrows, hstrict⟩ := distance_succ (linearThreshold cfg) p.rollbackFailures
    by_cases hwrap : p.rollbackFailures + 1 < 2 ^ 32
    · rw [failedAttempts, Nat.mod_eq_of_lt hwrap] at hnext
      rw [← hstrict]
      split at hnext <;> omega
    · have hzero : failedAttempts p = 0 := by
        rw [failedAttempts, show p.rollbackFailures + 1 = 2 ^ 32 from by omega, Nat.mod_self]
      rw [hzero, distance_linear (Nat.zero_le _)] at hnext
      split at hnext <;> omega

/-- A series of rejections lowers `next_index` down to 1 exactly as long as there is room for each. -/
theorem lowered_down_to_one_iff (cfg : Config) (p : PeerProgress) (rejections : List Rejection) :
    Transition.EachStep (reject cfg) (Lowered cfg) (resetPeerRollbackState p) rejections ↔
      Transition.EachStep (reject cfg) (Room cfg) (resetPeerRollbackState p) rejections := by
  constructor
  · intro h
    exact h.imp (fun _ _ _ hp hstep hlowered => ⟨(hp.lowered_iff hstep).mp hlowered, OnTrack.reject hstep⟩) (onTrack_reset cfg p)
  · intro h
    exact h.imp (fun _ _ _ hp hstep hroom => ⟨(hp.lowered_iff hstep).mpr hroom, OnTrack.reject hstep⟩) (onTrack_reset cfg p)

/-- The anchor and `next_index` do not pass a bound. -/
theorem reject_le {bound : Nat} (hbound : 1 ≤ bound) (hanchor : p.rollbackAnchorIndex ≤ bound) (hnext : p.nextIndex ≤ bound)
    (h : p.reject cfg r = some p') : p'.rollbackAnchorIndex ≤ bound ∧ p'.nextIndex ≤ bound := by
  obtain ⟨hhint, hanchor', -, hnext'⟩ := reject_spec h
  have hle : p'.rollbackAnchorIndex ≤ bound := by
    rw [hanchor', anchor]
    split_ifs <;> omega
  exact ⟨hle, by omega⟩

theorem OnTrack.room_of_near (hp : p.OnTrack cfg) (hanchor : p.rollbackAnchorIndex ≤ linearThreshold cfg + 2 ^ 20 + 1)
    (hwindow : linearThreshold cfg + 21 < 2 ^ 32) (r : Rejection) : p.Room cfg r := by
  by_cases hone : p.nextIndex ≤ 1
  · exact .inl hone
  have hearly : p.rollbackFailures < linearThreshold cfg + 21 := by
    obtain ⟨-, ⟨-, hnone⟩ | htrack⟩ := hp
    · omega
    · by_contra hlate
      obtain ⟨rounds, hrounds⟩ := Nat.exists_eq_add_of_le (Nat.not_lt.mp hlate)
      have hdistance := distance_exponential (linearThreshold cfg) (20 + rounds)
      rw [Nat.min_eq_right (Nat.le_add_right 20 rounds),
        show linearThreshold cfg + (20 + rounds) + 1 = p.rollbackFailures from by omega] at hdistance
      omega
  exact .inr ⟨by omega, .inl hearly⟩

/-- A series that starts near enough to 1 has room for every rejection. -/
theorem lowered_of_near (hnear : p.nextIndex ≤ linearThreshold cfg + 2 ^ 20 + 1)
    (hwindow : linearThreshold cfg + 21 < 2 ^ 32) (rejections : List Rejection) :
    Transition.EachStep (reject cfg) (Lowered cfg) (resetPeerRollbackState p) rejections := by
  refine Transition.eachStep_of_invariant
    (I := fun q => q.OnTrack cfg ∧ q.rollbackAnchorIndex ≤ linearThreshold cfg + 2 ^ 20 + 1 ∧
      q.nextIndex ≤ linearThreshold cfg + 2 ^ 20 + 1) ?_ ⟨onTrack_reset cfg p, Nat.zero_le _, hnear⟩ rejections
  rintro q r q' ⟨hq, hanchor, hnext⟩ hstep
  exact ⟨(hq.lowered_iff hstep).mpr (hq.room_of_near hanchor hwindow r), OnTrack.reject hstep,
    reject_le (Nat.le_add_left 1 _) hanchor hnext hstep⟩

/-- With the default window the twenty-second failure of the exponential phase leads nowhere. -/
theorem next_index_stands_still :
    ¬ Transition.EachStep (reject { nodeId := "M", peers := ["L", "F"] })
      (Lowered { nodeId := "M", peers := ["L", "F"] }) (resetPeerRollbackState { nextIndex := 2000000 })
      (List.replicate 54 ⟨.forward, 0⟩) := by
  decide +kernel

end PeerProgress

end RaftVdb
