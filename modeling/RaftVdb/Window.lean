import Mathlib.Data.List.Perm.Basic
import RaftVdb.LateAnswers

/-!
# The pipeline window

A leader counts in `in_flight` the `AppendEntries` requests to a peer that are under way,
and sends no further one while the counter is at the window. The requests themselves are
kept beside the node, so that the counter can be compared with them. The test of the window
and the increment are one step: only the replication loop sends, and what comes in between
can only lower the counter. Between two steps the rest of the node may change in any way
that leaves the progress table alone.
-/

namespace RaftVdb

open Lib

/-- A leader with the requests of `ReplicatePeerOnce` that it waits for. -/
structure Pipeline where
  node : Node
  outstanding : List (String × AppendEntriesRequest) := []
  sending : List (String × Snapshot) := []

namespace Pipeline

inductive Event where
  | replicate (peer : String)
  | answer (i : Nat) (resp : Option AppendEntriesResponse)
  | heartbeat (round : Nat) (peer : String) (resp : Option HeartbeatResponse)
  | installed (i : Nat) (resp : Option InstallSnapshotResponse)
  | other (node : Node)

def dispatch (s : Pipeline) (peer : String) : Option Pipeline :=
  match s.node.replicatePeerOnce peer with
  | some (n, .append _ r) => some { s with node := n, outstanding := s.outstanding ++ [(peer, r)] }
  | some (n, .install r) => some { s with node := n, sending := s.sending ++ [(peer, r.snapshot)] }
  | _ => none

def event (s : Pipeline) : Event → Option Pipeline
  | .replicate peer => s.dispatch peer
  | .answer i resp => (s.outstanding[i]?).map fun x =>
      { s with node := s.node.onReplicateResponse x.1 x.2 resp, outstanding := s.outstanding.eraseIdx i }
  | .heartbeat round peer resp => some { s with node := s.node.onBroadcastResponse round peer resp }
  | .installed i resp => (s.sending[i]?).map fun x =>
      { s with node := s.node.onInstallResponse x.1 x.2 resp, sending := s.sending.eraseIdx i }
  | .other node =>
    if node.progress = s.node.progress ∧ node.config = s.node.config then some { s with node } else none

/-- The steps of one leadership: the node is still the leader of its term afterwards. -/
def step (s : Pipeline) (e : Event) : Option Pipeline :=
  (s.event e).filter fun t => t.node.state = .leader ∧ t.node.currentTerm = s.node.currentTerm

/-- The requests to a peer that were sent and not yet answered. -/
def unanswered (s : Pipeline) (peer : String) : Nat := s.outstanding.countP fun x => x.1 = peer

/-- The row of a peer, as `operator[]` reads it. -/
def row (s : Pipeline) (peer : String) : PeerProgress := (s.node.progress.find? peer).getD {}

/-- The counter is the number of unanswered requests, and the window bounds it. -/
structure InWindow (s : Pipeline) : Prop where
  bounded : ∀ peer, s.unanswered peer ≤ (s.row peer).window s.node.config
  counted : ∀ peer, (s.row peer).inFlight = s.unanswered peer

/-- A heartbeat of an open round came to nothing. -/
def HeartbeatFails (s : Pipeline) (round : Nat) (resp : Option HeartbeatResponse) : Prop :=
  ∃ b ∈ s.node.rounds.find? round, ∀ a ∈ resp, a.term ≤ b.highestTerm ∧ a.success = false

/-- A rejection finds no second request under way to the peer, and a failed heartbeat, a
failed snapshot or an installed one finds none. -/
def Settled (s : Pipeline) : Event → Prop
  | .replicate _ => True
  | .answer i resp => ∀ x ∈ s.outstanding[i]?, ∀ a ∈ resp, a.success = false → s.unanswered x.1 = 1
  | .heartbeat round peer resp => s.HeartbeatFails round resp → s.unanswered peer = 0
  | .installed i resp => ∀ x ∈ s.sending[i]?, (∀ a ∈ resp, a.success = true) → s.unanswered x.1 = 0
  | .other _ => True

instance (s : Pipeline) (round : Nat) (resp : Option HeartbeatResponse) : Decidable (s.HeartbeatFails round resp) :=
  inferInstanceAs (Decidable (∃ b ∈ s.node.rounds.find? round, _))

instance (s : Pipeline) : (e : Event) → Decidable (s.Settled e)
  | .replicate _ => isTrue trivial
  | .answer _ _ => inferInstanceAs (Decidable (∀ x ∈ _, ∀ a ∈ _, _ → _))
  | .heartbeat _ _ _ => inferInstanceAs (Decidable (_ → _))
  | .installed _ _ => inferInstanceAs (Decidable (∀ x ∈ _, _ → _))
  | .other _ => isTrue trivial

end Pipeline

theorem rowOf_modify (t : ProgressTable) (peer q : String) (f : PeerProgress → PeerProgress) :
    ((t.modify peer {} f).find? q).getD {} = if q = peer then f ((t.find? peer).getD {}) else (t.find? q).getD {} := by
  rw [Table.find?_modify]
  by_cases hq : q = peer
  · simp [hq]
  · simp [hq]

theorem rowOf_adjust {t : ProgressTable} {peer : String} (hrow : t.find? peer ≠ none) (q : String)
    (f : PeerProgress → PeerProgress) :
    ((t.adjust peer f).find? q).getD {} = if q = peer then f ((t.find? peer).getD {}) else (t.find? q).getD {} := by
  by_cases hq : q = peer
  · obtain ⟨p, hp⟩ := Option.ne_none_iff_exists'.mp hrow
    simp [hq, hp]
  · rw [Table.find?_adjust_other _ _ _ _ hq, if_neg hq]

namespace Node

variable {n n' : Node}

/-- What is sent to a peer is sent inside its window. -/
theorem replicatePeerOnce_window {peer : String} {request : Request}
    (h : n.replicatePeerOnce peer = some (n', request)) :
    ∃ p, n.progress.find? peer = some p ∧ p.inFlight < p.window n.config := by
  obtain ⟨-, p, hp, hopen, -⟩ := replicatePeerOnce_eq_some h
  exact ⟨p, hp, hopen⟩

end Node

namespace Pipeline

variable {s t : Pipeline} {peer : String}

/-- A step that concerns one peer: `f` is what it does to the row of that peer. -/
structure Touches (s t : Pipeline) (peer : String) (f : PeerProgress → PeerProgress) : Prop where
  config : t.node.config = s.node.config
  row : ∀ q, t.row q = if q = peer then f (s.row peer) else s.row q
  window : ∀ p, (f p).effectiveWindowSize = p.effectiveWindowSize
  others : ∀ q, q ≠ peer → t.unanswered q = s.unanswered q

/-- Only the peer concerned has to be looked at. -/
theorem Touches.inWindow_iff {f : PeerProgress → PeerProgress} (h : Touches s t peer f) (hs : s.InWindow) :
    t.InWindow ↔ t.unanswered peer ≤ (s.row peer).window s.node.config ∧
      (f (s.row peer)).inFlight = t.unanswered peer := by
  have hwindow : ∀ q, (t.row q).window t.node.config = (s.row q).window s.node.config := by
    intro q
    rw [h.row, h.config]
    by_cases hq : q = peer
    · simp only [hq, if_true, PeerProgress.window, h.window]
    · rw [if_neg hq]
  constructor
  · intro ht
    have hbound := ht.bounded peer
    have hcount := ht.counted peer
    rw [hwindow] at hbound
    rw [h.row, if_pos rfl] at hcount
    exact ⟨hbound, hcount⟩
  · intro ⟨hbound, hcount⟩
    constructor
    · intro q
      rw [hwindow]
      by_cases hq : q = peer
      · rw [hq]
        exact hbound
      · rw [h.others q hq]
        exact hs.bounded q
    · intro q
      rw [h.row]
      by_cases hq : q = peer
      · rw [if_pos hq, hq]
        exact hcount
      · rw [if_neg hq, h.others q hq]
        exact hs.counted q

/-- Nothing that the property reads has changed. -/
theorem inWindow_congr (hprogress : t.node.progress = s.node.progress) (hconfig : t.node.config = s.node.config)
    (hout : t.outstanding = s.outstanding) : t.InWindow ↔ s.InWindow := by
  have hrow : ∀ q, t.row q = s.row q := by simp [row, hprogress]
  have hcount : ∀ q, t.unanswered q = s.unanswered q := by simp [unanswered, hout]
  constructor
  · intro h
    constructor
    · intro q
      rw [← hrow, ← hcount, ← hconfig]
      exact h.bounded q
    · intro q
      rw [← hrow, ← hcount]
      exact h.counted q
  · intro h
    constructor
    · intro q
      rw [hrow, hcount, hconfig]
      exact h.bounded q
    · intro q
      rw [hrow, hcount]
      exact h.counted q

theorem unanswered_eraseIdx {i : Nat} {x : String × AppendEntriesRequest} (h : s.outstanding[i]? = some x)
    (q : String) :
    (s.outstanding.eraseIdx i).countP (fun y => y.1 = q) + (if x.1 = q then 1 else 0) = s.unanswered q := by
  obtain ⟨hi, rfl⟩ := List.getElem?_eq_some_iff.mp h
  have hperm := (List.getElem_cons_eraseIdx_perm hi).countP_eq (fun y => y.1 = q)
  rw [unanswered, ← hperm, List.countP_cons]
  simp

theorem InWindow.row_of_unanswered (hs : s.InWindow) (h : 0 < s.unanswered peer) :
    s.node.progress.find? peer ≠ none := by
  intro hnone
  have hcount := hs.counted peer
  rw [row, hnone] at hcount
  exact Nat.ne_of_gt h hcount.symm

/-! ## One step -/

theorem InWindow.dispatch (hs : s.InWindow) (h : s.dispatch peer = some t) : t.InWindow := by
  unfold Pipeline.dispatch at h
  cases hsent : s.node.replicatePeerOnce peer with
  | none =>
    rw [hsent] at h
    cases h
  | some sent =>
    obtain ⟨n, request⟩ := sent
    obtain ⟨p, hp, hopen⟩ := Node.replicatePeerOnce_window hsent
    obtain ⟨-, hcore, hcases⟩ := Node.replicatePeerOnce_cases hsent
    have hconfig : n.config = s.node.config := Node.eq_of_core Node.config (fun _ => rfl) hcore
    have hrow : s.row peer = p := by rw [row, hp, Option.getD_some]
    rw [hsent] at h
    cases hcases with
    | inl hinstall =>
      obtain ⟨snapshot, -, hprogress, rfl⟩ := hinstall
      cases h
      have hsame : InWindow { s with node := n, sending := s.sending ++ [(peer, snapshot)] } ↔ s.InWindow :=
        inWindow_congr hprogress hconfig rfl
      exact hsame.mpr hs
    | inr happend =>
      obtain ⟨r, k, rfl, -, -, -, hprogress⟩ := happend
      cases h
      have htouch : Touches s { s with node := n, outstanding := s.outstanding ++ [(peer, r)] } peer
          fun p => { p with inFlight := p.inFlight + 1, nextIndex := p.nextIndex + k } := by
        refine ⟨hconfig, fun q => ?_, fun _ => rfl, fun q hq => ?_⟩
        · rw [row, hprogress, rowOf_adjust (by simp [hp])]
          rfl
        · simp [unanswered, Ne.symm hq]
      have hcount : Pipeline.unanswered { s with node := n, outstanding := s.outstanding ++ [(peer, r)] } peer =
          s.unanswered peer + 1 := by simp [unanswered]
      have hold := hs.counted peer
      rw [hrow] at hold
      rw [htouch.inWindow_iff hs, hcount, hrow]
      exact ⟨by omega, by rw [hold]⟩

/-- A counter that goes down although no request was answered is right only at zero. -/
theorem InWindow.decrement_iff (hs : s.InWindow) {f : PeerProgress → PeerProgress} (h : Touches s t peer f)
    (hout : t.outstanding = s.outstanding) (hf : ∀ p, (f p).inFlight = p.inFlight - 1) :
    t.InWindow ↔ s.unanswered peer = 0 := by
  have hcount : t.unanswered peer = s.unanswered peer := by rw [unanswered, unanswered, hout]
  have hold := hs.counted peer
  have hbound := hs.bounded peer
  rw [h.inWindow_iff hs, hcount, hf, hold]
  omega

theorem InWindow.answered (hs : s.InWindow) {f : PeerProgress → PeerProgress} {i : Nat} {r : AppendEntriesRequest}
    (hr : s.outstanding[i]? = some (peer, r)) (h : Touches s t peer f)
    (hout : t.outstanding = s.outstanding.eraseIdx i) (hf : ∀ p, (f p).inFlight = p.inFlight - 1) : t.InWindow := by
  have hcount := unanswered_eraseIdx hr peer
  rw [if_pos rfl, ← hout, ← unanswered] at hcount
  have hold := hs.counted peer
  have hbound := hs.bounded peer
  rw [h.inWindow_iff hs, hf, hold]
  omega

theorem InWindow.rejected_iff (hs : s.InWindow) {f : PeerProgress → PeerProgress} {i : Nat} {r : AppendEntriesRequest}
    (hr : s.outstanding[i]? = some (peer, r)) (h : Touches s t peer f)
    (hout : t.outstanding = s.outstanding.eraseIdx i) (hf : ∀ p, (f p).inFlight = 0) :
    t.InWindow ↔ s.unanswered peer = 1 := by
  have hcount := unanswered_eraseIdx hr peer
  rw [if_pos rfl, ← hout, ← unanswered] at hcount
  have hbound := hs.bounded peer
  rw [h.inWindow_iff hs, hf]
  omega

theorem others_of_answered {i : Nat} {r : AppendEntriesRequest} (hr : s.outstanding[i]? = some (peer, r))
    (hout : t.outstanding = s.outstanding.eraseIdx i) : ∀ q, q ≠ peer → t.unanswered q = s.unanswered q := by
  intro q hq
  have hcount := unanswered_eraseIdx hr q
  rw [if_neg (Ne.symm hq)] at hcount
  rw [unanswered, hout]
  exact hcount

theorem others_of_outstanding (hout : t.outstanding = s.outstanding) :
    ∀ q, q ≠ peer → t.unanswered q = s.unanswered q := by
  intro q _
  rw [unanswered, unanswered, hout]

theorem touches_of_modify {f : PeerProgress → PeerProgress} (hconfig : t.node.config = s.node.config)
    (hprogress : t.node.progress = s.node.progress.modify peer {} f)
    (hwindow : ∀ p, (f p).effectiveWindowSize = p.effectiveWindowSize)
    (hothers : ∀ q, q ≠ peer → t.unanswered q = s.unanswered q) : Touches s t peer f := by
  refine ⟨hconfig, fun q => ?_, hwindow, hothers⟩
  rw [row, hprogress]
  exact rowOf_modify s.node.progress peer q f

/-- `UpdatePeerAck` on the row of its peer. -/
def acked (m : Nat) (p : PeerProgress) : PeerProgress :=
  resetPeerRollbackState
    { p with
      matchIndex := max p.matchIndex m
      nextIndex := max p.nextIndex (m + 1)
      inFlight := p.inFlight - 1
      healthy := true }

/-- `UpdatePeerFailure` on the row of its peer. -/
def failed (restore : Nat) (p : PeerProgress) : PeerProgress :=
  { p with
    inFlight := p.inFlight - 1
    nextIndex := if restore > 0 then min p.nextIndex restore else p.nextIndex }

/-- An answered request leaves the window, unless a rejection takes others with it. -/
theorem InWindow.answer (hs : s.InWindow) {i : Nat} {r : AppendEntriesRequest} {resp : Option AppendEntriesResponse}
    (hr : s.outstanding[i]? = some (peer, r)) (hleader : s.node.state = .leader)
    (ht : t = { s with node := s.node.onReplicateResponse peer r resp, outstanding := s.outstanding.eraseIdx i })
    (hstays : t.node.state = .leader) :
    t.InWindow ↔ ∀ a ∈ resp, a.success = false → s.unanswered peer = 1 := by
  have hout : t.outstanding = s.outstanding.eraseIdx i := by rw [ht]
  have hnode : t.node = s.node.onReplicateResponse peer r resp := by rw [ht]
  have hothers := others_of_answered hr hout
  rw [hnode] at hstays
  cases resp with
  | none =>
    have htouch : Touches s t peer (failed (r.prevLogIndex + 1)) :=
      touches_of_modify (by rw [hnode]; rfl) (by rw [hnode]; rfl) (fun _ => rfl) hothers
    exact iff_of_true (hs.answered hr htouch hout fun _ => rfl) fun a ha => by cases ha
  | some resp =>
    simp only [Node.onReplicateResponse] at hstays hnode
    by_cases hterm : resp.term > s.node.currentTerm
    · rw [if_pos hterm] at hstays
      simp [Node.stepDown, Node.becomeFollower, Nat.not_lt.mpr (Nat.le_of_lt hterm)] at hstays
    rw [if_neg hterm, if_neg (not_not.mpr hleader)] at hnode
    cases hsuccess : resp.success with
    | true =>
      rw [if_pos hsuccess] at hnode
      have htouch : Touches s t peer (acked resp.matchIndex) := by
        refine touches_of_modify ?_ ?_ (fun _ => rfl) hothers
        · rw [hnode, Node.config_maybeCommit]
          rfl
        · rw [hnode, Node.progress_maybeCommit]
          rfl
      exact iff_of_true (hs.answered hr htouch hout fun _ => rfl) (by simp [hsuccess])
    | false =>
      rw [if_neg (by simp [hsuccess])] at hnode
      have hcount := unanswered_eraseIdx hr peer
      rw [if_pos rfl] at hcount
      have hrow : s.node.progress.find? peer ≠ none := hs.row_of_unanswered (by rw [← hcount]; exact Nat.succ_pos _)
      have htouch : Touches s t peer fun p => rejectPeer s.node.config { p with inFlight := 0, healthy := true }
          (r.prevLogIndex + 1) resp.conflictIndex := by
        refine ⟨by rw [hnode], fun q => ?_, fun p => effectiveWindowSize_rejectPeer _ _ _ _, hothers⟩
        rw [row, hnode]
        exact rowOf_adjust hrow q _
      rw [hs.rejected_iff hr htouch hout fun p => inFlight_rejectPeer _ _ _ _]
      simp [hsuccess]

/-- A failed heartbeat counts like an answer. -/
theorem InWindow.heartbeat (hs : s.InWindow) (round : Nat) (resp : Option HeartbeatResponse)
    (ht : t = { s with node := s.node.onBroadcastResponse round peer resp }) :
    t.InWindow ↔ (s.HeartbeatFails round resp → s.unanswered peer = 0) := by
  have hout : t.outstanding = s.outstanding := by rw [ht]
  have hnode : t.node = s.node.onBroadcastResponse round peer resp := by rw [ht]
  have hothers : ∀ q, q ≠ peer → t.unanswered q = s.unanswered q := others_of_outstanding hout
  have hfailed : t.node = s.node.failPeer peer → (t.InWindow ↔ s.unanswered peer = 0) := by
    intro hfail
    have htouch : Touches s t peer (failed 0) :=
      touches_of_modify (by rw [hfail]; rfl) (by rw [hfail]; rfl) (fun _ => rfl) hothers
    exact hs.decrement_iff htouch hout fun _ => rfl
  have hkept : t.node.progress = s.node.progress → t.node.config = s.node.config → t.InWindow := fun hp hc =>
    (inWindow_congr hp hc hout).mpr hs
  unfold HeartbeatFails
  unfold Node.onBroadcastResponse at hnode
  cases hround : s.node.rounds.find? round with
  | none =>
    rw [hround] at hnode
    simpa using hkept (by rw [hnode]) (by rw [hnode])
  | some b =>
    rw [hround] at hnode
    cases resp with
    | none => simpa using hfailed hnode
    | some resp =>
      by_cases hterm : resp.term > b.highestTerm
      · simp only [if_pos hterm] at hnode
        refine iff_of_true (hkept (by rw [hnode]) (by rw [hnode])) ?_
        simp [Nat.not_le.mpr hterm]
      · simp only [if_neg hterm] at hnode
        cases hsuccess : resp.success with
        | true =>
          simp only [if_pos hsuccess] at hnode
          have htouch : Touches s t peer fun p => { p with healthy := true } :=
            touches_of_modify (by rw [hnode]; rfl) (by rw [hnode]; rfl) (fun _ => rfl) hothers
          have hcount : t.unanswered peer = s.unanswered peer := by rw [unanswered, unanswered, hout]
          rw [htouch.inWindow_iff hs, hcount]
          simp [hsuccess, hs.bounded peer, hs.counted peer]
        | false =>
          simp only [hsuccess, Bool.false_eq_true, if_false] at hnode
          simpa [hsuccess, Nat.not_lt.mp hterm] using hfailed hnode

/-- The end of a snapshot transfer counts like an answer, although its start did not count. -/
theorem InWindow.installed (hs : s.InWindow) {i : Nat} {snapshot : Snapshot} {resp : Option InstallSnapshotResponse}
    (ht : t = { s with node := s.node.onInstallResponse peer snapshot resp, sending := s.sending.eraseIdx i })
    (hstays : t.node.state = .leader) :
    t.InWindow ↔ ((∀ a ∈ resp, a.success = true) → s.unanswered peer = 0) := by
  have hout : t.outstanding = s.outstanding := by rw [ht]
  have hnode : t.node = s.node.onInstallResponse peer snapshot resp := by rw [ht]
  have hothers : ∀ q, q ≠ peer → t.unanswered q = s.unanswered q := others_of_outstanding hout
  rw [hnode] at hstays
  cases resp with
  | none =>
    have htouch : Touches s t peer (failed 0) :=
      touches_of_modify (by rw [hnode]; rfl) (by rw [hnode]; rfl) (fun _ => rfl) hothers
    rw [hs.decrement_iff htouch hout fun _ => rfl]
    simp
  | some resp =>
    simp only [Node.onInstallResponse] at hstays hnode
    by_cases hterm : resp.term > s.node.currentTerm
    · rw [if_pos hterm] at hstays
      simp [Node.stepDown, Node.becomeFollower, Nat.not_lt.mpr (Nat.le_of_lt hterm)] at hstays
    rw [if_neg hterm] at hnode
    cases hsuccess : resp.success with
    | true =>
      rw [if_pos hsuccess] at hnode
      have htouch : Touches s t peer (acked snapshot.raftIndex) :=
        touches_of_modify (by rw [hnode]; rfl) (by rw [hnode]; rfl) (fun _ => rfl) hothers
      rw [hs.decrement_iff htouch hout fun _ => rfl]
      simp [hsuccess]
    | false =>
      rw [if_neg (by simp [hsuccess])] at hnode
      refine iff_of_true ((inWindow_congr (by rw [hnode]) (by rw [hnode]) hout).mpr hs) ?_
      simp [hsuccess]

theorem step_stays {e : Event} (h : s.step e = some t) : t.node.state = .leader := by
  have hstays := (Option.filter_eq_some_iff.mp h).2
  simp only [decide_eq_true_eq] at hstays
  exact hstays.1

theorem InWindow.step_iff (hs : s.InWindow) (hleader : s.node.state = .leader) {e : Event} (h : s.step e = some t) :
    t.InWindow ↔ s.Settled e := by
  have hstays := step_stays h
  have hevent := (Option.filter_eq_some_iff.mp h).1
  cases e with
  | replicate peer => exact iff_of_true (hs.dispatch hevent) trivial
  | answer i resp =>
    obtain ⟨⟨peer, r⟩, hr, rfl⟩ := Option.map_eq_some_iff.mp hevent
    rw [hs.answer hr hleader rfl hstays]
    simp [Settled, hr]
  | heartbeat round peer resp =>
    cases hevent
    exact hs.heartbeat round resp rfl
  | installed i resp =>
    obtain ⟨⟨peer, snapshot⟩, hsnapshot, rfl⟩ := Option.map_eq_some_iff.mp hevent
    rw [hs.installed rfl hstays]
    simp [Settled, hsnapshot]
  | other node =>
    simp only [event] at hevent
    split at hevent
    · next hsame =>
      cases hevent
      have hkept : InWindow { s with node } ↔ s.InWindow := inWindow_congr hsame.1 hsame.2 rfl
      exact iff_of_true (hkept.mpr hs) trivial
    · cases hevent

/-! ## One leadership -/

/-- A new leader has nothing under way. -/
def fresh (n : Node) : Pipeline := { node := n }

theorem inFlight_reset (cfg : Config) (topology : TopologyManager) (next : Nat) (q : String) :
    (((resetPeerProgress cfg topology next).find? q).getD {}).inFlight = 0 := by
  cases hrow : (resetPeerProgress cfg topology next).find? q with
  | none => rfl
  | some p =>
    rw [find?_resetPeerProgress q cfg topology next hrow]
    rfl

theorem becomeLeader_fresh {n m : Node} (h : n.becomeLeader = (m, .ok ())) :
    m.state = .leader ∧ (fresh m).InWindow := by
  unfold Node.becomeLeader at h
  dsimp only at h
  split at h
  · cases h
  split at h
  · cases h
  cases h
  refine ⟨rfl, ⟨fun peer => Nat.zero_le _, fun peer => ?_⟩⟩
  exact inFlight_reset _ _ _ peer

/-- In one leadership the window bounds the unanswered requests, and the counter is their
number, exactly when no rejection finds a second request under way to its peer and no failed
heartbeat, failed snapshot or installed one finds any. -/
theorem pipeline_window_iff (n m : Node) (hleader : n.becomeLeader = (m, .ok ())) (events : List Event) :
    Transition.Throughout step InWindow (fresh m) events ↔ Transition.EachStep step Settled (fresh m) events := by
  obtain ⟨hstate, hfresh⟩ := becomeLeader_fresh hleader
  refine Transition.throughout_iff (I := fun s => s.node.state = .leader) ?_ ?_ hstate hfresh events
  · exact fun s e t _ h => step_stays h
  · exact fun s e t hs hwindow h => hwindow.step_iff hs h

/-- A node with one peer and room for two requests. -/
def narrow : Node := Node.create { nodeId := "A", peers := ["B"], pipelineWindowSize := 2 } {} {} none

def narrowLeader : Node := narrow.becomeLeader.1

/-- The answer of a peer with an empty log. -/
def behind : AppendEntriesResponse := { term := 1, success := false, conflictIndex := 1 }

set_option maxRecDepth 20000 in
theorem pipeline_window_of_one_request :
    Transition.Throughout step InWindow (fresh narrowLeader) [.replicate "B", .answer 0 (some behind)] :=
  (pipeline_window_iff narrow narrowLeader rfl _).mpr (by decide)

set_option maxRecDepth 20000 in
/-- A rejection clears the counter while a second request is under way. -/
theorem rejection_opens_the_window :
    narrow.becomeLeader = (narrowLeader, .ok ()) ∧
    ∃ t, Transition.run step (fresh narrowLeader)
        [.replicate "B", .replicate "B", .answer 0 (some behind), .replicate "B", .replicate "B"] = some t ∧
      (t.row "B").window t.node.config = 2 ∧ (t.row "B").inFlight = 2 ∧ t.unanswered "B" = 3 :=
  ⟨rfl, _, rfl, rfl, rfl, rfl⟩

end Pipeline

end RaftVdb
