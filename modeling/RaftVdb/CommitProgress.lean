import RaftVdb.Indices

/-!
# A leader that counts itself last

`Propose` hands its entry to replication before it is on disk, and the leader counts for
the quorum of an entry only once it is. `MaybeCommit` runs after an acknowledgement and
after an election, but not after the flush. Here `Propose` is cut at the flush, and
acknowledgements may come in between.
-/

namespace RaftVdb

open Lib

namespace Node

/-- `Propose` up to `RequestReplication`: the entry is in the buffer of the WAL. -/
def proposeAppend (codec : CommandCodec) (n : Node) (e : LogEntry) : Node × Except String Nat :=
  if n.state ≠ .leader then (n, .error "当前节点不是 Leader，无法执行 Propose")
  else
    let next := { e with index := n.logicalLastIndex + 1, term := n.currentTerm }
    match n.log.append next with
    | .error err => (n, .error err)
    | .ok log =>
      let dedup := match extractRequestId codec e with
        | .ok requestId => n.dedup.trackPending requestId next.index
        | .error _ => n.dedup
      ({ n with log, dedup }, .ok next.index)

/-- `Propose` behind `Flush`. -/
def proposeFlush (n : Node) (logIndex : Nat) : Node :=
  { n with
    flushedIndex := logIndex
    commitIndex := if quorumSize n.config.peers = 1 then logIndex else n.commitIndex }

/-- With nothing in between, the two parts are the whole. -/
theorem propose_eq (codec : CommandCodec) (n : Node) (e : LogEntry) :
    n.propose codec e = match n.proposeAppend codec e with
      | (m, .error err) => (m, .error err)
      | (m, .ok logIndex) => (m.proposeFlush logIndex, .ok logIndex) := by
  unfold propose proposeAppend appendEntry
  split
  · rfl
  · cases happend : n.log.append { e with index := n.logicalLastIndex + 1, term := n.currentTerm } with
    | error err => simp only [happend]
    | ok log =>
      simp only [happend]
      rfl

theorem proposeAppend_eq_ok {codec : CommandCodec} {n m : Node} {e : LogEntry} {logIndex : Nat}
    (h : n.proposeAppend codec e = (m, .ok logIndex)) :
    logIndex = n.logicalLastIndex + 1 ∧ m.progress = n.progress ∧ m.flushedIndex = n.flushedIndex ∧ n.state = .leader ∧
      ∃ log, n.log.append { e with index := n.logicalLastIndex + 1, term := n.currentTerm } = .ok log ∧
        m.core = { n with log }.core := by
  unfold proposeAppend at h
  split at h
  · cases h
  · next hstate =>
    dsimp only at h
    split at h
    · cases h
    · next log hlog =>
      cases h
      exact ⟨rfl, rfl, rfl, by simpa using hstate, log, hlog, rfl⟩

/-- The peers that have acknowledged an index. -/
def acknowledged (progress : ProgressTable) (candidate : Nat) : Nat :=
  (progress.rows.filter fun r => r.2.matchIndex ≥ candidate).length

theorem matched_eq (n : Node) (i : Nat) :
    n.matched i = (if n.flushedIndex ≥ i then 1 else 0) + acknowledged n.progress i := rfl

/-- What does not touch `match_index` does not change the count. -/
theorem acknowledged_mapValues (progress : ProgressTable) (f : String → PeerProgress → PeerProgress)
    (hf : ∀ k p, (f k p).matchIndex = p.matchIndex) (i : Nat) :
    acknowledged (progress.mapValues f) i = acknowledged progress i := by
  unfold acknowledged Table.mapValues
  rw [List.filter_map, List.length_map]
  congr 1
  refine List.filter_congr fun r _ => ?_
  simp only [Function.comp_apply, hf]

theorem acknowledged_modify (progress : ProgressTable) (k : String) (f : PeerProgress → PeerProgress)
    (hf : ∀ p, (f p).matchIndex = p.matchIndex) {i : Nat} (hi : 0 < i) :
    acknowledged (progress.modify k {} f) i = acknowledged progress i := by
  rw [Table.modify, Table.adjust, acknowledged_mapValues _ _ (fun k' p => by split <;> simp [hf])]
  unfold Table.tryEmplace
  split
  · rfl
  · unfold acknowledged Table.append
    rw [List.filter_append, List.length_append, List.filter_cons_of_neg (by simpa using Nat.ne_of_gt hi)]
    rfl

theorem replicatePeerOnce_flushedIndex {n n' : Node} {peerId : String} {request : Request}
    (h : n.replicatePeerOnce peerId = some (n', request)) : n'.flushedIndex = n.flushedIndex := by
  obtain ⟨-, p, -, -, ⟨rfl, -⟩ | ⟨entries, prevLogTerm, -, -, rfl, -⟩⟩ := n.replicatePeerOnce_eq_some h
  · rfl
  · rfl

/-- No index above the commit index could be committed, except perhaps one. -/
def Settled (n : Node) (pending : Option Nat) : Prop :=
  ∀ i, n.commitIndex < i → pending ≠ some i → n.termAtLogicalIndex i = .ok n.currentTerm →
    n.matched i < quorumSize n.config.peers

/-- An index that could be committed is not, in a cluster of several nodes. -/
def Outstanding (n : Node) : Prop :=
  quorumSize n.config.peers ≠ 1 ∧ ∃ i, n.commitIndex < i ∧ n.termAtLogicalIndex i = .ok n.currentTerm ∧
    quorumSize n.config.peers ≤ n.matched i

variable {n n' : Node} {pending : Option Nat}

theorem Settled.of_core (h : n.Settled pending) (hcore : n'.core = n.core)
    (hmatched : ∀ i, 0 < i → n'.matched i = n.matched i) : n'.Settled pending := by
  intro i hi hpending hterm
  rw [eq_of_core Node.commitIndex (fun _ => rfl) hcore] at hi
  have hsame : n'.termAtLogicalIndex i = n.termAtLogicalIndex i :=
    eq_of_core (fun n => n.termAtLogicalIndex i) (fun _ => rfl) hcore
  rw [hsame, eq_of_core Node.currentTerm (fun _ => rfl) hcore] at hterm
  rw [hmatched i (by omega), eq_of_core Node.config (fun _ => rfl) hcore]
  exact h i hi hpending hterm

theorem Outstanding.of_core (h : n.Outstanding) (hcore : n'.core = n.core)
    (hmatched : ∀ i, 0 < i → n'.matched i = n.matched i) : n'.Outstanding := by
  obtain ⟨hsize, i, hi, hterm, hquorum⟩ := h
  have hconfig := eq_of_core Node.config (fun _ => rfl) hcore
  have hsame : n'.termAtLogicalIndex i = n.termAtLogicalIndex i :=
    eq_of_core (fun n => n.termAtLogicalIndex i) (fun _ => rfl) hcore
  refine ⟨hconfig ▸ hsize, i, ?_, ?_, ?_⟩
  · rw [eq_of_core Node.commitIndex (fun _ => rfl) hcore]
    exact hi
  · rw [hsame, eq_of_core Node.currentTerm (fun _ => rfl) hcore]
    exact hterm
  · rw [hmatched i (by omega), hconfig]
    exact hquorum

/-- Above the commit index a node knows the term of every index of its log. -/
theorem InOrder.term_above (h : n.InOrder) {i : Nat} (hi : n.commitIndex < i) :
    n.termAtLogicalIndex i = n.log.termAt i := by
  have hsnapshot := h.snapshot_le.trans h.applied_le
  unfold termAtLogicalIndex
  rw [if_neg (by omega), if_neg (by omega), if_neg (by omega)]

theorem InOrder.term_readable (h : n.InOrder) {i : Nat} (hi : n.commitIndex < i) (hle : i ≤ n.logicalLastIndex) :
    ∃ term, n.termAtLogicalIndex i = .ok term := by
  have hsnapshot := h.snapshot_le.trans h.applied_le
  have hlast : i ≤ n.log.lastIndex := by
    unfold logicalLastIndex at hle
    omega
  obtain ⟨x, hx, hxi⟩ := h.joined i (by omega) hlast
  rw [h.term_above hi, IndexedLog.termAt, if_neg (by omega), h.ordered.read_eq_ok.mpr ⟨hx, hxi⟩]
  exact ⟨x.term, rfl⟩

theorem InOrder.le_last (h : n.InOrder) {i term : Nat} (hi : n.commitIndex < i)
    (hterm : n.termAtLogicalIndex i = .ok term) : i ≤ n.logicalLastIndex := by
  rw [h.term_above hi, IndexedLog.termAt, if_neg (by omega)] at hterm
  cases hread : n.log.read i with
  | error err =>
    rw [hread] at hterm
    cases hterm
  | ok x =>
    obtain ⟨hx, rfl⟩ := h.ordered.read_eq_ok.mp hread
    exact (h.ordered.le_last hx).trans (le_max_right _ _)

/-- The loop of `MaybeCommit` stops at the largest index that can be committed. -/
theorem findCommit_complete (last : Nat)
    (hread : ∀ i, n.commitIndex < i → i ≤ last → ∃ term, n.termAtLogicalIndex i = .ok term) :
    ∃ found, n.findCommit last = .ok found ∧ ∀ i, found.getD n.commitIndex < i → n.commitIndex < i → i ≤ last →
      n.termAtLogicalIndex i = .ok n.currentTerm → n.matched i < quorumSize n.config.peers := by
  induction last with
  | zero => exact ⟨none, rfl, fun i _ hi hle => by omega⟩
  | succ last ih =>
    obtain ⟨found, hfound, hrest⟩ := ih fun i hi hle => hread i hi (by omega)
    rw [findCommit]
    by_cases hstop : last + 1 ≤ n.commitIndex
    · rw [if_pos hstop]
      exact ⟨none, rfl, fun i _ hi hle => by omega⟩
    · rw [if_neg hstop]
      obtain ⟨term, hterm⟩ := hread (last + 1) (by omega) le_rfl
      rw [hterm]
      dsimp only
      by_cases hcur : term ≠ n.currentTerm
      · rw [if_pos hcur]
        refine ⟨found, hfound, fun i hi hc hle ht => ?_⟩
        rcases Nat.lt_or_eq_of_le hle with hlt | rfl
        · exact hrest i hi hc (by omega) ht
        · rw [hterm] at ht
          cases ht
          exact absurd rfl hcur
      · rw [if_neg hcur]
        by_cases hquorum : n.matched (last + 1) ≥ quorumSize n.config.peers
        · rw [if_pos hquorum]
          refine ⟨some (last + 1), rfl, fun i hi _ hle => ?_⟩
          rw [Option.getD_some] at hi
          omega
        · rw [if_neg hquorum]
          refine ⟨found, hfound, fun i hi hc hle ht => ?_⟩
          rcases Nat.lt_or_eq_of_le hle with hlt | rfl
          · exact hrest i hi hc (by omega) ht
          · omega

theorem logicalLastIndex_maybeCommit (n : Node) : n.maybeCommit.logicalLastIndex = n.logicalLastIndex :=
  eq_of_maybeCommit Node.logicalLastIndex (fun _ _ => rfl) n

/-- After `MaybeCommit` nothing is left to commit. -/
theorem InOrder.settled_maybeCommit (h : n.InOrder) (hstate : n.state = .leader) : n.maybeCommit.Settled none := by
  obtain ⟨found, hfound, hrest⟩ := findCommit_complete n.logicalLastIndex fun i hi hle => h.term_readable hi hle
  have heq : n.maybeCommit = { n with commitIndex := found.getD n.commitIndex } := by
    rw [Node.maybeCommit, if_neg (by simp [hstate]), hfound]
    cases found with
    | none => rfl
    | some k => rfl
  have hle : n.commitIndex ≤ found.getD n.commitIndex := by
    cases found with
    | none => exact le_rfl
    | some k => exact (findCommit_eq_some hfound).1.le
  rw [heq]
  intro i hi _ hterm
  have hi' : found.getD n.commitIndex < i := hi
  exact hrest i hi (by omega) (h.le_last (by omega) hterm) hterm

end Node

/-- A leader, the index of a `Propose` that waits for its flush, and the requests that
wait for an answer. -/
structure Leading where
  node : Node
  proposing : Option Nat := none
  inFlight : List (String × AppendEntriesRequest) := []

namespace Leading

inductive Event where
  /-- `Propose` up to `RequestReplication`. -/
  | append (e : LogEntry)
  /-- `Propose` behind `Flush`. -/
  | flush
  | dispatch (peer : String)
  /-- The callback of a request; `none` is a failed call. -/
  | deliver (i : Nat) (resp : Option AppendEntriesResponse)
  /-- `BecomeLeader` and the `MaybeCommit` that `StartElection` and `Start` call after it. -/
  | becomeLeader

/-- `Propose` keeps the state lock to its end, which the other two that take it wait for. -/
def step (codec : CommandCodec) (s : Leading) : Event → Option Leading
  | .append e =>
    if s.proposing.isSome then none
    else match s.node.proposeAppend codec e with
      | (_, .error _) => none
      | (node, .ok logIndex) => some { s with node, proposing := some logIndex }
  | .flush => s.proposing.map fun logIndex => { s with node := s.node.proposeFlush logIndex, proposing := none }
  | .dispatch peer =>
    match s.node.replicatePeerOnce peer with
    | some (node, .append _ r) => some { s with node, inFlight := s.inFlight ++ [(peer, r)] }
    | _ => none
  | .deliver i resp =>
    match s.inFlight[i]? with
    | none => none
    | some (peer, r) =>
      if s.proposing.isSome ∧ (resp.map AppendEntriesResponse.term).getD 0 > s.node.currentTerm then none
      else some { s with node := s.node.onReplicateResponse peer r resp, inFlight := s.inFlight.eraseIdx i }
  | .becomeLeader =>
    if s.proposing.isSome ∨ s.node.state = .leader then none
    else match s.node.becomeLeader with
      | (_, .error _) => none
      | (node, .ok _) => some { s with node := node.maybeCommit }

/-- At a flush, the leader is not the one that an index of its term still lacks. -/
def Superfluous (s : Leading) : Event → Prop
  | .flush => quorumSize s.node.config.peers = 1 ∨ ∀ i ≤ s.proposing.getD 0, s.node.commitIndex < i →
      (s.node.termAtLogicalIndex i).toOption = some s.node.currentTerm →
        Node.acknowledged s.node.progress i + 1 < quorumSize s.node.config.peers
  | _ => True

instance (s : Leading) : (e : Event) → Decidable (s.Superfluous e)
  | .append _ => inferInstanceAs (Decidable True)
  | .flush => inferInstanceAs (Decidable (_ ∨ _))
  | .dispatch _ => inferInstanceAs (Decidable True)
  | .deliver _ _ => inferInstanceAs (Decidable True)
  | .becomeLeader => inferInstanceAs (Decidable True)

/-- `MaybeCommit` runs on the leader: after its election, or after an acknowledgement that it takes. -/
def Recounts (s : Leading) : Event → Prop
  | .deliver _ (some resp) => resp.success = true ∧ resp.term ≤ s.node.currentTerm ∧ s.node.state = .leader
  | .becomeLeader => True
  | _ => False

instance (s : Leading) : (e : Event) → Decidable (s.Recounts e)
  | .deliver _ (some _) => inferInstanceAs (Decidable (_ ∧ _ ∧ _))
  | .becomeLeader => isTrue trivial
  | .append _ | .flush | .dispatch _ | .deliver _ none => isFalse id

/-- Whether a flush has completed a quorum and `MaybeCommit` has not run since. -/
def owes (s : Leading) (owed : Bool) (e : Event) : Bool :=
  if s.Recounts e then false else owed || !decide (s.Superfluous e)

def overdue (codec : CommandCodec) (s : Leading) (owed : Bool) : List Event → Bool
  | [] => owed
  | e :: events => (step codec s e).elim owed fun s' => overdue codec s' (s.owes owed e) events

structure Inv (s : Leading) (owed : Bool) : Prop where
  inOrder : s.node.InOrder
  proposing : ∀ k, s.proposing = some k → k = s.node.logicalLastIndex
  settled : s.node.state = .leader → owed = false → s.node.Settled s.proposing
  outstanding : s.node.state = .leader → owed = true → s.node.Outstanding

variable {codec : CommandCodec} {s s' : Leading} {owed : Bool}

/-- Other events change nothing in what is owed. -/
theorem owes_of_quiet {e : Event} (hnot : ¬ s.Recounts e) (hok : s.Superfluous e) : s.owes owed e = owed := by
  rw [owes, if_neg hnot, decide_eq_true hok]
  exact Bool.or_false owed

/-- What keeps the core and the count keeps the invariant. -/
theorem Inv.of_core (h : Inv s owed) {node : Node} {inFlight : List (String × AppendEntriesRequest)}
    (hcore : node.core = s.node.core) (hmatched : ∀ i, 0 < i → node.matched i = s.node.matched i) :
    Inv { s with node, inFlight } owed where
  inOrder := h.inOrder.keep (.of_core hcore (.refl _))
  proposing k hk := (h.proposing k hk).trans (Node.eq_of_core Node.logicalLastIndex (fun _ => rfl) hcore).symm
  settled hstate howed :=
    (h.settled ((Node.eq_of_core Node.state (fun _ => rfl) hcore).symm.trans hstate) howed).of_core hcore hmatched
  outstanding hstate howed :=
    (h.outstanding ((Node.eq_of_core Node.state (fun _ => rfl) hcore).symm.trans hstate) howed).of_core hcore hmatched

theorem Inv.append (h : Inv s owed) {e : LogEntry} (hs : step codec s (.append e) = some s') : Inv s' owed := by
  rw [step] at hs
  split at hs
  · cases hs
  · next hidle =>
    split at hs
    · cases hs
    · next node logIndex heq =>
      cases hs
      obtain ⟨rfl, hprogress, hflushed, hleader, log, hlog, hcore⟩ := Node.proposeAppend_eq_ok heq
      have hwrite := (h.inOrder.append hlog rfl le_rfl (h.inOrder.commit_le.trans (Nat.le_succ _))).inOrder
      have hnode : node.InOrder := hwrite.keep (.of_core hcore ⟨rfl, rfl, rfl, rfl, rfl⟩)
      have hlast : node.logicalLastIndex = s.node.logicalLastIndex + 1 := by
        rw [Node.eq_of_core Node.logicalLastIndex (fun _ => rfl) hcore]
        have hend := IndexedLog.lastIndex_append hlog
        simp only [Node.logicalLastIndex] at hend ⊢
        omega
      have hcommit := Node.eq_of_core Node.commitIndex (fun _ => rfl) hcore
      have hcur := Node.eq_of_core Node.currentTerm (fun _ => rfl) hcore
      have hconfig := Node.eq_of_core Node.config (fun _ => rfl) hcore
      have hentries : node.log = log := Node.eq_of_core Node.log (fun _ => rfl) hcore
      have hmatched : ∀ i, node.matched i = s.node.matched i := fun i => by
        rw [Node.matched_eq, Node.matched_eq, hprogress, hflushed]
      have hterms : ∀ i, s.node.commitIndex < i → i ≠ s.node.logicalLastIndex + 1 →
          node.termAtLogicalIndex i = s.node.termAtLogicalIndex i := by
        intro i hi hne
        rw [hnode.term_above (by rw [hcommit]; exact hi), hentries, h.inOrder.term_above hi]
        exact IndexedLog.termAt_append_of_ne h.inOrder.ordered hlog hne
      refine ⟨hnode, fun k hk => ?_, fun _ howed i hi hnew hterm => ?_, fun _ howed => ?_⟩
      · cases hk
        exact hlast.symm
      · rw [hcommit] at hi
        rw [hterms i hi fun heq => hnew (by rw [heq]), hcur] at hterm
        rw [hmatched, hconfig]
        exact h.settled hleader howed i hi (by simp [Option.not_isSome_iff_eq_none.mp hidle]) hterm
      · obtain ⟨hsize, i, hi, hterm, hquorum⟩ := h.outstanding hleader howed
        have hle := h.inOrder.le_last hi hterm
        refine ⟨hconfig ▸ hsize, i, hcommit ▸ hi, ?_, ?_⟩
        · rw [hterms i hi (by omega), hcur]
          exact hterm
        · rw [hmatched, hconfig]
          exact hquorum

/-- The flush counts the leader for every index up to the one it has written. -/
theorem matched_proposeFlush (n : Node) {logIndex i : Nat} (hi : i ≤ logIndex) :
    (n.proposeFlush logIndex).matched i = Node.acknowledged n.progress i + 1 := by
  rw [Node.matched_eq, if_pos (show (n.proposeFlush logIndex).flushedIndex ≥ i from hi), Nat.add_comm]
  rfl

theorem Inv.flush (h : Inv s owed) (hs : step codec s .flush = some s') : Inv s' (s.owes owed .flush) := by
  rw [step] at hs
  obtain ⟨logIndex, hlogIndex, rfl⟩ := Option.map_eq_some_iff.mp hs
  have hlast := h.proposing logIndex hlogIndex
  have hle := h.inOrder.commit_le
  have hcommit : s.node.commitIndex ≤
      if quorumSize s.node.config.peers = 1 then logIndex else s.node.commitIndex := by
    split
    · omega
    · exact le_rfl
  have hnode : (s.node.proposeFlush logIndex).InOrder := by
    have hwrite := (h.inOrder.write h.inOrder.ordered h.inOrder.joined hcommit (by
      split
      · rw [hlast]
        exact le_rfl
      · exact hle)).inOrder
    exact hwrite.keep ⟨rfl, rfl, rfl, rfl, rfl⟩
  have howes : s.owes owed .flush = (owed || !decide (s.Superfluous .flush)) := if_neg id
  refine ⟨hnode, (fun k hk => by cases hk), fun hstate howed i hi _ hterm => ?_, fun hstate howed => ?_⟩
  · rw [howes, Bool.or_eq_false_iff] at howed
    have hok : s.Superfluous .flush := by simpa using howed.2
    have hend := hnode.le_last hi hterm
    have hi' : (if quorumSize s.node.config.peers = 1 then logIndex else s.node.commitIndex) < i := hi
    have hend' : i ≤ s.node.logicalLastIndex := hend
    rcases hok with hone | hcounted
    · rw [if_pos hone] at hi'
      omega
    · have hterm' : s.node.termAtLogicalIndex i = .ok s.node.currentTerm := hterm
      rw [matched_proposeFlush s.node (by omega)]
      exact hcounted i (by rw [hlogIndex, Option.getD_some]; omega) (by omega) (by rw [hterm']; rfl)
  · -- Either an index was left over before, or this flush has completed the quorum of one.
    obtain ⟨hsize, i, hi, hle, hterm, hquorum⟩ : quorumSize s.node.config.peers ≠ 1 ∧ ∃ i, s.node.commitIndex < i ∧
        i ≤ logIndex ∧ s.node.termAtLogicalIndex i = .ok s.node.currentTerm ∧
          quorumSize s.node.config.peers ≤ Node.acknowledged s.node.progress i + 1 := by
      rw [howes, Bool.or_eq_true] at howed
      rcases howed with hold | hnew
      · obtain ⟨hsize, i, hi, hterm, hquorum⟩ := h.outstanding hstate hold
        refine ⟨hsize, i, hi, hlast ▸ h.inOrder.le_last hi hterm, hterm, hquorum.trans ?_⟩
        rw [Node.matched_eq, Nat.add_comm]
        split <;> omega
      · have hnot : ¬ s.Superfluous .flush := by simpa using hnew
        simp only [Superfluous, not_or, not_forall, not_lt, hlogIndex, Option.getD_some] at hnot
        obtain ⟨hsize, i, hle, hi, hterm, hquorum⟩ := hnot
        exact ⟨hsize, i, hi, hle, Transition.ok_of_toOption hterm, hquorum⟩
    refine ⟨hsize, i, ?_, hterm, ?_⟩
    · show (if quorumSize s.node.config.peers = 1 then logIndex else s.node.commitIndex) < i
      rw [if_neg hsize]
      exact hi
    · rw [matched_proposeFlush s.node hle]
      exact hquorum

theorem Inv.dispatch (h : Inv s owed) {peer : String} (hs : step codec s (.dispatch peer) = some s') : Inv s' owed := by
  rw [step] at hs
  split at hs
  · next node caller r heq =>
    cases hs
    obtain ⟨-, hcore, hprogress⟩ := Node.replicatePeerOnce_cases heq
    refine h.of_core hcore fun i _ => ?_
    have hflushed := Node.replicatePeerOnce_flushedIndex heq
    rcases hprogress with ⟨_, -, hsame, -⟩ | ⟨_, k, -, -, -, -, hadjust⟩
    · rw [Node.matched_eq, Node.matched_eq, hflushed, hsame]
    · rw [Node.matched_eq, Node.matched_eq, hflushed, hadjust, Table.adjust,
        Node.acknowledged_mapValues _ _ fun k' p => by split <;> rfl]
  · cases hs

/-- A leader that has run `MaybeCommit` owes nothing. -/
theorem Inv.recounted {node : Node} {proposing : Option Nat} {inFlight : List (String × AppendEntriesRequest)}
    (hnode : node.InOrder) (hstate : node.state = .leader) (hlast : ∀ k, proposing = some k → k = node.logicalLastIndex) :
    Inv { node := node.maybeCommit, proposing, inFlight } false where
  inOrder := hnode.maybeCommit.inOrder
  proposing k hk := (hlast k hk).trans (Node.logicalLastIndex_maybeCommit node).symm
  settled _ _ := fun i hi _ hterm => hnode.settled_maybeCommit hstate i hi (by simp) hterm
  outstanding _ howed := by cases howed

theorem Inv.deliver (h : Inv s owed) {i : Nat} {resp : Option AppendEntriesResponse}
    (hs : step codec s (.deliver i resp) = some s') : Inv s' (s.owes owed (.deliver i resp)) := by
  rw [step] at hs
  split at hs
  · cases hs
  · next peer r _ =>
    split at hs
    · cases hs
    · next hblocked =>
      cases hs
      cases resp with
      | none =>
        rw [owes_of_quiet (e := .deliver i none) id trivial]
        refine h.of_core rfl fun k hk => ?_
        rw [Node.matched_eq, Node.matched_eq]
        congr 1
        refine Node.acknowledged_modify s.node.progress peer _ (fun p => ?_) hk
        rfl
      | some resp =>
        rw [Node.onReplicateResponse]
        split
        · next hnewer =>
          have hidle : s.proposing = none := by
            by_contra hsome
            exact hblocked ⟨Option.isSome_iff_ne_none.mpr hsome, hnewer⟩
          have hdown : (s.node.stepDown resp.term).state = .follower := by
            rcases s.node.stepDown_cases resp.term with ⟨hlt, -⟩ | ⟨-, hcore, -⟩
            · omega
            · exact Node.eq_of_core Node.state (fun _ => rfl) hcore
          refine ⟨h.inOrder.keep (Node.keeps_stepDown _ _), fun k hk => ?_, fun hstate => ?_, fun hstate => ?_⟩
          · rw [hidle] at hk
            cases hk
          · rw [hdown] at hstate
            cases hstate
          · rw [hdown] at hstate
            cases hstate
        · next hterm =>
          split
          · next hstate =>
            rw [owes_of_quiet (e := .deliver i (some resp)) (fun hcounts => hstate hcounts.2.2) trivial]
            exact h.of_core rfl fun k _ => rfl
          · next hstate =>
            have hleader : s.node.state = .leader := by simpa using hstate
            split
            · next hsuccess =>
              rw [owes, if_pos (show s.Recounts (.deliver i (some resp)) from ⟨hsuccess, by omega, hleader⟩)]
              have hacked := h.inOrder.keep (.of_core (Node.core_ackPeer s.node peer resp.matchIndex) (.refl _))
              exact .recounted hacked hleader h.proposing
            · next hfailed =>
              rw [owes_of_quiet (e := .deliver i (some resp)) (fun hcounts => hfailed hcounts.1) trivial]
              refine h.of_core rfl fun k _ => ?_
              rw [Node.matched_eq, Node.matched_eq]
              congr 1
              refine Node.acknowledged_mapValues _ _ (fun k' p => ?_) k
              split
              · exact matchIndex_rejectPeer ..
              · rfl

theorem Inv.becomeLeader (h : Inv s owed) (hs : step codec s .becomeLeader = some s') : Inv s' false := by
  rw [step] at hs
  split at hs
  · cases hs
  · next hfree =>
    rw [not_or] at hfree
    split at hs
    · cases hs
    · next node _ heq =>
      cases hs
      rcases s.node.becomeLeader_cases with ⟨err, herr, -⟩ | ⟨log, hlog, -, hcore, -⟩
      · rw [heq] at herr
        cases herr
      · rw [heq] at hcore
        have hnode := (h.inOrder.noop hlog (.of_core hcore ⟨rfl, rfl, rfl, rfl, rfl⟩)).inOrder
        refine .recounted hnode (Node.eq_of_core Node.state (fun _ => rfl) hcore) fun k hk => ?_
        rw [Option.not_isSome_iff_eq_none.mp hfree.1] at hk
        cases hk

theorem Inv.step (h : Inv s owed) {e : Event} (hs : step codec s e = some s') : Inv s' (s.owes owed e) := by
  cases e with
  | append e =>
    rw [owes_of_quiet (e := .append e) id trivial]
    exact h.append hs
  | flush => exact h.flush hs
  | dispatch peer =>
    rw [owes_of_quiet (e := .dispatch peer) id trivial]
    exact h.dispatch hs
  | deliver i resp => exact h.deliver hs
  | becomeLeader => exact h.becomeLeader hs

theorem Inv.run (h : Inv s owed) {events : List Event} (hs : Transition.run (Leading.step codec) s events = some s') :
    Inv s' (overdue codec s owed events) := by
  induction events generalizing s owed with
  | nil =>
    cases hs
    exact h
  | cons e events ih =>
    obtain ⟨t, ht, hs⟩ := Transition.run_cons_eq_some.mp hs
    rw [overdue, ht]
    exact ih (h.step ht) hs

theorem Inv.start {n : Node} (hn : n.InOrder) (hstate : n.state ≠ .leader) : Inv { node := n } false :=
  ⟨hn, fun k hk => (by cases hk), fun hlead => absurd hlead hstate, fun hlead => absurd hlead hstate⟩

/-- A leader that nothing is going on at has committed whatever it can, unless a flush has completed
a quorum and `MaybeCommit` has not run since. -/
theorem committable_is_committed_iff (codec : CommandCodec) (n : Node) (events : List Event) (s : Leading)
    (hn : n.InOrder) (hstate : n.state ≠ .leader)
    (hrun : Transition.run (step codec) { node := n } events = some s)
    (hleader : s.node.state = .leader) (hidle : s.proposing = none) :
    (∀ i, s.node.termAtLogicalIndex i = .ok s.node.currentTerm →
      quorumSize s.node.config.peers ≤ s.node.matched i → i ≤ s.node.commitIndex) ↔
    overdue codec { node := n } false events = false := by
  have hinv := (Inv.start hn hstate).run hrun
  constructor
  · intro hcommitted
    by_contra hne
    obtain ⟨-, i, hi, hterm, hquorum⟩ := hinv.outstanding hleader (Bool.eq_true_of_not_eq_false hne)
    exact absurd (hcommitted i hterm hquorum) (Nat.not_le_of_lt hi)
  · intro howed i hterm hquorum
    by_contra hlt
    have hless := hinv.settled hleader howed i (by omega) (by rw [hidle]; simp) hterm
    omega

/-- In a run without such a flush nothing is owed. -/
theorem overdue_of_superfluous {events : List Event}
    (hs : Transition.run (Transition.restrict Superfluous (step codec)) s events = some s') :
    overdue codec s false events = false ∧ Transition.run (step codec) s events = some s' := by
  induction events generalizing s with
  | nil =>
    cases hs
    exact ⟨rfl, rfl⟩
  | cons e events ih =>
    obtain ⟨t, ht, hs⟩ := Transition.run_cons_eq_some.mp hs
    obtain ⟨hok, ht⟩ := Transition.restrict_eq_some.mp ht
    have howes : s.owes false e = false := by
      rw [owes, decide_eq_true hok]
      split <;> rfl
    obtain ⟨howed, hrun⟩ := ih hs
    refine ⟨?_, Transition.run_cons_eq_some.mpr ⟨t, ht, hrun⟩⟩
    rw [overdue, ht, howes]
    exact howed

/-- If no flush completes a quorum, a leader that nothing is going on at has committed
whatever it can. -/
theorem committable_is_committed (codec : CommandCodec) (n : Node) (events : List Event) (s : Leading)
    (hn : n.InOrder) (hstate : n.state ≠ .leader)
    (hrun : Transition.run (Transition.restrict Superfluous (step codec)) { node := n } events = some s)
    (hleader : s.node.state = .leader) (hidle : s.proposing = none) (i : Nat)
    (hterm : s.node.termAtLogicalIndex i = .ok s.node.currentTerm)
    (hquorum : quorumSize s.node.config.peers ≤ s.node.matched i) : i ≤ s.node.commitIndex := by
  obtain ⟨howed, hrun⟩ := overdue_of_superfluous hrun
  have hinv := (Inv.start hn hstate).run hrun
  by_contra hlt
  have hless := hinv.settled hleader howed i (by omega) (by rw [hidle]; simp) hterm
  omega

/-- `A` of three nodes. -/
def proposerConfig : Config := { nodeId := "A", peers := ["B", "C"] }

/-- `A` is elected and commits its first entry with `B`. -/
def electedAndCommitted : List Event :=
  [.becomeLeader, .dispatch "B", .deliver 0 (some { term := 1, success := true, matchIndex := 1 })]

/-- `B` acknowledges the second entry before it is on the disk of `A`. -/
def acknowledgedFirst : List Event :=
  [.append {}, .dispatch "B", .deliver 0 (some { term := 1, success := true, matchIndex := 2 }), .flush]

/-- So does `C` here, and its acknowledgement comes behind the flush. -/
def acknowledgedAgain : List Event :=
  [.append {}, .dispatch "B", .dispatch "C", .deliver 0 (some { term := 1, success := true, matchIndex := 2 }), .flush,
    .deliver 0 (some { term := 1, success := true, matchIndex := 2 })]

theorem committable_is_committed_after_second_acknowledgement :
    ∃ s, Transition.run (step sampleCodec) { node := Node.create proposerConfig {} {} none }
        (electedAndCommitted ++ acknowledgedAgain) = some s ∧
      ∀ i, s.node.termAtLogicalIndex i = .ok s.node.currentTerm →
        quorumSize s.node.config.peers ≤ s.node.matched i → i ≤ s.node.commitIndex := by
  obtain ⟨s, hrun, hleader, hidle⟩ : ∃ s, Transition.run (step sampleCodec)
        { node := Node.create proposerConfig {} {} none } (electedAndCommitted ++ acknowledgedAgain) = some s ∧
      s.node.state = .leader ∧ s.proposing = none :=
    ⟨_, rfl, rfl, rfl⟩
  refine ⟨s, hrun, (committable_is_committed_iff sampleCodec _ _ s ?_ (by decide) hrun hleader hidle).mpr (by decide)⟩
  exact ⟨.empty, .empty 0, le_rfl, le_rfl, Nat.zero_le _, fun t ht => by cases ht⟩

/-- Nothing is going on any more, both `A` and `B` have the second entry, and it is not
committed. `B` gets no further request. -/
theorem flush_leaves_entry_uncommitted :
    ∃ s, Transition.run (step sampleCodec) { node := Node.create proposerConfig {} {} none }
        (electedAndCommitted ++ acknowledgedFirst) = some s ∧
      s.node.state = .leader ∧ s.proposing = none ∧ s.inFlight = [] ∧
      s.node.termAtLogicalIndex 2 = .ok s.node.currentTerm ∧ s.node.matched 2 = quorumSize s.node.config.peers ∧
      s.node.commitIndex = 1 ∧ s.node.replicatePeerOnce "B" = none :=
  ⟨_, rfl, rfl, rfl, rfl, rfl, rfl, rfl, rfl⟩

end Leading

end RaftVdb
