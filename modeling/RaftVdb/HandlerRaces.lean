import RaftVdb.Handlers
import RaftVdb.LogicalLog
import RaftVdb.Splice

/-!
# What concurrent handlers leave of an acknowledged entry

A leader counts on an entry once a call has returned success for it. A call that acts on an
old read may cut it off again, for a leader of the same term or for one that has been
replaced. If every call writes only while its term is current and cuts off only what still
conflicts, the log up to the acknowledged index stays that of the leader.
-/

namespace RaftVdb

open Lib

/-! ## Requests of leaders -/

/-- The logs of the leaders by term and index. An entry of one index and term stands behind
the same entries wherever it stands. -/
structure LeaderLogs where
  entry : Nat → Nat → Option LogEntry
  matching : ∀ T U i x y, entry T i = some x → entry U i = some y → x.term = y.term → ∀ j ≤ i, entry T j = entry U j

namespace LeaderLogs

variable (L : LeaderLogs)

/-- The entries have the indices after `p` and stand there in the log of the leader. -/
structure Slice (T p : Nat) (es : List LogEntry) : Prop where
  numbered : Node.Numbered p es
  taken : ∀ e ∈ es, L.entry T e.index = some e

/-- The request was cut out of the log of the leader of its term. -/
structure Sends (r : AppendEntriesRequest) : Prop where
  slice : L.Slice r.term r.prevLogIndex r.entries
  prev : r.prevLogIndex ≠ 0 → ∃ x, L.entry r.term r.prevLogIndex = some x ∧ x.term = r.prevLogTerm

/-- Behind the snapshot, up to an index, the log is that of the leader of a term. -/
def Agrees (T snapshotIndex : Nat) (log : IndexedLog) (k : Nat) : Prop :=
  ∀ j, snapshotIndex < j → j ≤ k → (log.read j).toOption = L.entry T j

/-- Log Matching between a log behind its snapshot and the leaders. -/
def Follows (snapshotIndex : Nat) (log : IndexedLog) : Prop :=
  ∀ T i x y, snapshotIndex < i → log.read i = .ok x → L.entry T i = some y → x.term = y.term →
    L.Agrees T snapshotIndex log i

variable {L} {T p k snapshotIndex : Nat} {log log' : IndexedLog} {e x : LogEntry} {es : List LogEntry}

theorem Slice.index (h : L.Slice T p (e :: es)) : e.index = p + 1 := h.numbered.head

theorem Slice.head (h : L.Slice T p (e :: es)) : L.entry T (p + 1) = some e := by
  rw [← h.index]
  exact h.taken e List.mem_cons_self

theorem Slice.tail (h : L.Slice T p (e :: es)) : L.Slice T (p + 1) es :=
  ⟨h.numbered.tail, fun x hx => h.taken x (List.mem_cons_of_mem e hx)⟩

theorem Agrees.of_le (h : L.Agrees T snapshotIndex log k) (hp : p ≤ k) : L.Agrees T snapshotIndex log p :=
  fun j hj hle => h j hj (hle.trans hp)

theorem Agrees.of_le_snapshot (hk : k ≤ snapshotIndex) : L.Agrees T snapshotIndex log k := fun j hj hle => by omega

/-- A log does not go beyond a conflict with the leader. -/
theorem Agrees.lt_of_conflict (h : L.Agrees T snapshotIndex log k) (hp : snapshotIndex < p)
    (hentry : L.entry T p = some e) (hread : log.read p = .ok x) (hterm : x.term ≠ e.term) : k < p := by
  by_contra hle
  have hsame := h p hp (Nat.le_of_not_lt hle)
  rw [hread, hentry] at hsame
  cases hsame
  exact hterm rfl

/-- What is cut off behind the agreement does not matter to it. -/
theorem Agrees.truncateSuffix (h : L.Agrees T snapshotIndex log k) (hordered : log.Ordered)
    (hl : log.truncateSuffix p = .ok log') (hp : k < p) : L.Agrees T snapshotIndex log' k := by
  intro j hj hle
  rw [hordered.read_truncateSuffix_of_lt hl (by omega)]
  exact h j hj hle

theorem Agrees.append (h : L.Agrees T snapshotIndex log k) (hordered : log.Ordered) (hl : log.append e = .ok log')
    (hk : k < e.index) : L.Agrees T snapshotIndex log' k := by
  intro j hj hle
  rw [hordered.read_append_of_ne hl (by omega)]
  exact h j hj hle

/-- An entry that is there already is not appended. -/
theorem Agrees.lt_of_append (h : L.Agrees T snapshotIndex log k) (hordered : log.Ordered) (hl : log.append e = .ok log')
    (hp : snapshotIndex < e.index) (hentry : L.entry T e.index = some e) : k < e.index := by
  by_contra hle
  have hsame := h e.index hp (Nat.le_of_not_lt hle)
  cases hread : log.read e.index with
  | error err =>
    rw [hread, hentry] at hsame
    cases hsame
  | ok x =>
    obtain ⟨hx, hindex⟩ := IndexedLog.mem_of_read hread
    have hnext := IndexedLog.index_of_append hl (List.ne_nil_of_mem hx)
    have hlast := hordered.le_last hx
    omega

/-- The next entry of the leader carries the agreement on. -/
theorem Agrees.succ (h : L.Agrees T snapshotIndex log k) (hread : log.read (k + 1) = .ok e)
    (hentry : L.entry T (k + 1) = some e) : L.Agrees T snapshotIndex log (k + 1) := by
  intro j hj hle
  rcases Nat.eq_or_lt_of_le hle with rfl | hlt
  · rw [hread, hentry]
    rfl
  · exact h j hj (by omega)

theorem Follows.truncateSuffix (h : L.Follows snapshotIndex log) (hordered : log.Ordered)
    (hl : log.truncateSuffix p = .ok log') : L.Follows snapshotIndex log' := by
  intro T i x y hi hread hentry hterm
  obtain ⟨hx, rfl⟩ := IndexedLog.mem_of_read hread
  obtain ⟨hx, hlt⟩ := (hordered.mem_truncateSuffix hl).mp hx
  have hbefore := h T x.index x y hi (hordered.read_eq_ok.mpr ⟨hx, rfl⟩) hentry hterm
  exact hbefore.truncateSuffix hordered hl hlt

/-- An entry of a leader, appended where the log agrees with that leader, agrees with
every leader that has it. -/
theorem Follows.append (h : L.Follows snapshotIndex log) (hordered : log.Ordered) (hl : log.append e = .ok log')
    (hindex : e.index = p + 1) (hentry : L.entry T (p + 1) = some e) (hagrees : L.Agrees T snapshotIndex log p) :
    L.Follows snapshotIndex log' := by
  intro U i x y hi hread hy hterm
  obtain ⟨hx, rfl⟩ := IndexedLog.mem_of_read hread
  rcases (IndexedLog.mem_append hl).mp hx with hold | rfl
  · have hlast := hordered.le_last hold
    have hnext := IndexedLog.index_of_append hl (List.ne_nil_of_mem hold)
    have hbefore := h U x.index x y hi (hordered.read_eq_ok.mpr ⟨hold, rfl⟩) hy hterm
    exact hbefore.append hordered hl (by omega)
  · rw [hindex] at hread hy ⊢
    have hsame := L.matching T U (p + 1) x y hentry hy hterm
    have hnew := (hagrees.append hordered hl (by omega)).succ hread hentry
    intro j hj hle
    rw [hnew j hj hle]
    exact hsame j hle

end LeaderLogs

namespace Node

/-- The log still has an entry of another term where the incoming one belongs. -/
def Conflicts (n : Node) (incoming : LogEntry) : Prop :=
  match n.log.read incoming.index with
  | .error _ => False
  | .ok existing => existing.term ≠ incoming.term

instance (n : Node) (incoming : LogEntry) : Decidable (n.Conflicts incoming) :=
  match h : n.log.read incoming.index with
  | .error _ => isFalse (by simp only [Conflicts, h, not_false_eq_true])
  | .ok existing => decidable_of_iff (existing.term ≠ incoming.term) (by simp only [Conflicts, h])

/-- A call that is about to write was admitted in the current term, and what it is about to
cut off still conflicts. -/
def DecisionStands (n : Node) (r : AppendEntriesRequest) : HandlerStage → Prop
  | .truncating incoming _ => n.currentTerm = r.term ∧ n.Conflicts incoming
  | .appending _ _ => n.currentTerm = r.term
  | _ => True

instance (n : Node) (r : AppendEntriesRequest) : (stage : HandlerStage) → Decidable (n.DecisionStands r stage)
  | .truncating _ _ => inferInstanceAs (Decidable (_ ∧ _))
  | .appending _ _ => inferInstanceAs (Decidable (_ = _))
  | .entered | .measuring | .comparing | .backing _ _ | .looping _ _ | .flushing | .committing | .answering
  | .returned _ => isTrue trivial

theorem Conflicts.read {n : Node} {incoming : LogEntry} (h : n.Conflicts incoming) :
    ∃ x, n.log.read incoming.index = .ok x ∧ x.term ≠ incoming.term := by
  unfold Conflicts at h
  split at h
  · exact h.elim
  · next x hread => exact ⟨x, hread, h⟩

variable (L : LeaderLogs)

/-- The log is in order and matches the logs of the leaders. -/
structure Sound (n : Node) : Prop where
  ordered : n.log.Ordered
  follows : L.Follows n.lastSnapshotIndex n.log

/-- What has been reached in a term stays reached until there is a later term. -/
structure Preserves (n n' : Node) : Prop where
  snapshot : n'.lastSnapshotIndex = n.lastSnapshotIndex
  term : n.currentTerm ≤ n'.currentTerm
  agrees : ∀ k, n'.currentTerm = n.currentTerm → L.Agrees n.currentTerm n.lastSnapshotIndex n.log k →
    L.Agrees n.currentTerm n.lastSnapshotIndex n'.log k

/-- The call has been admitted, and unless there is a later term the log is that of its
leader up to an index. -/
structure Reached (n : Node) (r : AppendEntriesRequest) (k : Nat) : Prop where
  term : r.term ≤ n.currentTerm
  agrees : n.currentTerm = r.term → L.Agrees r.term n.lastSnapshotIndex n.log k

/-- The entries of the request are in the log up to an index, and some are still to come. -/
structure Pending (n : Node) (r : AppendEntriesRequest) (p : Nat) (es : List LogEntry) : Prop where
  reached : n.Reached L r p
  slice : L.Slice r.term p es
  covers : p + es.length = r.prevLogIndex + r.entries.length

/-- What is known at a stage of a call. -/
def Standing (n : Node) (r : AppendEntriesRequest) : HandlerStage → Prop
  | .entered => True
  | .measuring | .comparing => r.term ≤ n.currentTerm
  | .backing reject _ => r.term ≤ n.currentTerm ∧ reject.success = false
  | .looping rest _ => ∃ p, n.Pending L r p rest
  | .truncating incoming rest | .appending incoming rest => ∃ p, n.lastSnapshotIndex ≤ p ∧ n.Pending L r p (incoming :: rest)
  | .flushing | .committing | .answering => n.Reached L r (r.prevLogIndex + r.entries.length)
  | .returned answer =>
    ∀ resp, answer = .ok resp → resp.success = true → n.Reached L r (r.prevLogIndex + r.entries.length)

/-- What one step of a call leaves behind. -/
structure Advanced (n n' : Node) (r : AppendEntriesRequest) (stage : HandlerStage) : Prop where
  sound : n'.Sound L
  preserves : n.Preserves L n'
  standing : n'.Standing L r stage

variable {L} {n n' : Node} {r : AppendEntriesRequest} {p : Nat} {es : List LogEntry}

theorem Preserves.of_log (hsnap : n'.lastSnapshotIndex = n.lastSnapshotIndex) (hterm : n.currentTerm ≤ n'.currentTerm)
    (hlog : n'.log = n.log) : n.Preserves L n' :=
  ⟨hsnap, hterm, fun k _ h => by rw [hlog]; exact h⟩

theorem Preserves.refl (n : Node) : n.Preserves L n := .of_log rfl le_rfl rfl

theorem Reached.preserved {k : Nat} (h : n.Reached L r k) (hp : n.Preserves L n') : n'.Reached L r k := by
  refine ⟨h.term.trans hp.term, fun hterm => ?_⟩
  have hterm' : n.currentTerm = r.term := by
    have := hp.term
    have := h.term
    omega
  have hagrees := hp.agrees k (by omega) (by rw [hterm']; exact h.agrees hterm')
  rw [hp.snapshot, ← hterm']
  exact hagrees

theorem Pending.preserved (h : n.Pending L r p es) (hp : n.Preserves L n') : n'.Pending L r p es :=
  ⟨h.reached.preserved hp, h.slice, h.covers⟩

/-- What another call does leaves a call where it stands. -/
theorem Standing.preserved {stage : HandlerStage} (h : n.Standing L r stage) (hp : n.Preserves L n') :
    n'.Standing L r stage := by
  cases stage with
  | entered => trivial
  | measuring => exact Nat.le_trans h hp.term
  | comparing => exact Nat.le_trans h hp.term
  | backing reject conflictIndex => exact ⟨h.1.trans hp.term, h.2⟩
  | looping rest appendedAny =>
    obtain ⟨p, hpending⟩ := h
    exact ⟨p, hpending.preserved hp⟩
  | truncating incoming rest =>
    obtain ⟨p, hsnap, hpending⟩ := h
    exact ⟨p, hp.snapshot ▸ hsnap, hpending.preserved hp⟩
  | appending incoming rest =>
    obtain ⟨p, hsnap, hpending⟩ := h
    exact ⟨p, hp.snapshot ▸ hsnap, hpending.preserved hp⟩
  | flushing => exact Reached.preserved h hp
  | committing => exact Reached.preserved h hp
  | answering => exact Reached.preserved h hp
  | returned answer => exact fun resp hresp hs => (h resp hresp hs).preserved hp

theorem Advanced.same {stage : HandlerStage} (h : n.Sound L) (hs : n.Standing L r stage) :
    Advanced L n n r stage := ⟨h, .refl n, hs⟩

theorem Sound.of_log (h : n.Sound L) (hsnap : n'.lastSnapshotIndex = n.lastSnapshotIndex) (hlog : n'.log = n.log) :
    n'.Sound L := ⟨hlog ▸ h.ordered, hsnap ▸ hlog ▸ h.follows⟩

/-- The term check leaves the log alone, and lets only requests of the current term pass. -/
theorem admitAppend_frame (n : Node) (r : AppendEntriesRequest) :
    (n.admitAppend r).1.log = n.log ∧ (n.admitAppend r).1.lastSnapshotIndex = n.lastSnapshotIndex ∧
      n.currentTerm ≤ (n.admitAppend r).1.currentTerm ∧
      (((n.admitAppend r).2 = .measuring ∧ r.term ≤ (n.admitAppend r).1.currentTerm) ∨
        ∃ answer, (n.admitAppend r).2 = .returned answer ∧ ∀ resp, answer = .ok resp → resp.success = false) := by
  unfold admitAppend
  split
  · refine ⟨rfl, rfl, le_rfl, .inr ⟨_, rfl, fun resp hresp => ?_⟩⟩
    cases hresp
    rfl
  next hge =>
  have hge : n.currentTerm ≤ r.term := Nat.le_of_not_lt hge
  obtain ⟨noted, hnoted⟩ := noteLeader_ok r.leaderId hge
  have hframe : ∀ {m : Node}, m.core = (n.noted r.term r.leaderId).core →
      m.log = n.log ∧ m.lastSnapshotIndex = n.lastSnapshotIndex ∧ m.currentTerm = r.term := fun hcore =>
    ⟨(eq_of_core Node.log (fun _ => rfl) hcore).trans (noted_log n r.leaderId),
      (eq_of_core Node.lastSnapshotIndex (fun _ => rfl) hcore).trans (noted_lastSnapshotIndex n r.leaderId),
      (eq_of_core Node.currentTerm (fun _ => rfl) hcore).trans (noted_currentTerm n r.leaderId hge)⟩
  have hcore := noteLeader_eq_ok hnoted
  rw [hnoted]
  dsimp only
  split
  · obtain ⟨hlog, hsnap, hterm⟩ := hframe hcore
    refine ⟨hlog, hsnap, hge.trans_eq hterm.symm, .inr ⟨_, rfl, fun resp hresp => ?_⟩⟩
    cases hresp
  · next m hm =>
    obtain ⟨hlog, hsnap, hterm⟩ := hframe ((core_applyTopology hm).trans hcore)
    split
    · exact ⟨hlog, hsnap, hge.trans_eq hterm.symm, .inl ⟨rfl, le_of_eq hterm.symm⟩⟩
    · refine ⟨hlog, hsnap, hge.trans_eq hterm.symm, .inr ⟨_, rfl, fun resp hresp => ?_⟩⟩
      cases hresp
      rfl

theorem advanced_admit (h : n.Sound L) (r : AppendEntriesRequest) :
    Advanced L n (n.admitAppend r).1 r (n.admitAppend r).2 := by
  obtain ⟨hlog, hsnap, hterm, hnext⟩ := n.admitAppend_frame r
  refine ⟨h.of_log hsnap hlog, .of_log hsnap hterm hlog, ?_⟩
  rcases hnext with ⟨hstage, hadmitted⟩ | ⟨answer, hstage, hno⟩
  · rw [hstage]
    exact hadmitted
  · rw [hstage]
    intro resp hresp hs
    rw [hno resp hresp] at hs
    cases hs

theorem pending_entries (hsends : L.Sends r) (h : n.Reached L r r.prevLogIndex) :
    n.Pending L r r.prevLogIndex r.entries := ⟨h, hsends.slice, rfl⟩

theorem standing_measurePrev (hsends : L.Sends r) (h : r.term ≤ n.currentTerm) :
    n.Standing L r (n.measurePrev r) := by
  unfold measurePrev
  dsimp only
  split
  · exact fun resp hresp hs => by
      cases hresp
      cases hs
  split
  · exact fun resp hresp hs => by
      cases hresp
      cases hs
  split
  · next hzero =>
    refine ⟨r.prevLogIndex, pending_entries hsends ⟨h, fun _ => .of_le_snapshot ?_⟩⟩
    omega
  · exact h

theorem standing_comparePrev (hsound : n.Sound L) (hsends : L.Sends r) (h : r.term ≤ n.currentTerm) :
    n.Standing L r (n.comparePrev r) := by
  unfold comparePrev
  dsimp only
  split
  · exact fun resp hresp hs => by
      cases hresp
      cases hs
  next prevTerm hterm =>
  split
  · next hsame =>
    refine ⟨r.prevLogIndex, pending_entries hsends ⟨h, fun _ => ?_⟩⟩
    rcases Nat.lt_or_ge n.lastSnapshotIndex r.prevLogIndex with hlt | hge
    · obtain ⟨y, hy, hyterm⟩ := hsends.prev (by omega)
      rw [termAtLogicalIndex, if_neg (by omega), if_neg (by omega), if_neg (by omega)] at hterm
      obtain ⟨x, hx, hxterm⟩ := IndexedLog.read_of_termAt (by omega) hterm
      exact hsound.follows r.term r.prevLogIndex x y hlt hx hy (by rw [hxterm, hyterm, hsame])
    · exact .of_le_snapshot hge
  split
  · exact fun resp hresp hs => by
      cases hresp
      cases hs
  · exact ⟨h, rfl⟩

theorem standing_backUp {reject : AppendEntriesResponse} {conflictIndex : Nat}
    (h : n.Standing L r (.backing reject conflictIndex)) : n.Standing L r (n.backUp reject conflictIndex) := by
  have hreturned : n.Standing L r (.returned (.ok { reject with conflictIndex })) := fun resp hresp hs => by
    cases hresp
    rw [h.2] at hs
    cases hs
  unfold backUp
  split
  · split
    · exact hreturned
    · split
      · exact hreturned
      · exact h
  · exact hreturned

theorem standing_readIncoming (hsound : n.Sound L) (h : n.Pending L r p es) (appendedAny : Bool) :
    n.Standing L r (n.readIncoming appendedAny es) := by
  cases es with
  | nil =>
    have hreached : n.Reached L r (r.prevLogIndex + r.entries.length) := h.covers ▸ h.reached
    rw [readIncoming]
    split
    · exact hreached
    · exact hreached
  | cons e rest =>
    have hindex := h.slice.index
    have hnext : n.Reached L r (p + 1) → ∃ p, n.Pending L r p rest := fun hreached =>
      ⟨p + 1, hreached, h.slice.tail, by rw [← h.covers, List.length_cons]; omega⟩
    rw [readIncoming]
    split
    · exact hnext ⟨h.reached.term, fun _ => .of_le_snapshot (by omega)⟩
    next hbehind =>
    split
    · exact ⟨p, by omega, h⟩
    · next existing hread =>
      split
      · next hsame =>
        refine hnext ⟨h.reached.term, fun _ => ?_⟩
        rw [hindex] at hread
        exact hsound.follows r.term (p + 1) existing e (by omega) hread h.slice.head hsame
      · exact ⟨p, by omega, h⟩

theorem advanced_truncate (hsound : n.Sound L) {incoming : LogEntry} {rest : List LogEntry}
    (h : n.Standing L r (.truncating incoming rest)) (hok : n.DecisionStands r (.truncating incoming rest))
    {log : IndexedLog} (hlog : n.log.truncateSuffix incoming.index = .ok log) :
    Advanced L n { n with log } r (.appending incoming rest) := by
  obtain ⟨p, hsnap, hpending⟩ := h
  obtain ⟨hterm, hconflict⟩ := hok
  obtain ⟨x, hread, hne⟩ := hconflict.read
  have hindex := hpending.slice.index
  have hentry := hpending.slice.head
  rw [hindex] at hread hlog
  have hpreserves : n.Preserves L { n with log } := by
    refine ⟨rfl, le_rfl, fun k _ hagrees => ?_⟩
    have hlt := hagrees.lt_of_conflict (by omega) (hterm ▸ hentry) hread hne
    exact hagrees.truncateSuffix hsound.ordered hlog hlt
  exact ⟨⟨hsound.ordered.truncateSuffix hlog, hsound.follows.truncateSuffix hsound.ordered hlog⟩, hpreserves,
    p, hsnap, hpending.preserved hpreserves⟩

theorem advanced_append (hsound : n.Sound L) {incoming : LogEntry} {rest : List LogEntry}
    (h : n.Standing L r (.appending incoming rest)) (hok : n.DecisionStands r (.appending incoming rest))
    {log : IndexedLog} (hlog : n.log.append incoming = .ok log) :
    Advanced L n { n with log } r (.looping rest true) := by
  obtain ⟨p, hsnap, hpending⟩ := h
  have hterm : n.currentTerm = r.term := hok
  have hindex := hpending.slice.index
  have hentry := hpending.slice.head
  have hagrees := hpending.reached.agrees hterm
  have hread : log.read (p + 1) = .ok incoming :=
    (hsound.ordered.append hlog).read_eq_ok.mpr ⟨(IndexedLog.mem_append hlog).mpr (.inr rfl), hindex⟩
  have hpreserves : n.Preserves L { n with log } := by
    refine ⟨rfl, le_rfl, fun k _ hk => ?_⟩
    have hlt := hk.lt_of_append hsound.ordered hlog (by omega) (by rw [hindex, hterm]; exact hentry)
    exact hk.append hsound.ordered hlog hlt
  refine ⟨⟨hsound.ordered.append hlog, hsound.follows.append hsound.ordered hlog hindex hentry hagrees⟩, hpreserves,
    p + 1, ⟨?_, fun _ => ?_⟩, hpending.slice.tail, ?_⟩
  · exact hpending.reached.term
  · exact (hagrees.append hsound.ordered hlog (by omega)).succ hread hentry
  · rw [← hpending.covers, List.length_cons]
    omega

theorem core_commitAppend (n : Node) (r : AppendEntriesRequest) :
    ((n.advanceCommit r.leaderCommit).dispatchForward r).log = n.log ∧
      ((n.advanceCommit r.leaderCommit).dispatchForward r).lastSnapshotIndex = n.lastSnapshotIndex ∧
      ((n.advanceCommit r.leaderCommit).dispatchForward r).currentTerm = n.currentTerm := by
  refine ⟨?_, ?_, ?_⟩
  · exact eq_of_advance Node.log (fun _ _ => rfl) (fun _ _ => rfl) ..
  · exact eq_of_advance Node.lastSnapshotIndex (fun _ _ => rfl) (fun _ _ => rfl) ..
  · exact eq_of_advance Node.currentTerm (fun _ _ => rfl) (fun _ _ => rfl) ..

/-- One step of a call whose decision stands. -/
theorem advanced_advanceAppend (hsound : n.Sound L) (hsends : L.Sends r) {stage stage' : HandlerStage}
    (h : n.Standing L r stage) (hok : n.DecisionStands r stage) (hstep : n.advanceAppend r stage = some (n', stage')) :
    Advanced L n n' r stage' := by
  cases stage with
  | entered =>
    have hadvanced := advanced_admit hsound r
    rw [Option.some.inj hstep] at hadvanced
    exact hadvanced
  | measuring =>
    cases hstep
    exact .same hsound (standing_measurePrev hsends h)
  | comparing =>
    cases hstep
    exact .same hsound (standing_comparePrev hsound hsends h)
  | backing reject conflictIndex =>
    cases hstep
    exact .same hsound (standing_backUp h)
  | looping rest appendedAny =>
    cases hstep
    obtain ⟨p, hpending⟩ := h
    exact .same hsound (standing_readIncoming hsound hpending appendedAny)
  | truncating incoming rest =>
    simp only [advanceAppend] at hstep
    split at hstep
    · cases hstep
      exact .same hsound fun resp hresp => by cases hresp
    · next log hlog =>
      cases hstep
      exact advanced_truncate hsound h hok hlog
  | appending incoming rest =>
    simp only [advanceAppend] at hstep
    split at hstep
    · cases hstep
      exact .same hsound fun resp hresp => by cases hresp
    · next log hlog =>
      cases hstep
      exact advanced_append hsound h hok hlog
  | flushing =>
    cases hstep
    exact .same hsound h
  | committing =>
    cases hstep
    obtain ⟨hlog, hsnap, hterm⟩ := core_commitAppend n r
    have hpreserves := Preserves.of_log (L := L) hsnap (le_of_eq hterm.symm) hlog
    exact ⟨hsound.of_log hsnap hlog, hpreserves, Reached.preserved h hpreserves⟩
  | answering =>
    cases hstep
    exact .same hsound fun resp hresp hs => h
  | returned answer => cases hstep

/-- The entries that a call of the current term has reached stay as they are under the
writes of that term. -/
theorem read_advanceAppend (hsound : n.Sound L) {stage stage' : HandlerStage}
    (h : n.Standing L r stage) (hok : n.DecisionStands r stage) (hstep : n.advanceAppend r stage = some (n', stage'))
    {q : AppendEntriesRequest} {k : Nat} (hreached : n.Reached L q k) (hterm : r.term ≤ q.term) {j : Nat} (hj : j ≤ k) :
    n'.log.read j = n.log.read j := by
  cases stage with
  | truncating incoming rest =>
    simp only [advanceAppend] at hstep
    split at hstep
    · cases hstep
      rfl
    · next log hlog =>
      cases hstep
      obtain ⟨p, hsnap, hpending⟩ := h
      obtain ⟨x, hread, hne⟩ := hok.2.read
      have hcurrent : n.currentTerm = q.term := by
        have := hreached.term
        have := hok.1
        omega
      have hentry := hpending.slice.head
      rw [← hok.1, hcurrent] at hentry
      rw [hpending.slice.index] at hread hlog
      have hlt := (hreached.agrees hcurrent).lt_of_conflict (by omega) hentry hread hne
      exact hsound.ordered.read_truncateSuffix_of_lt hlog (by omega)
  | appending incoming rest =>
    simp only [advanceAppend] at hstep
    split at hstep
    · cases hstep
      rfl
    · next log hlog =>
      cases hstep
      obtain ⟨p, hsnap, hpending⟩ := h
      have hok : n.currentTerm = r.term := hok
      have hcurrent : n.currentTerm = q.term := by
        have := hreached.term
        omega
      have hindex := hpending.slice.index
      have hentry := hpending.slice.head
      rw [← hok, hcurrent, ← hindex] at hentry
      have hlt := (hreached.agrees hcurrent).lt_of_append hsound.ordered hlog (by omega) hentry
      exact hsound.ordered.read_append_of_ne hlog (by omega)
  | entered =>
    have hlog := (n.admitAppend_frame r).1
    rw [Option.some.inj hstep] at hlog
    rw [hlog]
  | committing =>
    cases hstep
    rw [(core_commitAppend n r).1]
  | returned answer => cases hstep
  | measuring | comparing | backing | looping | flushing | answering =>
    cases hstep
    rfl

end Node

namespace Follower

variable {L : LeaderLogs} {s s' : Follower}

/-- The call whose turn it is writes only what it would decide on now. -/
def DecisionsStand (s : Follower) : FollowerAction → Prop
  | .arrive _ => True
  | .advance i => ∀ call ∈ s.calls[i]?, s.node.DecisionStands call.request call.stage

instance (s : Follower) : (a : FollowerAction) → Decidable (s.DecisionsStand a)
  | .arrive _ => isTrue trivial
  | .advance i => inferInstanceAs (Decidable (∀ call ∈ s.calls[i]?, _))

structure Inv (L : LeaderLogs) (s : Follower) : Prop where
  sound : s.node.Sound L
  sends : ∀ call ∈ s.calls, L.Sends call.request
  standing : ∀ call ∈ s.calls, s.node.Standing L call.request call.stage

theorem step_advance {i : Nat} (h : s.step (.advance i) = some s') :
    ∃ call node stage, s.calls[i]? = some call ∧ s.node.advanceAppend call.request call.stage = some (node, stage) ∧
      s' = { node, calls := s.calls.set i { call with stage } } := by
  obtain ⟨call, hcall, hnext⟩ := Option.bind_eq_some_iff.mp h
  obtain ⟨⟨node, stage⟩, hadvance, rfl⟩ := Option.map_eq_some_iff.mp hnext
  exact ⟨call, node, stage, hcall, hadvance, rfl⟩

theorem Inv.step {a : FollowerAction} (hI : Inv L s) (harrive : ∀ r, a = .arrive r → L.Sends r)
    (hok : s.DecisionsStand a) (h : s.step a = some s') : Inv L s' := by
  cases a with
  | arrive r =>
    cases h
    refine ⟨hI.sound, fun call hcall => ?_, fun call hcall => ?_⟩
    · rcases List.mem_append.mp hcall with hold | hnew
      · exact hI.sends call hold
      · rw [List.mem_singleton.mp hnew]
        exact harrive r rfl
    · rcases List.mem_append.mp hcall with hold | hnew
      · exact hI.standing call hold
      · rw [List.mem_singleton.mp hnew]
        trivial
  | advance i =>
    obtain ⟨call, node, stage, hcall, hadvance, rfl⟩ := step_advance h
    have hmem : call ∈ s.calls := List.mem_of_getElem? hcall
    have hadvanced := Node.advanced_advanceAppend hI.sound (hI.sends call hmem) (hI.standing call hmem) (hok call hcall)
      hadvance
    refine ⟨hadvanced.sound, fun other hother => ?_, fun other hother => ?_⟩
    · rcases List.mem_or_eq_of_mem_set hother with hold | rfl
      · exact hI.sends other hold
      · exact hI.sends call hmem
    · rcases List.mem_or_eq_of_mem_set hother with hold | rfl
      · exact (hI.standing other hold).preserved hadvanced.preserves
      · exact hadvanced.standing

theorem inv_run {n : Node} {schedule : List FollowerAction} (hn : n.Sound L)
    (harrive : ∀ r, .arrive r ∈ schedule → L.Sends r)
    (h : Transition.run (Transition.restrict DecisionsStand step) ⟨n, []⟩ schedule = some s) : Inv L s := by
  refine Transition.run_invariant_of_mem (Inv L) (fun a ha u v hI hstep => ?_) ⟨hn, by simp, by simp⟩ h
  obtain ⟨hok, hstep⟩ := Transition.restrict_eq_some.mp hstep
  exact hI.step (fun r heq => harrive r (heq ▸ ha)) hok hstep

/-- A call has returned success for a request. -/
def Acknowledged (s : Follower) (r : AppendEntriesRequest) : Prop :=
  ∃ call ∈ s.calls, call.request = r ∧ ∃ resp, call.stage = .returned (.ok resp) ∧ resp.success = true

/-- If every call writes only what it would decide on now, then what was acknowledged to a
leader stays as it is under the steps of calls for this and for earlier terms. -/
theorem acknowledged_survives (L : LeaderLogs) (n : Node) (hn : n.Sound L) (schedule : List FollowerAction)
    (harrive : ∀ r, .arrive r ∈ schedule → L.Sends r) (s : Follower)
    (hrun : Transition.run (Transition.restrict DecisionsStand step) ⟨n, []⟩ schedule = some s)
    (r : AppendEntriesRequest) (hack : s.Acknowledged r) (k : Nat) (hk : k ≤ r.prevLogIndex + r.entries.length)
    (i : Nat) (call : HandlerCall) (hcall : s.calls[i]? = some call) (hterm : call.request.term ≤ r.term) (s' : Follower)
    (hstep : Transition.restrict DecisionsStand step s (.advance i) = some s') :
    s'.node.log.read k = s.node.log.read k := by
  have hI := inv_run hn harrive hrun
  obtain ⟨hok, hstep⟩ := Transition.restrict_eq_some.mp hstep
  obtain ⟨acked, hacked, rfl, resp, hstage, hsuccess⟩ := hack
  have hreached := hI.standing acked hacked
  rw [hstage] at hreached
  obtain ⟨call', node, stage, hcall', hadvance, rfl⟩ := step_advance hstep
  rw [hcall] at hcall'
  cases hcall'
  exact Node.read_advanceAppend hI.sound (hI.standing call (List.mem_of_getElem? hcall)) (hok call hcall) hadvance
    (hreached resp rfl hsuccess) hterm hk

/-- The leader of term 1 has written one entry, that of term 2 two. -/
def twoLeaders : LeaderLogs where
  entry T i := if 0 < i ∧ i ≤ T ∧ T ≤ 2 then some { index := i, term := T } else none
  matching T U i x y hx hy hterm j _ := by
    obtain ⟨-, hx⟩ := Option.ite_none_right_eq_some.mp hx
    obtain ⟨-, hy⟩ := Option.ite_none_right_eq_some.mp hy
    cases hx
    cases hy
    cases hterm
    rfl

/-- A follower with a log. -/
def holding (entries : List LogEntry) : Node :=
  { Node.create { nodeId := "B", peers := ["A", "C"] } {} {} none with log := ⟨entries, entries.length⟩ }

/-- The first entries of the leader of a term. -/
def firstEntries (term count : Nat) : AppendEntriesRequest :=
  { term
    leaderId := "A"
    prevLogIndex := 0
    prevLogTerm := 0
    entries := (List.range count).map fun i => { index := i + 1, term }
    leaderCommit := 0 }

theorem sound_empty : (holding []).Sound twoLeaders :=
  ⟨.empty, fun T i x y _ hread => by cases hread⟩

theorem sound_first : (holding [{ index := 1, term := 1 }]).Sound twoLeaders := by
  refine ⟨⟨List.pairwise_singleton _ _, fun e he => ?_⟩, fun T i x y _ hread hentry hterm j hj hle => ?_⟩
  · cases he
    rfl
  · obtain ⟨hx, rfl⟩ := IndexedLog.mem_of_read hread
    obtain rfl := List.mem_singleton.mp hx
    obtain ⟨-, hentry⟩ := Option.ite_none_right_eq_some.mp hentry
    cases hentry
    obtain rfl : 1 = T := hterm
    obtain rfl : j = 1 := by
      have : j ≤ 1 := hle
      omega
    rfl

theorem sends_firstEntries {term count : Nat} (hcount : count ≤ term) (hterm : term ≤ 2) :
    twoLeaders.Sends (firstEntries term count) := by
  refine ⟨⟨fun i e he => ?_, fun e he => ?_⟩, fun h => (h rfl).elim⟩
  · obtain ⟨j, hj, rfl⟩ := Option.map_eq_some_iff.mp ((List.getElem?_map ..).symm.trans he)
    obtain ⟨hlt, rfl⟩ := List.getElem?_eq_some_iff.mp hj
    simp [firstEntries]
  · obtain ⟨j, hj, rfl⟩ := List.mem_map.mp he
    have hlt := List.mem_range.mp hj
    exact if_pos ⟨Nat.succ_pos j, by simp only [firstEntries]; omega, hterm⟩

/-- `B` has acknowledged the first entry of term 2, and the call for both entries appends
the second one. -/
theorem acknowledged_survives_append :
    ∃ s s', Transition.run (Transition.restrict DecisionsStand step) ⟨holding [{ index := 1, term := 1 }], []⟩
        ([.arrive (firstEntries 2 1), .arrive (firstEntries 2 2)] ++ List.replicate 9 (.advance 0) ++
          List.replicate 4 (.advance 1)) = some s ∧
      s.Acknowledged (firstEntries 2 1) ∧
      Transition.restrict DecisionsStand step s (.advance 1) = some s' ∧
      s.node.log.lastIndex = 1 ∧ s'.node.log.lastIndex = 2 ∧ s'.node.log.read 1 = s.node.log.read 1 := by
  obtain ⟨s, s', hs, hack, hcall, hstep, hlast, hlast'⟩ : ∃ s s',
      Transition.run (Transition.restrict DecisionsStand step) ⟨holding [{ index := 1, term := 1 }], []⟩
        ([.arrive (firstEntries 2 1), .arrive (firstEntries 2 2)] ++ List.replicate 9 (.advance 0) ++
          List.replicate 4 (.advance 1)) = some s ∧
      s.Acknowledged (firstEntries 2 1) ∧ (∃ call, s.calls[1]? = some call ∧ call.request = firstEntries 2 2) ∧
      Transition.restrict DecisionsStand step s (.advance 1) = some s' ∧
      s.node.log.lastIndex = 1 ∧ s'.node.log.lastIndex = 2 :=
    ⟨_, _, rfl, ⟨_, List.mem_cons_self, rfl, _, rfl, rfl⟩, ⟨_, rfl, rfl⟩, rfl, rfl, rfl⟩
  obtain ⟨call, hcall, hrequest⟩ := hcall
  refine ⟨s, s', hs, hack, hstep, hlast, hlast', ?_⟩
  refine acknowledged_survives twoLeaders (holding [{ index := 1, term := 1 }]) sound_first _ (fun r hr => ?_) s hs
    (firstEntries 2 1) hack 1 (by decide) 1 call hcall (by rw [hrequest]; decide) s' hstep
  simp only [List.mem_append, List.mem_cons, FollowerAction.arrive.injEq, List.not_mem_nil, List.mem_replicate,
    reduceCtorEq, and_false, or_false] at hr
  rcases hr with rfl | rfl
  · exact sends_firstEntries (by decide) (by decide)
  · exact sends_firstEntries (by decide) (by decide)

/-- The acknowledged entry at an index is gone after a step of a call for another request. -/
def Loses (n : Node) (schedule : List FollowerAction) (acked other : AppendEntriesRequest) (k : Nat) : Prop :=
  ∃ s s' i call, run ⟨n, []⟩ schedule = some s ∧ s.Acknowledged acked ∧ s.calls[i]? = some call ∧
    call.request = other ∧ s.step (.advance i) = some s' ∧
    (s.node.log.read k).toOption = acked.entries[k - 1]? ∧ (s'.node.log.read k).toOption = none

/-- Two calls find the same conflict. One replaces it and is acknowledged, and then the
other one truncates too: what is gone may be of the same leader, or of a later one if the
call was admitted before. -/
theorem acknowledged_entry_is_cut_off :
    ((holding [{ index := 1, term := 1 }]).Sound twoLeaders ∧
      twoLeaders.Sends (firstEntries 2 1) ∧ twoLeaders.Sends (firstEntries 2 2) ∧
      Loses (holding [{ index := 1, term := 1 }])
        ([.arrive (firstEntries 2 1), .arrive (firstEntries 2 2)] ++ List.replicate 3 (.advance 0) ++
          List.replicate 11 (.advance 1)) (firstEntries 2 2) (firstEntries 2 1) 2) ∧
    ((holding []).Sound twoLeaders ∧ twoLeaders.Sends (firstEntries 1 1) ∧
      Loses (holding [])
        ([.arrive (firstEntries 1 1), .arrive (firstEntries 2 2)] ++ List.replicate 2 (.advance 0) ++
          List.replicate 10 (.advance 1) ++ [.advance 0]) (firstEntries 2 2) (firstEntries 1 1) 1) :=
  ⟨⟨sound_first, sends_firstEntries (by decide) (by decide), sends_firstEntries (by decide) (by decide),
      _, _, 0, _, rfl, ⟨_, List.mem_cons_of_mem _ List.mem_cons_self, rfl, _, rfl, rfl⟩, rfl, rfl, rfl, rfl, rfl⟩,
    sound_empty, sends_firstEntries (by decide) (by decide),
      _, _, 0, _, rfl, ⟨_, List.mem_cons_of_mem _ List.mem_cons_self, rfl, _, rfl, rfl⟩, rfl, rfl, rfl, rfl, rfl⟩

end Follower

end RaftVdb
