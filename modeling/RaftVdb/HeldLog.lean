import Mathlib.Data.List.Sort
import RaftVdb.Frame
import RaftVdb.Lib.LogRepair
import RaftVdb.LogicalLog
import RaftVdb.Splice

/-!
# The log that a node holds

A snapshot covers the front of a log, the WAL holds the rest. `Holds` relates a node to the
whole of it. The handlers of a peer are operations on that log: the check of the previous
entry compares terms, the search for a conflict finds the start of a run, the entry loop
is a merge, and a snapshot replaces the front.
-/

namespace RaftVdb

open Lib LogRepair

namespace Node

/-- The node has a log: what its snapshot covers, and what the WAL holds behind it. -/
structure Holds (n : Node) (full : List LogEntry) : Prop where
  ordered : n.log.Ordered
  anchored : Anchored n.log.entries n.lastSnapshotIndex
  last : n.logicalLastIndex = full.length
  indexed : ∀ i e, full[i]? = some e → e.index = i + 1
  covered : 0 < n.lastSnapshotIndex → n.lastSnapshotTerm ≠ 0 ∧
    termAt LogEntry.term full n.lastSnapshotIndex = some n.lastSnapshotTerm
  behind : ∀ i, n.lastSnapshotIndex ≤ i → (n.log.read (i + 1)).toOption = full[i]?

variable {n m : Node} {full : List LogEntry} {prev : Nat} {e : LogEntry} {es : List LogEntry}

theorem Holds.congr (h : n.Holds full) (hlog : m.log = n.log) (hindex : m.lastSnapshotIndex = n.lastSnapshotIndex)
    (hterm : m.lastSnapshotTerm = n.lastSnapshotTerm) : m.Holds full where
  ordered := hlog ▸ h.ordered
  anchored := by rw [hlog, hindex]; exact h.anchored
  last := by
    rw [← h.last]
    unfold logicalLastIndex
    rw [hlog, hindex]
  indexed := h.indexed
  covered := by rw [hindex, hterm]; exact h.covered
  behind := by rw [hlog, hindex]; exact h.behind

theorem Holds.of_core (h : n.Holds full) (hcore : m.core = n.core) : m.Holds full :=
  h.congr (eq_of_core Node.log (fun _ => rfl) hcore) (eq_of_core Node.lastSnapshotIndex (fun _ => rfl) hcore)
    (eq_of_core Node.lastSnapshotTerm (fun _ => rfl) hcore)

theorem Holds.snapshot_le (h : n.Holds full) : n.lastSnapshotIndex ≤ full.length := by
  rw [← h.last]
  exact Nat.le_max_left ..

theorem Holds.read (h : n.Holds full) {i : Nat} (hi : n.lastSnapshotIndex < i) :
    (n.log.read i).toOption = full[i - 1]? := by
  rw [← h.behind (i - 1) (by omega), Nat.sub_add_cancel (by omega)]

/-- An entry of the WAL behind the snapshot, or none. -/
theorem Holds.read_cases (h : n.Holds full) {i : Nat} (hi : n.lastSnapshotIndex ≤ i) :
    (∃ x, full[i]? = some x ∧ n.log.read (i + 1) = .ok x) ∨
      (full[i]? = none ∧ ∃ err, n.log.read (i + 1) = .error err) := by
  have hread := h.behind i hi
  cases hr : n.log.read (i + 1) with
  | ok x =>
    rw [hr] at hread
    exact .inl ⟨x, hread.symm, rfl⟩
  | error err =>
    rw [hr] at hread
    exact .inr ⟨hread.symm, err, rfl⟩

theorem Holds.lastIndex (h : n.Holds full) (hlt : n.lastSnapshotIndex < full.length) : n.log.lastIndex = full.length := by
  have := h.last
  unfold logicalLastIndex at this
  omega

/-- The terms that the node knows. -/
theorem Holds.termAtLogicalIndex (h : n.Holds full) {i t : Nat} (hpos : 0 < i) (hi : n.lastSnapshotIndex ≤ i)
    (ht : termAt LogEntry.term full i = some t) : n.termAtLogicalIndex i = .ok t := by
  rw [Node.termAtLogicalIndex, if_neg (by omega), if_neg (by omega)]
  split
  · next hat =>
    obtain ⟨-, hterm⟩ := h.covered hat.1
    rw [← hat.2.1, ht] at hterm
    rw [Option.some.inj hterm]
  · next hat =>
    have hlt : n.lastSnapshotIndex < i := by
      by_contra hge
      have heq : i = n.lastSnapshotIndex := by omega
      exact hat ⟨by omega, heq, (h.covered (by omega)).1⟩
    have hread := h.read hlt
    unfold termAt at ht
    rw [← hread] at ht
    rw [IndexedLog.termAt, if_neg (by omega)]
    cases hr : n.log.read i with
    | ok x =>
      rw [hr] at ht
      cases ht
      rfl
    | error err =>
      rw [hr] at ht
      cases ht

theorem Holds.conflictStart (h : n.Holds full) (t i : Nat) :
    n.conflictStart t i = runStart LogEntry.term t n.lastSnapshotIndex full i := by
  induction i with
  | zero => rfl
  | succ i ih =>
    rw [Node.conflictStart, runStart_succ, ih]
    by_cases hi : n.lastSnapshotIndex < i
    · rw [if_pos (Nat.succ_lt_succ hi)]
      simp only [hi, true_and, termAt, ← h.read hi]
      cases n.log.read i with
      | ok x =>
        by_cases hterm : x.term = t
        · simp [Except.toOption, hterm]
        · simp [Except.toOption, hterm]
      | error err => simp [Except.toOption]
    · rw [if_neg (by omega), if_neg (fun hand => hi hand.1)]

/-! ## The handler of the peer -/

theorem Holds.rejectPrev_short (h : n.Holds full) {r : AppendEntriesRequest} (hprev : full.length < r.prevLogIndex) :
    n.rejectPrev r = some { term := n.currentTerm, success := false, conflictIndex := full.length + 1 } := by
  unfold rejectPrev
  rw [h.last, if_pos hprev]

theorem Holds.rejectPrev_none (h : n.Holds full) {r : AppendEntriesRequest} (hle : r.prevLogIndex ≤ full.length)
    (hsnap : n.lastSnapshotIndex ≤ r.prevLogIndex)
    (hsame : r.prevLogIndex = 0 ∨ termAt LogEntry.term full r.prevLogIndex = some r.prevLogTerm) :
    n.rejectPrev r = none := by
  unfold rejectPrev
  rw [h.last, if_neg (by omega), if_neg (by omega)]
  split
  · rfl
  · next hpos =>
    rw [h.termAtLogicalIndex (Nat.pos_of_ne_zero hpos) hsnap (hsame.resolve_left hpos)]
    dsimp only
    rw [if_pos rfl]

theorem Holds.rejectPrev_conflict (h : n.Holds full) {r : AppendEntriesRequest} (hle : r.prevLogIndex ≤ full.length)
    (hsnap : n.lastSnapshotIndex < r.prevLogIndex) {t : Nat} (ht : termAt LogEntry.term full r.prevLogIndex = some t)
    (hdiff : t ≠ r.prevLogTerm) : n.rejectPrev r = some
      { term := n.currentTerm
        success := false
        conflictTerm := t
        conflictIndex := runStart LogEntry.term t n.lastSnapshotIndex full r.prevLogIndex } := by
  unfold rejectPrev
  rw [h.last, if_neg (by omega), if_neg (by omega), if_neg (by omega), h.termAtLogicalIndex (by omega) hsnap.le ht]
  dsimp only
  rw [if_neg hdiff, if_neg (by omega), h.conflictStart]

theorem Holds.append (h : n.Holds full) (he : e.index = full.length + 1) :
    ∃ log, n.log.append e = .ok log ∧ { n with log }.Holds (full ++ [e]) := by
  have hlast := h.last
  unfold logicalLastIndex at hlast
  have hroom : ¬ (n.log.entries ≠ [] ∧ e.index ≠ n.log.lastIndex + 1) := by
    rintro ⟨hne, hindex⟩
    have := (h.anchored.le_lastIndex h.ordered).resolve_left hne
    omega
  have happend : n.log.append e = .ok ⟨n.log.entries ++ [e], e.index⟩ := by
    rw [IndexedLog.append, if_neg hroom]
  refine ⟨_, happend, h.ordered.append happend, h.anchored.append (by omega) happend, ?_, fun i x hx => ?_, ?_,
    fun i hi => ?_⟩
  · rw [List.length_append, List.length_singleton, ← he]
    exact Nat.max_eq_right (show n.lastSnapshotIndex ≤ e.index by omega)
  · rcases Nat.lt_or_ge i full.length with hlt | hge
    · rw [List.getElem?_append_left hlt] at hx
      exact h.indexed i x hx
    · rw [List.getElem?_append_right hge, List.getElem?_singleton] at hx
      split at hx
      · cases hx
        omega
      · cases hx
  · intro hpos
    obtain ⟨hne, hterm⟩ := h.covered hpos
    refine ⟨hne, ?_⟩
    unfold termAt at hterm ⊢
    rw [List.getElem?_append_left (by have := h.snapshot_le; dsimp only at hpos ⊢; omega)]
    exact hterm
  · dsimp only at hi ⊢
    by_cases hnew : i = full.length
    · rw [hnew, ← he, (h.ordered.append happend).read_eq_ok.mpr ⟨(IndexedLog.mem_append happend).mpr (.inr rfl), rfl⟩,
        List.getElem?_append_right (Nat.le_refl _), Nat.sub_self]
      rfl
    · rw [h.ordered.read_append_of_ne happend (by omega), h.behind i hi]
      rcases Nat.lt_or_ge i full.length with hlt | hge
      · rw [List.getElem?_append_left hlt]
      · rw [List.getElem?_eq_none hge, List.getElem?_eq_none (by rw [List.length_append, List.length_singleton]; omega)]

theorem Holds.joined (h : n.Holds full) : n.log.Joined n.lastSnapshotIndex := by
  intro i hi hle
  have hlen : i ≤ full.length := by
    rw [← h.last]
    exact hle.trans (Nat.le_max_right ..)
  rcases h.read_cases (show n.lastSnapshotIndex ≤ i - 1 by omega) with ⟨x, -, hread⟩ | ⟨hnone, -⟩
  · obtain ⟨hx, hindex⟩ := IndexedLog.mem_of_read hread
    exact ⟨x, hx, by omega⟩
  · rw [List.getElem?_eq_none_iff] at hnone
    omega

theorem Holds.truncate (h : n.Holds full) (hsnap : n.lastSnapshotIndex ≤ prev) (hlt : prev < full.length) :
    ∃ log, n.log.truncateSuffix (prev + 1) = .ok log ∧ { n with log }.Holds (full.take prev) := by
  have hlast := h.lastIndex (by omega)
  have hlen : (full.take prev).length = prev := List.length_take_of_le hlt.le
  obtain ⟨x, hx, hindex⟩ := h.joined (prev + 1) (by omega) (by omega)
  obtain ⟨log, hcut⟩ : ∃ log, n.log.truncateSuffix (prev + 1) = .ok log := by
    rw [IndexedLog.truncateSuffix, if_neg (Nat.succ_ne_zero prev), if_neg]
    · exact ⟨_, rfl⟩
    · rintro (hnil | hgt)
      · exact List.ne_nil_of_mem hx hnil
      · omega
  have hend : max n.lastSnapshotIndex log.lastIndex = prev := by
    have hge := h.joined.le_truncateSuffix h.ordered hcut (Nat.lt_succ_self prev) (by omega)
    obtain ⟨-, hle | hsame⟩ := h.ordered.lastIndex_truncateSuffix hcut
    · omega
    · rw [← hsame] at hx
      have := ((h.ordered.mem_truncateSuffix hcut).mp hx).2
      omega
  refine ⟨log, hcut, h.ordered.truncateSuffix hcut, h.anchored.truncateSuffix h.ordered (by omega) hcut, ?_,
    fun i y hy => ?_, fun hpos => ?_, fun i hi => ?_⟩
  · rw [hlen]
    exact hend
  · rw [List.getElem?_take] at hy
    split at hy
    · exact h.indexed i y hy
    · cases hy
  · obtain ⟨hne, hterm⟩ := h.covered hpos
    refine ⟨hne, ?_⟩
    unfold termAt at hterm ⊢
    rw [List.getElem?_take_of_lt (by dsimp only at hpos ⊢; omega)]
    exact hterm
  · rw [List.getElem?_take]
    split
    · next hi' =>
      rw [show log.read (i + 1) = n.log.read (i + 1) from h.ordered.read_truncateSuffix_of_lt hcut (by omega)]
      exact h.behind i hi
    · next hi' =>
      rw [show log.read (i + 1) = _ from IndexedLog.read_of_forall_ne fun y hy => ?_]
      · rfl
      · have := ((h.ordered.mem_truncateSuffix hcut).mp hy).2
        omega

/-- One iteration of the entry loop is one entry of a merge. -/
theorem Holds.spliceEntry (h : n.Holds full) (hsnap : n.lastSnapshotIndex ≤ prev) (hprev : prev ≤ full.length)
    (he : e.index = prev + 1) :
    (spliceEntry n.lastSnapshotIndex n.log e).error = none ∧ ∃ full', prev + 1 ≤ full'.length ∧
      { n with log := (spliceEntry n.lastSnapshotIndex n.log e).log }.Holds full' ∧
      ∀ es, merge LogEntry.term full prev (e :: es) = merge LogEntry.term full' (prev + 1) es := by
  unfold Node.spliceEntry
  rw [if_neg (by omega), he]
  rcases h.read_cases hsnap with ⟨x, hx, hread⟩ | ⟨hnone, err, hread⟩
  · have hlt := (List.getElem?_eq_some_iff.mp hx).1
    rw [hread]
    dsimp only
    by_cases hterm : x.term = e.term
    · rw [if_pos hterm]
      refine ⟨rfl, full, hlt, h, fun es => ?_⟩
      rw [merge, hx]
      dsimp only
      rw [if_pos hterm]
    · rw [if_neg hterm]
      obtain ⟨kept, hkept, hholds⟩ := h.truncate hsnap hlt
      have hlen : (full.take prev).length = prev := List.length_take_of_le hlt.le
      obtain ⟨log, hlog, hholds'⟩ := hholds.append (e := e) (by rw [hlen, he])
      rw [hkept]
      dsimp only
      rw [show kept.append e = .ok log from hlog]
      refine ⟨rfl, full.take prev ++ [e], by rw [List.length_append, hlen]; rfl, hholds', fun es => ?_⟩
      rw [merge, hx]
      dsimp only
      rw [if_neg hterm]
  · have hlen : full.length = prev := Nat.le_antisymm (List.getElem?_eq_none_iff.mp hnone) hprev
    obtain ⟨log, hlog, hholds⟩ := h.append (e := e) (by rw [hlen, he])
    rw [hread]
    dsimp only
    rw [hlog]
    refine ⟨rfl, full ++ [e], by rw [List.length_append, hlen]; rfl, hholds, fun es => ?_⟩
    rw [merge, hnone]

/-- The entry loop is a merge. -/
theorem Holds.spliceEntries (h : n.Holds full) (hsnap : n.lastSnapshotIndex ≤ prev) (hprev : prev ≤ full.length)
    (hes : Numbered prev es) : (spliceEntries n.lastSnapshotIndex n.log es).error = none ∧
      { n with log := (spliceEntries n.lastSnapshotIndex n.log es).log }.Holds (merge LogEntry.term full prev es) := by
  induction es generalizing n full prev with
  | nil => exact ⟨rfl, h⟩
  | cons e es ih =>
    obtain ⟨hok, full', hlen, hholds, hmerge⟩ := h.spliceEntry hsnap hprev hes.head
    rw [Node.spliceEntries, hmerge]
    dsimp only
    rw [if_neg (by rw [hok]; simp)]
    exact ih hholds (hsnap.trans (Nat.le_succ prev)) hlen hes.tail

/-- A node that has noted the leader and knows its role goes on to the entry loop. -/
theorem handleAppendEntries_eq {r : AppendEntriesRequest} (hterm : n.currentTerm ≤ r.term)
    (hsender : r.senderId = r.leaderId) (hid : n.selfId ≠ "")
    (hrole : r.topology.role = "" ∨ ∃ role, parseRole r.topology.role = .ok role) :
    ∃ m, m.core = (n.noted r.term r.leaderId).core ∧ n.handleAppendEntries r =
      match m.rejectPrev r with
      | some resp => (m, .ok resp)
      | none => m.finishAppend r := by
  obtain ⟨noted, hnoted⟩ := noteLeader_ok r.leaderId hterm
  have hcore := noteLeader_eq_ok hnoted
  have hself : noted.selfId = n.selfId := by
    unfold selfId
    rw [eq_of_core Node.config (fun _ => rfl) hcore, noted_config]
  obtain ⟨m, hm⟩ : ∃ m, noted.applyTopology r.topology = .ok m := by
    unfold applyTopology
    split
    · exact ⟨_, rfl⟩
    · next hne =>
      obtain ⟨role, hparse⟩ := hrole.resolve_left hne
      rw [TopologyManager.fromProto, if_neg (by rw [hself]; exact hid), hparse]
      exact ⟨_, rfl⟩
  have hauth : m.authorizes r = true := by
    unfold authorizes
    simp only [hsender, decide_true, Bool.or_true, Bool.true_or]
  refine ⟨m, (core_applyTopology hm).trans hcore, ?_⟩
  rw [handleAppendEntries, prepareAppend, if_neg (by omega), hnoted]
  dsimp only
  rw [hm]
  dsimp only
  rw [if_pos hauth]
  cases m.rejectPrev r <;> rfl

/-- The batch of a sender, read from the WAL. -/
theorem Holds.readFrom (h : n.Holds full) {next maxEntries : Nat} (hnext : n.lastSnapshotIndex < next)
    (hmax : 0 < maxEntries) : n.log.readFrom next maxEntries = .ok ((full.drop (next - 1)).take maxEntries) := by
  have hlast := h.last
  unfold logicalLastIndex at hlast
  unfold IndexedLog.readFrom
  split
  · next hnone =>
    have hshort : full.length ≤ next - 1 := by
      rcases hnone with hzero | hnil | hgt
      · omega
      · have := h.joined.lastIndex_le hnil
        omega
      · omega
    rw [List.drop_eq_nil_of_le hshort, List.take_nil]
  next hsome =>
  rw [not_or, not_or] at hsome
  obtain ⟨x, hx, hindex⟩ := h.joined next hnext (by omega)
  rw [h.ordered.read_eq_ok.mpr ⟨hx, hindex⟩]
  dsimp only
  have hirrefl : Std.Irrefl fun a b : LogEntry => a.index < b.index := ⟨fun a => Nat.lt_irrefl a.index⟩
  have hsame : (n.log.entries.filter fun e => next ≤ e.index) = full.drop (next - 1) := by
    refine List.Pairwise.eq_of_mem_iff (h.ordered.sorted.filter _) ?_ fun y => ?_
    · rw [List.pairwise_iff_getElem]
      intro i j hi hj hij
      have hget : ∀ k (hk : k < (full.drop (next - 1)).length), (full.drop (next - 1))[k].index = next - 1 + k + 1 := by
        intro k hk
        refine h.indexed (next - 1 + k) _ ?_
        rw [← List.getElem?_drop, List.getElem?_eq_getElem hk]
      rw [hget i hi, hget j hj]
      omega
    · rw [List.mem_filter, decide_eq_true_eq]
      constructor
      · rintro ⟨hy, hle⟩
        refine List.mem_iff_getElem?.mpr ⟨y.index - next, ?_⟩
        rw [List.getElem?_drop, show next - 1 + (y.index - next) = y.index - 1 by omega, ← h.read (by omega),
          h.ordered.read_eq_ok.mpr ⟨hy, rfl⟩]
        rfl
      · intro hy
        obtain ⟨k, hk⟩ := List.mem_iff_getElem?.mp hy
        rw [List.getElem?_drop] at hk
        have hat := h.indexed _ _ hk
        rcases h.read_cases (show n.lastSnapshotIndex ≤ next - 1 + k by omega) with ⟨z, hz, hread⟩ | ⟨hnone, -⟩
        · rw [hk] at hz
          cases hz
          exact ⟨(IndexedLog.mem_of_read hread).1, by omega⟩
        · rw [hk] at hnone
          cases hnone
  rw [hsame]

/-- A snapshot takes the place of the log up to its index. -/
theorem Holds.install (h : n.Holds full) {l : List LogEntry} {b keepFrom : Nat} (hb : n.lastSnapshotIndex < b)
    (hl : b ≤ l.length) (hindexed : ∀ i e, l[i]? = some e → e.index = i + 1)
    (hterm : m.lastSnapshotTerm ≠ 0 ∧ termAt LogEntry.term l b = some m.lastSnapshotTerm)
    (hlog : m.log = n.log.truncateBefore (b + 1) keepFrom) (hindex : m.lastSnapshotIndex = b) :
    m.Holds (l.take b ++ full.drop b) := by
  have hlen : (l.take b).length = b := List.length_take_of_le hl
  have hafter : ∀ i, b ≤ i → (l.take b ++ full.drop b)[i]? = full[i]? := by
    intro i hi
    rw [List.getElem?_append_right (by omega), hlen, List.getElem?_drop, Nat.add_sub_cancel' hi]
  have hordered := h.ordered.truncateBefore (b + 1) keepFrom
  refine ⟨hlog ▸ hordered, ?_, ?_, fun i e he => ?_, fun hpos => ⟨hterm.1, ?_⟩, fun i hi => ?_⟩
  · rw [hlog, hindex]
    exact Anchored.truncateBefore_of_le (Nat.le_succ b) keepFrom
  · have hlast := h.last
    unfold logicalLastIndex at hlast ⊢
    rw [List.length_append, hlen, List.length_drop, hlog, hindex]
    have hle := h.ordered.lastIndex_truncateBefore (b + 1) keepFrom
    have hge := (h.joined.of_le hb.le).le_truncateBefore h.ordered (Nat.le_refl (b + 1)) keepFrom
      (Nat.le_refl (max b n.log.lastIndex))
    omega
  · rcases Nat.lt_or_ge i b with hlt | hge
    · rw [List.getElem?_append_left (by omega), List.getElem?_take_of_lt hlt] at he
      exact hindexed i e he
    · rw [hafter i hge] at he
      exact h.indexed i e he
  · rw [hindex, ← hterm.2]
    unfold termAt
    rw [List.getElem?_append_left (by omega), List.getElem?_take_of_lt (by omega)]
  · rw [hindex] at hi
    rw [hafter i hi, ← h.behind i (by omega), hlog]
    congr 1
    refine IndexedLog.read_congr hordered.sorted h.ordered.sorted fun x hx => ?_
    exact h.ordered.mem_truncateBefore keepFrom (by omega)

theorem handleInstallSnapshot_eq {r : InstallSnapshotRequest} (keepFrom : Nat) (hpos : 0 < r.leaderTerm)
    (hterm : n.currentTerm ≤ r.leaderTerm) (hdedup : ∀ row ∈ r.snapshot.dedup, row.1 ≠ "") :
    ∃ m, n.handleInstallSnapshot r true keepFrom = (m, .ok ⟨r.leaderTerm, true⟩) ∧ m.currentTerm = r.leaderTerm ∧
      m.config = n.config ∧ m.log = n.log.truncateBefore (r.snapshot.raftIndex + 1) keepFrom ∧
      m.lastSnapshotIndex = r.snapshot.raftIndex ∧ m.lastSnapshotTerm = r.snapshot.raftTerm := by
  have hload : ∀ t : DedupTable, ∃ t', t.loadFrom r.snapshot.dedup = .ok t' := by
    intro t
    rw [DedupTable.loadFrom, if_neg]
    · exact ⟨_, rfl⟩
    · simp only [List.any_eq_true, decide_eq_true_eq, not_exists, not_and]
      exact hdedup
  have hfollow : ∃ k, (if r.leaderTerm > n.currentTerm ∨ n.state ≠ .follower then n.becomeFollower r.leaderTerm else .ok n) =
      .ok k ∧ k.currentTerm = r.leaderTerm ∧ k.config = n.config ∧ k.log = n.log := by
    split
    · obtain ⟨k, hk⟩ := becomeFollower_ok "" hterm
      have hcore := (becomeFollower_eq_ok hk).2.1
      exact ⟨k, hk, eq_of_core Node.currentTerm (fun _ => rfl) hcore,
        show k.config = (n.followed r.leaderTerm "").config from eq_of_core Node.config (fun _ => rfl) hcore,
        show k.log = (n.followed r.leaderTerm "").log from eq_of_core Node.log (fun _ => rfl) hcore⟩
    · next hsame => exact ⟨n, rfl, by omega, rfl, rfl⟩
  obtain ⟨k, hk, hkterm, hkconfig, hklog⟩ := hfollow
  obtain ⟨dedup, hload⟩ := hload k.dedup
  rw [handleInstallSnapshot, if_neg (Nat.ne_of_gt hpos), if_neg (by omega), hk]
  dsimp only
  rw [if_neg (by simp), applyInstalledSnapshot]
  dsimp only
  rw [hload]
  dsimp only
  refine ⟨_, Prod.ext rfl ?_, hkterm, hkconfig, ?_, rfl, rfl⟩
  · dsimp only
    rw [hkterm]
  · dsimp only
    rw [hklog]

end Node

end RaftVdb
