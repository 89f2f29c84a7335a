import RaftVdb.Cluster
import RaftVdb.DedupHistory

/-!
# Pending records in the window of the committed ones

A leader tracks the requests it has proposed in the table in which every node records what
it has applied. Two nodes that apply the same entries have the same committed records as
long as no record gives way at the leader that stays at the other node.
-/

namespace RaftVdb

open Lib

namespace DedupTable

/-- The request whose record makes room for an insertion: that of the oldest pair in the
queue that stands for a record. -/
def givesWay (t : DedupTable) (requestId : String) (entry : DedupEntry) : Option String :=
  if (t.table.insert requestId entry).size ≤ t.windowSize then none
  else ((t.orderQueue ++ [(entry.logIndex, requestId)]).find? (current (t.table.insert requestId entry))).map Prod.snd

/-- One row too many: the loop removes that of the first current pair and stops. -/
theorem evictLoop_one {w : Nat} {table : Table String DedupEntry} (hsize : table.size = w + 1)
    (queue : List (Nat × String)) (hqueued : ∃ pair ∈ queue, current table pair = true) :
    ∃ pair, queue.find? (current table) = some pair ∧ (evictLoop w table queue).1 = table.erase pair.2 := by
  induction queue with
  | nil => exact absurd hqueued (by simp)
  | cons pair rest ih =>
    rw [evictLoop, if_neg (by omega)]
    by_cases hcurrent : current table pair = true
    · refine ⟨pair, List.find?_cons_of_pos hcurrent, ?_⟩
      have hfind : (table.find? pair.2).map DedupEntry.logIndex = some pair.1 := by simpa [current] using hcurrent
      have hkey : pair.2 ∈ table.keys := by
        rw [← Table.find?_isSome]
        cases hrow : table.find? pair.2 with
        | none =>
          rw [hrow] at hfind
          cases hfind
        | some e => rfl
      have hfits := Table.size_erase hkey
      rw [if_pos hfind, evictLoop_of_size_le (by omega)]
    · have hstale : ¬ (table.find? pair.2).map DedupEntry.logIndex = some pair.1 := by simpa [current] using hcurrent
      obtain ⟨found, hfound, herased⟩ := ih (by
        obtain ⟨p, hp, hcur⟩ := hqueued
        cases List.mem_cons.mp hp with
        | inl heq =>
          rw [heq] at hcur
          exact absurd hcur hcurrent
        | inr hrest => exact ⟨p, hrest, hcur⟩)
      refine ⟨found, ?_, ?_⟩
      · rw [List.find?_cons_of_neg hcurrent]
        exact hfound
      · rw [if_neg hstale]
        exact herased

variable {t : DedupTable} {requestId x : String} {entry e : DedupEntry}

/-- An insertion writes its record, and one record gives way if the window is full. -/
theorem Bounded.find?_insertOrUpdate_eq (h : t.Bounded) (requestId x : String) (entry : DedupEntry) :
    (t.insertOrUpdate requestId entry).table.find? x =
      if t.givesWay requestId entry = some x then none else (t.table.insert requestId entry).find? x := by
  unfold DedupTable.insertOrUpdate givesWay
  by_cases hfits : (t.table.insert requestId entry).size ≤ t.windowSize
  · simp [hfits, evictLoop_of_size_le hfits]
  · have hsize : (t.table.insert requestId entry).size = t.windowSize + 1 := by
      have hle := h.size_le
      rw [Table.size_insert] at hfits ⊢
      split_ifs at hfits ⊢ <;> omega
    have hqueued : ∃ pair ∈ t.orderQueue ++ [(entry.logIndex, requestId)],
        current (t.table.insert requestId entry) pair = true := by
      refine ⟨(entry.logIndex, requestId), by simp, ?_⟩
      simp [current, Table.find?_insert]
    obtain ⟨pair, hfind, herased⟩ := evictLoop_one hsize _ hqueued
    simp only [hfits, if_false, herased, hfind, Option.map_some, Option.some.injEq, Table.find?_erase_eq]
    simp only [eq_comm]

/-- What gives way was a record of the table, or the new one. -/
theorem find?_of_givesWay (h : t.givesWay requestId entry = some x) :
    ∃ e, (t.table.insert requestId entry).find? x = some e := by
  unfold givesWay at h
  split at h
  · cases h
  · obtain ⟨pair, hpair, rfl⟩ := Option.map_eq_some_iff.mp h
    have hcurrent := List.find?_some hpair
    simp only [current, decide_eq_true_eq] at hcurrent
    cases hrow : (t.table.insert requestId entry).find? pair.2 with
    | none =>
      rw [hrow] at hcurrent
      cases hcurrent
    | some e => exact ⟨e, rfl⟩

/-- A full window gives way. -/
theorem givesWay_of_full (t : DedupTable) (requestId : String) (entry : DedupEntry)
    (h : ¬ (t.table.insert requestId entry).size ≤ t.windowSize) : ∃ x, t.givesWay requestId entry = some x := by
  have hcurrent : current (t.table.insert requestId entry) (entry.logIndex, requestId) = true := by
    simp [current, Table.find?_insert]
  rw [givesWay, if_neg h]
  cases hfind : (t.orderQueue ++ [(entry.logIndex, requestId)]).find? (current (t.table.insert requestId entry)) with
  | none => exact absurd hcurrent (List.find?_eq_none.mp hfind _ (by simp))
  | some pair => exact ⟨pair.2, rfl⟩

theorem check_eq_committed : t.check x = .alreadyCommitted e ↔ t.table.find? x = some e ∧ e.committed = true := by
  unfold check
  cases t.table.find? x with
  | none => simp
  | some r =>
    dsimp only
    by_cases hcommitted : r.committed = true
    · rw [if_pos hcommitted]
      constructor
      · intro h
        cases h
        exact ⟨rfl, hcommitted⟩
      · intro ⟨h, _⟩
        cases h
        rfl
    · rw [if_neg hcommitted]
      refine iff_of_false (fun h => by cases h) ?_
      intro ⟨h, hyes⟩
      cases h
      exact hcommitted hyes

/-- The same requests are known to be committed, with the same outcome. -/
def SameAnswers (t u : DedupTable) : Prop :=
  ∀ requestId e, t.check requestId = .alreadyCommitted e ↔ u.check requestId = .alreadyCommitted e

/-- What gives way is pending, unless it gives way elsewhere too. -/
def Spares (t : DedupTable) (requestId : String) (entry : DedupEntry) (elsewhere : Option String) : Prop :=
  ∀ x ∈ t.givesWay requestId entry, elsewhere = some x ∨
    ∃ r ∈ (t.table.insert requestId entry).find? x, r.committed = false

instance (t : DedupTable) (requestId : String) (entry : DedupEntry) (elsewhere : Option String) :
    Decidable (t.Spares requestId entry elsewhere) :=
  inferInstanceAs (Decidable (∀ x ∈ t.givesWay requestId entry, _))

/-- A table without pending records. -/
def Settled (t : DedupTable) : Prop := ∀ id e, t.table.find? id = some e → e.committed = true

variable {u : DedupTable}

theorem Bounded.committed_insertOrUpdate (h : t.Bounded) :
    (t.insertOrUpdate requestId entry).check x = .alreadyCommitted e ↔
      t.givesWay requestId entry ≠ some x ∧ (t.table.insert requestId entry).find? x = some e ∧ e.committed = true := by
  rw [check_eq_committed, h.find?_insertOrUpdate_eq]
  split
  · next hgone => simp [hgone]
  · next hstays => simp [hstays]

theorem Bounded.settled (h : t.Bounded) (ht : t.Settled) (hentry : entry.committed = true) :
    (t.insertOrUpdate requestId entry).Settled := by
  intro id e he
  rw [h.find?_insertOrUpdate_eq] at he
  split at he
  · cases he
  · rw [Table.find?_insert] at he
    split at he
    · cases he
      exact hentry
    · exact ht id e he

/-- A pending record leaves the answers alone exactly if a pending one gives way to it. -/
theorem SameAnswers.track_iff (hsame : SameAnswers t u) (h : t.Bounded) (hfresh : t.table.find? requestId = none)
    (hentry : entry.committed = false) :
    SameAnswers (t.insertOrUpdate requestId entry) u ↔ t.Spares requestId entry none := by
  have hrows : ∀ x e, (t.table.insert requestId entry).find? x = some e ∧ e.committed = true ↔
      u.check x = .alreadyCommitted e := by
    intro x e
    rw [← hsame, check_eq_committed, Table.find?_insert]
    by_cases hx : x = requestId
    · rw [if_pos hx, hx, hfresh]
      refine iff_of_false ?_ (by simp)
      intro ⟨heq, hyes⟩
      cases heq
      rw [hentry] at hyes
      cases hyes
    · rw [if_neg hx]
  constructor
  · intro hafter x hx
    obtain ⟨r, hr⟩ := find?_of_givesWay hx
    cases hcommitted : r.committed with
    | false => exact .inr ⟨r, hr, hcommitted⟩
    | true =>
      have hgone := (h.committed_insertOrUpdate).mp ((hafter x r).mpr ((hrows x r).mp ⟨hr, hcommitted⟩))
      exact absurd hx hgone.1
  · intro hspares x e
    rw [h.committed_insertOrUpdate, ← hrows]
    refine ⟨fun hnew => hnew.2, fun hold => ⟨fun hx => ?_, hold⟩⟩
    cases hspares x hx with
    | inl hnone => cases hnone
    | inr hpending =>
      obtain ⟨r, hr, hno⟩ := hpending
      rw [hold.1] at hr
      cases hr
      rw [hold.2] at hno
      cases hno

/-- With the same record inserted the answers stay the same exactly if what gives way at one
table is pending or gives way at both. -/
theorem SameAnswers.record_iff (hsame : SameAnswers t u) (ht : t.Bounded) (hu : u.Bounded) (hsettled : u.Settled)
    (hwindow : t.windowSize = u.windowSize) (hentry : entry.committed = true) :
    SameAnswers (t.insertOrUpdate requestId entry) (u.insertOrUpdate requestId entry) ↔
      t.Spares requestId entry (u.givesWay requestId entry) := by
  have hrows : ∀ x e, (t.table.insert requestId entry).find? x = some e ∧ e.committed = true ↔
      (u.table.insert requestId entry).find? x = some e ∧ e.committed = true := by
    intro x e
    rw [Table.find?_insert, Table.find?_insert]
    by_cases hx : x = requestId
    · rw [if_pos hx, if_pos hx]
    · rw [if_neg hx, if_neg hx, ← check_eq_committed, ← check_eq_committed]
      exact hsame x e
  have hcommitted : ∀ x e, (u.table.insert requestId entry).find? x = some e → e.committed = true := by
    intro x e he
    rw [Table.find?_insert] at he
    split at he
    · cases he
      exact hentry
    · exact hsettled x e he
  constructor
  · intro hafter x hx
    obtain ⟨r, hr⟩ := find?_of_givesWay hx
    cases hyes : r.committed with
    | false => exact .inr ⟨r, hr, hyes⟩
    | true =>
      refine .inl ?_
      by_contra hstays
      have hkept := hu.committed_insertOrUpdate.mpr ⟨hstays, (hrows x r).mp ⟨hr, hyes⟩⟩
      exact (ht.committed_insertOrUpdate.mp ((hafter x r).mpr hkept)).1 hx
  · intro hspares x e
    rw [ht.committed_insertOrUpdate, hu.committed_insertOrUpdate, hrows]
    refine and_congr_left fun hrow => not_congr ⟨fun hx => ?_, fun hx => ?_⟩
    · refine (hspares x hx).resolve_right ?_
      intro ⟨r, hr, hno⟩
      rw [((hrows x e).mpr hrow).1] at hr
      cases hr
      rw [hrow.2] at hno
      cases hno
    · have hsub : ∀ k a, (u.table.insert requestId entry).find? k = some a →
          (t.table.insert requestId entry).find? k = some a := fun k a ha =>
        ((hrows k a).mpr ⟨ha, hcommitted k a ha⟩).1
      have hfull : ¬ (u.table.insert requestId entry).size ≤ u.windowSize := by
        intro hfits
        rw [givesWay, if_pos hfits] at hx
        cases hx
      have hle := Table.size_le_of_find? hsub
      have hmost : (t.table.insert requestId entry).size ≤ t.windowSize + 1 := by
        have hbound := ht.size_le
        rw [Table.size_insert]
        split_ifs <;> omega
      have heq := Table.find?_eq_of_size_le hsub (by omega)
      obtain ⟨y, hy⟩ := t.givesWay_of_full requestId entry (by omega)
      have hother := (hspares y hy).resolve_right (by
        intro ⟨r, hr, hno⟩
        rw [← heq] at hr
        rw [hcommitted y r hr] at hno
        cases hno)
      rw [hx] at hother
      cases hother
      exact hy

end DedupTable

/-! ## A leader and another node -/

/-- Two nodes that apply the same entries; the first one leads. -/
structure Twins where
  leader : Node
  follower : Node

namespace Twins

inductive Move where
  | track (requestId : String) (logIndex : Nat)
  | apply (index : Nat) (e : LogEntry) (outcome : Except String Unit)

/-- `TrackPending` of the leader, or one iteration of `ApplyCommittedEntries` at both nodes. -/
def move (codec : CommandCodec) (s : Twins) : Move → Option Twins
  | .track requestId logIndex =>
    some { s with leader := { s.leader with dedup := s.leader.dedup.trackPending requestId logIndex } }
  | .apply index e outcome => some
    { leader := s.leader.execute codec index e outcome
      follower := s.follower.execute codec index e outcome }

def SameAnswers (s : Twins) : Prop := s.leader.dedup.SameAnswers s.follower.dedup

/-- The record of an applied command. -/
def outcomeEntry (index : Nat) : Except String Unit → DedupEntry
  | .ok _ => { committed := true, success := true, logIndex := index }
  | .error err => { committed := true, error := err, logIndex := index }

/-- No committed record gives way at the leader only. -/
def Spares (codec : CommandCodec) (s : Twins) : Move → Prop
  | .track requestId logIndex =>
    requestId ≠ "" → s.leader.dedup.table.find? requestId = none →
      s.leader.dedup.Spares requestId { logIndex } none
  | .apply index e outcome => ∀ cmd ∈ e.command codec, cmd.requestId ≠ "" →
      s.leader.dedup.Spares cmd.requestId (outcomeEntry index outcome)
        (s.follower.dedup.givesWay cmd.requestId (outcomeEntry index outcome))

/-- The two tables have one window, and only that of the leader has pending records. -/
structure Paired (s : Twins) : Prop where
  leader : s.leader.dedup.Bounded
  follower : s.follower.dedup.Bounded
  settled : s.follower.dedup.Settled
  window : s.leader.dedup.windowSize = s.follower.dedup.windowSize

variable {codec : CommandCodec} {s t : Twins}

/-- An applied entry is recorded at both nodes or at none. -/
theorem dedup_execute (codec : CommandCodec) (index : Nat) (e : LogEntry) (outcome : Except String Unit) :
    ((∀ n : Node, (n.execute codec index e outcome).dedup = n.dedup) ∧ ∀ cmd ∈ e.command codec, cmd.requestId = "") ∨
    ∃ cmd, e.command codec = some cmd ∧ cmd.requestId ≠ "" ∧ ∀ n : Node,
      (n.execute codec index e outcome).dedup = n.dedup.insertOrUpdate cmd.requestId (outcomeEntry index outcome) := by
  unfold Node.execute
  cases e.command codec with
  | none => exact .inl ⟨fun _ => rfl, fun cmd hcmd => by cases hcmd⟩
  | some cmd =>
    by_cases hid : cmd.requestId = ""
    · refine .inl ⟨fun n => ?_, fun c hc => ?_⟩
      · simp [DedupTable.record, hid]
      · cases hc
        exact hid
    · refine .inr ⟨cmd, rfl, hid, fun n => ?_⟩
      cases outcome <;> simp [DedupTable.record, hid, outcomeEntry]

theorem committed_outcomeEntry (index : Nat) (outcome : Except String Unit) :
    (outcomeEntry index outcome).committed = true := by
  cases outcome <;> rfl

theorem Paired.move (h : s.Paired) {a : Move} (hs : s.move codec a = some t) : t.Paired := by
  cases a with
  | track requestId logIndex =>
    cases hs
    exact ⟨h.leader.trackPending requestId logIndex, h.follower, h.settled,
      (DedupTable.windowSize_trackPending _ _ _).trans h.window⟩
  | apply index e outcome =>
    cases hs
    cases dedup_execute codec index e outcome with
    | inl hnone =>
      have hleader := hnone.1 s.leader
      have hfollower := hnone.1 s.follower
      exact ⟨hleader ▸ h.leader, hfollower ▸ h.follower, hfollower ▸ h.settled, by rw [hleader, hfollower, h.window]⟩
    | inr hrecorded =>
      obtain ⟨cmd, -, hid, hinsert⟩ := hrecorded
      have hsettled : (s.follower.dedup.insertOrUpdate cmd.requestId (outcomeEntry index outcome)).Settled :=
        h.follower.settled h.settled (committed_outcomeEntry index outcome)
      refine ⟨?_, ?_, ?_, ?_⟩
      · rw [hinsert]
        exact h.leader.insertOrUpdate hid
      · rw [hinsert]
        exact h.follower.insertOrUpdate hid
      · rw [hinsert]
        exact hsettled
      · rw [hinsert, hinsert]
        exact h.window

theorem Paired.sameAnswers_iff (h : s.Paired) (hsame : s.SameAnswers) {a : Move} (hs : s.move codec a = some t) :
    t.SameAnswers ↔ s.Spares codec a := by
  cases a with
  | track requestId logIndex =>
    cases hs
    by_cases hid : requestId = ""
    · have hkept : s.leader.dedup.trackPending requestId logIndex = s.leader.dedup := by
        rw [DedupTable.trackPending, if_pos hid]
      simp only [SameAnswers, Spares, hkept]
      exact iff_of_true hsame fun hne => absurd hid hne
    cases hfind : s.leader.dedup.table.find? requestId with
    | some r =>
      have hkept : s.leader.dedup.trackPending requestId logIndex = s.leader.dedup := by
        rw [DedupTable.trackPending, if_neg hid, hfind]
      simp only [SameAnswers, Spares, hkept, hfind]
      exact iff_of_true hsame fun _ hnone => by cases hnone
    | none =>
      have htracked : s.leader.dedup.trackPending requestId logIndex =
          s.leader.dedup.insertOrUpdate requestId { logIndex } := by
        rw [DedupTable.trackPending, if_neg hid, hfind]
      simp only [SameAnswers, Spares, htracked]
      rw [hsame.track_iff h.leader hfind rfl]
      exact ⟨fun hspares _ _ => hspares, fun hspares => hspares hid hfind⟩
  | apply index e outcome =>
    cases hs
    cases dedup_execute codec index e outcome with
    | inl hnone =>
      obtain ⟨hkept, hids⟩ := hnone
      simp only [SameAnswers, Spares, hkept]
      exact iff_of_true hsame fun cmd hcmd hne => absurd (hids cmd hcmd) hne
    | inr hrecorded =>
      obtain ⟨cmd, hcmd, hid, hinsert⟩ := hrecorded
      simp only [SameAnswers, Spares, hinsert]
      rw [hsame.record_iff h.leader h.follower h.settled h.window (committed_outcomeEntry index outcome)]
      constructor
      · intro hspares c hc _
        rw [hcmd] at hc
        cases hc
        exact hspares
      · exact fun hspares => hspares cmd hcmd hid

/-- In every interleaving of proposals and applied entries the two nodes know the same
requests to be committed exactly when no committed record gives way at the leader only. -/
theorem committed_answers_agree_iff (codec : CommandCodec) (n m : Node) (w : Nat) (hn : n.dedup = { windowSize := w })
    (hm : m.dedup = { windowSize := w }) (moves : List Move) :
    Transition.Throughout (move codec) SameAnswers ⟨n, m⟩ moves ↔
      Transition.EachStep (move codec) (Spares codec) ⟨n, m⟩ moves := by
  have hpaired : Paired ⟨n, m⟩ := by
    refine ⟨?_, ?_, ?_, ?_⟩
    · rw [hn]
      exact .empty w
    · rw [hm]
      exact .empty w
    · rw [hm]
      exact fun id e he => by cases he
    · rw [hn, hm]
  have hsame : SameAnswers ⟨n, m⟩ := by
    rw [SameAnswers, hn, hm]
    exact fun requestId e => Iff.rfl
  refine Transition.throughout_iff (I := Paired) ?_ ?_ hpaired hsame moves
  · exact fun s a t h hs => h.move hs
  · exact fun s a t h hs ha => h.sameAnswers_iff hs ha

instance (codec : CommandCodec) (s : Twins) : (a : Move) → Decidable (s.Spares codec a)
  | .track _ _ => inferInstanceAs (Decidable (_ → _ → _))
  | .apply .. => inferInstanceAs (Decidable (∀ cmd ∈ _, _ → _))

/-- A node whose table has room for `window` records. -/
def windowed (window : Nat) : Node := Node.create { nodeId := "A", peers := ["B"], dedupWindowSize := window } {} {} none

def deletion (requestId : String) : LogEntry :=
  { type := .normal, cmdType := .delete, payload := sampleCodec.serializeDelete ⟨7, requestId⟩ }

theorem committed_answers_agree_in_order :
    Transition.Throughout (move sampleCodec) SameAnswers ⟨windowed 2, windowed 2⟩
      [.track "a" 1, .track "b" 2, .apply 1 (deletion "a") (.ok ()), .apply 2 (deletion "b") (.ok ()),
        .apply 3 (deletion "c") (.ok ())] :=
  (committed_answers_agree_iff sampleCodec (windowed 2) (windowed 2) 2 rfl rfl _).mpr (by decide +kernel)

/-- A proposal of the leader takes the only place of a committed record. -/
theorem proposal_evicts_committed_record :
    ∃ t, Transition.run (move sampleCodec) ⟨windowed 1, windowed 1⟩ [.apply 1 (deletion "a") (.ok ()), .track "b" 2] =
        some t ∧
      t.follower.dedup.check "a" = .alreadyCommitted { committed := true, success := true, logIndex := 1 } ∧
      t.leader.dedup.check "a" = .notFound :=
  ⟨_, rfl, by decide +kernel, by decide +kernel⟩

end Twins

end RaftVdb
