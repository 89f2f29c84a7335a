import RaftVdb.LogicalLog
import RaftVdb.Moves

/-!
# The logical log is well formed

Indices follow one another from the snapshot to the end, terms do not decrease and none is
above the current term. Every operation keeps this but one: `ApplyInstalledSnapshot` takes
over whatever the WAL has behind the installed index, without comparing terms. A WAL that
ends there, or that has the very entry the snapshot ends with, is safe.
-/

namespace RaftVdb

open Lib

/-- Indices one after the other. -/
def Consecutive (es : List LogEntry) (first : Nat) : Prop := es.map LogEntry.index = List.range' first es.length

namespace Consecutive

variable {es : List LogEntry} {first : Nat}

theorem cons_iff {e : LogEntry} : Consecutive (e :: es) first ↔ e.index = first ∧ Consecutive es (first + 1) := by
  simp [Consecutive, List.range'_succ]

theorem bounds (h : Consecutive es first) {e : LogEntry} (he : e ∈ es) :
    first ≤ e.index ∧ e.index < first + es.length := by
  have hmem : e.index ∈ List.range' first es.length := h ▸ List.mem_map_of_mem he
  exact List.mem_range'_1.mp hmem

theorem exists_mem (h : Consecutive es first) {i : Nat} (hi : first ≤ i) (hlt : i < first + es.length) :
    ∃ e ∈ es, e.index = i := by
  have hmem : i ∈ es.map LogEntry.index := h ▸ List.mem_range'_1.mpr ⟨hi, hlt⟩
  simpa using hmem

theorem concat (h : Consecutive es first) {e : LogEntry} (he : e.index = first + es.length) :
    Consecutive (es ++ [e]) first := by
  unfold Consecutive at h ⊢
  rw [List.map_append, h, List.length_append, List.length_singleton, List.range'_concat]
  simp [he]

theorem take (h : Consecutive es first) (k : Nat) : Consecutive (es.take k) first := by
  unfold Consecutive at h ⊢
  rw [List.map_take, h, List.length_take]
  rcases Nat.le_total k es.length with hk | hk
  · rw [List.take_range'_of_length_ge hk, Nat.min_eq_left hk]
  · rw [List.take_range'_of_length_le hk, Nat.min_eq_right hk]

/-- What keeps all later entries with an entry keeps the end. -/
theorem filter_up (h : Consecutive es first) {p : LogEntry → Bool}
    (hp : ∀ x ∈ es, ∀ y ∈ es, x.index ≤ y.index → p x = true → p y = true) :
    ∃ k, first ≤ k ∧ Consecutive (es.filter p) k := by
  induction es generalizing first with
  | nil => exact ⟨first, Nat.le_refl _, rfl⟩
  | cons e rest ih =>
    obtain ⟨hindex, hrest⟩ := cons_iff.mp h
    by_cases he : p e = true
    · have hall : ∀ x ∈ e :: rest, p x = true := by
        intro x hx
        have := h.bounds hx
        exact hp e List.mem_cons_self x hx (by omega) he
      rw [List.filter_eq_self.mpr hall]
      exact ⟨first, Nat.le_refl _, h⟩
    · rw [List.filter_cons_of_neg he]
      obtain ⟨k, hk, hcons⟩ := ih hrest fun x hx y hy => hp x (List.mem_cons_of_mem _ hx) y (List.mem_cons_of_mem _ hy)
      exact ⟨k, by omega, hcons⟩

/-- What keeps all earlier entries with an entry keeps the start. -/
theorem filter_down (h : Consecutive es first) {p : LogEntry → Bool}
    (hp : ∀ x ∈ es, ∀ y ∈ es, x.index ≤ y.index → p y = true → p x = true) : Consecutive (es.filter p) first := by
  induction es generalizing first with
  | nil => rfl
  | cons e rest ih =>
    obtain ⟨hindex, hrest⟩ := cons_iff.mp h
    by_cases he : p e = true
    · rw [List.filter_cons_of_pos he]
      exact cons_iff.mpr ⟨hindex, ih hrest fun x hx y hy => hp x (List.mem_cons_of_mem _ hx) y (List.mem_cons_of_mem _ hy)⟩
    · have hnone : (e :: rest).filter p = [] := by
        rw [List.filter_eq_nil_iff]
        intro x hx hpx
        have := h.bounds hx
        exact he (hp e List.mem_cons_self x hx (by omega) hpx)
      rw [hnone]
      rfl

/-- The entries from one of them on. -/
theorem filter_from (h : Consecutive es first) {x : LogEntry} (hx : x ∈ es) :
    Consecutive (es.filter fun e => x.index ≤ e.index) x.index := by
  obtain ⟨k, hk, hcons⟩ := h.filter_up (p := fun e => x.index ≤ e.index) fun y _ z _ hyz hy => by
    simp only [decide_eq_true_eq] at hy ⊢
    omega
  have hmem : x ∈ es.filter fun e => x.index ≤ e.index := by simp [hx]
  have hbounds := hcons.bounds hmem
  obtain ⟨y, hy, hindex⟩ := hcons.exists_mem (Nat.le_refl k) (by omega)
  have hge : x.index ≤ y.index := by simpa using (List.mem_filter.mp hy).2
  obtain rfl : k = x.index := by omega
  exact hcons

end Consecutive

/-- A WAL that goes with a snapshot of this index and term. -/
structure Graded (log : IndexedLog) (index term : Nat) : Prop where
  ordered : log.Ordered
  consecutive : ∃ first, 0 < first ∧ Consecutive log.entries first
  joined : log.Joined index
  rising : ∀ x ∈ log.entries, ∀ y ∈ log.entries, x.index ≤ y.index → x.term ≤ y.term
  below : ∀ x ∈ log.entries, x.index ≤ index → x.term ≤ term
  above : ∀ x ∈ log.entries, index < x.index → term ≤ x.term

namespace Graded

variable {log log' : IndexedLog} {k t : Nat}

theorem empty (k t : Nat) : Graded {} k t where
  ordered := .empty
  consecutive := ⟨1, Nat.one_pos, rfl⟩
  joined := .empty k
  rising := fun x hx => by cases hx
  below := fun x hx => by cases hx
  above := fun x hx => by cases hx

/-- A part of the WAL that ends no later. -/
theorem sub (h : Graded log k t) (hordered : log'.Ordered) (hconsecutive : ∃ first, 0 < first ∧ Consecutive log'.entries first)
    (hjoined : log'.Joined k) (hsub : ∀ x ∈ log'.entries, x ∈ log.entries) : Graded log' k t where
  ordered := hordered
  consecutive := hconsecutive
  joined := hjoined
  rising := fun x hx y hy => h.rising x (hsub x hx) y (hsub y hy)
  below := fun x hx => h.below x (hsub x hx)
  above := fun x hx => h.above x (hsub x hx)

theorem consecutive_truncateSuffix (h : Graded log k t) {index : Nat} (hl : log.truncateSuffix index = .ok log') :
    ∃ first, 0 < first ∧ Consecutive log'.entries first := by
  obtain ⟨first, hpos, hcons⟩ := h.consecutive
  unfold IndexedLog.truncateSuffix at hl
  split at hl
  · cases hl
  split at hl
  · cases hl
    exact ⟨first, hpos, hcons⟩
  · cases hl
    refine ⟨first, hpos, hcons.filter_down fun x _ y _ hxy hy => ?_⟩
    simp only [decide_eq_true_eq] at hy ⊢
    omega

theorem truncateSuffix (h : Graded log k t) {index : Nat} (hl : log.truncateSuffix index = .ok log') : Graded log' k t :=
  h.sub (h.ordered.truncateSuffix hl) (h.consecutive_truncateSuffix hl) (h.joined.truncateSuffix h.ordered hl)
    fun _ hx => ((h.ordered.mem_truncateSuffix hl).mp hx).1

theorem consecutive_truncateBefore (h : Graded log k t) (index keepFrom : Nat) :
    ∃ first, 0 < first ∧ Consecutive (log.truncateBefore index keepFrom).entries first := by
  obtain ⟨first, hpos, hcons⟩ := h.consecutive
  unfold IndexedLog.truncateBefore
  split
  · exact ⟨1, Nat.one_pos, rfl⟩
  · obtain ⟨first', hle, hcons'⟩ := hcons.filter_up
      (p := fun e => index ≤ e.index || (keepFrom ≤ e.index && log.continues e.index index)) fun x _ y _ hxy hx => by
        simp only [Bool.or_eq_true, Bool.and_eq_true, decide_eq_true_eq] at hx ⊢
        rcases hx with hx | ⟨hfrom, hcont⟩
        · exact .inl (by omega)
        · exact .inr ⟨by omega, IndexedLog.continues_mono hcont hxy⟩
    exact ⟨first', by omega, hcons'⟩

theorem truncateBefore (h : Graded log k t) {index : Nat} (hk : index ≤ k + 1) (keepFrom : Nat) :
    Graded (log.truncateBefore index keepFrom) k t :=
  h.sub (h.ordered.truncateBefore index keepFrom) (h.consecutive_truncateBefore index keepFrom)
    (h.joined.truncateBefore h.ordered hk keepFrom) fun _ hx => IndexedLog.mem_of_mem_truncateBefore hx

/-- The last index of a WAL with entries. -/
theorem lastIndex_eq (h : Graded log k t) {first : Nat} (hcons : Consecutive log.entries first) (hne : log.entries ≠ []) :
    log.lastIndex + 1 = first + log.entries.length := by
  obtain ⟨front, e, hsplit⟩ := (List.eq_nil_or_concat' log.entries).resolve_left hne
  have hlast : log.lastIndex = e.index := h.ordered.last e (by rw [hsplit, List.getLast?_concat]; rfl)
  have hmap := congrArg List.getLast? (show log.entries.map LogEntry.index = _ from hcons)
  rw [hsplit, List.map_append, List.map_singleton, List.getLast?_concat, List.length_append, List.length_singleton,
    List.range'_concat, List.getLast?_concat, Option.some.injEq] at hmap
  rw [hlast, hmap, hsplit, List.length_append, List.length_singleton]
  omega

/-- The snapshot moves to an entry of the WAL. -/
theorem rebase (h : Graded log k t) {x : LogEntry} (hx : x ∈ log.entries) : Graded log x.index x.term where
  ordered := h.ordered
  consecutive := h.consecutive
  joined := fun i hi hle => by
    obtain ⟨first, hpos, hcons⟩ := h.consecutive
    have hbounds := hcons.bounds hx
    have hlast := h.lastIndex_eq hcons (List.ne_nil_of_mem hx)
    exact hcons.exists_mem (by omega) (by omega)
  rising := h.rising
  below := fun y hy hle => h.rising y hy x hx hle
  above := fun y hy hlt => h.rising x hx y hy (Nat.le_of_lt hlt)

theorem append (h : Graded log k t) {e : LogEntry} (hl : log.append e = .ok log') (hk : k < e.index)
    (he : e.index ≤ max k log.lastIndex + 1) (hrising : ∀ x ∈ log.entries, x.term ≤ e.term) (ht : t ≤ e.term) :
    Graded log' k t := by
  have hmem := fun x => IndexedLog.mem_append (x := x) hl
  have hold : ∀ x ∈ log.entries, x.index < e.index := by
    intro x hx
    have hlast := h.ordered.le_last hx
    have hnext := IndexedLog.index_of_append hl (List.ne_nil_of_mem hx)
    omega
  refine ⟨h.ordered.append hl, ?_, h.joined.append hl he, fun x hx y hy hxy => ?_, fun x hx hle => ?_, fun x hx hlt => ?_⟩
  · rw [IndexedLog.append_eq_ok hl]
    by_cases hnil : log.entries = []
    · rw [hnil]
      exact ⟨e.index, by omega, rfl⟩
    · obtain ⟨first, hpos, hcons⟩ := h.consecutive
      have hlast := h.lastIndex_eq hcons hnil
      have hnext := IndexedLog.index_of_append hl hnil
      exact ⟨first, hpos, hcons.concat (by omega)⟩
  · rcases (hmem x).mp hx with hx | rfl
    · rcases (hmem y).mp hy with hy | rfl
      · exact h.rising x hx y hy hxy
      · exact hrising x hx
    · rcases (hmem y).mp hy with hy | rfl
      · have := hold y hy
        omega
      · exact Nat.le_refl _
  · rcases (hmem x).mp hx with hx | rfl
    · exact h.below x hx hle
    · omega
  · rcases (hmem x).mp hx with hx | rfl
    · exact h.above x hx hlt
    · exact ht

end Graded

namespace Node

/-- Entries as a sender takes them from its log. -/
structure Excerpt (r : AppendEntriesRequest) : Prop where
  numbered : Consecutive r.entries (r.prevLogIndex + 1)
  rising : r.entries.Pairwise fun a b => a.term ≤ b.term
  prev_le : ∀ e ∈ r.entries, r.prevLogTerm ≤ e.term
  bound : ∀ e ∈ r.entries, e.term ≤ r.term

/-- The entry loop keeps a log graded if the entries go on where the log agrees with the sender:
`p` is the term before the next one. -/
theorem graded_spliceEntries {k t next p : Nat} {log : IndexedLog} {es : List LogEntry} (h : Graded log k t)
    (hnumbered : Consecutive es next) (hrising : es.Pairwise fun a b => a.term ≤ b.term) (hprev : ∀ e ∈ es, p ≤ e.term)
    (hk : k < next) (hnext : next ≤ max k log.lastIndex + 1) (hfloor : ∀ x ∈ log.entries, x.index < next → x.term ≤ p)
    (ht : t ≤ p) :
    Graded (spliceEntries k log es).log k t ∧ ∀ x ∈ (spliceEntries k log es).log.entries, x ∈ log.entries ∨ x ∈ es := by
  induction es generalizing log next p with
  | nil => exact ⟨h, fun x hx => .inl hx⟩
  | cons e rest ih =>
    obtain ⟨hindex, hrest⟩ := Consecutive.cons_iff.mp hnumbered
    have hpe := hprev e List.mem_cons_self
    have hrising' := List.pairwise_cons.mp hrising
    have hstep := spliceEntry_step k h.ordered e
    rw [spliceEntries]
    dsimp only
    generalize spliceEntry k log e = first at hstep ⊢
    cases hstep with
    | covered hpos he => omega
    | present hx hxindex hterm =>
      have hlast := h.ordered.le_last hx
      obtain ⟨hgraded, hmem⟩ := ih h hrest hrising'.2 hrising'.1 (by omega) (by omega) (fun y hy hlt => by
        rw [← hterm]
        exact h.rising y hy _ hx (by omega)) (ht.trans hpe)
      exact ⟨hgraded, fun x hx => (hmem x hx).imp_right (List.mem_cons_of_mem _)⟩
    | appended hnew hfree hlog =>
      have hold : ∀ x ∈ log.entries, x.term ≤ e.term := by
        intro x hx
        have hle := h.ordered.le_last hx
        have hlast := IndexedLog.index_of_append hlog (List.ne_nil_of_mem hx)
        exact (hfloor x hx (by omega)).trans hpe
      have hlast := IndexedLog.lastIndex_append hlog
      have hgraded' := h.append hlog (by omega) (by omega) hold (ht.trans hpe)
      obtain ⟨hgraded, hmem⟩ := ih hgraded' hrest hrising'.2 hrising'.1 (by omega) (by omega) (fun y hy _ => by
        rcases (IndexedLog.mem_append hlog).mp hy with hy | rfl
        · exact hold y hy
        · exact Nat.le_refl _) (ht.trans hpe)
      refine ⟨hgraded, fun x hx => ?_⟩
      rcases hmem x hx with hx | hx
      · rcases (IndexedLog.mem_append hlog).mp hx with hx | rfl
        · exact .inl hx
        · exact .inr List.mem_cons_self
      · exact .inr (List.mem_cons_of_mem _ hx)
    | refused err => exact ⟨h, fun x hx => .inl hx⟩
    | @replaced x kept log' truncations hnew hx hxindex hterm hkept hlog =>
      have hsub : ∀ y ∈ kept.entries, y ∈ log.entries ∧ y.index < e.index :=
        fun y hy => (h.ordered.mem_truncateSuffix hkept).mp hy
      have hold : ∀ y ∈ kept.entries, y.term ≤ e.term :=
        fun y hy => (hfloor y (hsub y hy).1 (by rw [← hindex]; exact (hsub y hy).2)).trans hpe
      have hpos := IndexedLog.pos_of_truncateSuffix hkept
      have hend := h.joined.le_truncateSuffix h.ordered (c := e.index - 1) hkept (by omega) (by omega)
      have hlast := IndexedLog.lastIndex_append hlog
      have hgraded' := (h.truncateSuffix hkept).append hlog (by omega) (by omega) hold (ht.trans hpe)
      obtain ⟨hgraded, hmem⟩ := ih hgraded' hrest hrising'.2 hrising'.1 (by omega) (by omega) (fun y hy _ => by
        rcases (IndexedLog.mem_append hlog).mp hy with hy | rfl
        · exact hold y hy
        · exact Nat.le_refl _) (ht.trans hpe)
      refine ⟨hgraded, fun y hy => ?_⟩
      rcases hmem y hy with hy | hy
      · rcases (IndexedLog.mem_append hlog).mp hy with hy | rfl
        · exact .inl (hsub y hy).1
        · exact .inr List.mem_cons_self
      · exact .inr (List.mem_cons_of_mem _ hy)
    | cut err hx hxindex hterm hkept =>
      exact ⟨h.truncateSuffix hkept, fun y hy => .inl ((h.ordered.mem_truncateSuffix hkept).mp hy).1⟩

/-- The log, its snapshot and the current term of a node. -/
structure WellFormed (n : Node) : Prop where
  graded : Graded n.log n.lastSnapshotIndex n.lastSnapshotTerm
  bound : ∀ x ∈ n.log.entries, x.term ≤ n.currentTerm
  snapshot_bound : n.lastSnapshotTerm ≤ n.currentTerm
  file : ∀ s ∈ n.snapshot, 0 < s.raftIndex ∧ s.raftIndex = n.lastSnapshotIndex ∧ s.raftTerm = n.lastSnapshotTerm
  noFile : n.snapshot = none → n.lastSnapshotIndex = 0 ∧ n.lastSnapshotTerm = 0
  task : ∀ t ∈ n.snapshotTask, 0 < t.snapshotIndex

/-- What a node may learn without touching its log. -/
structure SameLog (n n' : Node) : Prop where
  term : n.currentTerm ≤ n'.currentTerm
  log : n'.log = n.log
  lastSnapshotIndex : n'.lastSnapshotIndex = n.lastSnapshotIndex
  lastSnapshotTerm : n'.lastSnapshotTerm = n.lastSnapshotTerm
  snapshot : n'.snapshot = n.snapshot
  snapshotTask : n'.snapshotTask = n.snapshotTask

variable {n n' m : Node}

theorem SameLog.refl (n : Node) : SameLog n n := ⟨Nat.le_refl _, rfl, rfl, rfl, rfl, rfl⟩

theorem SameLog.trans (h : SameLog n m) (h' : SameLog m n') : SameLog n n' :=
  ⟨h.term.trans h'.term, h'.log.trans h.log, h'.lastSnapshotIndex.trans h.lastSnapshotIndex,
    h'.lastSnapshotTerm.trans h.lastSnapshotTerm, h'.snapshot.trans h.snapshot, h'.snapshotTask.trans h.snapshotTask⟩

theorem SameLog.of_core (h : n'.core = m.core) (hm : SameLog n m) : SameLog n n' where
  term := (eq_of_core Node.currentTerm (fun _ => rfl) h).symm ▸ hm.term
  log := (eq_of_core Node.log (fun _ => rfl) h).trans hm.log
  lastSnapshotIndex := (eq_of_core Node.lastSnapshotIndex (fun _ => rfl) h).trans hm.lastSnapshotIndex
  lastSnapshotTerm := (eq_of_core Node.lastSnapshotTerm (fun _ => rfl) h).trans hm.lastSnapshotTerm
  snapshot := (eq_of_core Node.snapshot (fun _ => rfl) h).trans hm.snapshot
  snapshotTask := (eq_of_core Node.snapshotTask (fun _ => rfl) h).trans hm.snapshotTask

theorem WellFormed.same (h : n.WellFormed) (hs : SameLog n n') : n'.WellFormed := by
  obtain ⟨hterm, hlog, hindex, hsterm, hsnapshot, htask⟩ := hs
  refine ⟨?_, ?_, ?_, ?_, ?_, ?_⟩
  · rw [hlog, hindex, hsterm]
    exact h.graded
  · rw [hlog]
    exact fun x hx => (h.bound x hx).trans hterm
  · rw [hsterm]
    exact h.snapshot_bound.trans hterm
  · rw [hsnapshot, hindex, hsterm]
    exact h.file
  · rw [hsnapshot, hindex, hsterm]
    exact h.noFile
  · rw [htask]
    exact h.task

theorem sameLog_followed {term : Nat} (h : n.currentTerm ≤ term) (leaderId : String) :
    SameLog n (n.followed term leaderId) :=
  ⟨h, rfl, rfl, rfl, rfl, rfl⟩

theorem sameLog_noted {term : Nat} (h : n.currentTerm ≤ term) (leaderId : String) : SameLog n (n.noted term leaderId) := by
  unfold noted
  split
  · exact sameLog_followed h leaderId
  · exact ⟨Nat.le_refl _, rfl, rfl, rfl, rfl, rfl⟩

theorem sameLog_stepDown (n : Node) (term : Nat) : SameLog n (n.stepDown term) := by
  rcases n.stepDown_cases term with ⟨-, heq⟩ | ⟨hle, hcore, -⟩
  · rw [heq]
    exact .refl n
  · exact .of_core hcore (sameLog_followed hle "")

theorem sameLog_maybeCommit (n : Node) : SameLog n n.maybeCommit := by
  rcases n.maybeCommit_cases with heq | ⟨k, -, -, -, -, -, heq⟩
  · rw [heq]
    exact .refl n
  · rw [heq]
    exact ⟨Nat.le_refl _, rfl, rfl, rfl, rfl, rfl⟩

theorem sameLog_firstTerm (n : Node) : SameLog n n.firstTerm := by
  unfold firstTerm
  split
  · next hzero => exact ⟨by rw [hzero]; exact Nat.zero_le _, rfl, rfl, rfl, rfl, rfl⟩
  · exact .refl n

theorem sameLog_advanceCommit (n : Node) (k : Nat) : SameLog n (n.advanceCommit k) := by
  rcases n.advanceCommit_cases k with ⟨heq, -⟩ | ⟨-, heq⟩
  · rw [heq]
    exact .refl n
  · rw [heq]
    exact ⟨Nat.le_refl _, rfl, rfl, rfl, rfl, rfl⟩

theorem sameLog_dispatchForward (n : Node) (r : AppendEntriesRequest) : SameLog n (n.dispatchForward r) := by
  rcases n.dispatchForward_cases r with heq | heq
  · rw [heq]
    exact .refl n
  · rw [heq]
    exact ⟨Nat.le_refl _, rfl, rfl, rfl, rfl, rfl⟩

theorem sameLog_handleRequestVote (n : Node) (r : RequestVoteRequest) : SameLog n (n.handleRequestVote r).1 := by
  unfold handleRequestVote
  split
  · exact .refl n
  split
  · exact .refl n
  next m hm =>
  have hsame : SameLog n m := by
    split at hm
    · obtain ⟨hle, hcore, -⟩ := becomeFollower_eq_ok hm
      exact .of_core hcore (sameLog_followed hle "")
    · cases hm
      exact .refl n
  split
  · exact hsame.trans ⟨Nat.le_refl _, rfl, rfl, rfl, rfl, rfl⟩
  · exact hsame

theorem sameLog_handleHeartbeat (n : Node) (r : HeartbeatRequest) : SameLog n (n.handleHeartbeat r).1 := by
  rcases n.handleHeartbeat_cases r with ⟨-, heq⟩ | ⟨hge, m, hcore, ⟨err, heq⟩ | heq⟩
  · rw [heq]
    exact .refl n
  · rw [heq]
    exact .of_core hcore (sameLog_noted hge r.leaderId)
  · rw [heq]
    exact (SameLog.of_core hcore (sameLog_noted hge r.leaderId)).trans (sameLog_advanceCommit m _)

theorem sameLog_answers {peer : String} {request : Request} {reply : Option Response}
    (h : n.Answers peer request reply n') : SameLog n n' := by
  cases h with
  | noted hcore => exact .of_core hcore (.refl n)
  | merged _ hcore => exact .of_core hcore (.refl n)
  | committed _ _ hcore => exact (SameLog.of_core hcore (.refl n)).trans (sameLog_maybeCommit _)
  | newer hlt => exact sameLog_stepDown n _
  | counted => exact ⟨Nat.le_refl _, rfl, rfl, rfl, rfl, rfl⟩

/-- A new log of the same node. -/
theorem WellFormed.write (h : n.WellFormed) {log : IndexedLog} (hgraded : Graded log n.lastSnapshotIndex n.lastSnapshotTerm)
    (hbound : ∀ x ∈ log.entries, x.term ≤ n.currentTerm) : WellFormed { n with log } :=
  ⟨hgraded, hbound, h.snapshot_bound, h.file, h.noFile, h.task⟩

theorem WellFormed.append (h : n.WellFormed) {e : LogEntry} {log : IndexedLog}
    (hlog : n.log.append { e with index := n.logicalLastIndex + 1, term := n.currentTerm } = .ok log) :
    WellFormed { n with log } := by
  refine h.write (h.graded.append hlog ?_ ?_ h.bound h.snapshot_bound) fun x hx => ?_
  · simp only [logicalLastIndex]
    omega
  · exact Nat.le_refl _
  · rcases (IndexedLog.mem_append hlog).mp hx with hx | rfl
    · exact h.bound x hx
    · exact Nat.le_refl _

/-- A new leader writes its first entry. -/
theorem WellFormed.lead (h : n.WellFormed) {log : IndexedLog} (hlog : n.firstTerm.log.append
      { noopEntry with index := n.firstTerm.logicalLastIndex + 1, term := n.firstTerm.currentTerm } = .ok log)
    (hm : SameLog { n.firstTerm with log } m) : m.maybeCommit.WellFormed :=
  (((h.same (sameLog_firstTerm n)).append hlog).same hm).same (sameLog_maybeCommit m)

theorem WellFormed.concludes (h : n.WellFormed) {e : Election} (hc : n.Concludes e n') : n'.WellFormed := by
  cases hc with
  | idle => exact h.same ⟨Nat.le_refl _, rfl, rfl, rfl, rfl, rfl⟩
  | newer hlt =>
    have hidle : SameLog n { n with election := none } := ⟨Nat.le_refl _, rfl, rfl, rfl, rfl, rfl⟩
    exact h.same (hidle.trans (sameLog_stepDown _ _))
  | failed hstate hcore =>
    exact h.same ((sameLog_firstTerm n).trans (.of_core hcore ⟨Nat.le_refl _, rfl, rfl, rfl, rfl, rfl⟩))
  | won hstate hterm hquorum hlog hcore hmatch =>
    exact h.lead hlog (.of_core hcore ⟨Nat.le_refl _, rfl, rfl, rfl, rfl, rfl⟩)

theorem WellFormed.index_pos (h : n.WellFormed) {x : LogEntry} (hx : x ∈ n.log.entries) : 0 < x.index := by
  obtain ⟨first, hpos, hcons⟩ := h.graded.consecutive
  have := hcons.bounds hx
  omega

theorem WellFormed.term_zero (h : n.WellFormed) (hzero : n.lastSnapshotIndex = 0) : n.lastSnapshotTerm = 0 := by
  cases hs : n.snapshot with
  | none => exact (h.noFile hs).2
  | some s =>
    obtain ⟨hpos, hindex, -⟩ := h.file s hs
    omega

/-- A term that the node knows at an index lies between those of its entries before and after. -/
theorem WellFormed.termAt (h : n.WellFormed) {i term : Nat} (hterm : n.termAtLogicalIndex i = .ok term) :
    (∀ x ∈ n.log.entries, x.index ≤ i → x.term ≤ term) ∧ (∀ x ∈ n.log.entries, i < x.index → term ≤ x.term) ∧
      (n.lastSnapshotIndex ≤ i → n.lastSnapshotTerm ≤ term) := by
  unfold termAtLogicalIndex at hterm
  split at hterm
  · next hzero =>
    cases hterm
    refine ⟨fun x hx hle => ?_, fun x _ _ => Nat.zero_le _, fun hle => ?_⟩
    · have := h.index_pos hx
      omega
    · rw [h.term_zero (by omega)]
  next hpos =>
  split at hterm
  · cases hterm
  next hbehind =>
  split at hterm
  · next hat =>
    cases hterm
    rw [hat.2.1]
    exact ⟨h.graded.below, h.graded.above, fun _ => Nat.le_refl _⟩
  next hat =>
  rw [IndexedLog.termAt, if_neg hpos] at hterm
  cases hread : n.log.read i with
  | error err =>
    rw [hread] at hterm
    cases hterm
  | ok y =>
    rw [hread] at hterm
    cases hterm
    obtain ⟨hy, rfl⟩ := h.graded.ordered.read_eq_ok.mp hread
    refine ⟨fun x hx hle => h.graded.rising x hx y hy hle, fun x hx hlt => h.graded.rising y hy x hx (Nat.le_of_lt hlt),
      fun hle => ?_⟩
    rcases Nat.lt_or_ge n.lastSnapshotIndex y.index with hlt | hge
    · exact h.graded.above y hy hlt
    · have hzero : n.lastSnapshotTerm = 0 := by
        by_contra hne
        exact hat ⟨by omega, by omega, hne⟩
      rw [hzero]
      exact Nat.zero_le _

/-- What a node takes from its log is an excerpt. -/
theorem WellFormed.excerpt (h : n.WellFormed) {r : AppendEntriesRequest} (hr : n.Carries r) : Excerpt r := by
  obtain ⟨next, batch, hprev, hprevTerm, hentries, -⟩ := hr.piece
  unfold IndexedLog.readFrom at hentries
  have hnil : r.entries = [] → Excerpt r := by
    intro hnil
    refine ⟨?_, ?_, ?_, ?_⟩ <;> rw [hnil]
    · rfl
    · exact List.Pairwise.nil
    · exact fun e he => by cases he
    · exact fun e he => by cases he
  split at hentries
  · exact hnil hentries
  split at hentries
  · exact hnil hentries
  next x hread =>
  obtain ⟨hx, rfl⟩ := h.graded.ordered.read_eq_ok.mp hread
  have hentries' : r.entries = (n.log.entries.filter fun e => x.index ≤ e.index).take batch := hentries
  have hpos := h.index_pos hx
  have hmem : ∀ e ∈ r.entries, e ∈ n.log.entries ∧ x.index ≤ e.index := by
    intro e he
    rw [hentries'] at he
    simpa using List.mem_filter.mp (List.mem_of_mem_take he)
  refine ⟨?_, ?_, fun e he => ?_, fun e he => ?_⟩
  · obtain ⟨first, -, hcons⟩ := h.graded.consecutive
    rw [hentries', hprev, Nat.sub_add_cancel hpos]
    exact (hcons.filter_from hx).take batch
  · rw [hentries']
    have hsorted : n.log.entries.Pairwise fun a b => a.term ≤ b.term :=
      h.graded.ordered.sorted.imp_of_mem fun ha hb hlt => h.graded.rising _ ha _ hb (Nat.le_of_lt hlt)
    exact hsorted.sublist ((List.take_sublist _ _).trans List.filter_sublist)
  · rw [hprevTerm]
    cases hterm : n.termAtLogicalIndex (x.index - 1) with
    | error err => exact Nat.zero_le _
    | ok term => exact (h.termAt hterm).2.1 e (hmem e he).1 (by have := (hmem e he).2; omega)
  · rw [hr.term]
    exact h.bound e (hmem e he).1

theorem WellFormed.finishAppend (h : n.WellFormed) {r : AppendEntriesRequest} (hterm : n.currentTerm = r.term)
    (hprev : n.rejectPrev r = none) (hr : Excerpt r) : (n.finishAppend r).1.WellFormed := by
  obtain ⟨hbehind, hend, hknown⟩ := rejectPrev_bounds hprev
  have hagree : (∀ x ∈ n.log.entries, x.index < r.prevLogIndex + 1 → x.term ≤ r.prevLogTerm) ∧
      n.lastSnapshotTerm ≤ r.prevLogTerm := by
    rcases hknown with hzero | hknown
    · refine ⟨fun x hx hlt => ?_, ?_⟩
      · have := h.index_pos hx
        omega
      · rw [h.term_zero (by omega)]
        exact Nat.zero_le _
    · obtain ⟨hbefore, -, hsnapshot⟩ := h.termAt hknown
      exact ⟨fun x hx hlt => hbefore x hx (Nat.le_of_lt_succ hlt), hsnapshot hbehind⟩
  obtain ⟨hgraded, hmem⟩ := graded_spliceEntries h.graded hr.numbered hr.rising hr.prev_le (Nat.lt_succ_of_le hbehind)
    (Nat.succ_le_succ hend) hagree.1 hagree.2
  have hwrite := h.write hgraded fun x hx => (hmem x hx).elim (h.bound x) fun hx => by
    rw [hterm]
    exact hr.bound x hx
  rcases n.finishAppend_cases r with ⟨err, -, heq⟩ | ⟨-, heq, -⟩
  · rw [heq]
    exact hwrite
  · rw [heq]
    exact (hwrite.same (sameLog_advanceCommit _ _)).same (sameLog_dispatchForward _ _)

theorem WellFormed.handleAppendEntries (h : n.WellFormed) {r : AppendEntriesRequest} (hr : Excerpt r) :
    (n.handleAppendEntries r).1.WellFormed := by
  rcases n.handleAppendEntries_cases r with ⟨-, heq, -⟩ | ⟨hge, m, hcore, ⟨heq, -⟩ | ⟨hprev, -, heq⟩⟩
  · rw [heq]
    exact h
  · rw [heq]
    exact h.same (.of_core hcore (sameLog_noted hge r.leaderId))
  · rw [heq]
    have hm := h.same (.of_core hcore (sameLog_noted hge r.leaderId))
    have hterm : m.currentTerm = r.term := by
      rw [eq_of_core Node.currentTerm (fun _ => rfl) hcore, noted_currentTerm n r.leaderId hge]
    exact hm.finishAppend hterm hprev hr

/-- The WAL ends with the snapshot, or the logical log has the entry that the snapshot ends with. -/
def EndsWith (n : Node) (s : Snapshot) : Prop :=
  n.log.lastIndex ≤ s.raftIndex ∨ (s.raftIndex = n.lastSnapshotIndex ∧ s.raftTerm = n.lastSnapshotTerm) ∨
    ∃ x ∈ n.log.entries, x.index = s.raftIndex ∧ x.term = s.raftTerm

instance (n : Node) (s : Snapshot) : Decidable (n.EndsWith s) := inferInstanceAs (Decidable (_ ∨ _))

theorem WellFormed.graded_install (h : n.WellFormed) {s : Snapshot} (hs : n.EndsWith s) (keepFrom : Nat) :
    Graded (n.log.truncateBefore (s.raftIndex + 1) keepFrom) s.raftIndex s.raftTerm := by
  by_cases hlast : n.log.lastIndex ≤ s.raftIndex
  · rw [IndexedLog.truncateBefore, if_pos (Nat.lt_succ_of_le hlast)]
    exact .empty _ _
  · rcases hs.resolve_left hlast with ⟨hindex, hterm⟩ | ⟨x, hx, hindex, hterm⟩
    · rw [hindex, hterm]
      exact h.graded.truncateBefore (Nat.le_refl _) keepFrom
    · rw [← hindex, ← hterm]
      exact (h.graded.rebase hx).truncateBefore (Nat.le_refl _) keepFrom

theorem WellFormed.applyInstalledSnapshot (h : n.WellFormed) {s : Snapshot} (hs : n.EndsWith s) (hpos : 0 < s.raftIndex)
    (hterm : s.raftTerm ≤ n.currentTerm) (keepFrom : Nat) : (n.applyInstalledSnapshot s keepFrom).1.WellFormed := by
  have hgraded := h.graded_install hs keepFrom
  have hbound : ∀ x ∈ (n.log.truncateBefore (s.raftIndex + 1) keepFrom).entries, x.term ≤ n.currentTerm :=
    fun x hx => h.bound x (IndexedLog.mem_of_mem_truncateBefore hx)
  have hfile : ∀ s' ∈ some s, 0 < s'.raftIndex ∧ s'.raftIndex = s.raftIndex ∧ s'.raftTerm = s.raftTerm := by
    intro s' hs'
    cases hs'
    exact ⟨hpos, rfl, rfl⟩
  have htask : ∀ t ∈ n.snapshotTask.map fun (task : SnapshotTask) =>
      { task with vectorIndex := task.vectorIndex.or (some n.executed) }, 0 < t.snapshotIndex := by
    intro t ht
    obtain ⟨t', ht', rfl⟩ := Option.map_eq_some_iff.mp ht
    exact h.task t' ht'
  unfold Node.applyInstalledSnapshot
  dsimp only
  split
  · exact ⟨hgraded, hbound, hterm, hfile, (fun hnone => by cases hnone), htask⟩
  · exact ⟨hgraded, hbound, hterm, hfile, (fun hnone => by cases hnone), htask⟩

/-- A stream of `SendSnapshotToPeer`. -/
structure Shipped (r : InstallSnapshotRequest) : Prop where
  pos : 0 < r.snapshot.raftIndex
  term_le : r.snapshot.raftTerm ≤ r.leaderTerm

/-- A snapshot that is installed meets a WAL that it goes with. -/
def Compatible (n : Node) (r : InstallSnapshotRequest) (complete : Bool) : Prop :=
  complete = true → n.currentTerm ≤ (if r.leaderTerm = 0 then r.snapshot.raftTerm else r.leaderTerm) →
    n.EndsWith r.snapshot

instance (n : Node) (r : InstallSnapshotRequest) (complete : Bool) : Decidable (n.Compatible r complete) :=
  inferInstanceAs (Decidable (_ → _ → _))

theorem WellFormed.handleInstallSnapshot (h : n.WellFormed) {r : InstallSnapshotRequest} {complete : Bool}
    (hr : Shipped r) (hok : n.Compatible r complete) (keepFrom : Nat) :
    (n.handleInstallSnapshot r complete keepFrom).1.WellFormed := by
  have hle : r.snapshot.raftTerm ≤ (if r.leaderTerm = 0 then r.snapshot.raftTerm else r.leaderTerm) := by
    split
    · exact Nat.le_refl _
    · exact hr.term_le
  unfold Compatible at hok
  unfold Node.handleInstallSnapshot
  dsimp only
  generalize (if r.leaderTerm = 0 then r.snapshot.raftTerm else r.leaderTerm) = term at hok hle ⊢
  split
  · exact h
  next hterm =>
  split
  · exact h
  next m hm =>
  have hsame : SameLog n m ∧ term ≤ m.currentTerm := by
    split at hm
    · obtain ⟨hge, hcore, -⟩ := becomeFollower_eq_ok hm
      refine ⟨.of_core hcore (sameLog_followed hge ""), ?_⟩
      rw [eq_of_core Node.currentTerm (fun _ => rfl) hcore]
      exact Nat.le_refl _
    · next hcase =>
      cases hm
      exact ⟨.refl n, by omega⟩
  have hm' := h.same hsame.1
  split
  · exact hm'
  next hcomplete =>
  have hends : m.EndsWith r.snapshot := by
    rw [EndsWith, hsame.1.log, hsame.1.lastSnapshotIndex, hsame.1.lastSnapshotTerm]
    exact hok (by simpa using hcomplete) (by omega)
  have hinstall := hm'.applyInstalledSnapshot hends hr.pos (hle.trans hsame.2) keepFrom
  split
  · next heq =>
    rw [heq] at hinstall
    exact hinstall
  · next heq =>
    rw [heq] at hinstall
    exact hinstall

theorem WellFormed.saveSnapshot (h : n.WellFormed) {keepFrom : Nat} (hs : n.saveSnapshot keepFrom = some n') :
    n'.WellFormed := by
  unfold Node.saveSnapshot at hs
  split at hs
  · cases hs
  next task htask =>
  have hpos := h.task task htask
  split at hs
  · cases hs
    exact { h with task := fun t ht => by cases ht }
  next raftTerm hterm =>
  cases hs
  rw [IndexedLog.termAt, if_neg (by omega)] at hterm
  cases hread : n.log.read task.snapshotIndex with
  | error err =>
    rw [hread] at hterm
    cases hterm
  | ok x =>
    rw [hread] at hterm
    cases hterm
    obtain ⟨hx, hindex⟩ := h.graded.ordered.read_eq_ok.mp hread
    have hgraded := (h.graded.rebase hx).truncateBefore (Nat.le_succ _) keepFrom
    rw [hindex] at hgraded
    refine ⟨hgraded, fun y hy => ?_, h.bound x hx, fun s hs => ?_, (fun hnone => by cases hnone),
      fun t ht => by cases ht⟩
    · exact h.bound y (IndexedLog.mem_of_mem_truncateBefore hy)
    · cases hs
      exact ⟨hpos, rfl, rfl⟩

theorem WellFormed.applyCommittedEntry (h : n.WellFormed) {codec : CommandCodec} {outcome : Except String Unit} {e : LogEntry}
    (hs : n.applyCommittedEntry codec outcome = some (n', e)) : n'.WellFormed := by
  unfold Node.applyCommittedEntry at hs
  split at hs
  swap
  · cases hs
  split at hs
  · cases hs
  cases hs
  have hexecute : SameLog n { n.execute codec (n.appliedIndex + 1) e outcome with appliedIndex := n.appliedIndex + 1 } := by
    unfold execute
    cases e.command codec with
    | none => exact ⟨Nat.le_refl _, rfl, rfl, rfl, rfl, rfl⟩
    | some cmd => exact ⟨Nat.le_refl _, rfl, rfl, rfl, rfl, rfl⟩
  have hm := h.same hexecute
  unfold maybeTriggerSnapshot
  split
  · exact hm
  · refine { hm with task := fun t ht => ?_ }
    cases ht
    exact Nat.succ_pos _

theorem WellFormed.restart (h : n.WellFormed) : n.restart.WellFormed := by
  cases hs : n.snapshot with
  | none =>
    obtain ⟨hindex, hterm⟩ := h.noFile hs
    have hgraded := h.graded
    rw [hindex, hterm] at hgraded
    unfold Node.restart Node.create
    simp only [hs]
    exact ⟨hgraded, h.bound, Nat.zero_le _, (fun s hs => by cases hs), fun _ => ⟨rfl, rfl⟩, fun t ht => by cases ht⟩
  | some s =>
    obtain ⟨hpos, hindex, hterm⟩ := h.file s hs
    have hgraded := h.graded
    have hbound := h.snapshot_bound
    rw [← hindex, ← hterm] at hgraded
    rw [← hterm] at hbound
    unfold Node.restart Node.create
    simp only [hs]
    refine ⟨hgraded, h.bound, hbound, fun s' hs' => ?_, (fun hnone => by cases hnone), fun t ht => by cases ht⟩
    cases hs'
    exact ⟨hpos, rfl, rfl⟩

/-- The entries of the WAL behind the snapshot. -/
def logicalTail (n : Node) : List LogEntry := n.log.entries.filter fun e => n.lastSnapshotIndex < e.index

/-- The terms of the logical log, that of the snapshot first. -/
def logicalTerms (n : Node) : List Nat := n.lastSnapshotTerm :: n.logicalTail.map LogEntry.term

/-- Consecutive indices up to the end, terms that do not decrease, and none above the current one. -/
def LogWellFormed (n : Node) : Prop :=
  n.logicalTail.map LogEntry.index = List.range' (n.lastSnapshotIndex + 1) (n.logicalLastIndex - n.lastSnapshotIndex) ∧
    n.logicalTerms.Pairwise (· ≤ ·) ∧ ∀ t ∈ n.logicalTerms, t ≤ n.currentTerm

instance (n : Node) : Decidable n.LogWellFormed := inferInstanceAs (Decidable (_ ∧ _ ∧ _))

theorem mem_logicalTail {e : LogEntry} : e ∈ n.logicalTail ↔ e ∈ n.log.entries ∧ n.lastSnapshotIndex < e.index := by
  simp [logicalTail]

theorem WellFormed.logWellFormed (h : n.WellFormed) : n.LogWellFormed := by
  refine ⟨?_, ?_, ?_⟩
  · by_cases hend : n.log.lastIndex ≤ n.lastSnapshotIndex
    · have hnil : n.logicalTail = [] := by
        refine List.filter_eq_nil_iff.mpr fun e he => ?_
        have := h.graded.ordered.le_last he
        simp only [decide_eq_true_eq]
        omega
      rw [hnil, logicalLastIndex, Nat.max_eq_left hend, Nat.sub_self]
      rfl
    · obtain ⟨x, hx, hindex⟩ := h.graded.joined (n.lastSnapshotIndex + 1) (Nat.lt_succ_self _) (by omega)
      obtain ⟨first, -, hcons⟩ := h.graded.consecutive
      have hlast := h.graded.lastIndex_eq hcons (List.ne_nil_of_mem hx)
      have htail : Consecutive n.logicalTail (n.lastSnapshotIndex + 1) := by
        have hfrom := hcons.filter_from hx
        rw [hindex] at hfrom
        exact hfrom
      have hne : n.logicalTail ≠ [] := List.ne_nil_of_mem (mem_logicalTail.mpr ⟨hx, by omega⟩)
      have hsize : n.lastSnapshotIndex + 1 + n.logicalTail.length = n.log.lastIndex + 1 := by
        obtain ⟨y, hy, hyindex⟩ := h.graded.joined n.log.lastIndex (by omega) (Nat.le_refl _)
        have hle := (htail.bounds (mem_logicalTail.mpr ⟨hy, by omega⟩)).2
        have hpos := List.length_pos_of_ne_nil hne
        obtain ⟨z, hz, hzindex⟩ := htail.exists_mem
          (show n.lastSnapshotIndex + 1 ≤ n.lastSnapshotIndex + n.logicalTail.length by omega) (by omega)
        have := h.graded.ordered.le_last (mem_logicalTail.mp hz).1
        omega
      rw [logicalLastIndex, Nat.max_eq_right (by omega)]
      have hlen : n.log.lastIndex - n.lastSnapshotIndex = n.logicalTail.length := by omega
      rw [hlen]
      exact htail
  · refine List.pairwise_cons.mpr ⟨?_, ?_⟩
    · intro t ht
      obtain ⟨e, he, rfl⟩ := List.mem_map.mp ht
      obtain ⟨hmem, hlt⟩ := mem_logicalTail.mp he
      exact h.graded.above e hmem hlt
    · refine List.pairwise_map.mpr ?_
      have hsorted := h.graded.ordered.sorted.sublist (List.filter_sublist (p := fun e => n.lastSnapshotIndex < e.index))
      exact hsorted.imp_of_mem fun ha hb hlt =>
        h.graded.rising _ (mem_logicalTail.mp ha).1 _ (mem_logicalTail.mp hb).1 (Nat.le_of_lt hlt)
  · intro t ht
    rcases List.mem_cons.mp ht with rfl | ht
    · exact h.snapshot_bound
    · obtain ⟨e, he, rfl⟩ := List.mem_map.mp ht
      exact h.bound e (mem_logicalTail.mp he).1

end Node

namespace Cluster

variable {codec : CommandCodec} {c c' : Cluster}

/-- A request as the senders build it. -/
def Formed : Request → Prop
  | .append _ r => Node.Excerpt r
  | .install r => Node.Shipped r
  | _ => True

structure FormedInv (c : Cluster) : Prop where
  node : ∀ p, (c.nodes p).WellFormed
  call : ∀ call ∈ c.calls, Formed call.request

theorem FormedInv.put (h : FormedInv c) {p : String} {n' : Node} (hn' : n'.WellFormed) : FormedInv (c.put p n') where
  node := fun q => by
    by_cases hq : q = p
    · rw [hq, put_self]
      exact hn'
    · rw [put_other c n' hq]
      exact h.node q
  call := h.call

theorem FormedInv.record (h : FormedInv c) (history : History) : FormedInv (c.record history) := ⟨h.node, h.call⟩

theorem FormedInv.send (h : FormedInv c) {p : String} {messages : List (String × Request)}
    (hm : ∀ m ∈ messages, Formed m.2) : FormedInv (c.send p messages) where
  node := h.node
  call := fun call hcall => by
    rcases List.mem_append.mp hcall with hcall | hcall
    · exact h.call call hcall
    · obtain ⟨m, hmem, rfl⟩ := List.mem_map.mp hcall
      exact hm m hmem

theorem FormedInv.setCall (h : FormedInv c) {i : Nat} {call : Call} (hformed : Formed call.request) :
    FormedInv (c.setCall i call) where
  node := h.node
  call := fun x hx => by
    rcases List.mem_or_eq_of_mem_set hx with hx | rfl
    · exact h.call x hx
    · exact hformed

theorem FormedInv.dropCalls (h : FormedInv c) (p : String) : FormedInv (c.dropCalls p) where
  node := h.node
  call := fun x hx => by
    obtain ⟨y, hy, rfl⟩ := List.mem_map.mp hx
    split
    · exact h.call y hy
    · exact h.call y hy

theorem formed_install {n : Node} (h : n.WellFormed) {s : Snapshot} (hs : n.snapshot = some s) :
    Formed (.install ⟨n.currentTerm, s⟩) := by
  obtain ⟨hpos, -, hterm⟩ := h.file s hs
  refine ⟨hpos, ?_⟩
  rw [hterm]
  exact h.snapshot_bound

theorem formed_sends {n : Node} (h : n.WellFormed) {m : String × Request} (hm : n.Sends m) : Formed m.2 := by
  cases hm with
  | heartbeat => trivial
  | append _ _ hr => exact h.excerpt hr
  | install hs => exact formed_install h hs

theorem formed_forwards {n : Node} (h : n.WellFormed) {m : String × Request} (hm : n.Forwards m) : Formed m.2 := by
  cases hm with
  | append hr => exact h.excerpt hr
  | install hs => exact formed_install h hs

/-- An installed snapshot meets a WAL that it goes with. -/
def InstallsCompatibly (c : Cluster) : Action → Prop
  | .deliver i complete _ =>
    match c.calls[i]? with
    | some { dst, request := .install r, .. } => (c.nodes dst).Compatible r complete
    | _ => True
  | _ => True

instance (c : Cluster) : (a : Action) → Decidable (c.InstallsCompatibly a)
  | .deliver i complete _ =>
    let compatible : (call : Option Call) → Decidable (match call with
        | some { dst, request := .install r, .. } => (c.nodes dst).Compatible r complete
        | _ => True)
      | none => isTrue trivial
      | some { request := .vote _, .. } => isTrue trivial
      | some { request := .heartbeat _ _, .. } => isTrue trivial
      | some { request := .append _ _, .. } => isTrue trivial
      | some { dst, request := .install r, .. } => inferInstanceAs (Decidable ((c.nodes dst).Compatible r complete))
    compatible c.calls[i]?
  | .start _ | .startElection _ | .finishElection _ | .beginBroadcast _ | .finishBroadcast _ _ |
    .replicate _ _ | .forward _ _ | .checkMentor _ _ | .checkFollower _ _ _ | .receive _ _ | .fail _ _ |
    .rebalance _ | .recoverWindows _ _ | .clientWrite _ _ | .propose _ _ | .apply _ _ | .saveSnapshot _ _ |
    .restart _ => isTrue trivial

theorem FormedInv.deliver (h : FormedInv c) {i : Nat} {complete : Bool} {keepFrom : Nat} {call : Call}
    (hcall : c.calls[i]? = some call) (hok : c.InstallsCompatibly (.deliver i complete keepFrom)) :
    ((c.nodes call.dst).handle complete keepFrom call.request).1.WellFormed := by
  have hnode := h.node call.dst
  have hformed := h.call call (List.mem_of_getElem? hcall)
  unfold InstallsCompatibly at hok
  dsimp only at hok
  rw [hcall] at hok
  obtain ⟨src, dst, request, delivered, reply, wal, waiting⟩ := call
  cases request with
  | vote r => exact hnode.same (Node.sameLog_handleRequestVote _ r)
  | heartbeat caller r => exact hnode.same (Node.sameLog_handleHeartbeat _ r)
  | append caller r => exact hnode.handleAppendEntries hformed
  | install r => exact hnode.handleInstallSnapshot hformed hok keepFrom

theorem FormedInv.apply (h : FormedInv c) {p : String} {outcome : Except String Unit}
    (hs : c.apply codec p outcome = some c') : FormedInv c' := by
  unfold Cluster.apply at hs
  dsimp only at hs
  split at hs
  · cases hs
  next n' e hn' =>
  cases hs
  exact (h.put ((h.node p).applyCommittedEntry hn')).record _

theorem FormedInv.step (h : FormedInv c) (hcfg : c.Configured) {a : Action} (hok : c.InstallsCompatibly a)
    (hs : step codec c a = some c') : FormedInv c' := by
  have hmoves := moves_of_step hs
  cases hmoves with
  | work hcore hmatch hsends =>
    refine (h.put ((h.node _).same (.of_core hcore (.refl _)))).send fun m hm => ?_
    exact formed_sends (h.node _) ((hsends m hm).2.2 (hcfg _).1)
  | forward hmem hcopy hcore hmatch hsends =>
    refine (h.put ((h.node _).same (.of_core hcore ⟨Nat.le_refl _, rfl, rfl, rfl, rfl, rfl⟩))).send fun m hm => ?_
    exact formed_forwards (h.node _) (hsends m hm).1
  | fall hle hcore => exact h.put ((h.node _).same (.of_core hcore (Node.sameLog_followed hle "")))
  | @stand p n' hmem hstate helection hn' =>
    have hsame : (c.nodes p).SameLog n' := by
      rw [hn']
      exact ⟨Nat.le_succ _, rfl, rfl, rfl, rfl, rfl⟩
    refine ((h.put ((h.node p).same hsame)).send fun m hm => ?_).record _
    obtain ⟨peer, -, rfl⟩ := List.mem_map.mp hm
    trivial
  | lose he hn' hlost => exact h.put ((h.node _).concludes hn')
  | win he hstate hterm hquorum hlog hcore hmatch =>
    exact (h.put ((h.node _).lead hlog (.of_core hcore ⟨Nat.le_refl _, rfl, rfl, rfl, rfl, rfl⟩))).record _
  | boot hmem hpeers hstate hlog hcore hmatch =>
    exact (h.put ((h.node _).lead hlog (.of_core hcore ⟨Nat.le_refl _, rfl, rfl, rfl, rfl, rfl⟩))).record _
  | crash hmem hpeers hcore =>
    have hm := ((h.node _).same (Node.sameLog_firstTerm _)).same (.of_core hcore ⟨Nat.le_refl _, rfl, rfl, rfl, rfl, rfl⟩)
    exact ((h.put hm.restart).dropCalls _).record _
  | deliver hcall hnew hdst =>
    have hformed := h.call _ (List.mem_of_getElem? hcall)
    refine FormedInv.record (FormedInv.setCall (h.put (h.deliver hcall hok)) ?_) _
    exact hformed
  | answer hcall hwaiting ha hn' =>
    have hformed := h.call _ (List.mem_of_getElem? hcall)
    refine FormedInv.record (FormedInv.setCall (h.put ((h.node _).same (Node.sameLog_answers hn'))) ?_) _
    exact hformed
  | propose hwrite hstate hlog hcore hprogress =>
    exact (h.put (((h.node _).append hlog).same (.of_core hcore ⟨Nat.le_refl _, rfl, rfl, rfl, rfl, rfl⟩))).record _
  | apply hlt hread htask hcore hprogress => exact h.apply hs
  | saveSnapshot hn' => exact h.put ((h.node _).saveSnapshot hn')
  | restart hmem => exact (h.put (h.node _).restart).dropCalls _

theorem FormedInv.init (members : Members) (config : String → Config) : FormedInv (init members config) where
  node := fun p =>
    ⟨.empty _ _, (fun x hx => by cases hx), Nat.zero_le _, (fun s hs => by cases hs), fun _ => ⟨rfl, rfl⟩,
      fun t ht => by cases ht⟩
  call := fun call hcall => by cases hcall

/-- In every run whose installs are compatible every logical log is well formed at any time. -/
theorem logs_wellFormed (codec : CommandCodec) (members : Members) (config : String → Config) (schedule : List Action)
    (c : Cluster)
    (h : Transition.run (Transition.restrict InstallsCompatibly (step codec)) (Cluster.init members config) schedule = some c)
    (p : String) : (c.nodes p).LogWellFormed := by
  have hinv : FormedInv c ∧ c.Configured := by
    refine Transition.run_invariant (fun c => FormedInv c ∧ c.Configured) (fun s a t hi hst => ?_)
      ⟨.init members config, configured_init members config⟩ h
    obtain ⟨hok, hst⟩ := Transition.restrict_eq_some.mp hst
    exact ⟨hi.1.step hi.2 hok hst, hi.2.frame (frame_of_moves (moves_of_step hst))⟩
  exact (hinv.1.node p).logWellFormed

/-- Every second entry is covered by a snapshot. -/
def frequentConfig : String → Config := fun p => { nodeId := p, peers := [], snapshotThreshold := 1 }

def deleteRequest (id : Nat) : ClientWriteRequest := { requestId := "r" ++ toString id, cmdType := 2, id := id }

/-- `A` leads term 1 and adds some entries, `B` leads term 2 with `C`, has two entries committed and
applied, and takes a snapshot that it sends to `A`. -/
def snapshotSent (writes : List Action) : List Action :=
  [.startElection "A", .deliver 0 true 0, .receive 0 false, .fail 1 false, .finishElection "A"] ++ writes ++
  [.startElection "B", .deliver 3 true 0, .receive 3 false, .fail 2 false, .finishElection "B",
    .clientWrite "B" (deleteRequest 3), .propose "B" 0, .replicate "B" "C", .deliver 4 true 0, .receive 4 false,
    .replicate "B" "C", .deliver 5 true 0, .receive 5 false, .apply "B" (.ok ()), .apply "B" (.ok ()),
    .saveSnapshot "B" 0, .replicate "B" "A"]

/-- `A` has its first entry only, which the snapshot covers. -/
theorem logs_wellFormed_after_install :
    ∃ c, Transition.run (Transition.restrict InstallsCompatibly (step sampleCodec)) (init threeNodes frequentConfig)
        (snapshotSent [] ++ [.deliver 6 true 3]) = some c ∧
      (c.nodes "A").lastSnapshotIndex = 2 ∧ (c.nodes "A").LogWellFormed := by
  have hrun : ∃ c, Transition.run (Transition.restrict InstallsCompatibly (step sampleCodec))
        (init threeNodes frequentConfig) (snapshotSent [] ++ [.deliver 6 true 3]) = some c ∧
      (c.nodes "A").lastSnapshotIndex = 2 := by
    decide +kernel
  obtain ⟨c, hc, hlast⟩ := hrun
  exact ⟨c, hc, hlast, logs_wellFormed sampleCodec threeNodes frequentConfig _ c hc "A"⟩

/-- `A` has entries 1 to 3 of term 1: the third stays in its WAL behind the snapshot, which ends in term 2. -/
theorem tail_below_snapshot_term :
    ∃ c, run sampleCodec threeNodes frequentConfig
        (snapshotSent [.clientWrite "A" (deleteRequest 1), .propose "A" 0, .clientWrite "A" (deleteRequest 2), .propose "A" 0] ++
          [.deliver 6 true 3]) = some c ∧
      c.history.led = [("B", 2), ("A", 1)] ∧ (c.nodes "A").logicalTerms = [2, 1] ∧ ¬(c.nodes "A").LogWellFormed := by
  decide +kernel

end Cluster

end RaftVdb
