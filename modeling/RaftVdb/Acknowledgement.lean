import Mathlib.Data.List.Induction
import RaftVdb.Frame
import RaftVdb.LogicalLog

/-!
# What a successful `AppendEntries` claims

A follower answers with the end of its log, and bounds the commit index by it. If the
entry loop writes something, the last entry it writes is the end of the log. If it finds
every entry there already, the log keeps its tail, which the request has not compared.
-/

namespace RaftVdb.Node

/-- The entry loop passes over the entry: the snapshot covers it, or the log has an entry
of its index and term. -/
def Passes (snapshotIndex : Nat) (log : IndexedLog) (e : LogEntry) : Prop :=
  (snapshotIndex > 0 ∧ e.index ≤ snapshotIndex) ∨ ∃ x, log.read e.index = .ok x ∧ x.term = e.term

variable {snapshotIndex : Nat} {log : IndexedLog} {e : LogEntry}

theorem spliceEntry_of_passes (h : Passes snapshotIndex log e) : spliceEntry snapshotIndex log e = { log } := by
  unfold spliceEntry
  rcases h with hcovered | ⟨x, hread, hterm⟩
  · rw [if_pos hcovered]
  · split
    · rfl
    · simp only [hread, hterm, if_true]

/-- An entry that is not passed over is written, and ends the log. -/
theorem spliceEntry_of_not_passes (h : ¬ Passes snapshotIndex log e)
    (hok : (spliceEntry snapshotIndex log e).error = none) :
    (spliceEntry snapshotIndex log e).log.lastIndex = e.index := by
  unfold Passes at h
  rw [not_or] at h
  unfold spliceEntry at hok ⊢
  rw [if_neg h.1] at hok ⊢
  cases hread : log.read e.index with
  | error err =>
    simp only [hread] at hok ⊢
    cases happend : log.append e with
    | error err => simp [happend] at hok
    | ok log' => rw [IndexedLog.append_eq_ok happend]
  | ok x =>
    have hterm : x.term ≠ e.term := fun heq => h.2 ⟨x, hread, heq⟩
    simp only [hread, if_neg hterm] at hok ⊢
    cases hcut : log.truncateSuffix e.index with
    | error err => simp [hcut] at hok
    | ok kept =>
      simp only [hcut] at hok ⊢
      cases happend : kept.append e with
      | error err => simp [happend] at hok
      | ok log' => rw [IndexedLog.append_eq_ok happend]

/-- The entry loop leaves the log as it is, or ends it with an entry of the request. -/
theorem spliceEntries_end (entries : List LogEntry)
    (hok : (spliceEntries snapshotIndex log entries).error = none) :
    ((∀ e ∈ entries, Passes snapshotIndex log e) ∧ (spliceEntries snapshotIndex log entries).log = log) ∨
      ((∃ e ∈ entries, ¬ Passes snapshotIndex log e) ∧
        ∃ e ∈ entries, (spliceEntries snapshotIndex log entries).log.lastIndex = e.index) := by
  induction entries generalizing log with
  | nil => exact .inl ⟨by simp, rfl⟩
  | cons e rest ih =>
    rw [spliceEntries] at hok ⊢
    simp only at hok ⊢
    by_cases hpass : Passes snapshotIndex log e
    · simp only [spliceEntry_of_passes hpass, Option.isSome_none, Bool.false_eq_true, if_false] at hok ⊢
      rcases ih hok with ⟨hall, hlog⟩ | ⟨⟨x, hx, hnot⟩, y, hy, hlast⟩
      · exact .inl ⟨List.forall_mem_cons.mpr ⟨hpass, hall⟩, hlog⟩
      · exact .inr ⟨⟨x, List.mem_cons_of_mem e hx, hnot⟩, y, List.mem_cons_of_mem e hy, hlast⟩
    · have hfirst : (spliceEntry snapshotIndex log e).error = none := by
        by_contra herr
        rw [if_pos (Option.isSome_iff_ne_none.mpr herr)] at hok
        exact herr hok
      rw [if_neg (by simp [hfirst])] at hok ⊢
      have hlast := spliceEntry_of_not_passes hpass hfirst
      refine .inr ⟨⟨e, List.mem_cons_self, hpass⟩, ?_⟩
      rcases ih hok with ⟨-, hlog⟩ | ⟨-, y, hy, hlast'⟩
      · exact ⟨e, List.mem_cons_self, by simp only [hlog, hlast]⟩
      · exact ⟨y, List.mem_cons_of_mem e hy, hlast'⟩

theorem commitIndex_advanceCommit (n : Node) (k : Nat) :
    (n.advanceCommit k).commitIndex = max n.commitIndex (min k n.logicalLastIndex) := by
  rcases n.advanceCommit_cases k with ⟨heq, hle⟩ | ⟨hlt, heq⟩
  · rw [heq, Nat.max_eq_left hle]
  · rw [heq, Nat.max_eq_right (Nat.le_of_lt hlt)]

theorem commitIndex_dispatchForward (n : Node) (r : AppendEntriesRequest) :
    (n.dispatchForward r).commitIndex = n.commitIndex := by
  rcases n.dispatchForward_cases r with heq | heq
  · rw [heq]
  · rw [heq]

/-- What the answer and the commit index are taken from. -/
theorem handleAppendEntries_success {n : Node} {r : AppendEntriesRequest} {resp : AppendEntriesResponse}
    (h : (n.handleAppendEntries r).2 = .ok resp) (hs : resp.success = true) :
    n.lastSnapshotIndex ≤ r.prevLogIndex ∧
      (spliceEntries n.lastSnapshotIndex n.log r.entries).error = none ∧
      resp.matchIndex = max n.lastSnapshotIndex (spliceEntries n.lastSnapshotIndex n.log r.entries).log.lastIndex ∧
      (n.handleAppendEntries r).1.commitIndex = max n.commitIndex (min r.leaderCommit resp.matchIndex) := by
  rcases n.handleAppendEntries_cases r with ⟨-, -, hno⟩ | ⟨-, m, hcore, ⟨-, hno⟩ | ⟨hprev, -, heq⟩⟩
  · rw [hno resp h] at hs
    cases hs
  · rw [hno resp h] at hs
    cases hs
  · have hlog : m.log = n.log := (eq_of_core Node.log (fun _ => rfl) hcore).trans (noted_log n r.leaderId)
    have hsnap : m.lastSnapshotIndex = n.lastSnapshotIndex :=
      (eq_of_core Node.lastSnapshotIndex (fun _ => rfl) hcore).trans (noted_lastSnapshotIndex n r.leaderId)
    have hcommit : m.commitIndex = n.commitIndex :=
      (eq_of_core Node.commitIndex (fun _ => rfl) hcore).trans (noted_commitIndex n r.leaderId)
    rw [heq] at h ⊢
    rcases m.finishAppend_cases r with ⟨err, -, herr⟩ | ⟨hok, hnode, a, ha, -, -, hmatch⟩
    · rw [herr] at h
      cases h
    · rw [ha] at h
      cases h
      rw [hlog, hsnap] at hok hmatch hnode
      refine ⟨hsnap ▸ (rejectPrev_bounds hprev).1, hok, hmatch, ?_⟩
      rw [hnode, hmatch]
      rw [commitIndex_dispatchForward, commitIndex_advanceCommit]
      simp only [logicalLastIndex, hcommit]

/-- The term that an index has been given last, by an entry that comes earlier in the request
or by the log. -/
def lastTerm (log : IndexedLog) (before : List LogEntry) (index : Nat) : Option Nat :=
  match (before.filter fun e => e.index = index).getLast? with
  | some e => some e.term
  | none => (log.read index).toOption.map LogEntry.term

/-- An entry of the request contradicts what its index has been given last. -/
def Contradicts (snapshotIndex : Nat) (log : IndexedLog) (before : List LogEntry) (x : LogEntry) : Prop :=
  ¬ (snapshotIndex > 0 ∧ x.index ≤ snapshotIndex) ∧ lastTerm log before x.index ≠ some x.term

theorem lastTerm_concat_self (log : IndexedLog) (before : List LogEntry) (e : LogEntry) :
    lastTerm log (before ++ [e]) e.index = some e.term := by
  simp [lastTerm]

theorem lastTerm_concat_ne (log : IndexedLog) (before : List LogEntry) {e : LogEntry} {i : Nat} (h : e.index ≠ i) :
    lastTerm log (before ++ [e]) i = lastTerm log before i := by
  simp [lastTerm, h]

/-- Behind an iteration an index reads as the entry given, or as before. -/
theorem read_spliceEntry (hordered : log.Ordered) (hok : (spliceEntry snapshotIndex log e).error = none) {i : Nat}
    {z : LogEntry} (hi : ¬ (snapshotIndex > 0 ∧ i ≤ snapshotIndex))
    (hread : (spliceEntry snapshotIndex log e).log.read i = .ok z) :
    (e.index = i ∧ z.term = e.term) ∨ (e.index ≠ i ∧ log.read i = .ok z) := by
  have hwritten : ∀ {kept log' : IndexedLog}, kept.Ordered → kept.append e = .ok log' → log'.read i = .ok z →
      (∀ y, kept.read i = .ok y → log.read i = .ok y) →
      (e.index = i ∧ z.term = e.term) ∨ (e.index ≠ i ∧ log.read i = .ok z) := by
    intro kept log' hkept happend hread hback
    by_cases hindex : e.index = i
    · subst hindex
      rw [(hkept.append happend).read_eq_ok.mpr ⟨(IndexedLog.mem_append happend).mpr (.inr rfl), rfl⟩] at hread
      cases hread
      exact .inl ⟨rfl, rfl⟩
    · rw [hkept.read_append_of_ne happend (Ne.symm hindex)] at hread
      exact .inr ⟨hindex, hback z hread⟩
  have hstep := spliceEntry_step snapshotIndex hordered e
  generalize spliceEntry snapshotIndex log e = first at hok hread hstep
  cases hstep with
  | covered hpos hle => exact .inr ⟨fun hindex => hi ⟨hpos, hindex ▸ hle⟩, hread⟩
  | present hx hindex hterm =>
    by_cases hei : e.index = i
    · obtain rfl : z = _ := Except.ok.inj (hread.symm.trans (hordered.read_eq_ok.mpr ⟨hx, hindex.trans hei⟩))
      exact .inl ⟨hei, hterm⟩
    · exact .inr ⟨hei, hread⟩
  | appended hnew hfree happend => exact hwritten hordered happend hread fun _ => id
  | refused err => cases hok
  | replaced hnew hx hindex hterm hkept happend =>
    refine hwritten (hordered.truncateSuffix hkept) happend hread fun y hy => ?_
    obtain ⟨hmem, hyi⟩ := IndexedLog.mem_of_read hy
    exact hordered.read_eq_ok.mpr ⟨((hordered.mem_truncateSuffix hkept).mp hmem).1, hyi⟩
  | cut err hx hindex hterm hkept => cases hok

/-- The entry loop over two parts of a request, one after the other. -/
theorem spliceEntries_parts (first second : List LogEntry)
    (hok : (spliceEntries snapshotIndex log (first ++ second)).error = none) :
    (spliceEntries snapshotIndex log first).error = none ∧
      (spliceEntries snapshotIndex (spliceEntries snapshotIndex log first).log second).error = none ∧
      (spliceEntries snapshotIndex log (first ++ second)).log =
        (spliceEntries snapshotIndex (spliceEntries snapshotIndex log first).log second).log := by
  induction first generalizing log with
  | nil => exact ⟨rfl, hok, rfl⟩
  | cons e rest ih =>
    rw [List.cons_append, spliceEntries] at hok ⊢
    rw [spliceEntries]
    dsimp only at hok ⊢
    by_cases herr : (spliceEntry snapshotIndex log e).error.isSome
    · rw [if_pos herr] at hok
      rw [hok] at herr
      cases herr
    · rw [if_neg herr] at hok ⊢
      rw [if_neg herr]
      exact ih hok

theorem spliceEntries_of_passes {entries : List LogEntry} (h : ∀ e ∈ entries, Passes snapshotIndex log e) :
    (spliceEntries snapshotIndex log entries).log = log := by
  induction entries with
  | nil => rfl
  | cons e rest ih =>
    rw [spliceEntries, spliceEntry_of_passes (h e List.mem_cons_self)]
    exact ih fun x hx => h x (List.mem_cons_of_mem e hx)

theorem spliceEntries_singleton (hok : (spliceEntries snapshotIndex log [e]).error = none) :
    (spliceEntry snapshotIndex log e).error = none ∧
      (spliceEntries snapshotIndex log [e]).log = (spliceEntry snapshotIndex log e).log := by
  rw [spliceEntries] at hok ⊢
  dsimp only at hok ⊢
  split at hok
  · next herr =>
    rw [hok] at herr
    cases herr
  · next herr => exact ⟨by simpa using herr, by rw [if_neg herr]; rfl⟩

/-- What the loop has not cut off reads as what was given last. -/
theorem read_spliceEntries (hordered : log.Ordered) (entries : List LogEntry)
    (hok : (spliceEntries snapshotIndex log entries).error = none) {i : Nat} {z : LogEntry}
    (hi : ¬ (snapshotIndex > 0 ∧ i ≤ snapshotIndex))
    (hread : (spliceEntries snapshotIndex log entries).log.read i = .ok z) :
    lastTerm log entries i = some z.term := by
  induction entries using List.reverseRecOn generalizing z with
  | nil =>
    have hread' : log.read i = .ok z := hread
    simp [lastTerm, hread', Except.toOption]
  | append_singleton before e ih =>
    obtain ⟨hfirst, hlast, hlog⟩ := spliceEntries_parts before [e] hok
    rw [hlog] at hread
    obtain ⟨hone, hlog'⟩ := spliceEntries_singleton hlast
    rw [hlog'] at hread
    rcases read_spliceEntry (ordered_spliceEntries snapshotIndex before hordered) hone hi hread with
      ⟨rfl, hterm⟩ | ⟨hne, hread⟩
    · rw [lastTerm_concat_self, hterm]
    · rw [lastTerm_concat_ne log before hne]
      exact ih hfirst hread

/-- An entry that contradicts what was given last is written. -/
theorem Contradicts.not_passes {before : List LogEntry} (h : Contradicts snapshotIndex log before e)
    (hordered : log.Ordered) (hok : (spliceEntries snapshotIndex log before).error = none) :
    ¬ Passes snapshotIndex (spliceEntries snapshotIndex log before).log e := by
  rintro (hcovered | ⟨z, hread, hterm⟩)
  · exact h.1 hcovered
  · exact h.2 (hterm ▸ read_spliceEntries hordered before hok h.1 hread)

/-- An entry that the snapshot does not cover is in the log behind its iteration. -/
theorem held_spliceEntry (hordered : log.Ordered) (hok : (spliceEntry snapshotIndex log e).error = none)
    (hnew : ¬ (snapshotIndex > 0 ∧ e.index ≤ snapshotIndex)) :
    ∃ x ∈ (spliceEntry snapshotIndex log e).log.entries, x.index = e.index := by
  have hstep := spliceEntry_step snapshotIndex hordered e
  generalize spliceEntry snapshotIndex log e = first at hok hstep
  cases hstep with
  | covered hpos hle => exact absurd ⟨hpos, hle⟩ hnew
  | present hx hindex hterm => exact ⟨_, hx, hindex⟩
  | appended hfresh hfree happend => exact ⟨e, (IndexedLog.mem_append happend).mpr (.inr rfl), rfl⟩
  | refused err => cases hok
  | replaced hfresh hx hindex hterm hkept happend => exact ⟨e, (IndexedLog.mem_append happend).mpr (.inr rfl), rfl⟩
  | cut err hx hindex hterm hkept => cases hok

/-- What a request must meet for its answer to claim no more than it has compared. Its entries
lie up to `prevLogIndex` plus their number, as both senders number them, and the log was not
longer than that or has an entry to be written; or the request contradicts what it has given
itself, behind its last entry beyond that index. -/
def ComparesEnd (n : Node) (r : AppendEntriesRequest) : Prop :=
  ((∀ e ∈ r.entries, e.index ≤ r.prevLogIndex + r.entries.length) ∧
    (n.logicalLastIndex ≤ r.prevLogIndex + r.entries.length ∨
      ∃ e ∈ r.entries, ¬ Passes n.lastSnapshotIndex n.log e)) ∨
  ∃ before x after, r.entries = before ++ x :: after ∧ (∀ y ∈ x :: after, y.index ≤ r.prevLogIndex + r.entries.length) ∧
    (∃ e ∈ before, r.prevLogIndex + r.entries.length < e.index) ∧
    Contradicts n.lastSnapshotIndex n.log before x

variable {v : Nat}

/-- A part of a request that has something to write, and nothing beyond an index, ends the log
up to there. -/
theorem lastIndex_spliceEntries_le {entries : List LogEntry}
    (hok : (spliceEntries snapshotIndex log entries).error = none) (hle : ∀ e ∈ entries, e.index ≤ v)
    (hwrites : ∃ e ∈ entries, ¬ Passes snapshotIndex log e) :
    (spliceEntries snapshotIndex log entries).log.lastIndex ≤ v := by
  rcases spliceEntries_end entries hok with ⟨hall, -⟩ | ⟨-, e, he, hlast⟩
  · obtain ⟨e, he, hnot⟩ := hwrites
    exact absurd (hall e he) hnot
  · exact hlast ▸ hle e he

/-- Where the log already ends beyond an index, an entry up to there can only be written in the
place of one of another term. -/
theorem lastTerm_ne_of_not_passes {before : List LogEntry} (hordered : log.Ordered)
    (hbefore : (spliceEntries snapshotIndex log before).error = none)
    (hok : (spliceEntry snapshotIndex (spliceEntries snapshotIndex log before).log e).error = none)
    (hlong : e.index < (spliceEntries snapshotIndex log before).log.lastIndex)
    (hsome : (spliceEntries snapshotIndex log before).log.entries ≠ [])
    (h : ¬ Passes snapshotIndex (spliceEntries snapshotIndex log before).log e) :
    Contradicts snapshotIndex log before e := by
  have hnew : ¬ (snapshotIndex > 0 ∧ e.index ≤ snapshotIndex) := fun hcovered => h (.inl hcovered)
  refine ⟨hnew, fun hterm => h (.inr ?_)⟩
  cases hread : (spliceEntries snapshotIndex log before).log.read e.index with
  | ok z =>
    have hz := read_spliceEntries hordered before hbefore hnew hread
    exact ⟨z, rfl, Option.some.inj (hz.symm.trans hterm)⟩
  | error err =>
    have hrefused : (spliceEntries snapshotIndex log before).log.append e = .error "WAL 追加的日志索引不连续" :=
      if_pos ⟨hsome, by omega⟩
    rw [spliceEntry, if_neg hnew, hread] at hok
    simp only [hrefused] at hok
    cases hok

/-- The first of the entries that do not pass. -/
theorem exists_first_not_passes {entries : List LogEntry} (h : ∃ e ∈ entries, ¬ Passes snapshotIndex log e) :
    ∃ between x after, entries = between ++ x :: after ∧ (∀ y ∈ between, Passes snapshotIndex log y) ∧
      ¬ Passes snapshotIndex log x := by
  induction entries with
  | nil => simp at h
  | cons e rest ih =>
    by_cases hpass : Passes snapshotIndex log e
    · obtain ⟨y, hy, hnot⟩ := h
      have hrest : ∃ e ∈ rest, ¬ Passes snapshotIndex log e := by
        rcases List.mem_cons.mp hy with rfl | hy
        · exact absurd hpass hnot
        · exact ⟨y, hy, hnot⟩
      obtain ⟨between, x, after, rfl, hall, hx⟩ := ih hrest
      exact ⟨e :: between, x, after, rfl, List.forall_mem_cons.mpr ⟨hpass, hall⟩, hx⟩
    · exact ⟨[], e, rest, rfl, by simp, hpass⟩

/-- The last of the entries beyond an index. -/
theorem exists_last_beyond {entries : List LogEntry} (h : ∃ e ∈ entries, v < e.index) :
    ∃ before e after, entries = before ++ e :: after ∧ v < e.index ∧ ∀ y ∈ after, y.index ≤ v := by
  induction entries with
  | nil => simp at h
  | cons e rest ih =>
    by_cases hrest : ∃ x ∈ rest, v < x.index
    · obtain ⟨before, x, after, rfl, hx, hafter⟩ := ih hrest
      exact ⟨e :: before, x, after, rfl, hx, hafter⟩
    · refine ⟨[], e, rest, rfl, ?_, fun y hy => Nat.le_of_not_lt fun hlt => hrest ⟨y, hy, hlt⟩⟩
      obtain ⟨x, hx, hlt⟩ := h
      rcases List.mem_cons.mp hx with rfl | hx
      · exact hlt
      · exact absurd ⟨x, hx, hlt⟩ hrest

/-- Behind an entry beyond the index the log ends up to there only if something later
contradicts what its index has been given. -/
theorem contradicts_of_lastIndex_le {before after : List LogEntry} (hordered : log.Ordered) (hsnap : snapshotIndex ≤ v)
    (hok : (spliceEntries snapshotIndex log (before ++ e :: after)).error = none) (he : v < e.index)
    (hafter : ∀ y ∈ after, y.index ≤ v)
    (hle : (spliceEntries snapshotIndex log (before ++ e :: after)).log.lastIndex ≤ v) :
    ∃ between x later, after = between ++ x :: later ∧
      Contradicts snapshotIndex log (before ++ e :: between) x := by
  have hnew : ¬ (snapshotIndex > 0 ∧ e.index ≤ snapshotIndex) := by omega
  rw [List.append_cons] at hok hle
  obtain ⟨hfirst, hrest, hlog⟩ := spliceEntries_parts (before ++ [e]) after hok
  -- `e` is in the log that the later entries meet
  obtain ⟨hbefore, hone, hthere⟩ := spliceEntries_parts before [e] hfirst
  obtain ⟨hone, hlog₁⟩ := spliceEntries_singleton hone
  obtain ⟨x, hx, hindex⟩ := held_spliceEntry (ordered_spliceEntries snapshotIndex before hordered) hone hnew
  rw [← hlog₁, ← hthere] at hx
  have hlong := (ordered_spliceEntries snapshotIndex (before ++ [e]) hordered).le_last hx
  by_cases hwrites : ∃ y ∈ after, ¬ Passes snapshotIndex (spliceEntries snapshotIndex log (before ++ [e])).log y
  · obtain ⟨between, y, later, rfl, hpass, hy⟩ := exists_first_not_passes hwrites
    obtain ⟨hbetween, hlater, -⟩ := spliceEntries_parts between (y :: later) hrest
    have hsame := spliceEntries_of_passes hpass
    rw [← List.append_assoc] at hok
    obtain ⟨hupto, hfrom, -⟩ := spliceEntries_parts (before ++ [e] ++ between) (y :: later) hok
    have hlog' : (spliceEntries snapshotIndex log (before ++ [e] ++ between)).log =
        (spliceEntries snapshotIndex log (before ++ [e])).log := by
      rw [(spliceEntries_parts (before ++ [e]) between hupto).2.2, hsame]
    refine ⟨between, y, later, rfl, ?_⟩
    rw [List.append_cons]
    have hyle := hafter y (by simp)
    refine lastTerm_ne_of_not_passes hordered hupto ?_ ?_ ?_ ?_
    · exact (spliceEntries_singleton (spliceEntries_parts [y] later hfrom).1).1
    · rw [hlog']
      omega
    · rw [hlog']
      exact List.ne_nil_of_mem hx
    · rwa [hlog']
  · push Not at hwrites
    rw [hlog, spliceEntries_of_passes hwrites] at hle
    omega

/-- A successful `AppendEntries` claims and commits no more than the request has compared
exactly if the request compares the end of the log. -/
theorem append_claims_verified_iff (n : Node) (r : AppendEntriesRequest) (resp : AppendEntriesResponse)
    (hlog : n.log.Ordered) (h : (n.handleAppendEntries r).2 = .ok resp) (hs : resp.success = true) :
    (resp.matchIndex ≤ r.prevLogIndex + r.entries.length ∧
      (n.handleAppendEntries r).1.commitIndex ≤
        max n.commitIndex (min r.leaderCommit (r.prevLogIndex + r.entries.length))) ↔
    n.ComparesEnd r := by
  obtain ⟨hsnap, hok, hmatch, hcommit⟩ := handleAppendEntries_success h hs
  have hreduce : (resp.matchIndex ≤ r.prevLogIndex + r.entries.length ∧
      (n.handleAppendEntries r).1.commitIndex ≤
        max n.commitIndex (min r.leaderCommit (r.prevLogIndex + r.entries.length))) ↔
      (spliceEntries n.lastSnapshotIndex n.log r.entries).log.lastIndex ≤ r.prevLogIndex + r.entries.length := by
    rw [hcommit, hmatch]
    omega
  rw [hreduce]
  constructor
  · intro hle
    by_cases hbounded : ∀ e ∈ r.entries, e.index ≤ r.prevLogIndex + r.entries.length
    · refine .inl ⟨hbounded, ?_⟩
      rcases spliceEntries_end r.entries hok with ⟨-, hsame⟩ | ⟨hwrites, -⟩
      · rw [hsame] at hle
        exact .inl (max_le (by omega) hle)
      · exact .inr hwrites
    · push Not at hbounded
      obtain ⟨before, e, after, hsplit, he, hafter⟩ := exists_last_beyond hbounded
      rw [hsplit] at hok hle
      rw [← hsplit] at hle
      obtain ⟨between, x, later, rfl, hx⟩ :=
        contradicts_of_lastIndex_le hlog (by omega) hok he hafter (hsplit ▸ hle)
      refine .inr ⟨before ++ e :: between, x, later, by rw [hsplit]; simp, fun y hy => hafter y ?_,
        ⟨e, by simp, he⟩, hx⟩
      exact List.mem_append_right _ hy
  · rintro (⟨hbounded, hshort | hwrites⟩ | ⟨before, x, after, hsplit, hle, -, hx⟩)
    · rcases spliceEntries_end r.entries hok with ⟨-, hsame⟩ | ⟨-, e, he, hlast⟩
      · rw [hsame]
        exact (le_max_right _ _).trans hshort
      · exact hlast ▸ hbounded e he
    · exact lastIndex_spliceEntries_le hok hbounded hwrites
    · rw [hsplit] at hok
      obtain ⟨hbefore, hrest, hfinal⟩ := spliceEntries_parts before (x :: after) hok
      have hend := lastIndex_spliceEntries_le hrest hle ⟨x, List.mem_cons_self, hx.not_passes hlog hbefore⟩
      rw [← hfinal, ← hsplit] at hend
      exact hend

/-- A follower of term 1 with three entries. -/
def threeEntries : Node :=
  { Node.create { nodeId := "B", peers := ["A", "C"] } {} {} none with
    currentTerm := 1
    log := ⟨[{ index := 1, term := 1 }, { index := 2, term := 1 }, { index := 3, term := 1 }], 3⟩ }

/-- What a leader of term 2 sends that has only the first two of them. -/
def secondEntry : AppendEntriesRequest :=
  { term := 2, leaderId := "A", prevLogIndex := 1, prevLogTerm := 1, entries := [{ index := 2, term := 1 }]
    leaderCommit := 3 }

theorem ordered_threeEntries : threeEntries.log.Ordered :=
  ⟨by simp [threeEntries], fun e he => by cases he; rfl⟩

/-- An entry of the new term in the place of the second one cuts the tail off. -/
theorem append_claims_verified_after_conflict :
    ∃ resp, (threeEntries.handleAppendEntries { secondEntry with entries := [{ index := 2, term := 2 }] }).2 = .ok resp ∧
      resp.success = true ∧ resp.matchIndex ≤ 2 := by
  obtain ⟨resp, h, hs⟩ : ∃ resp,
      (threeEntries.handleAppendEntries { secondEntry with entries := [{ index := 2, term := 2 }] }).2 = .ok resp ∧
        resp.success = true := ⟨_, rfl, rfl⟩
  refine ⟨resp, h, hs, ((append_claims_verified_iff _ _ resp ordered_threeEntries h hs).mpr (.inl ⟨by decide, .inr ?_⟩)).1⟩
  refine ⟨{ index := 2, term := 2 }, List.mem_cons_self, ?_⟩
  rintro (⟨hlt, -⟩ | ⟨x, hread, hterm⟩)
  · exact absurd hlt (by decide)
  · cases hread
    exact absurd hterm (by decide)

/-- A request that finds its entry there claims and commits the third one, which it has
not compared. -/
theorem append_claims_unverified_tail :
    ∃ resp, (threeEntries.handleAppendEntries secondEntry).2 = .ok resp ∧ resp.success = true ∧
      secondEntry.prevLogIndex + secondEntry.entries.length = 2 ∧ resp.matchIndex = 3 ∧
      threeEntries.commitIndex = 0 ∧ (threeEntries.handleAppendEntries secondEntry).1.commitIndex = 3 :=
  ⟨_, rfl, rfl, rfl, rfl, rfl, rfl⟩

end RaftVdb.Node
