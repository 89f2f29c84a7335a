import RaftVdb.Frame
import RaftVdb.Lib.LeaderLogs
import RaftVdb.Lib.LogRepair

/-!
# The entry loop

`HandleAppendEntries` walks through the entries of a request, skips those it has, appends
those it misses, and truncates its log at the first one that disagrees. On logs that are
both made of leader logs, and behind a common entry, the outcome is one of three: the
log is extended to the log of the sender, it already goes further and is kept, or its
suffix is replaced.
-/

namespace RaftVdb

open Lib Leaders

namespace Node

/-- The entries have the indices that follow `prev`. -/
def Numbered (prev : Nat) (es : List LogEntry) : Prop := ∀ i e, es[i]? = some e → e.index = prev + i + 1

theorem Numbered.head {prev : Nat} {e : LogEntry} {es : List LogEntry} (h : Numbered prev (e :: es)) :
    e.index = prev + 1 := h 0 e rfl

theorem Numbered.tail {prev : Nat} {e : LogEntry} {es : List LogEntry} (h : Numbered prev (e :: es)) :
    Numbered (prev + 1) es := by
  intro i x hx
  have := h (i + 1) x hx
  omega

variable {log : IndexedLog} {e : LogEntry} {es : List LogEntry} {prev : Nat}

theorem spliceEntry_append (hlog : log.FromOne) (he : e.index = log.entries.length + 1) :
    spliceEntry 0 log e = { log := ⟨log.entries ++ [e], e.index⟩ } := by
  unfold spliceEntry
  rw [if_neg (by simp)]
  obtain ⟨err, herr⟩ := hlog.read_error (le_refl _)
  rw [he, herr]
  simp only [hlog.append_eq he, he]

theorem spliceEntry_same {x : LogEntry} (hlog : log.FromOne) (he : e.index = prev + 1)
    (hx : log.entries[prev]? = some x) (hterm : x.term = e.term) : spliceEntry 0 log e = { log } := by
  unfold spliceEntry
  rw [if_neg (by simp), he, hlog.read_eq_ok.mpr hx]
  simp only [hterm, if_true]

theorem spliceEntry_conflict {x : LogEntry} (hlog : log.FromOne) (he : e.index = prev + 1)
    (hx : log.entries[prev]? = some x) (hterm : x.term ≠ e.term) : spliceEntry 0 log e =
      { log := ⟨log.entries.take prev ++ [e], e.index⟩, truncations := [(prev + 1, log.entries.drop prev)] } := by
  obtain ⟨hlt, -⟩ := List.getElem?_eq_some_iff.mp hx
  have hkept : IndexedLog.FromOne ⟨log.entries.take prev, prev⟩ := hlog.of_take (Nat.le_of_lt hlt)
  have hlen : (log.entries.take prev).length = prev := List.length_take_of_le (Nat.le_of_lt hlt)
  have happend := hkept.append_eq (e := e) (by rw [he, hlen])
  unfold spliceEntry
  rw [if_neg (by simp), he, hlog.read_eq_ok.mpr hx]
  simp only [if_neg hterm, hlog.truncateSuffix_eq hlt, happend, hlen, he]

/-- At the end of the log every entry is appended. -/
theorem spliceEntries_append (hlog : log.FromOne) (hes : Numbered log.entries.length es) :
    (spliceEntries 0 log es).error = none ∧ (spliceEntries 0 log es).truncations = [] ∧
    (spliceEntries 0 log es).log.FromOne ∧ (spliceEntries 0 log es).log.entries = log.entries ++ es := by
  induction es generalizing log with
  | nil => exact ⟨rfl, rfl, hlog, by simp [spliceEntries]⟩
  | cons e es ih =>
    have hnext := hlog.concat hes.head
    obtain ⟨h₁, h₂, h₃, h₄⟩ := ih hnext (by simpa using hes.tail)
    unfold spliceEntries
    simp only [spliceEntry_append hlog hes.head]
    refine ⟨h₁, h₂, h₃, ?_⟩
    rw [if_neg (by simp)]
    dsimp only
    rw [h₄]
    simp

/-- The log during the loop, where `prev` entries are known to be shared. -/
inductive Spliced (log : IndexedLog) (prev : Nat) (es : List LogEntry) (s : Splice) : Prop
  | agrees (hsame : ∀ i e x, es[i]? = some e → log.entries[prev + i]? = some x → x.term = e.term)
      (htrunc : s.truncations = []) (hlog : s.log.entries = log.entries ++ es.drop (log.entries.length - prev))
  | conflicts {k : Nat} {e x : LogEntry} (he : es[k]? = some e) (hx : log.entries[prev + k]? = some x)
      (hterm : x.term ≠ e.term)
      (hsame : ∀ i e x, i < k → es[i]? = some e → log.entries[prev + i]? = some x → x.term = e.term)
      (htrunc : s.truncations = [(prev + k + 1, log.entries.drop (prev + k))])
      (hlog : s.log.entries = log.entries.take (prev + k) ++ es.drop k)

theorem spliceEntries_spliced (hlog : log.FromOne) (hprev : prev ≤ log.entries.length) (hes : Numbered prev es) :
    (spliceEntries 0 log es).error = none ∧ (spliceEntries 0 log es).log.FromOne ∧
    Spliced log prev es (spliceEntries 0 log es) := by
  induction es generalizing log prev with
  | nil => exact ⟨rfl, hlog, .agrees (by simp) rfl (by simp [spliceEntries])⟩
  | cons e es ih =>
    rcases Nat.eq_or_lt_of_le hprev with rfl | hlt
    · obtain ⟨h₁, h₂, h₃, h₄⟩ := spliceEntries_append hlog hes
      refine ⟨h₁, h₃, .agrees (fun i e x _ hx => ?_) h₂ (by simpa using h₄)⟩
      rw [List.getElem?_eq_none (by omega)] at hx
      cases hx
    have hx : log.entries[prev]? = some log.entries[prev] := List.getElem?_eq_getElem hlt
    generalize log.entries[prev] = x at hx
    by_cases hterm : x.term = e.term
    · obtain ⟨h₁, h₂, h₃⟩ := ih hlog hlt hes.tail
      have hstep : spliceEntries 0 log (e :: es) = spliceEntries 0 log es := by
        conv_lhs => unfold spliceEntries
        simp only [spliceEntry_same hlog hes.head hx hterm]
        rw [if_neg (by simp)]
        rfl
      rw [hstep]
      refine ⟨h₁, h₂, ?_⟩
      have hshift : ∀ {i : Nat}, prev + (i + 1) = prev + 1 + i := by omega
      cases h₃ with
      | agrees hsame htrunc hlog' =>
        refine .agrees (fun i e' x' he' hx' => ?_) htrunc ?_
        · cases i with
          | zero =>
            obtain rfl : e = e' := by simpa using he'
            obtain rfl : x = x' := by simpa [hx] using hx'
            exact hterm
          | succ i => exact hsame i e' x' (by simpa using he') (by rw [← hshift]; exact hx')
        · rw [hlog', show log.entries.length - prev = log.entries.length - (prev + 1) + 1 by omega, List.drop_succ_cons]
      | conflicts he' hx' hterm' hsame htrunc hlog' =>
        refine .conflicts (k := _ + 1) (by simpa using he') (by rw [hshift]; exact hx') hterm' ?_ ?_ ?_
        · intro i e'' x'' hik he'' hx''
          cases i with
          | zero =>
            obtain rfl : e = e'' := by simpa using he''
            obtain rfl : x = x'' := by simpa [hx] using hx''
            exact hterm
          | succ i => exact hsame i e'' x'' (by omega) (by simpa using he'') (by rw [← hshift]; exact hx'')
        · rw [htrunc, hshift]
        · rw [hlog', hshift, List.drop_succ_cons]
    · have hlen : (log.entries.take prev).length = prev := List.length_take_of_le hprev
      have hnext : IndexedLog.FromOne ⟨log.entries.take prev ++ [e], e.index⟩ :=
        (hlog.of_take hprev).concat (by rw [hes.head, hlen])
      obtain ⟨h₁, h₂, h₃, h₄⟩ := spliceEntries_append hnext (by simpa [hlen] using hes.tail)
      unfold spliceEntries
      simp only [spliceEntry_conflict hlog hes.head hx hterm]
      rw [if_neg (by simp)]
      refine ⟨h₁, h₃, .conflicts (k := 0) rfl hx hterm (by simp) ?_ ?_⟩
      · simp [h₂]
      · simp [h₄]

/-- The request carries the entries of a log behind an index. -/
structure Carried (l : List LogEntry) (r : AppendEntriesRequest) : Prop where
  prev_le : r.prevLogIndex ≤ l.length
  prevTerm : ∀ i e, r.prevLogIndex = i + 1 → l[i]? = some e → r.prevLogTerm = e.term
  entries : r.entries <+: l.drop r.prevLogIndex
  numbered : Numbered r.prevLogIndex r.entries

variable {n : Node} {r : AppendEntriesRequest} {l : List LogEntry}

theorem Carried.entries_eq (h : Carried l r) : r.entries = (l.drop r.prevLogIndex).take r.entries.length :=
  List.prefix_iff_eq_take.mp h.entries

theorem Carried.length_le (h : Carried l r) : r.prevLogIndex + r.entries.length ≤ l.length := by
  have hlen := h.entries.length_le
  have hprev := h.prev_le
  rw [List.length_drop] at hlen
  omega

/-- The log may have grown since. -/
theorem Carried.mono (h : Carried l r) {l' : List LogEntry} (hl : l <+: l') : Carried l' r := by
  obtain ⟨rest, rfl⟩ := hl
  refine ⟨?_, fun i e hi he => ?_, ?_, h.numbered⟩
  · rw [List.length_append]
    exact Nat.le_add_right_of_le h.prev_le
  · have hlt : i < l.length := by
      have := h.prev_le
      omega
    rw [List.getElem?_append_left hlt] at he
    exact h.prevTerm i e hi he
  · rw [List.drop_append_of_le_length h.prev_le]
    exact h.entries.trans (List.prefix_append _ _)

theorem termAt_of_noSnapshot (hsnap : n.lastSnapshotIndex = 0) (i : Nat) : n.termAtLogicalIndex i = n.log.termAt i := by
  unfold termAtLogicalIndex
  rw [hsnap]
  by_cases hi : i = 0
  · simp [hi, IndexedLog.termAt]
  · simp [hi]

theorem lastIndex_of_noSnapshot (hsnap : n.lastSnapshotIndex = 0) (hlog : n.log.FromOne) :
    n.logicalLastIndex = n.log.entries.length := by
  unfold logicalLastIndex
  rw [hsnap, hlog.last, Nat.zero_max]

/-- What a sender puts into a request is a piece of its log. -/
theorem Carries.carried (h : n.Carries r) (hsnap : n.lastSnapshotIndex = 0) (hlog : n.log.FromOne) :
    Carried n.log.entries r := by
  obtain ⟨next, batch, hprev, hterm, hentries, hreach⟩ := h.piece
  rw [termAt_of_noSnapshot hsnap] at hterm hreach
  rw [lastIndex_of_noSnapshot hsnap hlog] at hreach
  have hle : next - 1 ≤ n.log.entries.length := by
    rcases hreach with hlast | ⟨term, hok⟩
    · omega
    · cases hnext : next - 1 with
      | zero => exact Nat.zero_le _
      | succ i =>
        rw [hnext, hlog.termAt_eq_ok] at hok
        obtain ⟨e, he, -⟩ := hok
        exact (List.getElem?_eq_some_iff.mp he).1
  have hpiece : r.entries <+: n.log.entries.drop (next - 1) := by
    rw [hentries]
    rcases hlog.readFrom_getD next batch with hnil | ⟨-, hread⟩
    · rw [hnil]
      exact List.nil_prefix
    · rw [hread]
      exact List.take_prefix _ _
  refine ⟨hprev ▸ hle, fun i e hi he => ?_, hprev ▸ hpiece, fun i e he => ?_⟩
  · rw [hprev] at hi
    rw [hterm, hi, hlog.termAt_eq_ok.mpr ⟨e, he, rfl⟩]
    rfl
  · obtain ⟨rest, hrest⟩ := hpiece
    have hget : n.log.entries[next - 1 + i]? = some e := by
      rw [← List.getElem?_drop, ← hrest]
      rw [List.getElem?_append_left (List.getElem?_eq_some_iff.mp he).1]
      exact he
    rw [hprev]
    exact hlog.index _ e hget

/-- A request is not rejected if and only if the log has its previous entry. -/
theorem rejectPrev_eq_none (hsnap : n.lastSnapshotIndex = 0) (hlog : n.log.FromOne) : n.rejectPrev r = none ↔
    r.prevLogIndex ≤ n.log.entries.length ∧
    ∀ i, r.prevLogIndex = i + 1 → ∃ e, n.log.entries[i]? = some e ∧ e.term = r.prevLogTerm := by
  unfold rejectPrev
  dsimp only
  rw [lastIndex_of_noSnapshot hsnap hlog, hsnap, termAt_of_noSnapshot hsnap]
  by_cases hgt : r.prevLogIndex > n.log.entries.length
  · rw [if_pos hgt]
    exact ⟨fun h => (by cases h), fun h => absurd h.1 (Nat.not_le_of_lt hgt)⟩
  rw [if_neg hgt, if_neg (by simp)]
  cases hprev : r.prevLogIndex with
  | zero => simp
  | succ i =>
    rw [hprev] at hgt
    have hlt : i < n.log.entries.length := by omega
    have he : n.log.entries[i]? = some n.log.entries[i] := List.getElem?_eq_getElem hlt
    generalize n.log.entries[i] = e at he
    rw [if_neg (Nat.succ_ne_zero i), hlog.termAt_eq_ok.mpr ⟨e, he, rfl⟩]
    simp only [Nat.succ_le_of_lt hlt, true_and, Nat.add_right_cancel_iff]
    by_cases hterm : e.term = r.prevLogTerm
    · simp [hterm, he]
    · simp [hterm, he]

/-- Nothing but the log decides about the rejection. -/
theorem rejectPrev_congr {m : Node} (hsnap : n.lastSnapshotIndex = 0) (hlog : n.log.FromOne)
    (hsnap' : m.lastSnapshotIndex = 0) (hlog' : m.log = n.log) (h : m.rejectPrev r = none) : n.rejectPrev r = none := by
  rw [rejectPrev_eq_none hsnap' (hlog' ▸ hlog), hlog'] at h
  exact (rejectPrev_eq_none hsnap hlog).mpr h

/-- What the entry loop makes of a log, when the request carries a piece of `l`. -/
inductive Outcome (log l : List LogEntry) (prev count : Nat) (s : Splice) : Prop
  | extended (hle : log <+: l.take (prev + count)) (htrunc : s.truncations = [])
      (hlog : s.log.entries = l.take (prev + count))
  | kept (hlt : prev + count < log.length) (hle : l.take (prev + count) <+: log) (htrunc : s.truncations = [])
      (hlog : s.log.entries = log)
  | replaced {j : Nat} {e x : LogEntry} (hj : prev ≤ j) (hlt : j < prev + count) (htake : log.take j = l.take j)
      (hx : log[j]? = some x) (he : l[j]? = some e) (hterm : x.term ≠ e.term)
      (htrunc : s.truncations = [(j + 1, log.drop j)]) (hlog : s.log.entries = l.take (prev + count))

/-- A piece of a log, appended to what comes before it. -/
theorem take_append_piece (l : List LogEntry) {prev count k : Nat} (hprev : prev ≤ k) (hk : k ≤ prev + count) :
    l.take k ++ ((l.drop prev).take count).drop (k - prev) = l.take (prev + count) := by
  rw [List.drop_take, List.drop_drop, show prev + (k - prev) = k by omega,
    show prev + count = k + (count - (k - prev)) by omega, List.take_add]

theorem Spliced.outcome {s : Splice} {log : IndexedLog} (h : Spliced log r.prevLogIndex r.entries s)
    (hr : Carried l r) (hmatch : LogRepair.Matching LogEntry.term log.entries l)
    (hprev : log.entries.take r.prevLogIndex = l.take r.prevLogIndex) (hle : r.prevLogIndex ≤ log.entries.length) :
    Outcome log.entries l r.prevLogIndex r.entries.length s := by
  have hget : ∀ {i e}, r.entries[i]? = some e → l[r.prevLogIndex + i]? = some e := by
    intro i e he
    obtain ⟨rest, hrest⟩ := hr.entries
    rw [← List.getElem?_drop, ← hrest, List.getElem?_append_left (List.getElem?_eq_some_iff.mp he).1]
    exact he
  have hagree : ∀ k, (∀ i e x, i < k → r.entries[i]? = some e → log.entries[r.prevLogIndex + i]? = some x →
      x.term = e.term) → k ≤ r.entries.length → r.prevLogIndex + k ≤ log.entries.length →
      log.entries.take (r.prevLogIndex + k) = l.take (r.prevLogIndex + k) := by
    intro k hsame hk hlen
    cases k with
    | zero => exact hprev
    | succ k =>
      have he : r.entries[k]? = some r.entries[k] := List.getElem?_eq_getElem (by omega)
      have hx : log.entries[r.prevLogIndex + k]? = some log.entries[r.prevLogIndex + k] :=
        List.getElem?_eq_getElem (by omega)
      exact hmatch _ _ _ hx (hget he) (hsame k _ _ (Nat.lt_succ_self k) he hx)
  have hpiece : ∀ k, r.prevLogIndex ≤ k → k ≤ r.prevLogIndex + r.entries.length →
      l.take k ++ r.entries.drop (k - r.prevLogIndex) = l.take (r.prevLogIndex + r.entries.length) := by
    intro k hk hk'
    have hdrop : r.entries.drop (k - r.prevLogIndex) =
        ((l.drop r.prevLogIndex).take r.entries.length).drop (k - r.prevLogIndex) := by
      rw [← hr.entries_eq]
    rw [hdrop, take_append_piece l hk hk']
  cases h with
  | agrees hsame htrunc hs =>
    rcases Nat.lt_or_ge (r.prevLogIndex + r.entries.length) log.entries.length with hlong | hshort
    · have hall := hagree r.entries.length (fun i e x _ => hsame i e x) (le_refl _) (Nat.le_of_lt hlong)
      refine .kept hlong ?_ htrunc ?_
      · rw [← hall]
        exact List.take_prefix _ _
      · rw [hs, List.drop_eq_nil_of_le (by omega), List.append_nil]
    · have hall := hagree (log.entries.length - r.prevLogIndex) (fun i e x _ => hsame i e x) (by omega) (by omega)
      rw [show r.prevLogIndex + (log.entries.length - r.prevLogIndex) = log.entries.length by omega,
        List.take_length] at hall
      have hresult : log.entries ++ r.entries.drop (log.entries.length - r.prevLogIndex) =
          l.take (r.prevLogIndex + r.entries.length) := by
        conv_lhs => rw [hall]
        rw [show (l.take log.entries.length).length = log.entries.length by rw [← hall]]
        exact hpiece _ hle hshort
      refine .extended ?_ htrunc (hs.trans hresult)
      rw [← hresult]
      exact List.prefix_append _ _
  | @conflicts k e x he hx hterm hsame htrunc hs =>
    have hk := (List.getElem?_eq_some_iff.mp he).1
    have hlt := (List.getElem?_eq_some_iff.mp hx).1
    have hall := hagree _ hsame (Nat.le_of_lt hk) (Nat.le_of_lt hlt)
    refine .replaced (Nat.le_add_right _ _) (by omega) hall hx (hget he) hterm htrunc ?_
    rw [hs, hall, ← hpiece (r.prevLogIndex + k) (Nat.le_add_right _ _) (by omega), Nat.add_sub_cancel_left]

/-- The entry loop, on logs that match. -/
theorem spliceEntries_of_matching (hsnap : n.lastSnapshotIndex = 0) (hlog : n.log.FromOne)
    (hmatch : LogRepair.Matching LogEntry.term n.log.entries l) (hr : Carried l r) (hok : n.rejectPrev r = none) :
    (spliceEntries n.lastSnapshotIndex n.log r.entries).error = none ∧
    (spliceEntries n.lastSnapshotIndex n.log r.entries).log.FromOne ∧
    Outcome n.log.entries l r.prevLogIndex r.entries.length (spliceEntries n.lastSnapshotIndex n.log r.entries) := by
  obtain ⟨hle, hterm⟩ := (rejectPrev_eq_none hsnap hlog).mp hok
  rw [hsnap]
  obtain ⟨herr, hfrom, hspliced⟩ := spliceEntries_spliced hlog hle hr.numbered
  refine ⟨herr, hfrom, hspliced.outcome hr hmatch ?_ hle⟩
  cases hprev : r.prevLogIndex with
  | zero => rfl
  | succ i =>
    obtain ⟨x, hx, hxterm⟩ := hterm i hprev
    have hlt : i < l.length := by
      have := hr.prev_le
      omega
    have he : l[i]? = some l[i] := List.getElem?_eq_getElem hlt
    exact hmatch i _ _ hx he (hxterm.trans (hr.prevTerm i _ hprev he))

/-- The entry loop, on logs made of leader logs. -/
theorem spliceEntries_outcome {w : Leaders LogEntry} (hsnap : n.lastSnapshotIndex = 0) (hlog : n.log.FromOne)
    (hmatch : Matches LogEntry.term w n.log.entries) (hl : Matches LogEntry.term w l) (hr : Carried l r)
    (hok : n.rejectPrev r = none) :
    (spliceEntries n.lastSnapshotIndex n.log r.entries).error = none ∧
    (spliceEntries n.lastSnapshotIndex n.log r.entries).log.FromOne ∧
    Outcome n.log.entries l r.prevLogIndex r.entries.length (spliceEntries n.lastSnapshotIndex n.log r.entries) :=
  spliceEntries_of_matching hsnap hlog (fun _ _ _ hx he hterm => hmatch.take_eq hl hx he hterm) hr hok

end Node

end RaftVdb
