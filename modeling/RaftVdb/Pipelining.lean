import RaftVdb.Splice

/-!
# Pipelined requests

A leader has several `AppendEntries` requests to one peer under way, and they arrive in any
order, more than once, and after longer ones. All of them carry slices of one growing log.
The handler only ever cuts off entries that disagree with that log, so what the two logs
have in common grows from call to call.
-/

namespace RaftVdb

open Lib LogRepair

namespace Node

variable {n m : Node} {r : AppendEntriesRequest} {l : List LogEntry} {k : Nat}

/-- The handler is called once for each request. -/
def handleAll (n : Node) (requests : List AppendEntriesRequest) : Node :=
  requests.foldl (fun n r => (n.handleAppendEntries r).1) n

/-- A node without a snapshot whose log matches the log of a leader. -/
structure Matched (l : List LogEntry) (n : Node) : Prop where
  index : n.lastSnapshotIndex = 0
  log : n.log.FromOne
  matching : Matching LogEntry.term n.log.entries l

/-- The first entries of the node are those of the leader. -/
def Agreed (l : List LogEntry) (k : Nat) (n : Node) : Prop :=
  k ≤ n.log.entries.length ∧ n.log.entries.take k = l.take k

theorem Agreed.le_length (h : Agreed l k n) : k ≤ l.length := by
  obtain ⟨hle, htake⟩ := h
  have hlen := congrArg List.length htake
  rw [List.length_take_of_le hle, List.length_take] at hlen
  omega

theorem Agreed.getElem? (h : Agreed l k n) {i : Nat} (hi : i < k) : n.log.entries[i]? = l[i]? := by
  rw [← List.getElem?_take_of_lt hi, h.2, List.getElem?_take_of_lt hi]

theorem agreed_of_take (hk : k ≤ l.length) (hlog : n.log.entries = l.take k) : Agreed l k n := by
  have hlen : n.log.entries.length = k := by rw [hlog, List.length_take_of_le hk]
  refine ⟨Nat.le_of_eq hlen.symm, ?_⟩
  rw [hlog, List.take_take, Nat.min_self]

theorem Agreed.mono {j : Nat} (h : Agreed l k n) (hj : j ≤ k) : Agreed l j n := by
  obtain ⟨hle, htake⟩ := h
  refine ⟨hj.trans hle, ?_⟩
  rw [← Nat.min_eq_left hj, ← List.take_take, htake, List.take_take]

theorem matching_take (l : List LogEntry) (k : Nat) : Matching LogEntry.term (l.take k) l := by
  intro i x y hx hy hterm
  have hi : i < (l.take k).length := (List.getElem?_eq_some_iff.mp hx).1
  rw [List.length_take] at hi
  rw [List.take_take, Nat.min_eq_left (by omega)]

/-- The end of an accepted request leaves the spliced log alone. -/
theorem log_advance (n : Node) (k : Nat) (r : AppendEntriesRequest) :
    ((n.advanceCommit k).dispatchForward r).log = n.log :=
  eq_of_advance Node.log (fun _ _ => rfl) (fun _ _ => rfl) n k r

theorem Matched.congr (h : Matched l n) (hlog : m.log = n.log) (hindex : m.lastSnapshotIndex = n.lastSnapshotIndex) :
    Matched l m :=
  ⟨hindex.trans h.index, hlog ▸ h.log, hlog ▸ h.matching⟩

theorem Agreed.congr (h : Agreed l k n) (hlog : m.log = n.log) : Agreed l k m := by
  unfold Agreed
  rw [hlog]
  exact h

/-- What the entry loop leaves: a log that matches, with at least the entries in common that
were in common, and those of the request. -/
theorem Matched.splice (h : Matched l n) (hr : Carried l r) (hprev : n.rejectPrev r = none)
    (hlog : m.log = (spliceEntries n.lastSnapshotIndex n.log r.entries).log)
    (hindex : m.lastSnapshotIndex = n.lastSnapshotIndex) :
    Matched l m ∧ (∀ k, Agreed l k n → Agreed l k m) ∧ Agreed l (r.prevLogIndex + r.entries.length) m := by
  obtain ⟨-, hfrom, houtcome⟩ := spliceEntries_of_matching h.index h.log h.matching hr hprev
  have hcovered := hr.length_le
  rw [← hlog] at hfrom
  have hshortened : m.log.entries = l.take (r.prevLogIndex + r.entries.length) →
      Matched l m ∧ Agreed l (r.prevLogIndex + r.entries.length) m := by
    intro heq
    exact ⟨⟨hindex.trans h.index, hfrom, heq ▸ matching_take l _⟩, agreed_of_take hcovered heq⟩
  cases houtcome with
  | extended hle htrunc hentries =>
    rw [← hlog] at hentries
    obtain ⟨hmatched, hagreed⟩ := hshortened hentries
    refine ⟨hmatched, ?_, hagreed⟩
    intro k hk
    have hshort := hle.length_le
    rw [List.length_take] at hshort
    exact hagreed.mono (hk.1.trans (by omega))
  | kept hlt hle htrunc hentries =>
    rw [← hlog] at hentries
    refine ⟨⟨hindex.trans h.index, hfrom, hentries ▸ h.matching⟩, ?_, ?_, ?_⟩
    · intro k hk
      unfold Agreed
      rw [hentries]
      exact hk
    · rw [hentries]
      exact Nat.le_of_lt hlt
    · rw [hentries, List.prefix_iff_eq_take.mp hle, List.length_take_of_le hcovered]
  | @replaced j e x hj hlt htake hx he hterm htrunc hentries =>
    rw [← hlog] at hentries
    obtain ⟨hmatched, hagreed⟩ := hshortened hentries
    refine ⟨hmatched, ?_, hagreed⟩
    intro k hk
    have hkj : k ≤ j := by
      by_contra hgt
      have hsame := hk.getElem? (Nat.not_le.mp hgt)
      rw [hx, he] at hsame
      exact hterm (congrArg LogEntry.term (Option.some.inj hsame))
    exact hagreed.mono (by omega)

/-- One call: the logs go on to match, nothing in common is lost, and success covers the
whole slice. -/
theorem Matched.handleAppendEntries (h : Matched l n) (hr : Carried l r) :
    Matched l (n.handleAppendEntries r).1 ∧ (∀ k, Agreed l k n → Agreed l k (n.handleAppendEntries r).1) ∧
      ∀ a, (n.handleAppendEntries r).2 = .ok a → a.success = true →
        Agreed l (r.prevLogIndex + r.entries.length) (n.handleAppendEntries r).1 := by
  rcases n.handleAppendEntries_cases r with ⟨-, hsame, hfail⟩ | ⟨-, noted, hcore, ⟨hsame, hfail⟩ | ⟨hprev, -, hfinish⟩⟩
  · rw [hsame]
    refine ⟨h, fun k hk => hk, ?_⟩
    intro a ha hsuccess
    rw [hfail a ha] at hsuccess
    cases hsuccess
  all_goals
    have hlog : noted.log = n.log := (eq_of_core Node.log (fun _ => rfl) hcore).trans (noted_log ..)
    have hindex : noted.lastSnapshotIndex = n.lastSnapshotIndex :=
      (eq_of_core Node.lastSnapshotIndex (fun _ => rfl) hcore).trans (noted_lastSnapshotIndex ..)
    have hnoted := h.congr hlog hindex
  · rw [hsame]
    refine ⟨hnoted, fun k hk => hk.congr hlog, ?_⟩
    intro a ha hsuccess
    rw [hfail a ha] at hsuccess
    cases hsuccess
  · rw [hfinish]
    rcases noted.finishAppend_cases r with ⟨err, herr, heq⟩ | ⟨-, heq, -⟩
    · obtain ⟨hok, -⟩ := spliceEntries_of_matching hnoted.index hnoted.log hnoted.matching hr hprev
      rw [hok] at herr
      cases herr
    · have hspliced := hnoted.splice (m := (noted.finishAppend r).1) hr hprev (by rw [heq, log_advance])
        (by rw [heq]; exact eq_of_advance Node.lastSnapshotIndex (fun _ _ => rfl) (fun _ _ => rfl) _ _ _)
      obtain ⟨hmatched, hkept, hagreed⟩ := hspliced
      exact ⟨hmatched, fun k hk => hkept k (hk.congr hlog), fun a _ _ => hagreed⟩

/-- Any number of calls. -/
theorem Matched.handleAll (h : Matched l n) {requests : List AppendEntriesRequest} (hr : ∀ r ∈ requests, Carried l r) :
    Matched l (n.handleAll requests) ∧ ∀ k, Agreed l k n → Agreed l k (n.handleAll requests) := by
  induction requests generalizing n with
  | nil => exact ⟨h, fun k hk => hk⟩
  | cons r rest ih =>
    obtain ⟨hmatched, hkept, -⟩ := h.handleAppendEntries (hr r List.mem_cons_self)
    obtain ⟨hmatched', hkept'⟩ := ih hmatched fun q hq => hr q (List.mem_cons_of_mem _ hq)
    exact ⟨hmatched', fun k hk => hkept' k (hkept k hk)⟩

/-- Requests that carry slices of one growing log may come in any order and repeatedly: what
an answer of success covers stands in the log of the peer, then and after all later calls. -/
theorem pipelined_appends_agree (l : List LogEntry) (n : Node) (hindex : n.lastSnapshotIndex = 0) (hlog : n.log.FromOne)
    (hmatching : Matching LogEntry.term n.log.entries l) (before after : List AppendEntriesRequest)
    (r : AppendEntriesRequest) (hslices : ∀ q ∈ before ++ r :: after, ∃ sent, sent <+: l ∧ Carried sent q)
    (a : AppendEntriesResponse) (hanswer : ((n.handleAll before).handleAppendEntries r).2 = .ok a)
    (hsuccess : a.success = true) :
    ∀ i, 1 ≤ i → i ≤ r.prevLogIndex + r.entries.length →
      ∃ e, l[i - 1]? = some e ∧ (n.handleAll (before ++ r :: after)).log.read i = .ok e := by
  have hcarried : ∀ q ∈ before ++ r :: after, Carried l q := by
    intro q hq
    obtain ⟨sent, hsent, hq'⟩ := hslices q hq
    exact hq'.mono hsent
  have hmatched : Matched l n := ⟨hindex, hlog, hmatching⟩
  obtain ⟨hbefore, -⟩ := hmatched.handleAll fun q hq => hcarried q (List.mem_append_left _ hq)
  obtain ⟨hat, -, hagreed⟩ := hbefore.handleAppendEntries (hcarried r (by simp))
  have hlater : ∀ q ∈ after, Carried l q := fun q hq => hcarried q (by simp [hq])
  obtain ⟨hafter, hkept⟩ := hat.handleAll hlater
  have hall : n.handleAll (before ++ r :: after) = (((n.handleAll before).handleAppendEntries r).1).handleAll after := by
    rw [Node.handleAll, List.foldl_append, List.foldl_cons]
    rfl
  rw [hall]
  have hend := hkept _ (hagreed a hanswer hsuccess)
  intro i hpos hi
  have hlt : i - 1 < l.length := by
    have := hend.le_length
    omega
  refine ⟨l[i - 1], List.getElem?_eq_getElem hlt, ?_⟩
  have hread : ((((n.handleAll before).handleAppendEntries r).1).handleAll after).log.entries[i - 1]? = some l[i - 1] := by
    rw [hend.getElem? (by omega), List.getElem?_eq_getElem hlt]
  have := hafter.log.read_eq_ok.mpr hread
  rwa [Nat.sub_add_cancel hpos] at this

/-- The log of the leader of term 2 when it has appended two entries. -/
def growing : List LogEntry := [{ index := 1, term := 1 }, { index := 2, term := 2 }, { index := 3, term := 2 }]

/-- Its entries behind the first one, as many of them as it had. -/
def sliceOfTwo (count : Nat) : AppendEntriesRequest :=
  { term := 2, leaderId := "A", prevLogIndex := 1, prevLogTerm := 1, entries := (growing.drop 1).take count
    leaderCommit := 0 }

def divergent : Node :=
  { Node.create { nodeId := "B", peers := ["A", "C"] } {} {} none with
    currentTerm := 1
    log := ⟨[{ index := 1, term := 1 }, { index := 2, term := 1 }, { index := 3, term := 1 }], 3⟩ }

theorem carried_sliceOfTwo (count : Nat) : Carried growing (sliceOfTwo count) where
  prev_le := show 1 ≤ 3 by decide
  prevTerm := by
    intro i e hi he
    obtain rfl : i = 0 := by
      simp only [sliceOfTwo] at hi
      omega
    cases he
    rfl
  entries := List.take_prefix _ _
  numbered := by
    intro i e he
    simp only [sliceOfTwo, List.getElem?_take] at he
    split at he
    · rcases i with _ | _ | i
      · cases he
        rfl
      · cases he
        rfl
      · cases he
    · cases he

/-- The longer slice replaces the tail, the shorter one comes late and is answered with
success, and the entry behind it is still there. -/
theorem pipelined_appends_agree_after_overtaking :
    ∃ e, growing[1]? = some e ∧ (divergent.handleAll [sliceOfTwo 2, sliceOfTwo 1, sliceOfTwo 0]).log.read 2 = .ok e := by
  obtain ⟨a, hanswer, hsuccess⟩ : ∃ a, ((divergent.handleAll [sliceOfTwo 2]).handleAppendEntries (sliceOfTwo 1)).2 = .ok a ∧
      a.success = true := ⟨_, rfl, rfl⟩
  refine pipelined_appends_agree growing divergent rfl ⟨rfl, ?_⟩ ?_ [sliceOfTwo 2] [sliceOfTwo 0] (sliceOfTwo 1) ?_ a
    hanswer hsuccess 2 (by decide) (by decide)
  · intro i e he
    rcases i with _ | _ | _ | i
    all_goals cases he
    all_goals rfl
  · intro i x y hx hy hterm
    rcases i with _ | _ | _ | i
    · rfl
    · cases hx
      cases hy
      cases hterm
    · cases hx
      cases hy
      cases hterm
    · cases hx
  · intro q hq
    refine ⟨growing, List.prefix_rfl, ?_⟩
    simp only [List.singleton_append, List.mem_cons, List.not_mem_nil, or_false] at hq
    rcases hq with rfl | rfl | rfl
    · exact carried_sliceOfTwo 2
    · exact carried_sliceOfTwo 1
    · exact carried_sliceOfTwo 0

end Node

end RaftVdb
