import RaftVdb.WalHistory

/-!
# Reopening a write-ahead log

`WAL::Open` rebuilds `last_index_` from the files. For a log with entries that is the
index of the last one, as it was. For an empty log it is the index before the start of
the only segment, while the calls that empty a log set `last_index_` in other ways:
`TruncateBefore` to 0, and `TruncateSuffix` to the index before its own, even when the
segment that it cuts starts earlier. A log whose calls avoid these cases cannot be told
from the one that `WAL::Open` makes of its directory.
-/

namespace RaftVdb.Wal

open Lib

variable {codec : EntryCodec} {w w' : Wal} {chunks : List Chunk}

/-- Which entries of a sequence `Append` accepts. -/
def accepted (codec : EntryCodec) (w : Wal) : List LogEntry → List Bool
  | [] => []
  | e :: entries => match w.append codec e with
    | .ok w' => true :: accepted codec w' entries
    | .error _ => false :: accepted codec w entries

/-- The call does not leave an empty log whose `last_index_` is not the one that its
segment stands for. -/
def Steady (w : Wal) : Call → Prop
  | .append entry => Known entry ∧ (w.offsetIndex.size = 0 → w.start ≤ entry.index)
  | .truncateBefore index => if w.offsetIndex.size = 0 then w.lastIndex = 0 else index ≤ w.lastIndex
  | .truncateSuffix index => w.offsetIndex.size = 0 ∨ w.lastIndex < index ∨ index ≤ w.start ∨
      ∃ i ∈ w.offsetIndex.keys, i < index
  | _ => True

instance (w : Wal) : (c : Call) → Decidable (Steady w c)
  | .append _ => inferInstanceAs (Decidable (_ ∧ (_ → _)))
  | .truncateBefore index =>
    inferInstanceAs (Decidable (if w.offsetIndex.size = 0 then w.lastIndex = 0 else index ≤ w.lastIndex))
  | .truncateSuffix index => inferInstanceAs (Decidable (_ ∨ _ ∨ _ ∨ ∃ i ∈ w.offsetIndex.keys, i < index))
  | .flush | .close | .reopen _ _ => isTrue trivial

/-- The empty log is as `WAL::Open` would leave it. -/
structure Settled (codec : EntryCodec) (w : Wal) (chunks : List Chunk) : Prop where
  layout : Layout codec w chunks
  empty : logOf chunks = [] → ∀ c ∈ chunks, 1 ≤ c.start ∧ w.lastIndex = c.start - 1 ∧ c.seg.lastIndex = c.start - 1

theorem Layout.start_eq (h : Layout codec w chunks) {c : Chunk} {rest : List Chunk} (hchunks : chunks = c :: rest) :
    w.start = c.start := by
  rw [h.start, hchunks]
  rfl

/-- An empty log has one segment. -/
theorem Filled.eq_singleton (h : Filled chunks) (hnil : logOf chunks = []) : ∃ c, chunks = [c] ∧ c.entries = [] := by
  rcases h with hone | ⟨hne, hall⟩
  · exact hone
  · obtain ⟨c, hc⟩ := List.exists_mem_of_ne_nil _ hne
    obtain ⟨e, he⟩ := List.exists_mem_of_ne_nil _ (hall c hc)
    have hmem : e ∈ logOf chunks := List.mem_flatMap.mpr ⟨c, hc, he⟩
    rw [hnil] at hmem
    cases hmem

/-- `Append` from the start of the segment on, if the log is empty. -/
theorem Layout.append_at {e : LogEntry} (h : Layout codec w chunks) (hok : w.append codec e = .ok w')
    (hknown : Known e) (hround : codec.RoundTrips e)
    (hfirst : w.offsetIndex.size = 0 → 1 ≤ e.index ∧ w.start ≤ e.index) :
    ∃ chunks', Layout codec w' chunks' ∧ logOf chunks' = logOf chunks ++ [e] := by
  have hstart : logOf chunks = [] → ∀ c ∈ chunks, c.start ≤ e.index := by
    intro hnil c hc
    obtain ⟨d, rfl, -⟩ := h.filled.eq_singleton hnil
    have hle := (hfirst (h.size_eq_zero.mpr hnil)).2
    rw [h.start_eq rfl] at hle
    rw [List.mem_singleton.mp hc]
    exact hle
  have hpos : 1 ≤ e.index := by
    by_cases hnil : logOf chunks = []
    · exact (hfirst (h.size_eq_zero.mpr hnil)).1
    · have hnext := (accepts_of_append hok).1 (fun hz => hnil (h.size_eq_zero.mp hz))
      omega
  obtain ⟨chunks', -, h', hlog, -⟩ := h.append_ok hok hstart hpos hknown hround
  exact ⟨chunks', h', hlog⟩

theorem Settled.append {e : LogEntry} (h : Settled codec w chunks) (hok : w.append codec e = .ok w')
    (hsteady : Steady w (.append e)) (hround : codec.RoundTrips e) : ∃ chunks', Settled codec w' chunks' := by
  have hfirst : w.offsetIndex.size = 0 → 1 ≤ e.index ∧ w.start ≤ e.index := by
    intro hsize
    have hnil := h.layout.size_eq_zero.mp hsize
    obtain ⟨c, hc, -⟩ := h.layout.filled.eq_singleton hnil
    have hpos := (h.empty hnil c (by rw [hc]; simp)).1
    have hle := hsteady.2 hsize
    rw [h.layout.start_eq hc] at hle ⊢
    omega
  obtain ⟨chunks', h', hlog⟩ := h.layout.append_at hok hsteady.1 hround hfirst
  refine ⟨chunks', h', fun hnil => ?_⟩
  rw [hlog] at hnil
  simp at hnil

theorem Settled.truncateBefore {k : Nat} (h : Settled codec w chunks) (hok : w.truncateBefore k = .ok w')
    (hsteady : Steady w (.truncateBefore k)) : ∃ chunks', Settled codec w' chunks' := by
  obtain ⟨gone, kept, hsplit⟩ := h.layout.toRegular.exists_split h.layout.lasts k
  obtain ⟨w₁, hok', h', hlast, -⟩ := h.layout.truncateBefore hsplit
  rw [hok] at hok'
  cases hok'
  obtain ⟨hchunks, hgone, -⟩ := hsplit
  by_cases hnil : logOf chunks = []
  · obtain ⟨c, hc, hentries⟩ := h.layout.filled.eq_singleton hnil
    obtain ⟨hpos, hlastc, hseg⟩ := h.empty hnil c (by rw [hc]; simp)
    have hzero : w.lastIndex = 0 := by
      rwa [Steady, if_pos (h.layout.size_eq_zero.mpr hnil)] at hsteady
    have hends : endsBefore k c.seg = false := by
      rw [endsBefore, hseg, ← hlastc, hzero]
      rfl
    have hgonenil : gone = [] := by
      rw [List.eq_nil_iff_forall_not_mem]
      intro d hd
      have hdc : d ∈ chunks := by rw [hchunks]; exact List.mem_append_left _ hd
      rw [hc, List.mem_singleton] at hdc
      have := hgone d hd
      rw [hdc, hends] at this
      cases this
    have hkeptc : kept = [c] := by rw [← hc, hchunks, hgonenil, List.nil_append]
    rw [hkeptc, show logOf [c] = c.entries by simp [logOf], hentries] at hlast
    refine ⟨_, h', fun _ d hd => ?_⟩
    rw [hkeptc, keptChunks, if_neg (List.cons_ne_nil _ _), List.mem_singleton] at hd
    rw [hd, hlast]
    refine ⟨hpos, ?_, hseg⟩
    rw [← hlastc, hzero]
    rfl
  · obtain ⟨last, hget⟩ := Option.isSome_iff_exists.mp (List.getLast?_isSome.mpr hnil)
    have hk : k ≤ last.index := by
      rw [Steady, if_neg (fun hz => hnil (h.layout.size_eq_zero.mp hz)), h.layout.last last hget] at hsteady
      exact hsteady
    obtain ⟨chunks'', h'', -, hkeep, -, -⟩ := History.truncateBefore_ok h.layout hok
    have hmem := hkeep last (List.mem_of_getLast? hget) hk
    exact ⟨chunks'', h'', fun hempty => by rw [hempty] at hmem; cases hmem⟩

theorem Settled.truncateSuffix {k : Nat} (h : Settled codec w chunks) (hok : w.truncateSuffix k = .ok w')
    (hsteady : Steady w (.truncateSuffix k)) : ∃ chunks', Settled codec w' chunks' := by
  have hk : k ≠ 0 := by
    rintro rfl
    cases hok
  rcases h.layout.truncateSuffix_ok hok with ⟨rfl, -⟩ | ⟨before, c, rest, front, x, rear, hcut, h', hlast, -⟩
  · exact ⟨chunks, h⟩
  · refine ⟨_, h', fun hnil d hd => ?_⟩
    rw [hcut.logOf_cutChunks codec h.layout.ascending] at hnil
    obtain ⟨hbefore, hfront⟩ := List.append_eq_nil_iff.mp hnil
    have hbeforenil : before = [] := by
      rw [List.eq_nil_iff_forall_not_mem]
      intro b hb
      obtain ⟨e, he⟩ := List.exists_mem_of_ne_nil _ (hcut.entries_ne_nil h.layout.filled (hcut.mem_before hb))
      have hmem : e ∈ logOf before := List.mem_flatMap.mpr ⟨b, hb, he⟩
      rw [hbefore] at hmem
      cases hmem
    have hchunks : chunks = c :: rest := by rw [hcut.chunks, hbeforenil, List.nil_append]
    have hlog : ∀ e ∈ logOf chunks, k ≤ e.index := by
      have hfilter := hcut.filter_log
      rw [hnil, List.filter_eq_nil_iff] at hfilter
      intro e he
      simpa using hfilter e he
    have hstart : k ≤ c.start := by
      rcases hsteady with hzero | hlt | hle | ⟨i, hi, hlt⟩
      · rw [h.layout.size_eq_zero, hcut.logOf_eq] at hzero
        simp at hzero
      · have hle := h.layout.ordered.le_last (e := x) (show x ∈ logOf chunks by rw [hcut.logOf_eq]; simp)
        have := hcut.le
        change x.index ≤ w.lastIndex at hle
        omega
      · rwa [h.layout.start_eq hchunks] at hle
      · rw [Table.keys, h.layout.rows, List.map_map] at hi
        obtain ⟨p, hp, rfl⟩ := List.mem_map.mp hi
        have := hlog p.1 (mem_logOf_iff.mpr ⟨p, hp, rfl⟩)
        simp only [Function.comp_apply, row] at hlt
        omega
    rw [cutChunks, if_pos hstart, if_pos hbeforenil, List.mem_singleton] at hd
    rw [hlast, hnil, hd]
    exact ⟨by change 1 ≤ k; omega, rfl, rfl⟩

theorem Settled.reopen {start size : Nat} (h : Settled codec w chunks)
    (hok : openWal codec w.dir start size = .ok w') : Settled codec w' (chunks.map (Chunk.reopened codec)) := by
  obtain ⟨h', -, hlast⟩ := History.reopen_ok h.layout hok
  refine ⟨h', ?_⟩
  rw [logOf_reopened]
  intro hnil d hd
  obtain ⟨c, rfl, hentries⟩ := h.layout.filled.eq_singleton hnil
  rw [List.map_singleton, List.mem_singleton] at hd
  have hclast : c.last = c.start - 1 := by rw [Chunk.last, hentries]; rfl
  rw [hd, hlast c rfl, hclast]
  exact ⟨(h.empty hnil c (by simp)).1, rfl, hclast⟩

theorem settled_call {c : Call} (h : ∃ chunks, Settled codec w chunks)
    (hround : ∀ e, c = .append e → codec.RoundTrips e)
    (hcall : Transition.restrict Steady (call codec) w c = some w') : ∃ chunks, Settled codec w' chunks := by
  obtain ⟨hsteady, hcall⟩ := Transition.restrict_eq_some.mp hcall
  obtain ⟨chunks, h⟩ := h
  cases c with
  | append e => exact h.append (Transition.ok_of_toOption hcall) hsteady (hround e rfl)
  | flush =>
    obtain ⟨h', hlast, -⟩ := h.layout.flush (Transition.ok_of_toOption hcall)
    exact ⟨chunks, h', by rw [hlast]; exact h.empty⟩
  | truncateBefore k => exact h.truncateBefore (Transition.ok_of_toOption hcall) hsteady
  | truncateSuffix k => exact h.truncateSuffix (Transition.ok_of_toOption hcall) hsteady
  | close =>
    cases hcall
    exact ⟨chunks, h.layout.closed, h.empty⟩
  | reopen start size => exact ⟨_, h.reopen (Transition.ok_of_toOption hcall)⟩

/-- Whatever the segments are, there is one to append to. -/
theorem ensureActive_ok (w : Wal) (i size : Nat) : ∃ w₁ fd active, w.ensureActiveSegmentForAppend i size = .ok w₁ ∧
    w₁.fd = some fd ∧ w₁.segments.getLast? = some active := by
  unfold ensureActiveSegmentForAppend
  generalize hw₀ : (if w.segments = [] then w.createFreshSegment i else w) = w₀
  have hne : w₀.segments ≠ [] := by
    rw [← hw₀]
    split
    · simp [createFreshSegment]
    · next hne => exact hne
  obtain ⟨active, hactive⟩ := Option.isSome_iff_exists.mp (List.getLast?_isSome.mpr hne)
  simp only
  split
  · exact ⟨_, _, _, Session.rotateSegment_eq w₀ i, rfl, List.getLast?_concat⟩
  · split
    · refine ⟨{ w₀ with dir := w₀.dir.tryEmplace active.startIndex {}, fd := some ⟨active.startIndex, active.sizeBytes⟩ },
        ⟨active.startIndex, active.sizeBytes⟩, active, ?_, rfl, hactive⟩
      rw [openActiveSegmentForAppend, hactive]
    · next fd hfd => exact ⟨w₀, fd, active, rfl, hfd, hactive⟩

/-- `Append` refuses an entry only for its index or its bytes. -/
theorem append_of_accepts {e : LogEntry} (h : Session.Accepts codec w e) :
    ∃ w₁, w.append codec e = .ok w₁ ∧ w₁.lastIndex = e.index ∧ w₁.offsetIndex.size ≠ 0 := by
  obtain ⟨hindex, hpayload, hlength⟩ := h
  obtain ⟨w₁, fd, active, hensure, hfd, hactive⟩ :=
    ensureActive_ok w e.index (record (codec.serialize e)).length
  refine ⟨w₁.writeRecord fd active e.index (codec.serialize e), ?_, rfl, ?_⟩
  · rw [Wal.append, if_neg (fun hn => hn.2 (hindex hn.1))]
    simp only
    rw [if_neg hpayload, if_neg (by omega), hensure]
    simp only [hfd, hactive]
  · exact Table.size_ne_zero_of_mem ((Table.mem_keys_insert ..).mpr (.inl rfl))

/-- The decisions depend on `last_index_` and on whether there is an entry. -/
theorem accepted_congr {v : Wal} (entries : List LogEntry) (hlast : v.lastIndex = w.lastIndex)
    (hsize : v.offsetIndex.size = 0 ↔ w.offsetIndex.size = 0) : accepted codec v entries = accepted codec w entries := by
  induction entries generalizing v w with
  | nil => rfl
  | cons e entries ih =>
    have hiff : Session.Accepts codec v e ↔ Session.Accepts codec w e := by
      rw [Session.Accepts, Session.Accepts, hlast, Ne, hsize]
    by_cases hacc : Session.Accepts codec w e
    · obtain ⟨v₁, hv, hvlast, hvsize⟩ := append_of_accepts (hiff.mpr hacc)
      obtain ⟨w₁, hw, hwlast, hwsize⟩ := append_of_accepts hacc
      rw [accepted, accepted, hv, hw]
      exact congrArg (true :: ·) (ih (hvlast.trans hwlast.symm) (by simp [hvsize, hwsize]))
    · obtain ⟨m, hv⟩ := Session.append_error fun h => hacc (hiff.mp h)
      obtain ⟨m', hw⟩ := Session.append_error hacc
      rw [accepted, accepted, hv, hw]
      exact congrArg (false :: ·) (ih hlast hsize)

/-- Reopening is the identity: after a run whose calls are all steady, `WAL::Open` on the
directory gives the same `LastIndex()`, the same results of `Read` and `TermAt` for every
index, and the same decisions on every sequence of appended entries. -/
theorem reopen_identity (codec : EntryCodec) (size : Nat) (w w' : Wal) (calls : List Call)
    (hopen : openWal codec ∅ 1 size = .ok w) (hround : ∀ e, .append e ∈ calls → codec.RoundTrips e)
    (hrun : Transition.run (Transition.restrict Steady (call codec)) w calls = some w') (start : Nat) :
    ∃ v, openWal codec w'.close.dir start w'.segmentSizeBytes = .ok v ∧ v.lastIndex = w'.lastIndex ∧
      (∀ i, v.read codec i = w'.read codec i) ∧ (∀ i, v.termAt codec i = w'.termAt codec i) ∧
      ∀ entries, accepted codec v entries = accepted codec w' entries := by
  have hinit : Settled codec w [fresh 1] := by
    refine ⟨(layout_open_empty hopen).1, fun _ c hc => ?_⟩
    rw [List.mem_singleton.mp hc, (layout_open_empty hopen).2.1]
    exact ⟨Nat.le_refl 1, rfl, rfl⟩
  obtain ⟨chunks, h⟩ := Transition.run_invariant_of_mem (fun w => ∃ chunks, Settled codec w chunks)
    (fun c hc _ _ h => settled_call h fun e he => hround e (he ▸ hc)) ⟨_, hinit⟩ hrun
  obtain ⟨v, hv, hlayout, -, -, hlast⟩ := openWal_layout start h.layout.size h.layout.toRegular h.layout.files
  have hlog := logOf_reopened codec chunks
  have hlastIndex : v.lastIndex = w'.lastIndex := by
    obtain ⟨active, hactive⟩ := Option.isSome_iff_exists.mp (List.getLast?_isSome.mpr h.layout.filled.ne_nil)
    rw [hlast active hactive]
    have hget := h.layout.filled.getLast?_logOf hactive
    cases he : active.entries.getLast? with
    | none =>
      rw [he, List.getLast?_eq_none_iff] at hget
      rw [Chunk.last, he, (h.empty hget active (List.mem_of_getLast? hactive)).2.1]
      rfl
    | some e =>
      rw [he] at hget
      rw [Chunk.last, he, h.layout.last e hget]
      rfl
  have hread : ∀ i, v.read codec i = w'.read codec i := by
    intro i
    rw [hlayout.readable.read_eq 0, h.layout.readable.read_eq 0, hlog]
  refine ⟨v, hv, hlastIndex, hread, ?_, ?_⟩
  · intro i
    rw [Wal.termAt, Wal.termAt, hread]
  · intro entries
    refine accepted_congr entries hlastIndex ?_
    rw [hlayout.size_eq_zero, h.layout.size_eq_zero, hlog]

set_option maxRecDepth 20000 in
/-- A log emptied at the start of its first segment reopens as it was. -/
theorem reopen_identity_after_calls :
    ∃ w w' v, openWal shortCodec ∅ 1 30 = .ok w ∧
      Transition.run (Transition.restrict Steady (call shortCodec)) w [.append (shortNoop 1), .append (shortNoop 2),
        .append (shortNoop 3), .truncateBefore 2, .truncateSuffix 2] = some w' ∧
      openWal shortCodec w'.close.dir 1 w'.segmentSizeBytes = .ok v ∧ w'.lastIndex = 1 ∧ v.lastIndex = 1 := by
  obtain ⟨w, w', hopen, hrun, hlast⟩ : ∃ w w', openWal shortCodec ∅ 1 30 = .ok w ∧
      Transition.run (Transition.restrict Steady (call shortCodec)) w [.append (shortNoop 1), .append (shortNoop 2),
        .append (shortNoop 3), .truncateBefore 2, .truncateSuffix 2] = some w' ∧ w'.lastIndex = 1 :=
    ⟨_, _, rfl, rfl, rfl⟩
  obtain ⟨v, hv, hvlast, -⟩ := reopen_identity shortCodec 30 w w' _ hopen (by
    intro e he
    simp only [List.mem_cons, Call.append.injEq, reduceCtorEq, List.not_mem_nil, or_false] at he
    rcases he with rfl | rfl | rfl
    · exact fun _ => by decide
    · exact fun _ => by decide
    · exact fun _ => by decide) hrun 1
  exact ⟨w, w', v, hopen, hrun, hv, hlast, hvlast.trans hlast⟩

set_option maxRecDepth 20000 in
/-- `TruncateBefore` behind the last entry leaves `LastIndex()` 0, which `WAL::Open` raises
to the index before the new segment. -/
theorem truncateBefore_reopens_with_other_last_index :
    ∃ w w' v, openWal shortCodec ∅ 1 30 = .ok w ∧
      Transition.run (call shortCodec) w [.append (shortNoop 1), .flush, .truncateBefore 5] = some w' ∧
      openWal shortCodec w'.close.dir 1 w'.segmentSizeBytes = .ok v ∧ w'.lastIndex = 0 ∧ v.lastIndex = 4 :=
  ⟨_, _, _, rfl, rfl, rfl, rfl, rfl⟩

end RaftVdb.Wal
