import RaftVdb.WalReopen

/-!
# Crashes inside a truncation

A process that dies inside `TruncateBefore` or `TruncateSuffix` leaves the directory as a
prefix of the file operations has made it. `TruncateBefore` unlinks segments from the
front, so what is left is a suffix of the log. `TruncateSuffix` also goes forwards: when
the entries to remove are in several segments, a crash after the first operation leaves
the later segments behind a hole, and recovery takes them for part of the log.
-/

namespace RaftVdb.Wal

open Lib

variable {codec : EntryCodec} {w v : Wal} {chunks : List Chunk}

/-- The readable indices are one range. -/
def OneRange (codec : EntryCodec) (w : Wal) : Prop :=
  ∃ first last, ∀ i, (∃ e, w.read codec i = .ok e) ↔ first ≤ i ∧ i ≤ last

/-- What is left of the log `w` is everything below `k` and the entries from there up to
some index. -/
def CutsFrom (codec : EntryCodec) (w v : Wal) (k : Nat) : Prop :=
  ∃ m, k ≤ m ∧ (∀ i, i < m → v.read codec i = w.read codec i) ∧ ∀ i, m ≤ i → ¬ ∃ e, v.read codec i = .ok e

/-- Whatever prefix of these operations a crash lets happen, `WAL::Open` then gives a WAL
with the property. -/
def Survives (codec : EntryCodec) (w : Wal) (ops : List FsOp) (good : Wal → Prop) : Prop :=
  ∀ n start, ∃ v, openWal codec (w.dir.perform (ops.take n)) start w.segmentSizeBytes = .ok v ∧ good v

/-- The entry has known codes, and an empty log takes it neither below 1 nor below the
start index of its segment. -/
def Fits (w : Wal) : Call → Prop
  | .append entry => Known entry ∧ (w.offsetIndex.size = 0 → 1 ≤ entry.index ∧ w.start ≤ entry.index)
  | _ => True

instance (w : Wal) : (c : Call) → Decidable (Fits w c)
  | .append _ => inferInstanceAs (Decidable (_ ∧ (_ → _)))
  | .flush | .truncateBefore _ | .truncateSuffix _ | .close | .reopen _ _ => isTrue trivial

/-- The segments with entries from the index on. -/
def reaching (w : Wal) (k : Nat) : List SegmentMeta := w.segments.filter fun s => k ≤ s.lastIndex

theorem layout_call {w' : Wal} {c : Call} (h : ∃ chunks, Layout codec w chunks)
    (hround : ∀ e, c = .append e → codec.RoundTrips e)
    (hcall : Transition.restrict Fits (call codec) w c = some w') : ∃ chunks, Layout codec w' chunks := by
  obtain ⟨hfits, hcall⟩ := Transition.restrict_eq_some.mp hcall
  obtain ⟨chunks, h⟩ := h
  cases c with
  | append e =>
    obtain ⟨chunks', h', -⟩ := h.append_at (Transition.ok_of_toOption hcall) hfits.1 (hround e rfl) hfits.2
    exact ⟨chunks', h'⟩
  | flush =>
    obtain ⟨h', -, -⟩ := h.flush (Transition.ok_of_toOption hcall)
    exact ⟨chunks, h'⟩
  | truncateBefore k =>
    obtain ⟨chunks', h', -⟩ := History.truncateBefore_ok h (Transition.ok_of_toOption hcall)
    exact ⟨chunks', h'⟩
  | truncateSuffix k =>
    rcases h.truncateSuffix_ok (Transition.ok_of_toOption hcall) with ⟨rfl, -⟩ | ⟨_, _, _, _, _, _, -, h', -⟩
    · exact ⟨chunks, h⟩
    · exact ⟨_, h'⟩
  | close =>
    cases hcall
    exact ⟨chunks, h.closed⟩
  | reopen start size => exact ⟨_, (History.reopen_ok h (Transition.ok_of_toOption hcall)).1⟩

/-- `WAL::Open` reads the entries of the files, whatever is missing between them. -/
theorem openWal_readable {dir : Dir} (start : Nat) {size : Nat} (hsize : size ≠ 0) (hasc : Ascending chunks)
    (hf : Files codec dir chunks) (hrec : ∀ e ∈ logOf chunks, Recoverable codec e) :
    ∃ v chunks', openWal codec dir start size = .ok v ∧ logOf chunks' = logOf chunks ∧ Readable codec v chunks' := by
  by_cases hne : chunks = []
  · subst hne
    have hempty : dir = ∅ := by
      obtain ⟨rows, hnodup⟩ := dir
      cases rows with
      | nil => rfl
      | cons r rows =>
        have hkey := hf.mem_keys.mp (show r.1 ∈ (Table.mk (r :: rows) hnodup).keys from List.mem_cons_self)
        simp at hkey
    have hopen : ∃ v, openWal codec ∅ start size = .ok v := by
      simp only [openWal, if_neg hsize]
      exact ⟨_, rfl⟩
    obtain ⟨v, hv⟩ := hopen
    exact ⟨v, [fresh start], hempty ▸ hv, rfl, (layout_open_empty hv).1.readable⟩
  · obtain ⟨v, hv, hr, hdir, -⟩ := openWal_rebuilt start hsize hne hasc hf hrec
    exact ⟨v, chunks, hv, rfl, hasc, hrec, hdir ▸ hf, hr.rows⟩

theorem oneRange_of_isChain (h : Readable codec v chunks)
    (hchain : (logOf chunks).IsChain fun a b => b.index = a.index + 1) : OneRange codec v := by
  have hread : ∀ i, (∃ e, v.read codec i = .ok e) ↔ i ∈ (logOf chunks).map LogEntry.index := by
    intro i
    rw [List.mem_map]
    exact exists_congr fun e => h.read_eq_ok
  cases hlog : logOf chunks with
  | nil =>
    refine ⟨1, 0, fun i => ?_⟩
    rw [hread, hlog]
    simp only [List.map_nil, List.not_mem_nil, false_iff, not_and]
    omega
  | cons e entries =>
    rw [hlog] at hchain
    refine ⟨e.index, e.index + entries.length, fun i => ?_⟩
    rw [hread, hlog, indices_of_isChain hchain, List.mem_range'_1]
    omega

/-- A crash inside `TruncateBefore` leaves a suffix of the log. -/
theorem survives_truncateBefore (h : Layout codec w chunks) (k : Nat) :
    Survives codec w (w.truncateBeforeOps k) (OneRange codec) := by
  intro n start
  obtain ⟨gone, kept, hsplit⟩ := h.toRegular.exists_split h.lasts k
  have hstate : ∃ chunks', Files codec (w.dir.perform ((w.truncateBeforeOps k).take n)) chunks' ∧
      Ascending chunks' ∧ logOf chunks' <:+ logOf chunks := by
    by_cases hn : n ≤ gone.length
    · have hchunks : chunks = gone.take n ++ (gone.drop n ++ kept) := by
        rw [← List.append_assoc, List.take_append_drop, hsplit.chunks]
      have hfiles := h.files
      have hasc := h.ascending
      rw [hchunks] at hfiles hasc
      refine ⟨gone.drop n ++ kept, ?_, ?_, ?_⟩
      · rw [hsplit.truncateBeforeOps h.listed, List.take_append_of_le_length (by simpa using hn), ← List.map_take]
        exact @Files.unlink_middle codec _ [] (gone.take n) (gone.drop n ++ kept) hfiles hasc
      · exact hasc.sublist (List.sublist_append_right _ _)
      · rw [hchunks, logOf_append (gone.take n)]
        exact List.suffix_append _ _
    · refine ⟨keptChunks k kept, ?_, (hsplit.regular h.toRegular).ascending, ?_⟩
      · rw [List.take_of_length_le]
        · exact hsplit.files h.listed
        · rw [hsplit.truncateBeforeOps h.listed, List.length_append, List.length_map]
          split
          · rw [List.length_singleton]
            omega
          · rw [List.length_nil]
            omega
      · rw [logOf_keptChunks, hsplit.chunks, logOf_append]
        exact List.suffix_append _ _
  obtain ⟨chunks', hf, hasc, hsuffix⟩ := hstate
  obtain ⟨v, chunks'', hv, hlog, hr⟩ := openWal_readable start h.size hasc hf fun e he =>
    h.recoverable e (hsuffix.subset he)
  refine ⟨v, hv, oneRange_of_isChain hr ?_⟩
  rw [hlog]
  exact h.consecutive.suffix hsuffix

theorem cutsFrom_of_filter {chunks' : List Chunk} {k : Nat} (h : Readable codec w chunks)
    (h' : Readable codec v chunks') (hlog : logOf chunks' = (logOf chunks).filter fun e => e.index < k) :
    CutsFrom codec w v k := by
  refine ⟨k, Nat.le_refl k, fun i hi => ?_, fun i hi => ?_⟩
  · rw [h'.read_eq 0, h.read_eq 0]
    refine IndexedLog.read_congr h'.ascending.pairwise_logOf h.ascending.pairwise_logOf fun e hindex => ?_
    simp [hlog, hindex, hi]
  · rintro ⟨e, he⟩
    obtain ⟨hmem, rfl⟩ := h'.read_eq_ok.mp he
    rw [hlog, List.mem_filter, decide_eq_true_eq] at hmem
    omega

theorem cutsFrom_of_eq {chunks' : List Chunk} (h : Layout codec w chunks) (h' : Readable codec v chunks')
    (hlog : logOf chunks' = logOf chunks) (k : Nat) : CutsFrom codec w v k := by
  refine ⟨max k (w.lastIndex + 1), Nat.le_max_left _ _, fun i _ => ?_, fun i hi => ?_⟩
  · rw [h'.read_eq 0, h.readable.read_eq 0, hlog]
  · rintro ⟨e, he⟩
    obtain ⟨hmem, rfl⟩ := h'.read_eq_ok.mp he
    rw [hlog] at hmem
    have hle : e.index ≤ w.lastIndex := h.ordered.le_last hmem
    omega

section Cut

variable {k : Nat} {before rest : List Chunk} {c : Chunk} {front rear : List LogEntry} {x : LogEntry}

/-- The segments that reach the index are the cut one and those behind it. -/
theorem Cut.reaching (h : Cut k chunks before c rest front x rear) (hl : Layout codec w chunks) :
    (w.reaching k).length = rest.length + 1 := by
  have hbefore : (before.map Chunk.seg).filter (fun s => k ≤ s.lastIndex) = [] := by
    rw [List.filter_eq_nil_iff]
    intro s hs
    obtain ⟨b, hb, rfl⟩ := List.mem_map.mp hs
    have := (h.before b hb).2.1
    simp only [decide_eq_true_eq]
    omega
  have hrest : ∀ s ∈ c.seg :: rest.map Chunk.seg, k ≤ s.lastIndex := by
    intro s hs
    rcases List.mem_cons.mp hs with rfl | hs
    · exact h.last
    · obtain ⟨d, hd, rfl⟩ := List.mem_map.mp hs
      have hmem : d ∈ chunks := by
        rw [h.chunks]
        simp [hd]
      obtain ⟨e, he⟩ := Option.isSome_iff_exists.mp
        (List.getLast?_isSome.mpr (h.entries_ne_nil hl.filled hmem))
      rw [hl.lasts d hmem e he]
      exact (h.rest d hd).2 e (List.mem_of_getLast? he)
  rw [Wal.reaching, hl.segments, h.chunks, List.map_append, List.filter_append, hbefore, List.nil_append,
    List.map_cons, List.filter_eq_self.mpr (by simpa using hrest)]
  simp

/-- The files after some of the operations, if no later segment has to go. -/
theorem Cut.files_take {dir : Dir} (h : Cut k chunks before c [] front x rear) (hasc : Ascending chunks)
    (hf : Files codec dir chunks) (n : Nat) :
    Files codec (dir.perform ((cutOps codec k before c [] front).take n)) chunks ∨
      ∃ chunks', Files codec (dir.perform ((cutOps codec k before c [] front).take n)) chunks' ∧ Ascending chunks' ∧
        logOf chunks' = logOf before ++ front := by
  have hall : (cutOps codec k before c [] front).length ≤ n →
      ∃ chunks', Files codec (dir.perform ((cutOps codec k before c [] front).take n)) chunks' ∧
        Ascending chunks' ∧ logOf chunks' = logOf before ++ front := by
    intro hn
    rw [List.take_of_length_le hn]
    exact ⟨_, h.files hasc hf, h.ascending hasc, h.logOf_cutChunks codec hasc⟩
  cases n with
  | zero => exact .inl hf
  | succ n =>
    right
    by_cases hk : k ≤ c.start
    · cases n with
      | zero =>
        have hunlink : Files codec (dir.perform ([c].map fun d => .unlink d.start)) before := by
          have hmid := @Files.unlink_middle codec dir before [c] [] (by rw [List.append_nil, ← h.chunks]; exact hf)
            (by rw [List.append_nil, ← h.chunks]; exact hasc)
          rwa [List.append_nil] at hmid
        refine ⟨before, ?_, ?_, by rw [h.front_eq_nil hasc hk, List.append_nil]⟩
        · rw [cutOps, if_pos hk]
          exact hunlink
        · rw [h.chunks] at hasc
          exact hasc.sublist (List.sublist_append_left _ _)
      | succ n =>
        refine hall ?_
        rw [cutOps, if_pos hk, List.length_append]
        split
        · simp
        · simp
    · refine hall ?_
      rw [cutOps, if_neg hk]
      simp

theorem Cut.survives (h : Cut k chunks before c [] front x rear) (hl : Layout codec w chunks)
    (hops : w.truncateSuffixOps k = cutOps codec k before c [] front) :
    Survives codec w (w.truncateSuffixOps k) (CutsFrom codec w · k) := by
  intro n start
  rw [hops]
  rcases h.files_take hl.ascending hl.files n with hf | ⟨chunks', hf, hasc, hlog⟩
  · obtain ⟨v, chunks'', hv, hlog, hr⟩ := openWal_readable start hl.size hl.ascending hf hl.recoverable
    exact ⟨v, hv, cutsFrom_of_eq hl hr hlog k⟩
  · obtain ⟨v, chunks'', hv, hlog', hr⟩ := openWal_readable start hl.size hasc hf fun e he => by
      rw [hlog] at he
      exact hl.recoverable e (by rw [h.logOf_eq]; exact List.mem_append_left _ he)
    refine ⟨v, hv, cutsFrom_of_filter hl.readable hr ?_⟩
    rw [hlog', hlog, h.filter_log]

/-- The first operation leaves the later segments behind a hole. -/
theorem Cut.not_survives (h : Cut k chunks before c rest front x rear) (hl : Layout codec w chunks) (hrest : rest ≠ [])
    (hops : w.truncateSuffixOps k = cutOps codec k before c rest front) :
    ¬ Survives codec w (w.truncateSuffixOps k) (CutsFrom codec w · k) := by
  intro hsurvives
  have hsub : ∀ d ∈ rest, d ∈ chunks := fun d hd => by
    rw [h.chunks]
    simp [hd]
  obtain ⟨d, hd⟩ := List.exists_mem_of_ne_nil _ hrest
  obtain ⟨y, hy⟩ := List.exists_mem_of_ne_nil _ (h.entries_ne_nil hl.filled (hsub d hd))
  have hbehind : ∀ d ∈ rest, ∀ e ∈ d.entries, x.index < e.index := by
    intro d hd e he
    have hstarts := hl.ascending.starts
    rw [h.chunks, List.pairwise_append] at hstarts
    have hlt := (List.rel_of_pairwise_cons hstarts.2.1 hd).2 x (by rw [h.entries]; simp)
    have hle := hl.ascending.start_le d (hsub d hd) e he
    omega
  have hxy := hbehind d hd y hy
  have hstate : ∃ chunks', Files codec (w.dir.perform ((cutOps codec k before c rest front).take 1)) chunks' ∧
      Ascending chunks' ∧ logOf chunks' = logOf before ++ front ++ logOf rest := by
    by_cases hk : k ≤ c.start
    · refine ⟨before ++ rest, ?_, ?_, ?_⟩
      · rw [cutOps, if_pos hk]
        exact @Files.unlink_middle codec w.dir before [c] rest (by simpa [h.chunks] using hl.files)
          (by simpa [h.chunks] using hl.ascending)
      · have hasc := hl.ascending
        rw [h.chunks] at hasc
        exact hasc.sublist (List.Sublist.append_left (List.sublist_cons_self _ _) _)
      · rw [h.front_eq_nil hl.ascending hk, List.append_nil, logOf_append]
    · refine ⟨before ++ cutChunk codec k c front :: rest, ?_, ?_, ?_⟩
      · rw [cutOps, if_neg hk]
        exact h.files_ftruncate hl.ascending hl.files
      · have hasc := hl.ascending
        rw [h.chunks] at hasc
        refine hasc.shrink rfl ?_
        rw [h.entries]
        exact List.sublist_append_left _ _
      · rw [logOf_append, List.append_assoc]
        rfl
  obtain ⟨chunks', hf, hasc, hlog⟩ := hstate
  have hold : ∀ e ∈ logOf chunks', e ∈ logOf chunks ∧ e ≠ x := by
    rw [hlog, h.logOf_eq]
    intro e he
    rcases List.mem_append.mp he with hlow | hhigh
    · have hfilter := hlow
      rw [← h.filter_log, List.mem_filter, decide_eq_true_eq] at hfilter
      have hle := h.le
      refine ⟨List.mem_append_left _ hlow, ?_⟩
      rintro rfl
      omega
    · obtain ⟨d, hd, he⟩ := List.mem_flatMap.mp hhigh
      have hlt := hbehind d hd e he
      refine ⟨List.mem_append_right _ (List.mem_append_right _ hhigh), ?_⟩
      rintro rfl
      omega
  obtain ⟨v, hv, m, -, hsame, hnone⟩ := hsurvives 1 0
  rw [hops] at hv
  obtain ⟨v', chunks'', hv', hlog', hr⟩ := openWal_readable 0 hl.size hasc hf fun e he =>
    hl.recoverable e (hold e he).1
  rw [hv] at hv'
  cases hv'
  have hmem : y ∈ logOf chunks'' := by
    rw [hlog', hlog]
    exact List.mem_append_right _ (List.mem_flatMap.mpr ⟨d, hd, hy⟩)
  have hlt : y.index < m := by
    by_contra hge
    exact hnone y.index (by omega) ⟨y, hr.read_eq_ok.mpr ⟨hmem, rfl⟩⟩
  have hread : w.read codec x.index = .ok x :=
    hl.readable.read_eq_ok.mpr ⟨by rw [h.logOf_eq]; simp, rfl⟩
  rw [← hsame x.index (by omega), hr.read_eq_ok, hlog'] at hread
  exact (hold x hread.1).2 rfl

end Cut

theorem oneRange_of_cutsFrom {k : Nat} (hk : k ≠ 0) (h : Layout codec w chunks) (hcut : CutsFrom codec w v k) :
    OneRange codec v := by
  obtain ⟨first, hfirst⟩ := h.readable_iff
  obtain ⟨m, hkm, hsame, hnone⟩ := hcut
  refine ⟨first, min w.lastIndex (m - 1), fun i => ?_⟩
  by_cases hi : i < m
  · rw [hsame i hi, hfirst]
    omega
  · refine ⟨fun hread => absurd hread (hnone i (by omega)), ?_⟩
    omega

theorem survives_truncateSuffix_iff {k : Nat} (h : Layout codec w chunks) :
    Survives codec w (w.truncateSuffixOps k) (CutsFrom codec w · k) ↔ (w.reaching k).length ≤ 1 := by
  by_cases hout : w.offsetIndex.size = 0 ∨ k > w.lastIndex
  · have hops : w.truncateSuffixOps k = [] := by rw [truncateSuffixOps, if_pos hout]
    have hshort : (w.reaching k).length ≤ 1 := by
      rcases h.filled with ⟨c, hc, -⟩ | ⟨-, hall⟩
      · refine Nat.le_trans (List.length_filter_le _ _) ?_
        rw [h.segments, hc]
        simp
      · have hgt : ∀ e ∈ logOf chunks, e.index < k := by
          intro e he
          have hle : e.index ≤ w.lastIndex := h.ordered.le_last he
          rw [h.size_eq_zero] at hout
          have := hout.resolve_left (List.ne_nil_of_mem he)
          omega
        have hnil : w.reaching k = [] := by
          rw [reaching, List.filter_eq_nil_iff, h.segments]
          intro s hs
          obtain ⟨c, hc, rfl⟩ := List.mem_map.mp hs
          obtain ⟨e, he⟩ := Option.isSome_iff_exists.mp (List.getLast?_isSome.mpr (hall c hc))
          have := hgt e (List.mem_flatMap.mpr ⟨c, hc, List.mem_of_getLast? he⟩)
          rw [h.lasts c hc e he]
          simp only [decide_eq_true_eq]
          omega
        rw [hnil]
        exact Nat.zero_le 1
    refine ⟨fun _ => hshort, fun _ n start => ?_⟩
    rw [hops, List.take_nil]
    obtain ⟨v, chunks', hv, hlog, hr⟩ := openWal_readable start h.size h.ascending h.files h.recoverable
    exact ⟨v, hv, cutsFrom_of_eq h hr hlog k⟩
  · have hreach := hout
    rw [not_or, h.size_eq_zero] at hreach
    obtain ⟨before, c, rest, front, x, rear, hcut⟩ := h.exists_cut hreach.1 (k := k) (by omega)
    have hops := hcut.truncateSuffixOps h.listed hout
    rw [hcut.reaching h]
    constructor
    · intro hsurvives
      by_contra hlong
      refine hcut.not_survives h ?_ hops hsurvives
      rintro rfl
      simp at hlong
    · intro hshort
      obtain rfl : rest = [] := List.length_eq_zero_iff.mp (by omega)
      exact hcut.survives h hops

/-- A crash inside `TruncateBefore` always leaves one range of indices. A crash inside
`TruncateSuffix` leaves all entries below the index and an initial part of the others
exactly if not more than one segment reaches the index. -/
theorem truncation_crash_atomic (codec : EntryCodec) (start size : Nat) (w w' : Wal) (calls : List Call)
    (hopen : openWal codec ∅ start size = .ok w) (hround : ∀ e, .append e ∈ calls → codec.RoundTrips e)
    (hrun : Transition.run (Transition.restrict Fits (call codec)) w calls = some w') :
    (∀ k, Survives codec w' (w'.truncateBeforeOps k) (OneRange codec)) ∧
    ∀ k, k ≠ 0 → (Survives codec w' (w'.truncateSuffixOps k) (fun v => OneRange codec v ∧ CutsFrom codec w' v k) ↔
      (w'.reaching k).length ≤ 1) := by
  obtain ⟨chunks, h⟩ := Transition.run_invariant_of_mem (fun w => ∃ chunks, Layout codec w chunks)
    (fun c hc _ _ h => layout_call h fun e he => hround e (he ▸ hc)) ⟨_, (layout_open_empty hopen).1⟩ hrun
  refine ⟨survives_truncateBefore h, fun k hk => ?_⟩
  rw [← survives_truncateSuffix_iff h]
  constructor
  · intro hsurvives n start
    obtain ⟨v, hv, -, hcut⟩ := hsurvives n start
    exact ⟨v, hv, hcut⟩
  · intro hsurvives n start
    obtain ⟨v, hv, hcut⟩ := hsurvives n start
    exact ⟨v, hv, oneRange_of_cutsFrom hk h hcut, hcut⟩

set_option maxRecDepth 20000 in
/-- Three records in one segment. -/
theorem truncation_crash_atomic_one_segment :
    ∃ w w', openWal shortCodec ∅ 1 100 = .ok w ∧
      Transition.run (Transition.restrict Fits (call shortCodec)) w
        [.append (shortNoop 1), .append (shortNoop 2), .append (shortNoop 3)] = some w' ∧
      w'.truncateSuffixOps 2 = [.ftruncate 1 20] ∧
      Survives shortCodec w' (w'.truncateSuffixOps 2) fun v =>
        OneRange shortCodec v ∧ CutsFrom shortCodec w' v 2 := by
  obtain ⟨w, w', hopen, hrun, hops, hshort⟩ : ∃ w w', openWal shortCodec ∅ 1 100 = .ok w ∧
      Transition.run (Transition.restrict Fits (call shortCodec)) w
        [.append (shortNoop 1), .append (shortNoop 2), .append (shortNoop 3)] = some w' ∧
      w'.truncateSuffixOps 2 = [.ftruncate 1 20] ∧ (w'.reaching 2).length = 1 := ⟨_, _, rfl, rfl, rfl, rfl⟩
  have hatomic := truncation_crash_atomic shortCodec 1 100 w w' _ hopen (by
    intro e he
    simp only [List.mem_cons, Call.append.injEq, List.not_mem_nil, or_false] at he
    rcases he with rfl | rfl | rfl
    · exact fun _ => by decide
    · exact fun _ => by decide
    · exact fun _ => by decide) hrun
  exact ⟨w, w', hopen, hrun, hops, (hatomic.2 2 (by decide)).mpr (by omega)⟩

set_option maxRecDepth 20000 in
/-- With one record in each segment a crash between the two unlinks brings back entry 3
without entry 2. -/
theorem truncateSuffix_crash_leaves_hole :
    ∃ w w' v, openWal shortCodec ∅ 1 30 = .ok w ∧
      Transition.run (call shortCodec) w [.append (shortNoop 1), .append (shortNoop 2), .append (shortNoop 3)] =
        some w' ∧
      w'.truncateSuffixOps 2 = [.unlink 2, .unlink 3] ∧
      openWal shortCodec (w'.dir.perform ((w'.truncateSuffixOps 2).take 1)) 1 w'.segmentSizeBytes = .ok v ∧
      v.read shortCodec 1 = .ok (shortNoop 1) ∧ v.read shortCodec 2 = .error "日志索引不存在: 2" ∧
      v.read shortCodec 3 = .ok (shortNoop 3) :=
  ⟨_, _, _, rfl, rfl, rfl, rfl, rfl, rfl, rfl⟩

end RaftVdb.Wal
