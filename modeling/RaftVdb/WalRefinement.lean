import RaftVdb.WalDurability
import RaftVdb.WalLayout

/-!
# The write-ahead log refines the indexed log

Under its layout a WAL reads as the indexed log of its chunks, errors included. `Append`
adds the entry to the last chunk or behind it, whatever the segment size.
-/

namespace RaftVdb.Wal

open Lib

variable {codec : EntryCodec} {w w' : Wal} {chunks : List Chunk}

/-- The indexed log of a WAL with these chunks. -/
def indexed (w : Wal) (chunks : List Chunk) : IndexedLog := ⟨logOf chunks, w.lastIndex⟩

/-- The part of a layout that reading depends on. The indices may have gaps. -/
structure Readable (codec : EntryCodec) (w : Wal) (chunks : List Chunk) : Prop where
  ascending : Ascending chunks
  recoverable : ∀ e ∈ logOf chunks, Recoverable codec e
  files : Files codec w.dir chunks
  rows : w.offsetIndex.rows = (placed codec chunks).map row

theorem Layout.readable (h : Layout codec w chunks) : Readable codec w chunks :=
  ⟨h.ascending, h.recoverable, h.files, h.rows⟩

/-- The part of a layout that the truncations depend on. Any chunk may be empty. -/
structure Listed (codec : EntryCodec) (w : Wal) (chunks : List Chunk) : Prop extends Readable codec w chunks where
  segments : w.segments = chunks.map Chunk.seg
  sizes : ∀ c ∈ chunks, c.seg.sizeBytes = (records codec c.entries).length
  lasts : ∀ c ∈ chunks, ∀ e ∈ c.entries.getLast?, c.seg.lastIndex = e.index
  fd : w.fd = none ∨ w.fd = activeFd w.segments
  size : w.segmentSizeBytes ≠ 0

theorem Layout.listed (h : Layout codec w chunks) : Listed codec w chunks :=
  ⟨h.readable, h.segments, h.sizes, h.lasts, h.fd, h.size⟩

theorem Listed.layout (h : Listed codec w chunks) (hreg : Regular codec chunks)
    (hlast : ∀ e ∈ (logOf chunks).getLast?, w.lastIndex = e.index)
    (hstart : w.start = (chunks.head?).elim w.start Chunk.start) : Layout codec w chunks :=
  { hreg with
    segments := h.segments, sizes := h.sizes, lasts := h.lasts, files := h.files, rows := h.rows, last := hlast
    fd := h.fd, start := hstart, size := h.size }

theorem Readable.readLocation (h : Readable codec w chunks) {p : LogEntry × EntryLocation}
    (hp : p ∈ placed codec chunks) : w.readLocation codec p.2 = .ok p.1 := by
  obtain ⟨c, hc, hp⟩ := List.mem_flatMap.mp hp
  obtain ⟨front, rear, hentries, hloc⟩ := mem_place hp
  obtain ⟨f, hfind, hbytes⟩ := h.files.find? h.ascending hc
  have hrec : Recoverable codec p.1 :=
    h.recoverable p.1 (List.mem_flatMap.mpr ⟨c, hc, by rw [hentries]; simp⟩)
  rw [hloc, Wal.readLocation]
  simp only [hfind, Nat.zero_add]
  rw [hbytes, hentries, readRecordAt_records hrec]
  rfl

theorem read_eq_readLocation (w : Wal) (i : Nat) : w.read codec i =
    match w.offsetIndex.find? i with
    | none => .error ("日志索引不存在: " ++ toString i)
    | some location => w.readLocation codec location := rfl

theorem mem_logOf_iff {e : LogEntry} : e ∈ logOf chunks ↔ ∃ p ∈ placed codec chunks, p.1 = e := by
  rw [← map_fst_placed codec, List.mem_map]

/-- `Read` is that of the indexed log, with its errors. -/
theorem Readable.read_eq (h : Readable codec w chunks) (lastIndex i : Nat) :
    w.read codec i = (⟨logOf chunks, lastIndex⟩ : IndexedLog).read i := by
  rw [read_eq_readLocation]
  cases hfind : w.offsetIndex.find? i with
  | none =>
    rw [Table.find?_eq_none, Table.keys, h.rows, List.map_map] at hfind
    rw [IndexedLog.read_of_forall_ne]
    intro e he hindex
    obtain ⟨p, hp, rfl⟩ := mem_logOf_iff.mp he
    exact hfind (List.mem_map.mpr ⟨p, hp, hindex⟩)
  | some location =>
    rw [Table.find?_eq_some, h.rows] at hfind
    obtain ⟨p, hp, hrow⟩ := List.mem_map.mp hfind
    cases hrow
    simp only
    rw [h.readLocation hp, IndexedLog.read_of_sorted h.ascending.pairwise_logOf (mem_logOf_iff.mpr ⟨p, hp, rfl⟩)]

theorem Readable.read_eq_ok (h : Readable codec w chunks) {i : Nat} {e : LogEntry} :
    w.read codec i = .ok e ↔ e ∈ logOf chunks ∧ e.index = i := by
  constructor
  · intro hread
    rw [h.read_eq 0] at hread
    exact IndexedLog.mem_of_read hread
  · rintro ⟨he, rfl⟩
    rw [h.read_eq 0, IndexedLog.read_of_sorted h.ascending.pairwise_logOf he]

theorem Layout.ordered (h : Layout codec w chunks) : (indexed w chunks).Ordered :=
  ⟨h.ascending.pairwise_logOf, h.last⟩

theorem Layout.read_eq (h : Layout codec w chunks) (i : Nat) : w.read codec i = (indexed w chunks).read i :=
  h.readable.read_eq w.lastIndex i

theorem Ascending.pairwise_placed (codec : EntryCodec) (h : Ascending chunks) :
    (placed codec chunks).Pairwise fun a b => a.1.index < b.1.index := by
  have hlog := h.pairwise_logOf
  rw [← map_fst_placed codec, List.pairwise_map] at hlog
  exact hlog

/-- `offset_index_` is iterated in the order of the chunks. -/
theorem sortedIndex_of_rows (hasc : Ascending chunks) (hrows : w.offsetIndex.rows = (placed codec chunks).map row) :
    w.sortedIndex = (placed codec chunks).map row := by
  rw [sortedIndex, hrows]
  refine List.Pairwise.insertionSort_eq (List.pairwise_map.mpr ?_)
  exact (hasc.pairwise_placed codec).imp Nat.le_of_lt

theorem maxIndex_of_rows (hasc : Ascending chunks) (hrows : w.offsetIndex.rows = (placed codec chunks).map row) :
    w.maxIndex = (logOf chunks).getLast?.map LogEntry.index := by
  rw [maxIndex, sortedIndex_of_rows hasc hrows, List.getLast?_map, Option.map_map,
    ← map_fst_placed codec, List.getLast?_map, Option.map_map]
  rfl

/-- In an increasing list the elements from a bound on are a suffix. -/
theorem dropWhile_eq_filter {α : Type} (f : α → Nat) (k : Nat) {xs : List α} (h : xs.Pairwise fun a b => f a < f b) :
    xs.dropWhile (fun a => f a < k) = xs.filter fun a => k ≤ f a := by
  induction xs with
  | nil => rfl
  | cons x xs ih =>
    by_cases hx : f x < k
    · rw [List.dropWhile_cons_of_pos (by simpa using hx), List.filter_cons_of_neg (by simpa using hx), ih h.of_cons]
    · rw [List.dropWhile_cons_of_neg (by simpa using hx), List.filter_cons_of_pos (by simpa using hx),
        List.filter_eq_self.mpr]
      intro y hy
      have hlt := List.rel_of_pairwise_cons h hy
      simp only [decide_eq_true_eq]
      omega

/-- A bound between two lists separates them. -/
theorem filter_append_of_bound {α : Type} (f : α → Nat) {k : Nat} {xs ys : List α} (hxs : ∀ a ∈ xs, f a < k)
    (hys : ∀ a ∈ ys, k ≤ f a) :
    (xs ++ ys).filter (fun a => f a < k) = xs ∧ (xs ++ ys).filter (fun a => k ≤ f a) = ys := by
  rw [List.filter_append, List.filter_append]
  constructor
  · rw [List.filter_eq_self.mpr fun a ha => decide_eq_true (hxs a ha), List.filter_eq_nil_iff.mpr, List.append_nil]
    intro a ha
    have := hys a ha
    simp only [decide_eq_true_eq]
    omega
  · rw [List.filter_eq_nil_iff.mpr, List.nil_append, List.filter_eq_self.mpr fun a ha => decide_eq_true (hys a ha)]
    intro a ha
    have := hxs a ha
    simp only [decide_eq_true_eq]
    omega

theorem Readable.lowerBound_eq (h : Readable codec w chunks) (i : Nat) :
    w.lowerBound i = ((placed codec chunks).filter fun p => i ≤ p.1.index).map row := by
  rw [lowerBound, sortedIndex_of_rows h.ascending h.rows, List.dropWhile_map,
    ← dropWhile_eq_filter _ _ (h.ascending.pairwise_placed codec)]
  rfl

theorem Layout.readRows (h : Layout codec w chunks) {ps : List (LogEntry × EntryLocation)}
    (hps : ∀ p ∈ ps, p ∈ placed codec chunks) : w.readRows codec (ps.map row) = .ok (ps.map Prod.fst) := by
  induction ps with
  | nil => rfl
  | cons p ps ih =>
    have hread : w.readLocation codec (row p).2 = .ok p.1 := h.readable.readLocation (hps p List.mem_cons_self)
    rw [List.map_cons, Wal.readRows, hread]
    simp only
    rw [ih fun q hq => hps q (List.mem_cons_of_mem _ hq)]
    rfl

theorem Readable.size_eq_zero (h : Readable codec w chunks) : w.offsetIndex.size = 0 ↔ logOf chunks = [] := by
  rw [Table.size, h.rows, List.length_map, ← map_fst_placed codec, List.map_eq_nil_iff,
    List.length_eq_zero_iff]

theorem Layout.size_eq_zero (h : Layout codec w chunks) : w.offsetIndex.size = 0 ↔ logOf chunks = [] :=
  h.readable.size_eq_zero

/-- The first row from an index on is the one of that index if it is there. -/
theorem Layout.read_lowerBound (h : Layout codec w chunks) {i : Nat} {p : LogEntry × EntryLocation}
    {ps : List (LogEntry × EntryLocation)}
    (hps : (placed codec chunks).filter (fun p => i ≤ p.1.index) = p :: ps) :
    (p.1.index = i ∧ (indexed w chunks).read i = .ok p.1) ∨
      (p.1.index ≠ i ∧ (indexed w chunks).read i = .error ("日志索引不存在: " ++ toString i)) := by
  have hp : p ∈ placed codec chunks ∧ i ≤ p.1.index := by
    have hmem : p ∈ p :: ps := List.mem_cons_self
    rw [← hps] at hmem
    simpa using hmem
  by_cases hfirst : p.1.index = i
  · exact .inl ⟨hfirst, h.ordered.read_eq_ok.mpr ⟨mem_logOf_iff.mpr ⟨p, hp.1, rfl⟩, hfirst⟩⟩
  · refine .inr ⟨hfirst, IndexedLog.read_of_forall_ne ?_⟩
    intro e he hindex
    obtain ⟨q, hq, rfl⟩ := mem_logOf_iff.mp he
    have hmem : q ∈ (placed codec chunks).filter fun p => i ≤ p.1.index :=
      List.mem_filter.mpr ⟨hq, by simp [hindex]⟩
    have hsorted := (h.ascending.pairwise_placed codec).filter fun p => decide (i ≤ p.1.index)
    rw [hps] at hmem hsorted
    rcases List.mem_cons.mp hmem with rfl | hmem
    · exact hfirst hindex
    · have hlt := List.rel_of_pairwise_cons hsorted hmem
      omega

/-- `ReadFrom` is that of the indexed log, with its errors. -/
theorem Layout.readFrom_eq (h : Layout codec w chunks) (i m : Nat) :
    w.readFrom codec i m = (indexed w chunks).readFrom i m := by
  have hfilter : ((placed codec chunks).filter fun p => i ≤ p.1.index).map Prod.fst =
      (logOf chunks).filter fun e => i ≤ e.index := by
    rw [← map_fst_placed codec, List.filter_map]
    rfl
  unfold Wal.readFrom IndexedLog.readFrom
  by_cases hout : m = 0 ∨ w.offsetIndex.size = 0 ∨ i > w.lastIndex
  · rw [if_pos hout, if_pos (by rw [h.size_eq_zero] at hout; exact hout)]
  · rw [if_neg hout, if_neg (by rw [h.size_eq_zero] at hout; exact hout), h.readable.lowerBound_eq]
    cases hps : (placed codec chunks).filter fun p => i ≤ p.1.index with
    | nil =>
      rw [List.map_nil, IndexedLog.read_of_forall_ne]
      intro e he hindex
      have hmem : e ∈ (logOf chunks).filter fun e => i ≤ e.index := List.mem_filter.mpr ⟨he, by simp [hindex]⟩
      rw [← hfilter, hps] at hmem
      cases hmem
    | cons p ps =>
      have hin : ∀ q ∈ p :: ps, q ∈ placed codec chunks := by
        rw [← hps]
        exact fun q hq => List.mem_of_mem_filter hq
      rw [hps] at hfilter
      simp only [List.map_cons, row]
      rcases h.read_lowerBound hps with ⟨hfirst, hread⟩ | ⟨hfirst, hread⟩
      · rw [if_neg (not_not.mpr hfirst), hread]
        simp only [indexed]
        rw [← hfilter, ← List.map_take]
        have hrows := h.readRows fun q (hq : q ∈ (p :: ps).take m) => hin q (List.mem_of_mem_take hq)
        rwa [List.map_take] at hrows
      · rw [if_pos hfirst, hread]

/-- A new file at the end of the chunks. -/
theorem Files.create {dir : Dir} {c : Chunk} (hf : Files codec dir chunks) (hnew : ∀ d ∈ chunks, d.start ≠ c.start)
    (hc : c.entries = []) : Files codec (dir.insert c.start {}) (chunks ++ [c]) := by
  intro p
  rw [Table.find?_insert, List.find?_append]
  by_cases hp : p = c.start
  · rw [if_pos hp, List.find?_eq_none.mpr, Option.none_or, List.find?_cons_of_pos (by simp [hp])]
    · simp [hc]
    · intro d hd
      simpa [hp] using hnew d hd
  · rw [if_neg hp, hf p, List.find?_cons_of_neg (by simpa using fun h => hp h.symm), List.find?_nil, Option.or_none]

/-- A record at the end of the last file. -/
theorem Files.write {dir : Dir} {front : List Chunk} {a a' : Chunk} {e : LogEntry}
    (hf : Files codec dir (front ++ [a])) (hfront : ∀ d ∈ front, d.start ≠ a.start) (hstart : a'.start = a.start)
    (hentries : a'.entries = a.entries ++ [e]) :
    Files codec (dir.write a.start (records codec a.entries).length (record (codec.serialize e))) (front ++ [a']) := by
  intro p
  have hfp := hf p
  rw [List.find?_append] at hfp
  rw [Dir.write, List.find?_append]
  by_cases hp : p = a.start
  · subst hp
    rw [List.find?_eq_none.mpr (by simpa using hfront), Option.none_or, List.find?_cons_of_pos (by simp),
      Option.map_some] at hfp
    obtain ⟨f, hfind, hbytes⟩ := Option.map_eq_some_iff.mp hfp
    rw [Table.find?_adjust_self, hfind, List.find?_eq_none.mpr (by simpa using hfront), Option.none_or,
      List.find?_cons_of_pos (by simp [hstart]), Option.map_some, Option.map_some, Option.map_some, hentries, hbytes]
    simp
  · have hpa : ¬ a.start = p := fun h => hp h.symm
    rw [List.find?_cons_of_neg (by simpa using hpa), List.find?_nil, Option.or_none] at hfp
    rw [Table.find?_adjust_other _ _ _ _ hp, List.find?_cons_of_neg (by simpa [hstart] using hpa), List.find?_nil,
      Option.or_none, hfp]

theorem Layout.getLast?_segments (h : Layout codec w chunks) {front : List Chunk} {a : Chunk}
    (hchunks : chunks = front ++ [a]) : w.segments.getLast? = some a.seg := by
  rw [h.segments, hchunks]
  simp

theorem Layout.activeFd_eq (h : Layout codec w chunks) {front : List Chunk} {a : Chunk}
    (hchunks : chunks = front ++ [a]) : activeFd w.segments = some ⟨a.start, a.seg.sizeBytes⟩ := by
  rw [activeFd, h.getLast?_segments hchunks]
  rfl

theorem Layout.exists_active (h : Layout codec w chunks) : ∃ front a, chunks = front ++ [a] :=
  (List.eq_nil_or_concat' chunks).resolve_left h.filled.ne_nil

/-- `OpenActiveSegmentForAppend` only moves the descriptor. -/
theorem openActive_of_files (hne : chunks ≠ []) (hsegments : w.segments = chunks.map Chunk.seg)
    (hf : Files codec w.dir chunks) : w.openActiveSegmentForAppend = .ok { w with fd := activeFd w.segments } := by
  obtain ⟨front, a, rfl⟩ := (List.eq_nil_or_concat' chunks).resolve_left hne
  have hlast : w.segments.getLast? = some a.seg := by rw [hsegments]; simp
  have hmem : a.seg.startIndex ∈ w.dir.keys := hf.mem_keys.mpr ⟨a, by simp, rfl⟩
  simp only [openActiveSegmentForAppend, hlast, activeFd, Table.find?_tryEmplace_of_mem _ _ _ hmem]
  rfl

theorem Layout.reopenFd (h : Layout codec w chunks) : Layout codec { w with fd := activeFd w.segments } chunks :=
  { h with fd := .inr rfl }

/-- Whatever the descriptor was, reopening the active segment restores the layout. -/
theorem Layout.openActive (h : Layout codec { w with fd := none } chunks) :
    w.openActiveSegmentForAppend = .ok { w with fd := activeFd w.segments } ∧
      Layout codec { w with fd := activeFd w.segments } chunks :=
  ⟨openActive_of_files h.filled.ne_nil h.segments h.files, h.reopenFd⟩

theorem Layout.closed (h : Layout codec w chunks) : Layout codec w.close chunks := { h with fd := .inl rfl }

/-- A closed WAL opens its active segment before it appends. -/
theorem append_activeFd (hne : chunks ≠ []) (hsegments : w.segments = chunks.map Chunk.seg) (hf : Files codec w.dir chunks)
    (hfd : w.fd = none ∨ w.fd = activeFd w.segments) (e : LogEntry) :
    w.append codec e = { w with fd := activeFd w.segments }.append codec e := by
  rcases hfd with hfd | hfd
  · have hsome : w.segments ≠ [] := by
      rw [hsegments]
      simpa using hne
    obtain ⟨front, a, hchunks⟩ := (List.eq_nil_or_concat' chunks).resolve_left hne
    have hactive : activeFd w.segments = some ⟨a.start, a.seg.sizeBytes⟩ := by
      rw [hsegments, hchunks]
      simp [activeFd, Chunk.start]
    have hensure : ∀ size, w.ensureActiveSegmentForAppend e.index size =
        { w with fd := activeFd w.segments }.ensureActiveSegmentForAppend e.index size := by
      intro size
      simp only [ensureActiveSegmentForAppend, if_neg hsome]
      have hsame : ({ w with fd := activeFd w.segments } : Wal).needsRotation size = w.needsRotation size := rfl
      rw [hsame]
      by_cases hrot : w.needsRotation size = true
      · rw [if_pos hrot, if_pos hrot]
        rfl
      · rw [if_neg hrot, if_neg hrot, hfd, hactive]
        simp only
        rw [openActive_of_files hne hsegments hf, hactive]
    simp only [Wal.append, hensure]
  · rw [← hfd]

theorem Layout.append_activeFd (h : Layout codec w chunks) (e : LogEntry) :
    w.append codec e = { w with fd := activeFd w.segments }.append codec e :=
  Wal.append_activeFd h.filled.ne_nil h.segments h.files h.fd e

/-- The entry follows the last one; an empty log takes it from the start index of its
segment on. -/
structure Next (codec : EntryCodec) (chunks : List Chunk) (e : LogEntry) : Prop where
  succ : ∀ x ∈ (logOf chunks).getLast?, e.index = x.index + 1
  start_le : logOf chunks = [] → ∀ c ∈ chunks, c.start ≤ e.index
  positive : 1 ≤ e.index
  recoverable : Recoverable codec e

theorem Regular.le_last (h : Regular codec chunks) {x last : LogEntry} (hx : x ∈ logOf chunks)
    (hlast : (logOf chunks).getLast? = some last) : x.index ≤ last.index := by
  obtain ⟨front, heq⟩ := List.getLast?_eq_some_iff.mp hlast
  have hsorted := h.ascending.pairwise_logOf
  rw [heq] at hx hsorted
  rcases List.mem_append.mp hx with hx | hx
  · exact Nat.le_of_lt ((List.pairwise_append.mp hsorted).2.2 x hx last List.mem_cons_self)
  · rw [List.mem_singleton.mp hx]

theorem Regular.lt_next (h : Regular codec chunks) {e x : LogEntry} (hn : Next codec chunks e)
    (hx : x ∈ logOf chunks) : x.index < e.index := by
  obtain ⟨last, hlast⟩ := Option.isSome_iff_exists.mp (List.getLast?_isSome.mpr (List.ne_nil_of_mem hx))
  have hle := h.le_last hx hlast
  have hsucc := hn.succ last hlast
  omega

theorem Regular.start_le_next (h : Regular codec chunks) {e : LogEntry} (hn : Next codec chunks e) {c : Chunk}
    (hc : c ∈ chunks) : c.start ≤ e.index := by
  by_cases hnil : logOf chunks = []
  · exact hn.start_le hnil c hc
  · rcases h.filled with ⟨d, rfl, hd⟩ | ⟨-, hall⟩
    · exact absurd (by simpa [logOf] using hd) hnil
    · obtain ⟨x, hx⟩ := List.exists_mem_of_ne_nil _ (hall c hc)
      have hle := h.ascending.start_le c hc x hx
      have hlt := h.lt_next hn (List.mem_flatMap.mpr ⟨c, hc, hx⟩)
      omega

/-- What an entry added at the end of the log needs. -/
theorem Regular.concat {chunks' : List Chunk} (h : Regular codec chunks) {e : LogEntry} (hn : Next codec chunks e)
    (hlog : logOf chunks' = logOf chunks ++ [e]) (hasc : Ascending chunks') (hfilled : Filled chunks') :
    Regular codec chunks' := by
  refine ⟨hasc, hfilled, ?_, ?_, ?_⟩
  · rw [hlog, List.isChain_append]
    refine ⟨h.consecutive, List.isChain_singleton _, fun x hx y hy => ?_⟩
    rw [List.head?_singleton, Option.mem_def, Option.some.injEq] at hy
    rw [← hy]
    exact hn.succ x hx
  · rw [hlog]
    intro x hx
    rcases List.mem_append.mp hx with hx | hx
    · exact h.positive x hx
    · rw [List.mem_singleton.mp hx]
      exact hn.positive
  · rw [hlog]
    intro x hx
    rcases List.mem_append.mp hx with hx | hx
    · exact h.recoverable x hx
    · rw [List.mem_singleton.mp hx]
      exact hn.recoverable

/-- The entry joins the last chunk. -/
theorem Regular.extend_last {front : List Chunk} {a a' : Chunk} {e : LogEntry} (h : Regular codec (front ++ [a]))
    (hn : Next codec (front ++ [a]) e) (hstart : a'.start = a.start) (hentries : a'.entries = a.entries ++ [e]) :
    logOf (front ++ [a']) = logOf (front ++ [a]) ++ [e] ∧ Regular codec (front ++ [a']) := by
  have hlog : logOf (front ++ [a']) = logOf (front ++ [a]) ++ [e] := by
    simp [logOf, hentries]
  have hmem : ∀ x ∈ a'.entries, x ∈ a.entries ∨ x = e := by
    intro x hx
    simpa [hentries] using hx
  have hsplit := List.pairwise_append.mp h.ascending.starts
  have hasc : Ascending (front ++ [a']) := by
    refine ⟨List.pairwise_append.mpr ⟨hsplit.1, List.pairwise_singleton _ _, ?_⟩, ?_, ?_⟩
    · intro c hc d hd
      rw [List.mem_singleton.mp hd, hstart]
      exact hsplit.2.2 c hc a List.mem_cons_self
    · intro c hc x hx
      rcases List.mem_append.mp hc with hc | hc
      · exact h.ascending.start_le c (by simp [hc]) x hx
      · rw [List.mem_singleton.mp hc] at hx ⊢
        rw [hstart]
        rcases hmem x hx with hx | rfl
        · exact h.ascending.start_le a (by simp) x hx
        · exact h.start_le_next hn (by simp)
    · intro c hc
      rcases List.mem_append.mp hc with hc | hc
      · exact h.ascending.sorted c (by simp [hc])
      · rw [List.mem_singleton.mp hc, hentries, List.pairwise_append]
        refine ⟨h.ascending.sorted a (by simp), List.pairwise_singleton _ _, fun x hx y hy => ?_⟩
        rw [List.mem_singleton.mp hy]
        exact h.lt_next hn (List.mem_flatMap.mpr ⟨a, by simp, hx⟩)
  refine ⟨hlog, h.concat hn hlog hasc (.inr ⟨by simp, fun c hc => ?_⟩)⟩
  rcases List.mem_append.mp hc with hc | hc
  · rcases h.filled with ⟨d, hd, -⟩ | ⟨-, hall⟩
    · cases front with
      | nil => cases hc
      | cons x front => simp at hd
    · exact hall c (by simp [hc])
  · rw [List.mem_singleton.mp hc, hentries]
    simp

/-- The entry starts a chunk of its own. -/
theorem Regular.extend_new {c : Chunk} {e : LogEntry} (h : Regular codec chunks) (hn : Next codec chunks e)
    (hlast : logOf chunks ≠ []) (hstart : c.start = e.index) (hentries : c.entries = [e]) :
    logOf (chunks ++ [c]) = logOf chunks ++ [e] ∧ Regular codec (chunks ++ [c]) := by
  have hlog : logOf (chunks ++ [c]) = logOf chunks ++ [e] := by simp [logOf, hentries]
  have hall : ∀ d ∈ chunks, d.entries ≠ [] := by
    rcases h.filled with ⟨d, rfl, hd⟩ | ⟨-, hall⟩
    · exact absurd (by simpa [logOf] using hd) hlast
    · exact hall
  have hlt : ∀ d ∈ chunks, ∀ x ∈ d.entries, x.index < c.start := fun d hd x hx => by
    rw [hstart]
    exact h.lt_next hn (List.mem_flatMap.mpr ⟨d, hd, hx⟩)
  have hasc : Ascending (chunks ++ [c]) := by
    refine ⟨List.pairwise_append.mpr ⟨h.ascending.starts, List.pairwise_singleton _ _, ?_⟩, ?_, ?_⟩
    · intro d hd x hx
      rw [List.mem_singleton.mp hx]
      refine ⟨?_, hlt d hd⟩
      obtain ⟨y, hy⟩ := List.exists_mem_of_ne_nil _ (hall d hd)
      exact Nat.lt_of_le_of_lt (h.ascending.start_le d hd y hy) (hlt d hd y hy)
    · intro d hd x hx
      rcases List.mem_append.mp hd with hd | hd
      · exact h.ascending.start_le d hd x hx
      · rw [List.mem_singleton.mp hd, hentries] at hx
        rw [List.mem_singleton.mp hd, List.mem_singleton.mp hx, hstart]
    · intro d hd
      rcases List.mem_append.mp hd with hd | hd
      · exact h.ascending.sorted d hd
      · rw [List.mem_singleton.mp hd, hentries]
        exact List.pairwise_singleton _ _
  refine ⟨hlog, h.concat hn hlog hasc (.inr ⟨by simp, fun d hd => ?_⟩)⟩
  rcases List.mem_append.mp hd with hd | hd
  · exact hall d hd
  · rw [List.mem_singleton.mp hd, hentries]
    simp

theorem rows_insert (hrows : w.offsetIndex.rows = (placed codec chunks).map row) (h : Regular codec chunks) {e : LogEntry}
    (hn : Next codec chunks e) (loc : EntryLocation) :
    (w.offsetIndex.insert e.index loc).rows = (placed codec chunks ++ [(e, loc)]).map row := by
  rw [Table.rows_insert_of_not_mem, hrows, List.map_append]
  · rfl
  · rw [Table.keys, hrows, List.map_map]
    intro hmem
    obtain ⟨p, hp, hindex⟩ := List.mem_map.mp hmem
    have hlt := h.lt_next hn (mem_logOf_iff.mpr ⟨p, hp, rfl⟩)
    simp only [Function.comp_apply, row] at hindex
    omega

/-- The record behind those of the active segment. -/
theorem Layout.write_last {front : List Chunk} {a : Chunk} {e : LogEntry} (h : Layout codec w (front ++ [a]))
    (hn : Next codec (front ++ [a]) e) :
    ∃ a', a'.start = a.start ∧ logOf (front ++ [a']) = logOf (front ++ [a]) ++ [e] ∧
      Layout codec (w.writeRecord ⟨a.start, a.seg.sizeBytes⟩ a.seg e.index (codec.serialize e)) (front ++ [a']) := by
  let a' : Chunk := ⟨⟨a.start, e.index, a.seg.sizeBytes + (record (codec.serialize e)).length⟩, a.entries ++ [e]⟩
  obtain ⟨hlog, hreg⟩ : logOf (front ++ [a']) = logOf (front ++ [a]) ++ [e] ∧ Regular codec (front ++ [a']) :=
    h.toRegular.extend_last hn rfl rfl
  have hsize := h.sizes a (by simp)
  have hsegments : (w.writeRecord ⟨a.start, a.seg.sizeBytes⟩ a.seg e.index (codec.serialize e)).segments =
      (front ++ [a']).map Chunk.seg := by
    simp only [writeRecord, h.segments]
    simp [a', Chunk.start]
  refine ⟨a', rfl, hlog, { hreg with
    segments := hsegments, sizes := ?_, lasts := ?_, files := ?_, rows := ?_, last := ?_, fd := ?_, start := ?_
    size := h.size }⟩
  · intro c hc
    rcases List.mem_append.mp hc with hc | hc
    · exact h.sizes c (by simp [hc])
    · rw [List.mem_singleton.mp hc]
      simp [a', hsize]
  · intro c hc x hx
    rcases List.mem_append.mp hc with hc | hc
    · exact h.lasts c (by simp [hc]) x hx
    · rw [List.mem_singleton.mp hc] at hx ⊢
      have hlast : x = e := by simpa [a'] using hx.symm
      rw [hlast]
  · simp only [writeRecord, hsize]
    refine h.files.write (fun d hd => ?_) rfl rfl
    exact Nat.ne_of_lt ((List.pairwise_append.mp h.ascending.starts).2.2 d hd a List.mem_cons_self).1
  · simp only [writeRecord]
    rw [rows_insert h.rows h.toRegular hn, placed_append, placed_append]
    simp [placed, place_append, place, a', hsize, Chunk.start]
  · intro x hx
    rw [hlog, List.getLast?_concat] at hx
    cases hx
    rfl
  · right
    rw [hsegments]
    simp [activeFd, writeRecord, a']
  · simp only [writeRecord]
    rw [h.start]
    cases front with
    | nil => rfl
    | cons c front => rfl

/-- The WAL has an empty segment behind the ones with entries, ready for the next entry. -/
structure Pending (codec : EntryCodec) (w : Wal) (chunks : List Chunk) : Prop extends Regular codec chunks where
  held : logOf chunks ≠ []
  segments : w.segments = chunks.map Chunk.seg ++ [⟨w.lastIndex + 1, w.lastIndex, 0⟩]
  sizes : ∀ c ∈ chunks, c.seg.sizeBytes = (records codec c.entries).length
  lasts : ∀ c ∈ chunks, ∀ e ∈ c.entries.getLast?, c.seg.lastIndex = e.index
  files : Files codec w.dir (chunks ++ [⟨⟨w.lastIndex + 1, w.lastIndex, 0⟩, []⟩])
  rows : w.offsetIndex.rows = (placed codec chunks).map row
  last : ∀ e ∈ (logOf chunks).getLast?, w.lastIndex = e.index
  fd : w.fd = none ∨ w.fd = activeFd w.segments
  start : w.start = (chunks.head?).elim w.start Chunk.start
  size : w.segmentSizeBytes ≠ 0

/-- The chunks end before the index behind the log. -/
theorem Regular.ends_before (h : Regular codec chunks) (hheld : logOf chunks ≠ []) {last : Nat}
    (hlast : ∀ e ∈ (logOf chunks).getLast?, last = e.index) {c : Chunk} (hc : c ∈ chunks) :
    c.start < last + 1 ∧ ∀ e ∈ c.entries, e.index < last + 1 := by
  obtain ⟨x, hx⟩ := Option.isSome_iff_exists.mp (List.getLast?_isSome.mpr hheld)
  have hle : ∀ e ∈ c.entries, e.index < last + 1 := by
    intro e he
    have := h.le_last (List.mem_flatMap.mpr ⟨c, hc, he⟩) hx
    rw [hlast x hx]
    omega
  refine ⟨?_, hle⟩
  rcases h.filled with ⟨d, rfl, hd⟩ | ⟨-, hall⟩
  · exact absurd (by simpa [logOf] using hd) hheld
  · obtain ⟨e, he⟩ := List.exists_mem_of_ne_nil _ (hall c hc)
    exact Nat.lt_of_le_of_lt (h.ascending.start_le c hc e he) (hle e he)

/-- A rotation leaves such a segment. -/
theorem Layout.rotated (h : Layout codec w chunks) (hheld : logOf chunks ≠ []) :
    Pending codec (Session.rotated w (w.lastIndex + 1)) chunks := by
  refine { h.toRegular with
    held := hheld, segments := ?_, sizes := h.sizes, lasts := h.lasts, files := ?_, rows := h.rows, last := h.last
    fd := ?_, start := h.start, size := h.size }
  · simp only [Session.rotated, h.segments]
    rfl
  · refine h.files.create (c := ⟨⟨w.lastIndex + 1, w.lastIndex, 0⟩, []⟩) (fun d hd => ?_) rfl
    exact Nat.ne_of_lt (h.toRegular.ends_before hheld h.last hd).1
  · right
    simp [Session.rotated, activeFd]

/-- The first record of that segment. -/
theorem Pending.write {e : LogEntry} (h : Pending codec w chunks) (hn : Next codec chunks e) :
    ∃ c, logOf (chunks ++ [c]) = logOf chunks ++ [e] ∧
      Layout codec (w.writeRecord ⟨e.index, 0⟩ ⟨e.index, e.index - 1, 0⟩ e.index (codec.serialize e)) (chunks ++ [c]) := by
  let c : Chunk := ⟨⟨e.index, e.index, 0 + (record (codec.serialize e)).length⟩, [e]⟩
  obtain ⟨hlog, hreg⟩ := h.toRegular.extend_new hn h.held (c := c) rfl rfl
  have hsegments : (w.writeRecord ⟨e.index, 0⟩ ⟨e.index, e.index - 1, 0⟩ e.index (codec.serialize e)).segments =
      (chunks ++ [c]).map Chunk.seg := by
    simp only [writeRecord, h.segments]
    simp [c]
  obtain ⟨x, hx⟩ := Option.isSome_iff_exists.mp (List.getLast?_isSome.mpr h.held)
  have hindex : e.index = w.lastIndex + 1 := by rw [hn.succ x hx, h.last x hx]
  refine ⟨c, hlog, { hreg with
    segments := hsegments, sizes := ?_, lasts := ?_, files := ?_, rows := ?_, last := ?_, fd := ?_, start := ?_
    size := h.size }⟩
  · intro d hd
    rcases List.mem_append.mp hd with hd | hd
    · exact h.sizes d hd
    · rw [List.mem_singleton.mp hd]
      simp [c]
  · intro d hd x hx
    rcases List.mem_append.mp hd with hd | hd
    · exact h.lasts d hd x hx
    · rw [List.mem_singleton.mp hd] at hx ⊢
      have hlast : x = e := by simpa [c] using hx.symm
      rw [hlast]
  · have hnew : ∀ d ∈ chunks, d.start ≠ e.index := fun d hd =>
      Nat.ne_of_lt ((List.pairwise_append.mp hreg.ascending.starts).2.2 d hd c List.mem_cons_self).1
    have hfiles := h.files
    rw [← hindex] at hfiles
    exact hfiles.write hnew rfl rfl
  · simp only [writeRecord]
    rw [rows_insert h.rows h.toRegular hn, placed_append]
    simp [placed, place, c, Chunk.start]
  · intro x hx
    rw [hlog, List.getLast?_concat] at hx
    cases hx
    rfl
  · right
    rw [hsegments]
    simp [activeFd, writeRecord, c]
  · simp only [writeRecord]
    rw [h.start]
    cases chunks with
    | nil => exact absurd rfl h.held
    | cons d chunks => rfl

/-- The record in a segment of its own. -/
theorem Layout.write_new {e : LogEntry} (h : Layout codec w chunks) (hn : Next codec chunks e)
    (hlast : logOf chunks ≠ []) :
    ∃ c, logOf (chunks ++ [c]) = logOf chunks ++ [e] ∧
      Layout codec ((Session.rotated w e.index).writeRecord ⟨e.index, 0⟩ ⟨e.index, e.index - 1, 0⟩ e.index
        (codec.serialize e)) (chunks ++ [c]) := by
  obtain ⟨x, hx⟩ := Option.isSome_iff_exists.mp (List.getLast?_isSome.mpr hlast)
  have hindex : e.index = w.lastIndex + 1 := by rw [hn.succ x hx, h.last x hx]
  have hrotated := h.rotated hlast
  rw [← hindex] at hrotated
  exact hrotated.write hn

theorem Layout.next_of_accepts {e : LogEntry} (h : Layout codec w chunks) (hacc : Session.Accepts codec w e)
    (hstart : logOf chunks = [] → ∀ c ∈ chunks, c.start ≤ e.index) (hpos : 1 ≤ e.index) (hknown : Known e)
    (hround : codec.RoundTrips e) : Next codec chunks e := by
  refine ⟨fun x hx => ?_, hstart, hpos, hknown, hround hacc.2.1, ?_⟩
  · have hne : w.offsetIndex.size ≠ 0 := by
      rw [Ne, h.size_eq_zero]
      exact List.ne_nil_of_mem (List.mem_of_getLast? hx)
    rw [hacc.1 hne, h.last x hx]
  · have := hacc.2.2
    omega

/-- `Append` of an accepted entry adds it to the log. -/
theorem Layout.append {e : LogEntry} (h : Layout codec w chunks) (hacc : Session.Accepts codec w e)
    (hn : Next codec chunks e) :
    ∃ w' chunks', w.append codec e = .ok w' ∧ Layout codec w' chunks' ∧ logOf chunks' = logOf chunks ++ [e] ∧
      w'.lastIndex = e.index ∧ w'.segmentSizeBytes = w.segmentSizeBytes := by
  obtain ⟨front, a, rfl⟩ := h.exists_active
  have h₁ := h.reopenFd
  have hok := Session.append_ok (w := { w with fd := activeFd w.segments }) hacc (h.getLast?_segments rfl)
    (h.activeFd_eq rfl)
  rw [← h.append_activeFd] at hok
  split at hok
  · next hrot =>
    have hlast : logOf (front ++ [a]) ≠ [] := by
      intro hnil
      have hentries : a.entries = [] := by
        rw [logOf_append, List.append_eq_nil_iff] at hnil
        simpa [logOf] using hnil.2
      have hsize : a.seg.sizeBytes = 0 := by rw [h.sizes a (by simp), hentries]; rfl
      have hactive : w.activeSize = 0 := by rw [activeSize, h.getLast?_segments rfl]; exact hsize
      have hfalse : ({ w with fd := activeFd w.segments } : Wal).activeSize = 0 := hactive
      simp [needsRotation, hfalse] at hrot
    obtain ⟨c, hlog, h'⟩ := h₁.write_new hn hlast
    exact ⟨_, _, hok, h', hlog, rfl, rfl⟩
  · obtain ⟨a', -, hlog, h'⟩ := h₁.write_last hn
    exact ⟨_, _, hok, h', hlog, rfl, rfl⟩

theorem accepts_of_append {e : LogEntry} (hok : w.append codec e = .ok w') : Session.Accepts codec w e := by
  by_contra hacc
  obtain ⟨m, hm⟩ := Session.append_error hacc
  rw [hok] at hm
  cases hm

/-- What a successful `Append` does, at or behind the start of an empty log. -/
theorem Layout.append_ok {e : LogEntry} (h : Layout codec w chunks) (hok : w.append codec e = .ok w')
    (hstart : logOf chunks = [] → ∀ c ∈ chunks, c.start ≤ e.index) (hpos : 1 ≤ e.index) (hknown : Known e)
    (hround : codec.RoundTrips e) :
    ∃ chunks', Next codec chunks e ∧ Layout codec w' chunks' ∧ logOf chunks' = logOf chunks ++ [e] ∧
      w'.lastIndex = e.index ∧ w'.segmentSizeBytes = w.segmentSizeBytes := by
  have hacc := accepts_of_append hok
  have hn := h.next_of_accepts hacc hstart hpos hknown hround
  obtain ⟨w₁, chunks', hok', h', hrest⟩ := h.append hacc hn
  rw [hok] at hok'
  cases hok'
  exact ⟨chunks', hn, h', hrest⟩

theorem Files.fdatasync {dir : Dir} (hf : Files codec dir chunks) (path : Nat) : Files codec (dir.fdatasync path) chunks := by
  intro p
  rw [← hf p, Dir.fdatasync, Table.adjust, Table.find?_mapValues, Option.map_map]
  congr 1
  funext f
  simp only [Function.comp_apply]
  split
  · rfl
  · rfl

/-- `Flush` changes no bytes. -/
theorem Layout.flush (h : Layout codec w chunks) (hok : w.flush = .ok w') :
    Layout codec w' chunks ∧ w'.lastIndex = w.lastIndex ∧ w'.segmentSizeBytes = w.segmentSizeBytes := by
  unfold Wal.flush at hok
  split at hok
  · cases hok
  · next fd hfd =>
    cases hok
    exact ⟨{ h with files := h.files.fdatasync fd.path }, rfl, rfl⟩

end RaftVdb.Wal
