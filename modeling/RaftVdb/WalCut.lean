import RaftVdb.WalRefinement

/-!
# Truncation of the chunks

`TruncateBefore` drops whole chunks at the front. `TruncateSuffix` cuts the chunk that
holds the first entry to go, or drops it if nothing of it stays, and drops the later
ones. Both are followed down to the single file operations.
-/

namespace RaftVdb.Wal

open Lib

variable {codec : EntryCodec} {w w' : Wal} {chunks : List Chunk}

theorem Files.erase {dir : Dir} (hf : Files codec dir chunks) (p : Nat) :
    Files codec (dir.erase p) (chunks.filter fun c => c.start ≠ p) := by
  intro q
  rw [Table.find?_erase_eq, List.find?_filter]
  by_cases hq : q = p
  · rw [if_pos hq, List.find?_eq_none.mpr]
    · rfl
    · intro c _
      simp [hq]
  · rw [if_neg hq, hf q]
    congr 2
    funext c
    by_cases hc : c.start = q
    · simp [hc, hq]
    · simp [hc]

theorem Files.unlink {dir : Dir} (gone : List Chunk) (hf : Files codec dir chunks) :
    Files codec (dir.perform (gone.map fun c => .unlink c.start))
      (chunks.filter fun c => gone.all fun d => c.start ≠ d.start) := by
  induction gone generalizing dir chunks with
  | nil => simpa [Dir.perform] using hf
  | cons d gone ih =>
    have hrest := ih (hf.erase d.start)
    rw [List.filter_filter] at hrest
    rw [List.map_cons, Dir.perform, List.foldl_cons]
    simpa [Bool.and_comm, Dir.perform, FsOp.apply] using hrest

/-- Unlinking some of the chunks leaves the others. -/
theorem Files.unlink_middle {dir : Dir} {xs gone ys : List Chunk} (hf : Files codec dir (xs ++ gone ++ ys))
    (hasc : Ascending (xs ++ gone ++ ys)) :
    Files codec (dir.perform (gone.map fun c => .unlink c.start)) (xs ++ ys) := by
  have hsplit := List.pairwise_append.mp hasc.starts
  have hfront := List.pairwise_append.mp hsplit.1
  have hkeep : (xs ++ gone ++ ys).filter (fun c => gone.all fun d => c.start ≠ d.start) = xs ++ ys := by
    rw [List.filter_append, List.filter_append, List.filter_eq_self.mpr, List.filter_eq_nil_iff.mpr,
      List.filter_eq_self.mpr, List.append_nil]
    · intro c hc
      simp only [ne_eq, decide_not, List.all_eq_true, Bool.not_eq_eq_eq_not, Bool.not_true, decide_eq_false_iff_not]
      intro d hd
      have hlt := (hsplit.2.2 d (List.mem_append_right _ hd) c hc).1
      omega
    · intro c hc hall
      simp only [ne_eq, decide_not, List.all_eq_true, Bool.not_eq_eq_eq_not, Bool.not_true,
        decide_eq_false_iff_not] at hall
      exact hall c hc rfl
    · intro c hc
      simp only [ne_eq, decide_not, List.all_eq_true, Bool.not_eq_eq_eq_not, Bool.not_true, decide_eq_false_iff_not]
      intro d hd
      have hlt := (hfront.2.2 c hc d hd).1
      omega
  have hall := hf.unlink gone
  rwa [hkeep] at hall

/-- Cutting one of the files at the end of a record. -/
theorem Files.ftruncate {dir : Dir} {xs ys : List Chunk} {c c' : Chunk} {rear : List LogEntry}
    (hf : Files codec dir (xs ++ c :: ys)) (hxs : ∀ d ∈ xs, d.start ≠ c.start) (hstart : c'.start = c.start)
    (hentries : c.entries = c'.entries ++ rear) :
    Files codec (dir.truncate c.start (records codec c'.entries).length) (xs ++ c' :: ys) := by
  intro p
  have hfp := hf p
  rw [List.find?_append] at hfp
  rw [Dir.truncate, List.find?_append]
  by_cases hp : p = c.start
  · subst hp
    rw [List.find?_eq_none.mpr (by simpa using hxs), Option.none_or, List.find?_cons_of_pos (by simp),
      Option.map_some] at hfp
    obtain ⟨f, hfind, hbytes⟩ := Option.map_eq_some_iff.mp hfp
    rw [Table.find?_adjust_self, hfind, List.find?_eq_none.mpr (by simpa using hxs), Option.none_or,
      List.find?_cons_of_pos (by simp [hstart]), Option.map_some, Option.map_some, Option.map_some, hbytes, hentries,
      records_append, List.take_left]
  · have hpc : ¬ c.start = p := fun h => hp h.symm
    rw [List.find?_cons_of_neg (by simpa using hpc)] at hfp
    rw [Table.find?_adjust_other _ _ _ _ hp, List.find?_cons_of_neg (by simpa [hstart] using hpc), hfp]

/-- The chunk of a segment that holds nothing yet. -/
def fresh (start : Nat) : Chunk := ⟨⟨start, start - 1, 0⟩, []⟩

theorem regular_fresh (codec : EntryCodec) (start : Nat) : Regular codec [fresh start] := by
  refine ⟨⟨List.pairwise_singleton _ _, ?_, ?_⟩, .inl ⟨_, rfl, rfl⟩, List.IsChain.nil, ?_, ?_⟩
  · simp [fresh]
  · simp [fresh]
  · simp [logOf, fresh]
  · simp [logOf, fresh]

theorem Regular.suffix {gone kept : List Chunk} (h : Regular codec (gone ++ kept)) (hne : kept ≠ []) :
    Regular codec kept := by
  have hmem : ∀ e ∈ logOf kept, e ∈ logOf (gone ++ kept) := fun e he => by
    rw [logOf_append]
    exact List.mem_append_right _ he
  refine ⟨h.ascending.sublist (List.sublist_append_right _ _), ?_, ?_, fun e he => h.positive e (hmem e he),
    fun e he => h.recoverable e (hmem e he)⟩
  · rcases h.filled with ⟨c, hc, hnil⟩ | ⟨-, hall⟩
    · cases gone with
      | nil => exact .inl ⟨c, hc, hnil⟩
      | cons d gone =>
        rw [List.cons_append, List.cons.injEq, List.append_eq_nil_iff] at hc
        exact absurd hc.2.2 hne
    · exact .inr ⟨hne, fun c hc => hall c (List.mem_append_right _ hc)⟩
  · have hall := h.consecutive
    rw [logOf_append] at hall
    exact hall.right_of_append

/-- The chunks whose segments `TruncateBefore` removes, and the others. -/
structure Split (k : Nat) (chunks gone kept : List Chunk) : Prop where
  chunks : chunks = gone ++ kept
  gone : ∀ c ∈ gone, endsBefore k c.seg = true
  kept : ∀ c ∈ kept, endsBefore k c.seg = false

/-- The segments that `TruncateBefore` removes are the first ones. -/
theorem Regular.exists_split (h : Regular codec chunks)
    (hlasts : ∀ c ∈ chunks, ∀ e ∈ c.entries.getLast?, c.seg.lastIndex = e.index) (k : Nat) :
    ∃ gone kept, Split k chunks gone kept := by
  refine ⟨chunks.takeWhile fun c => endsBefore k c.seg, chunks.dropWhile fun c => endsBefore k c.seg,
    List.takeWhile_append_dropWhile.symm, List.all_eq_true.mp List.all_takeWhile, ?_⟩
  have hsuffix : chunks.dropWhile (fun c => endsBefore k c.seg) <:+ chunks := List.dropWhile_suffix _
  cases hdrop : chunks.dropWhile fun c => endsBefore k c.seg with
  | nil => simp
  | cons c kept =>
    have hhead : endsBefore k c.seg = false := by
      have hnot := List.head?_dropWhile_not (fun c : Chunk => endsBefore k c.seg) chunks
      rw [hdrop] at hnot
      simpa using hnot
    rw [hdrop] at hsuffix
    intro d hd
    rcases List.mem_cons.mp hd with rfl | hd
    · exact hhead
    · rcases h.filled with ⟨x, rfl, -⟩ | ⟨-, hall⟩
      · have hlen := hsuffix.length_le
        cases kept with
        | nil => cases hd
        | cons y kept => simp at hlen
      · have hc := hsuffix.subset List.mem_cons_self
        have hd' := hsuffix.subset (List.mem_cons_of_mem c hd)
        obtain ⟨x, hx⟩ := Option.isSome_iff_exists.mp (List.getLast?_isSome.mpr (hall c hc))
        obtain ⟨y, hy⟩ := Option.isSome_iff_exists.mp (List.getLast?_isSome.mpr (hall d hd'))
        have hlastc := hlasts c hc x hx
        have hlastd := hlasts d hd' y hy
        have hstarts := h.ascending.starts.sublist hsuffix.sublist
        have hlt := (List.rel_of_pairwise_cons hstarts hd).2 x (List.mem_of_getLast? hx)
        have hle := h.ascending.start_le d hd' y (List.mem_of_getLast? hy)
        have hpos := h.positive x (List.mem_flatMap.mpr ⟨c, hc, List.mem_of_getLast? hx⟩)
        simp only [endsBefore, ne_eq, decide_not, Bool.and_eq_false_imp, Bool.not_eq_eq_eq_not, Bool.not_true,
          decide_eq_false_iff_not] at hhead ⊢
        have := hhead (by omega)
        omega

theorem path_of_mem_placed {p : LogEntry × EntryLocation} (hp : p ∈ placed codec chunks) :
    ∃ c ∈ chunks, p.2.path = c.start := by
  obtain ⟨c, hc, hp⟩ := List.mem_flatMap.mp hp
  obtain ⟨front, rear, -, hloc⟩ := mem_place hp
  exact ⟨c, hc, by rw [hloc]⟩

/-- The rows of the removed segments go. -/
theorem filter_rows_before {gone kept : List Chunk} (hasc : Ascending (gone ++ kept)) :
    ((placed codec (gone ++ kept)).map row).filter
        (fun r => (gone.map Chunk.seg).all fun s => s.startIndex ≠ r.2.path) =
      (placed codec kept).map row := by
  have hlt := (List.pairwise_append.mp hasc.starts).2.2
  rw [placed_append, List.map_append, List.filter_append, List.filter_eq_nil_iff.mpr, List.filter_eq_self.mpr,
    List.nil_append]
  · intro r hr
    obtain ⟨p, hp, rfl⟩ := List.mem_map.mp hr
    obtain ⟨c, hc, hpath⟩ := path_of_mem_placed hp
    simp only [List.all_eq_true, List.mem_map, decide_eq_true_eq]
    rintro s ⟨d, hd, rfl⟩
    have := (hlt d hd c hc).1
    simp only [row, hpath]
    unfold Chunk.start at *
    omega
  · intro r hr hall
    obtain ⟨p, hp, rfl⟩ := List.mem_map.mp hr
    obtain ⟨c, hc, hpath⟩ := path_of_mem_placed hp
    simp only [List.all_eq_true, List.mem_map, decide_eq_true_eq] at hall
    exact hall c.seg ⟨c, hc, rfl⟩ hpath.symm

theorem start_of_segments {segments : List SegmentMeta} {s s' : Nat} (hne : chunks ≠ [])
    (hsegments : segments = chunks.map Chunk.seg) :
    (segments.head?).elim s SegmentMeta.startIndex = (chunks.head?).elim s' Chunk.start := by
  cases chunks with
  | nil => exact absurd rfl hne
  | cons c chunks =>
    rw [hsegments]
    rfl

/-- Both truncations take `last_index_` from what is left of `offset_index_`. -/
theorem maxIndex_getD {d : Nat} (hasc : Ascending chunks) (hrows : w.offsetIndex.rows = (placed codec chunks).map row) :
    w.maxIndex.getD d = (logOf chunks).getLast?.elim d LogEntry.index := by
  rw [maxIndex_of_rows hasc hrows]
  cases (logOf chunks).getLast? with
  | none => rfl
  | some e => rfl

theorem perform_append (dir : Dir) (xs ys : List FsOp) : dir.perform (xs ++ ys) = (dir.perform xs).perform ys :=
  List.foldl_append

section Split

variable {k : Nat} {gone kept : List Chunk}

/-- What `TruncateBefore` leaves of the chunks. -/
def keptChunks (k : Nat) (kept : List Chunk) : List Chunk := if kept = [] then [fresh k] else kept

theorem logOf_keptChunks (k : Nat) (kept : List Chunk) : logOf (keptChunks k kept) = logOf kept := by
  unfold keptChunks
  split
  · next hnil => rw [hnil]; rfl
  · rfl

theorem placed_keptChunks (k : Nat) (kept : List Chunk) : placed codec (keptChunks k kept) = placed codec kept := by
  unfold keptChunks
  split
  · next hnil => rw [hnil]; rfl
  · rfl

theorem keptChunks_ne_nil (k : Nat) (kept : List Chunk) : keptChunks k kept ≠ [] := by
  unfold keptChunks
  split
  · exact List.cons_ne_nil _ _
  · next hne => exact hne

theorem mem_keptChunks {c : Chunk} (hc : c ∈ keptChunks k kept) : c = fresh k ∨ c ∈ kept := by
  unfold keptChunks at hc
  split at hc
  · exact .inl (List.mem_singleton.mp hc)
  · exact .inr hc

theorem Split.mem_kept (h : Split k chunks gone kept) {c : Chunk} (hc : c ∈ kept) : c ∈ chunks := by
  rw [h.chunks]
  exact List.mem_append_right _ hc

theorem Split.removedBefore (h : Split k chunks gone kept) (hl : Listed codec w chunks) :
    w.removedBefore k = gone.map Chunk.seg := by
  rw [Wal.removedBefore, hl.segments, h.chunks, List.map_append, List.filter_append, List.filter_eq_self.mpr,
    List.filter_eq_nil_iff.mpr, List.append_nil]
  · simpa using h.kept
  · simpa using h.gone

theorem Split.keptFrom (h : Split k chunks gone kept) (hl : Listed codec w chunks) :
    w.keptFrom k = kept.map Chunk.seg := by
  rw [Wal.keptFrom, hl.segments, h.chunks, List.map_append, List.filter_append, List.filter_eq_nil_iff.mpr,
    List.filter_eq_self.mpr, List.nil_append]
  · simpa using h.kept
  · simpa using h.gone

theorem Split.truncateBeforeOps (h : Split k chunks gone kept) (hl : Listed codec w chunks) :
    w.truncateBeforeOps k =
      (gone.map fun c => .unlink c.start) ++ if kept = [] then [.create k] else [] := by
  rw [Wal.truncateBeforeOps, h.removedBefore hl, h.keptFrom hl, List.map_map]
  simp only [List.map_eq_nil_iff]
  rfl

theorem Split.regular (h : Split k chunks gone kept) (hreg : Regular codec chunks) :
    Regular codec (keptChunks k kept) := by
  unfold keptChunks
  split
  · exact regular_fresh codec k
  · next hnil =>
    rw [h.chunks] at hreg
    exact hreg.suffix hnil

theorem Split.ascending (h : Split k chunks gone kept) (hl : Listed codec w chunks) : Ascending (keptChunks k kept) := by
  unfold keptChunks
  split
  · exact (regular_fresh codec k).ascending
  · have hasc := hl.ascending
    rw [h.chunks] at hasc
    exact hasc.sublist (List.sublist_append_right _ _)

theorem Split.recoverable (h : Split k chunks gone kept) (hl : Listed codec w chunks) :
    ∀ e ∈ logOf (keptChunks k kept), Recoverable codec e := by
  intro e he
  rw [logOf_keptChunks] at he
  apply hl.recoverable e
  rw [h.chunks, logOf_append]
  exact List.mem_append_right _ he

theorem Split.files (h : Split k chunks gone kept) (hl : Listed codec w chunks) :
    Files codec (w.dir.perform (w.truncateBeforeOps k)) (keptChunks k kept) := by
  have hfiles := hl.files
  have hasc := hl.ascending
  rw [h.chunks] at hfiles hasc
  have hunlink : Files codec (w.dir.perform (gone.map fun c => .unlink c.start)) kept :=
    @Files.unlink_middle codec _ [] gone kept hfiles hasc
  rw [h.truncateBeforeOps hl, perform_append, keptChunks]
  by_cases hnil : kept = []
  · rw [if_pos hnil, if_pos hnil]
    rw [hnil] at hunlink
    exact hunlink.create (c := fresh k) (by simp) rfl
  · rw [if_neg hnil, if_neg hnil]
    exact hunlink

theorem Split.sizes (h : Split k chunks gone kept) (hl : Listed codec w chunks) :
    ∀ c ∈ keptChunks k kept, c.seg.sizeBytes = (records codec c.entries).length := by
  intro c hc
  rcases mem_keptChunks hc with rfl | hc
  · rfl
  · exact hl.sizes c (h.mem_kept hc)

theorem Split.lasts (h : Split k chunks gone kept) (hl : Listed codec w chunks) :
    ∀ c ∈ keptChunks k kept, ∀ e ∈ c.entries.getLast?, c.seg.lastIndex = e.index := by
  intro c hc e he
  rcases mem_keptChunks hc with rfl | hc
  · cases he
  · exact hl.lasts c (h.mem_kept hc) e he

/-- What `TruncateBefore` does: the segments that end before the index go, and if these
are all of them a fresh one takes their place. -/
theorem Listed.truncateBefore (hl : Listed codec w chunks) (h : Split k chunks gone kept) (hne : chunks ≠ []) :
    ∃ w', w.truncateBefore k = .ok w' ∧ Listed codec w' (keptChunks k kept) ∧
      w'.start = ((keptChunks k kept).head?).elim w'.start Chunk.start ∧
      w'.lastIndex = (logOf kept).getLast?.elim 0 LogEntry.index ∧ w'.segmentSizeBytes = w.segmentSizeBytes := by
  have hsome : w.segments ≠ [] := by
    rw [hl.segments]
    simpa using hne
  have hnek := keptChunks_ne_nil k kept
  have hrows : (w.offsetIndex.filter fun _ location =>
      (w.removedBefore k).all fun s => s.startIndex ≠ location.path).rows =
      (placed codec (keptChunks k kept)).map row := by
    have hasc := hl.ascending
    rw [h.chunks] at hasc
    rw [placed_keptChunks, ← filter_rows_before hasc, h.removedBefore hl, Table.rows_filter, hl.rows, h.chunks]
  have hsegments : (if w.keptFrom k = [] then [⟨k, k - 1, 0⟩] else w.keptFrom k) =
      (keptChunks k kept).map Chunk.seg := by
    rw [h.keptFrom hl, keptChunks]
    by_cases hnil : kept = []
    · simp [hnil, fresh]
    · simp [hnil]
  let w₁ : Wal := { w with
    dir := w.dir.perform (w.truncateBeforeOps k)
    offsetIndex := w.offsetIndex.filter fun _ location =>
      (w.removedBefore k).all fun s => s.startIndex ≠ location.path
    segments := if w.keptFrom k = [] then [⟨k, k - 1, 0⟩] else w.keptFrom k
    start := ((if w.keptFrom k = [] then [⟨k, k - 1, 0⟩] else w.keptFrom k).head?).elim w.start SegmentMeta.startIndex }
  have hstart : w₁.start = ((keptChunks k kept).head?).elim w₁.start Chunk.start := start_of_segments hnek hsegments
  have hlisted : ∀ fd, (fd = none ∨ fd = activeFd w₁.segments) →
      Listed codec { w₁ with lastIndex := w₁.maxIndex.getD 0, fd := fd } (keptChunks k kept) := fun fd hfd =>
    ⟨⟨h.ascending hl, h.recoverable hl, h.files hl, hrows⟩, hsegments, h.sizes hl, h.lasts hl, hfd, hl.size⟩
  have hlast : w₁.maxIndex.getD 0 = (logOf kept).getLast?.elim 0 LogEntry.index := by
    rw [maxIndex_getD (h.ascending hl) hrows, logOf_keptChunks]
  by_cases hreopen : w.removedBefore k ≠ [] ∨ w.fd = none
  · refine ⟨_, ?_, hlisted _ (.inr rfl), hstart, hlast, rfl⟩
    rw [Wal.truncateBefore, if_neg hsome]
    simp only
    rw [if_pos hreopen]
    exact openActive_of_files (w := { w₁ with lastIndex := w₁.maxIndex.getD 0 }) hnek hsegments (h.files hl)
  · rw [not_or, not_not] at hreopen
    have hnil : gone = [] := by simpa [h.removedBefore hl] using hreopen.1
    have hchunks : chunks = kept := by rw [h.chunks, hnil, List.nil_append]
    refine ⟨{ w₁ with lastIndex := w₁.maxIndex.getD 0 }, ?_, hlisted w.fd (.inr ?_), hstart, hlast, rfl⟩
    · rw [Wal.truncateBefore, if_neg hsome]
      simp only
      rw [if_neg (by rw [not_or, not_not]; exact hreopen)]
    · refine (hl.fd.resolve_left hreopen.2).trans ?_
      rw [hl.segments, show w₁.segments = _ from hsegments, keptChunks, if_neg (by rw [← hchunks]; exact hne), hchunks]

theorem Layout.truncateBefore (hl : Layout codec w chunks) (h : Split k chunks gone kept) :
    ∃ w', w.truncateBefore k = .ok w' ∧ Layout codec w' (keptChunks k kept) ∧
      w'.lastIndex = (logOf kept).getLast?.elim 0 LogEntry.index ∧ w'.segmentSizeBytes = w.segmentSizeBytes := by
  obtain ⟨w', hok, hlisted, hstart, hlast, hsize⟩ := hl.listed.truncateBefore h hl.filled.ne_nil
  refine ⟨w', hok, hlisted.layout (h.regular hl.toRegular) ?_ hstart, hlast, hsize⟩
  intro e he
  rw [logOf_keptChunks] at he
  rw [hlast, Option.mem_def.mp he]
  rfl

end Split

theorem suffixLoop_before {k offset : Nat} {xs ys : List SegmentMeta}
    (hxs : ∀ s ∈ xs, s.startIndex < k ∧ s.lastIndex < k) :
    suffixLoop k offset (xs ++ ys) = (xs ++ (suffixLoop k offset ys).1, (suffixLoop k offset ys).2) := by
  induction xs with
  | nil => rfl
  | cons s xs ih =>
    have hs := hxs s List.mem_cons_self
    rw [List.cons_append, suffixLoop, if_neg (by omega), if_neg (by omega),
      ih fun x hx => hxs x (List.mem_cons_of_mem _ hx)]
    rfl

theorem suffixLoop_after {k offset : Nat} {ys : List SegmentMeta} (hys : ∀ s ∈ ys, k ≤ s.startIndex) :
    suffixLoop k offset ys = ([], ys.map fun s => .unlink s.startIndex) := by
  induction ys with
  | nil => rfl
  | cons s ys ih =>
    rw [suffixLoop, if_pos (hys s List.mem_cons_self), ih fun x hx => hys x (List.mem_cons_of_mem _ hx)]
    rfl

/-- Where an index cuts the chunks: `before` lies below it, and the chunk `c` holds the
first entry that does not. -/
structure Cut (k : Nat) (chunks before : List Chunk) (c : Chunk) (rest : List Chunk) (front : List LogEntry)
    (x : LogEntry) (rear : List LogEntry) : Prop where
  chunks : chunks = before ++ c :: rest
  entries : c.entries = front ++ x :: rear
  before : ∀ b ∈ before, b.start < k ∧ b.seg.lastIndex < k ∧ ∀ e ∈ b.entries, e.index < k
  front : ∀ e ∈ front, e.index < k
  le : k ≤ x.index
  rear : ∀ e ∈ rear, k ≤ e.index
  last : k ≤ c.seg.lastIndex
  rest : ∀ d ∈ rest, k ≤ d.start ∧ ∀ e ∈ d.entries, k ≤ e.index

theorem Regular.exists_cut (h : Regular codec chunks)
    (hlasts : ∀ c ∈ chunks, ∀ e ∈ c.entries.getLast?, c.seg.lastIndex = e.index) {k : Nat} {last : LogEntry}
    (hlast : (logOf chunks).getLast? = some last) (hk : k ≤ last.index) :
    ∃ before c rest front x rear, Cut k chunks before c rest front x rear := by
  have hne : logOf chunks ≠ [] := List.ne_nil_of_mem (List.mem_of_getLast? hlast)
  obtain ⟨d, hd, hmem⟩ := List.mem_flatMap.mp (List.mem_of_getLast? hlast)
  have hsome : (chunks.find? fun c => c.entries.any fun e => k ≤ e.index).isSome := by
    rw [List.find?_isSome]
    exact ⟨d, hd, by simpa using ⟨last, hmem, hk⟩⟩
  obtain ⟨c, hc⟩ := Option.isSome_iff_exists.mp hsome
  obtain ⟨hany, before, rest, rfl, hbefore⟩ := List.find?_eq_some_iff_append.mp hc
  obtain ⟨y, hy⟩ : ∃ y, (c.entries.find? fun e => k ≤ e.index) = some y := by
    refine Option.isSome_iff_exists.mp (List.find?_isSome.mpr ?_)
    simpa using hany
  obtain ⟨hle, front, rear, hentries, hfront⟩ := List.find?_eq_some_iff_append.mp hy
  have hall : ∀ b ∈ before ++ c :: rest, b.entries ≠ [] := by
    rcases h.filled with ⟨b, hb, hnil⟩ | ⟨-, hall⟩
    · rw [hb] at hne
      exact absurd (by simpa [logOf] using hnil) hne
    · exact hall
  have hsorted := h.ascending.sorted c (by simp)
  rw [hentries, List.pairwise_append] at hsorted
  have hrear : ∀ e ∈ rear, k ≤ e.index := fun e he => by
    have := List.rel_of_pairwise_cons hsorted.2.1 he
    simp only [decide_eq_true_eq] at hle
    omega
  have hstarts := (List.pairwise_append.mp h.ascending.starts).2.1
  refine ⟨before, c, rest, front, y, rear, rfl, hentries, ?_, ?_, by simpa using hle, hrear, ?_, ?_⟩
  · intro b hb
    have hlow : ∀ e ∈ b.entries, e.index < k := by
      have := hbefore b hb
      simpa using this
    obtain ⟨z, hz⟩ := Option.isSome_iff_exists.mp (List.getLast?_isSome.mpr (hall b (by simp [hb])))
    have hzlow := hlow z (List.mem_of_getLast? hz)
    refine ⟨Nat.lt_of_le_of_lt (h.ascending.start_le b (by simp [hb]) z (List.mem_of_getLast? hz)) hzlow, ?_, hlow⟩
    rw [hlasts b (by simp [hb]) z hz]
    exact hzlow
  · simpa using hfront
  · obtain ⟨z, hz⟩ := Option.isSome_iff_exists.mp (List.getLast?_isSome.mpr (hall c (by simp)))
    rw [hlasts c (by simp) z hz]
    rw [hentries, List.getLast?_append, List.getLast?_cons, Option.some_or, Option.some.injEq] at hz
    simp only [decide_eq_true_eq] at hle
    cases hr : rear.getLast? with
    | none =>
      rw [hr] at hz
      rw [← hz]
      exact hle
    | some r =>
      rw [hr] at hz
      rw [← hz]
      exact hrear r (List.mem_of_getLast? hr)
  · intro d hd
    have hlt := (List.rel_of_pairwise_cons hstarts hd).2 y (by rw [hentries]; simp)
    simp only [decide_eq_true_eq] at hle
    refine ⟨by omega, fun e he => ?_⟩
    have := h.ascending.start_le d (by simp [hd]) e he
    omega

theorem Layout.exists_cut (h : Layout codec w chunks) {k : Nat} (hne : logOf chunks ≠ []) (hk : k ≤ w.lastIndex) :
    ∃ before c rest front x rear, Cut k chunks before c rest front x rear := by
  obtain ⟨last, hlast⟩ := Option.isSome_iff_exists.mp (List.getLast?_isSome.mpr hne)
  rw [h.last last hlast] at hk
  exact h.toRegular.exists_cut h.lasts hlast hk

/-- A chunk may lose entries. -/
theorem Ascending.shrink {xs ys : List Chunk} {c c' : Chunk} (h : Ascending (xs ++ c :: ys))
    (hstart : c'.start = c.start) (hsub : c'.entries.Sublist c.entries) : Ascending (xs ++ c' :: ys) := by
  have hsplit := List.pairwise_append.mp h.starts
  have hc := List.pairwise_cons.mp hsplit.2.1
  refine ⟨List.pairwise_append.mpr ⟨hsplit.1, List.pairwise_cons.mpr ⟨?_, hc.2⟩, ?_⟩, ?_, ?_⟩
  · intro d hd
    rw [hstart]
    exact ⟨(hc.1 d hd).1, fun e he => (hc.1 d hd).2 e (hsub.subset he)⟩
  · intro b hb d hd
    rcases List.mem_cons.mp hd with rfl | hd
    · rw [hstart]
      exact hsplit.2.2 b hb c List.mem_cons_self
    · exact hsplit.2.2 b hb d (List.mem_cons_of_mem _ hd)
  · intro d hd e he
    rcases List.mem_append.mp hd with hd | hd
    · exact h.start_le d (by simp [hd]) e he
    · rcases List.mem_cons.mp hd with rfl | hd
      · rw [hstart]
        exact h.start_le c (by simp) e (hsub.subset he)
      · exact h.start_le d (by simp [hd]) e he
  · intro d hd
    rcases List.mem_append.mp hd with hd | hd
    · exact h.sorted d (by simp [hd])
    · rcases List.mem_cons.mp hd with rfl | hd
      · exact (h.sorted c (by simp)).sublist hsub
      · exact h.sorted d (by simp [hd])

section Cut

variable {k : Nat} {before rest : List Chunk} {c : Chunk} {front rear : List LogEntry} {x : LogEntry}

theorem Cut.filter_placed (codec : EntryCodec) (h : Cut k chunks before c rest front x rear) :
    (placed codec chunks).filter (fun p => p.1.index < k) = placed codec before ++ place codec c.start 0 front ∧
      (placed codec chunks).filter (fun p => k ≤ p.1.index) =
        place codec c.start (records codec front).length (x :: rear) ++ placed codec rest := by
  have hplaced : placed codec chunks = (placed codec before ++ place codec c.start 0 front) ++
      (place codec c.start (records codec front).length (x :: rear) ++ placed codec rest) := by
    rw [h.chunks, placed_append, show placed codec (c :: rest) = place codec c.start 0 c.entries ++ placed codec rest
      from rfl, h.entries, place_append, Nat.zero_add, List.append_assoc, List.append_assoc]
  have hlow : ∀ p ∈ placed codec before ++ place codec c.start 0 front, p.1.index < k := by
    intro p hp
    rcases List.mem_append.mp hp with hp | hp
    · obtain ⟨b, hb, hp⟩ := List.mem_flatMap.mp hp
      have hmem := List.mem_map_of_mem (f := Prod.fst) hp
      rw [map_fst_place] at hmem
      exact (h.before b hb).2.2 p.1 hmem
    · have hmem := List.mem_map_of_mem (f := Prod.fst) hp
      rw [map_fst_place] at hmem
      exact h.front p.1 hmem
  have hhigh : ∀ p ∈ place codec c.start (records codec front).length (x :: rear) ++ placed codec rest,
      k ≤ p.1.index := by
    intro p hp
    rcases List.mem_append.mp hp with hp | hp
    · have hmem := List.mem_map_of_mem (f := Prod.fst) hp
      rw [map_fst_place] at hmem
      rcases List.mem_cons.mp hmem with hx | hr
      · rw [hx]
        exact h.le
      · exact h.rear p.1 hr
    · obtain ⟨d, hd, hp⟩ := List.mem_flatMap.mp hp
      have hmem := List.mem_map_of_mem (f := Prod.fst) hp
      rw [map_fst_place] at hmem
      exact (h.rest d hd).2 p.1 hmem
  rw [hplaced]
  exact filter_append_of_bound (fun p : LogEntry × EntryLocation => p.1.index) hlow hhigh

theorem Cut.lowerBound (h : Cut k chunks before c rest front x rear) (hl : Listed codec w chunks) :
    ∃ rows, w.lowerBound k = (x.index, ⟨c.start, (records codec front).length⟩) :: rows := by
  rw [hl.toReadable.lowerBound_eq, (h.filter_placed codec).2]
  exact ⟨_, rfl⟩

/-- The chunk that `TruncateSuffix` cuts. -/
def cutChunk (codec : EntryCodec) (k : Nat) (c : Chunk) (front : List LogEntry) : Chunk :=
  ⟨⟨c.start, k - 1, (records codec front).length⟩, front⟩

/-- What is left of the chunks. -/
def cutChunks (codec : EntryCodec) (k : Nat) (before : List Chunk) (c : Chunk) (front : List LogEntry) : List Chunk :=
  if k ≤ c.start then if before = [] then [fresh k] else before else before ++ [cutChunk codec k c front]

/-- How the files get there. -/
def cutOps (codec : EntryCodec) (k : Nat) (before : List Chunk) (c : Chunk) (rest : List Chunk)
    (front : List LogEntry) : List FsOp :=
  if k ≤ c.start then
    ((c :: rest).map fun d => .unlink d.start) ++ if before = [] then [.create k] else []
  else .ftruncate c.start (records codec front).length :: rest.map fun d => .unlink d.start

theorem Cut.suffixLoop (h : Cut k chunks before c rest front x rear) (offset : Nat) :
    Wal.suffixLoop k offset (chunks.map Chunk.seg) =
      if k ≤ c.start then (before.map Chunk.seg, (c :: rest).map fun d => .unlink d.start)
      else (before.map Chunk.seg ++ [⟨c.start, k - 1, offset⟩],
        .ftruncate c.start offset :: rest.map fun d => .unlink d.start) := by
  have hbefore : ∀ s ∈ before.map Chunk.seg, s.startIndex < k ∧ s.lastIndex < k := by
    intro s hs
    obtain ⟨b, hb, rfl⟩ := List.mem_map.mp hs
    exact ⟨(h.before b hb).1, (h.before b hb).2.1⟩
  rw [h.chunks, List.map_append, suffixLoop_before hbefore, List.map_cons]
  split
  · next hk =>
    have hafter : ∀ s ∈ c.seg :: rest.map Chunk.seg, k ≤ s.startIndex := by
      intro s hs
      rcases List.mem_cons.mp hs with rfl | hs
      · exact hk
      · obtain ⟨d, hd, rfl⟩ := List.mem_map.mp hs
        exact (h.rest d hd).1
    rw [suffixLoop_after hafter, List.append_nil]
    simp [Chunk.start]
  · next hk =>
    have hstart : ¬ c.seg.startIndex ≥ k := hk
    rw [Wal.suffixLoop, if_neg hstart, if_pos h.last, if_pos (by omega)]
    simp [Chunk.start]

theorem Cut.truncateSuffixOps (h : Cut k chunks before c rest front x rear) (hl : Listed codec w chunks)
    (hout : ¬ (w.offsetIndex.size = 0 ∨ k > w.lastIndex)) :
    w.truncateSuffixOps k = cutOps codec k before c rest front := by
  obtain ⟨rows, hrows⟩ := h.lowerBound hl
  rw [Wal.truncateSuffixOps, if_neg hout, hrows]
  simp only
  rw [hl.segments, h.suffixLoop, cutOps]
  split
  · simp
  · simp

theorem Cut.mem (h : Cut k chunks before c rest front x rear) : c ∈ chunks := by
  rw [h.chunks]
  simp

theorem Cut.mem_before (h : Cut k chunks before c rest front x rear) {b : Chunk} (hb : b ∈ before) : b ∈ chunks := by
  rw [h.chunks]
  simp [hb]

/-- A chunk that starts at the index or behind it keeps nothing. -/
theorem Cut.front_eq_nil (h : Cut k chunks before c rest front x rear) (hasc : Ascending chunks) (hk : k ≤ c.start) :
    front = [] := by
  by_contra hne
  obtain ⟨e, he⟩ := List.exists_mem_of_ne_nil _ hne
  have hlt := h.front e he
  have hle := hasc.start_le c h.mem e (by rw [h.entries]; simp [he])
  omega

theorem Cut.logOf_eq (h : Cut k chunks before c rest front x rear) :
    logOf chunks = (logOf before ++ front) ++ (x :: rear ++ logOf rest) := by
  rw [h.chunks, logOf_append, show logOf (c :: rest) = c.entries ++ logOf rest from rfl, h.entries]
  simp

theorem Cut.filter_log (h : Cut k chunks before c rest front x rear) :
    (logOf chunks).filter (fun e => e.index < k) = logOf before ++ front := by
  rw [h.logOf_eq]
  refine (filter_append_of_bound LogEntry.index ?_ ?_).1
  · intro e he
    rcases List.mem_append.mp he with he | he
    · obtain ⟨b, hb, he⟩ := List.mem_flatMap.mp he
      exact (h.before b hb).2.2 e he
    · exact h.front e he
  · intro e he
    rcases List.mem_append.mp he with he | he
    · rcases List.mem_cons.mp he with rfl | he
      · exact h.le
      · exact h.rear e he
    · obtain ⟨d, hd, he⟩ := List.mem_flatMap.mp he
      exact (h.rest d hd).2 e he

theorem Cut.logOf_cutChunks (codec : EntryCodec) (h : Cut k chunks before c rest front x rear) (hasc : Ascending chunks) :
    logOf (cutChunks codec k before c front) = logOf before ++ front := by
  unfold cutChunks
  split
  · next hk =>
    rw [h.front_eq_nil hasc hk, List.append_nil]
    split
    · next hnil => rw [hnil]; rfl
    · rfl
  · rw [logOf_append]
    simp [logOf, cutChunk]

theorem Cut.mem_of_cutChunks {e : LogEntry} (h : Cut k chunks before c rest front x rear) (hasc : Ascending chunks)
    (he : e ∈ logOf (cutChunks codec k before c front)) : e ∈ logOf chunks := by
  rw [h.logOf_cutChunks codec hasc] at he
  rw [h.logOf_eq]
  exact List.mem_append_left _ he

theorem Cut.placed_cutChunks (h : Cut k chunks before c rest front x rear) (hasc : Ascending chunks) :
    placed codec (cutChunks codec k before c front) = placed codec before ++ place codec c.start 0 front := by
  unfold cutChunks
  split
  · next hk =>
    rw [h.front_eq_nil hasc hk, place, List.append_nil]
    split
    · next hnil => rw [hnil]; rfl
    · rfl
  · rw [placed_append]
    simp [placed, cutChunk, Chunk.start]

/-- Inside the log the entry before the cut has the index before. -/
theorem Cut.last_front (h : Cut k chunks before c rest front x rear) (hreg : Regular codec chunks) {e : LogEntry}
    (he : (logOf before ++ front).getLast? = some e) : x.index = e.index + 1 := by
  have hchain := hreg.consecutive
  rw [h.logOf_eq, List.isChain_append] at hchain
  exact hchain.2.2 e he x rfl

/-- There is an entry to cut, so no chunk is empty. -/
theorem Cut.entries_ne_nil (h : Cut k chunks before c rest front x rear) (hfilled : Filled chunks) {d : Chunk}
    (hd : d ∈ chunks) : d.entries ≠ [] := by
  rcases hfilled with ⟨b, hb, hnil⟩ | ⟨-, hall⟩
  · have hc := h.mem
    rw [hb, List.mem_singleton] at hc
    rw [← hc, h.entries] at hnil
    simp at hnil
  · exact hall d hd

/-- If the cut chunk starts before the index but keeps nothing, it was the first one. -/
theorem Cut.before_eq_nil (h : Cut k chunks before c rest front x rear) (hreg : Regular codec chunks)
    (hk : c.start < k) (hfront : front = []) : before = [] := by
  by_contra hne
  obtain ⟨b, hb⟩ := List.exists_mem_of_ne_nil _ hne
  have hlog : logOf before ≠ [] := by
    obtain ⟨y, hy⟩ := List.exists_mem_of_ne_nil _ (h.entries_ne_nil hreg.filled (h.mem_before hb))
    exact List.ne_nil_of_mem (List.mem_flatMap.mpr ⟨b, hb, hy⟩)
  obtain ⟨e, he⟩ := Option.isSome_iff_exists.mp (List.getLast?_isSome.mpr hlog)
  have hsucc := h.last_front hreg (e := e) (by rw [hfront, List.append_nil]; exact he)
  obtain ⟨d, hd, hmem⟩ := List.mem_flatMap.mp (List.mem_of_getLast? he)
  have hstarts := hreg.ascending.starts
  rw [h.chunks, List.pairwise_append] at hstarts
  have hlt := (hstarts.2.2 d hd c List.mem_cons_self).2 e hmem
  have hle := h.le
  omega

theorem Cut.ascending (h : Cut k chunks before c rest front x rear) (hasc : Ascending chunks) :
    Ascending (cutChunks codec k before c front) := by
  have hsub : (before ++ [c]).Sublist chunks := by
    rw [h.chunks]
    exact List.Sublist.append_left (by simp) _
  unfold cutChunks
  split
  · split
    · exact (regular_fresh codec k).ascending
    · exact hasc.sublist ((List.sublist_append_left _ _).trans hsub)
  · refine (hasc.sublist hsub).shrink rfl ?_
    rw [h.entries]
    exact List.sublist_append_left _ _

theorem Cut.filled (h : Cut k chunks before c rest front x rear) (hreg : Regular codec chunks) :
    Filled (cutChunks codec k before c front) := by
  have hbefore : ∀ b ∈ before, b.entries ≠ [] := fun b hb =>
    h.entries_ne_nil hreg.filled (h.mem_before hb)
  unfold cutChunks
  split
  · split
    · exact .inl ⟨_, rfl, rfl⟩
    · next hne => exact .inr ⟨hne, hbefore⟩
  · next hk =>
    by_cases hfront : front = []
    · rw [h.before_eq_nil hreg (by omega) hfront]
      exact .inl ⟨_, rfl, hfront⟩
    · refine .inr ⟨by simp, fun d hd => ?_⟩
      rcases List.mem_append.mp hd with hd | hd
      · exact hbefore d hd
      · rw [List.mem_singleton.mp hd]
        exact hfront

theorem Cut.regular (h : Cut k chunks before c rest front x rear) (hreg : Regular codec chunks) :
    Regular codec (cutChunks codec k before c front) := by
  have hlog := h.logOf_cutChunks codec hreg.ascending
  have hmem : ∀ e ∈ logOf (cutChunks codec k before c front), e ∈ logOf chunks :=
    fun e he => h.mem_of_cutChunks hreg.ascending he
  have hchain := hreg.consecutive
  rw [h.logOf_eq] at hchain
  exact ⟨h.ascending hreg.ascending, h.filled hreg, by rw [hlog]; exact hchain.left_of_append,
    fun e he => hreg.positive e (hmem e he), fun e he => hreg.recoverable e (hmem e he)⟩

/-- No chunk that is left starts behind the index. -/
theorem Cut.start_le (h : Cut k chunks before c rest front x rear) {d : Chunk}
    (hd : d ∈ cutChunks codec k before c front) : d.start ≤ k := by
  unfold cutChunks at hd
  split at hd
  · split at hd
    · rw [List.mem_singleton.mp hd]
      exact Nat.le_refl k
    · exact Nat.le_of_lt (h.before d hd).1
  · next hk =>
    rcases List.mem_append.mp hd with hd | hd
    · exact Nat.le_of_lt (h.before d hd).1
    · rw [List.mem_singleton.mp hd]
      change c.start ≤ k
      omega

/-- The file of the cut chunk ends with the last entry that stays. -/
theorem Cut.files_ftruncate {dir : Dir} (h : Cut k chunks before c rest front x rear) (hasc : Ascending chunks)
    (hf : Files codec dir chunks) :
    Files codec (dir.truncate c.start (records codec front).length) (before ++ cutChunk codec k c front :: rest) := by
  have hstarts := hasc.starts
  rw [h.chunks] at hf hstarts
  have hbefore : ∀ d ∈ before, d.start ≠ c.start := fun d hd =>
    Nat.ne_of_lt ((List.pairwise_append.mp hstarts).2.2 d hd c List.mem_cons_self).1
  have hstart : (cutChunk codec k c front).start = c.start := rfl
  exact hf.ftruncate hbefore hstart h.entries

theorem Cut.files {dir : Dir} (h : Cut k chunks before c rest front x rear) (hasc : Ascending chunks)
    (hf : Files codec dir chunks) :
    Files codec (dir.perform (cutOps codec k before c rest front)) (cutChunks codec k before c front) := by
  unfold cutOps cutChunks
  split
  · rw [perform_append]
    have hunlink : Files codec (dir.perform ((c :: rest).map fun d => .unlink d.start)) before := by
      have hall := @Files.unlink_middle codec dir before (c :: rest) [] (by rw [List.append_nil, ← h.chunks]; exact hf)
        (by rw [List.append_nil, ← h.chunks]; exact hasc)
      rwa [List.append_nil] at hall
    by_cases hnil : before = []
    · rw [if_pos hnil, if_pos hnil]
      rw [hnil] at hunlink
      exact hunlink.create (c := fresh k) (by simp) rfl
    · rw [if_neg hnil, if_neg hnil]
      exact hunlink
  · have hcut := h.files_ftruncate hasc hf
    have hshrunk : Ascending (before ++ cutChunk codec k c front :: rest) := by
      rw [h.chunks] at hasc
      refine hasc.shrink rfl ?_
      rw [h.entries]
      exact List.sublist_append_left _ _
    rw [List.append_cons] at hcut hshrunk
    have hall := @Files.unlink_middle codec _ (before ++ [cutChunk codec k c front]) rest []
      (by rw [List.append_nil]; exact hcut) (by rw [List.append_nil]; exact hshrunk)
    rw [List.append_nil] at hall
    exact hall

theorem Cut.sizes (h : Cut k chunks before c rest front x rear) (hl : Listed codec w chunks) :
    ∀ d ∈ cutChunks codec k before c front, d.seg.sizeBytes = (records codec d.entries).length := by
  intro d hd
  unfold cutChunks at hd
  split at hd
  · split at hd
    · rw [List.mem_singleton.mp hd]
      rfl
    · exact hl.sizes d (h.mem_before hd)
  · rcases List.mem_append.mp hd with hd | hd
    · exact hl.sizes d (h.mem_before hd)
    · rw [List.mem_singleton.mp hd]
      rfl

theorem Cut.lasts (h : Cut k chunks before c rest front x rear) (hreg : Regular codec chunks)
    (hlasts : ∀ c ∈ chunks, ∀ e ∈ c.entries.getLast?, c.seg.lastIndex = e.index) :
    ∀ d ∈ cutChunks codec k before c front, ∀ e ∈ d.entries.getLast?, d.seg.lastIndex = e.index := by
  intro d hd e he
  unfold cutChunks at hd
  split at hd
  · split at hd
    · rw [List.mem_singleton.mp hd] at he
      cases he
    · exact hlasts d (h.mem_before hd) e he
  · rcases List.mem_append.mp hd with hd | hd
    · exact hlasts d (h.mem_before hd) e he
    · rw [List.mem_singleton.mp hd] at he ⊢
      have hfront : front.getLast? = some e := he
      have hsucc := h.last_front hreg (e := e) (by rw [List.getLast?_append, hfront]; rfl)
      have hlt := h.front e (List.mem_of_getLast? hfront)
      have hle := h.le
      change k - 1 = e.index
      omega

/-- What `TruncateSuffix` does to a log that reaches the index. -/
theorem Listed.truncateSuffix (hl : Listed codec w chunks) (h : Cut k chunks before c rest front x rear)
    (hreg : Regular codec (cutChunks codec k before c front))
    (hlasts : ∀ d ∈ cutChunks codec k before c front, ∀ e ∈ d.entries.getLast?, d.seg.lastIndex = e.index)
    (hk : k ≠ 0) (hlast : k ≤ w.lastIndex) :
    ∃ w', w.truncateSuffix k = .ok w' ∧ Layout codec w' (cutChunks codec k before c front) ∧
      w'.lastIndex = (logOf before ++ front).getLast?.elim (k - 1) LogEntry.index ∧
      w'.segmentSizeBytes = w.segmentSizeBytes := by
  have hsize : w.offsetIndex.size ≠ 0 := by
    rw [Ne, hl.toReadable.size_eq_zero, h.logOf_eq]
    simp
  have hout : ¬ (w.offsetIndex.size = 0 ∨ k > w.lastIndex) := by omega
  obtain ⟨rows, hlower⟩ := h.lowerBound hl
  have hsegments : (if (Wal.suffixLoop k (records codec front).length w.segments).1 = [] then [⟨k, k - 1, 0⟩]
      else (Wal.suffixLoop k (records codec front).length w.segments).1) =
      (cutChunks codec k before c front).map Chunk.seg := by
    rw [hl.segments, h.suffixLoop, cutChunks]
    by_cases hstart : k ≤ c.start
    · by_cases hnil : before = []
      · simp [hstart, hnil, fresh]
      · simp [hstart, hnil]
    · simp [hstart, cutChunk]
  have hrows : (w.offsetIndex.filter fun i _ => i < k).rows =
      (placed codec (cutChunks codec k before c front)).map row := by
    rw [h.placed_cutChunks hl.ascending, ← (h.filter_placed codec).1, Table.rows_filter, hl.rows, List.filter_map]
    rfl
  let w₁ : Wal := { w with
    dir := w.dir.perform (w.truncateSuffixOps k)
    offsetIndex := w.offsetIndex.filter fun i _ => i < k
    segments := if (Wal.suffixLoop k (records codec front).length w.segments).1 = [] then [⟨k, k - 1, 0⟩]
      else (Wal.suffixLoop k (records codec front).length w.segments).1
    start := ((if (Wal.suffixLoop k (records codec front).length w.segments).1 = [] then [⟨k, k - 1, 0⟩]
      else (Wal.suffixLoop k (records codec front).length w.segments).1).head?).elim w.start SegmentMeta.startIndex }
  have hfiles : Files codec w₁.dir (cutChunks codec k before c front) := by
    change Files codec (w.dir.perform (w.truncateSuffixOps k)) _
    rw [h.truncateSuffixOps hl hout]
    exact h.files hl.ascending hl.files
  have hmax : w₁.maxIndex.getD (k - 1) = (logOf (cutChunks codec k before c front)).getLast?.elim (k - 1) LogEntry.index :=
    maxIndex_getD hreg.ascending hrows
  have hlisted : Listed codec { w₁ with lastIndex := w₁.maxIndex.getD (k - 1), fd := activeFd w₁.segments }
      (cutChunks codec k before c front) :=
    ⟨⟨hreg.ascending, hreg.recoverable, hfiles, hrows⟩, hsegments, h.sizes hl, hlasts, .inr rfl, hl.size⟩
  refine ⟨_, ?_, hlisted.layout hreg ?_ (start_of_segments hreg.filled.ne_nil hsegments), ?_, rfl⟩
  · rw [Wal.truncateSuffix, if_neg hk, if_neg hout, hlower]
    exact openActive_of_files (w := { w₁ with lastIndex := w₁.maxIndex.getD (k - 1) }) hreg.filled.ne_nil hsegments hfiles
  · intro e he
    rw [hmax, Option.mem_def.mp he]
    rfl
  · rw [hmax, h.logOf_cutChunks codec hl.ascending]

theorem Layout.truncateSuffix (hl : Layout codec w chunks) (h : Cut k chunks before c rest front x rear)
    (hk : k ≠ 0) (hlast : k ≤ w.lastIndex) :
    ∃ w', w.truncateSuffix k = .ok w' ∧ Layout codec w' (cutChunks codec k before c front) ∧
      w'.lastIndex = (logOf before ++ front).getLast?.elim (k - 1) LogEntry.index ∧
      w'.segmentSizeBytes = w.segmentSizeBytes :=
  hl.listed.truncateSuffix h (h.regular hl.toRegular) (h.lasts hl.toRegular hl.lasts) hk hlast

end Cut

/-- A successful `TruncateSuffix` finds nothing to remove, or cuts the chunks. -/
theorem Layout.truncateSuffix_ok {k : Nat} (h : Layout codec w chunks) (hok : w.truncateSuffix k = .ok w') :
    (w' = w ∧ ∀ e ∈ logOf chunks, e.index < k) ∨
      ∃ before c rest front x rear, Cut k chunks before c rest front x rear ∧
        Layout codec w' (cutChunks codec k before c front) ∧
        w'.lastIndex = (logOf before ++ front).getLast?.elim (k - 1) LogEntry.index ∧
        w'.segmentSizeBytes = w.segmentSizeBytes := by
  have hk : k ≠ 0 := by
    rintro rfl
    cases hok
  by_cases hout : w.offsetIndex.size = 0 ∨ k > w.lastIndex
  · left
    rw [Wal.truncateSuffix, if_neg hk, if_pos hout] at hok
    cases hok
    refine ⟨rfl, fun e he => ?_⟩
    rcases hout with hsize | hgt
    · rw [h.size_eq_zero.mp hsize] at he
      cases he
    · exact Nat.lt_of_le_of_lt (h.ordered.le_last he) hgt
  · right
    rw [not_or, h.size_eq_zero] at hout
    obtain ⟨before, c, rest, front, x, rear, hcut⟩ := h.exists_cut hout.1 (k := k) (by omega)
    obtain ⟨w₁, hok', hrest⟩ := h.truncateSuffix hcut hk (by omega)
    rw [hok] at hok'
    cases hok'
    exact ⟨before, c, rest, front, x, rear, hcut, hrest⟩

end RaftVdb.Wal
