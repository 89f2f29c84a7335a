import Mathlib.Data.List.Chain
import RaftVdb.IndexedLog
import RaftVdb.WalRecovery
import RaftVdb.WalTruncation

/-!
# The layout of the log in its segments

A chunk is a segment with the entries of its file. The chunks of a WAL determine the
bytes of every file, the sizes and last indices of the segments, and the rows of
`offset_index_`; the layout of a WAL says that all of these agree. Whatever a directory
went through, `WAL::Open` rebuilds the layout from the chunks that its files hold.
-/

namespace RaftVdb.Wal

open Lib

variable {codec : EntryCodec}

structure Chunk where
  seg : SegmentMeta
  entries : List LogEntry
  deriving DecidableEq, Repr

def Chunk.start (c : Chunk) : Nat := c.seg.startIndex

def logOf (chunks : List Chunk) : List LogEntry := chunks.flatMap Chunk.entries

/-- The entries of a file with their locations, from an offset on. -/
def place (codec : EntryCodec) (path : Nat) : Nat → List LogEntry → List (LogEntry × EntryLocation)
  | _, [] => []
  | offset, e :: entries =>
    (e, ⟨path, offset⟩) :: place codec path (offset + (record (codec.serialize e)).length) entries

def placed (codec : EntryCodec) (chunks : List Chunk) : List (LogEntry × EntryLocation) :=
  chunks.flatMap fun c => place codec c.start 0 c.entries

/-- The row of `offset_index_` for an entry at its location. -/
def row (p : LogEntry × EntryLocation) : Nat × EntryLocation := (p.1.index, p.2)

/-- The files of a directory are those of the chunks, with their records. -/
def Files (codec : EntryCodec) (dir : Dir) (chunks : List Chunk) : Prop :=
  ∀ p, (dir.find? p).map File.bytes = (chunks.find? fun c => c.start = p).map fun c => records codec c.entries

/-- The chunks in the order of their start indices, with the entries in the order of
theirs, none of them before the start index of its chunk. -/
structure Ascending (chunks : List Chunk) : Prop where
  starts : chunks.Pairwise fun c d => c.start < d.start ∧ ∀ e ∈ c.entries, e.index < d.start
  start_le : ∀ c ∈ chunks, ∀ e ∈ c.entries, c.start ≤ e.index
  sorted : ∀ c ∈ chunks, c.entries.Pairwise fun a b => a.index < b.index

/-- The last index of a segment as `RecoverSegment` finds it. -/
def Chunk.last (c : Chunk) : Nat := c.entries.getLast?.elim (c.start - 1) LogEntry.index

theorem place_append (path offset : Nat) (xs ys : List LogEntry) :
    place codec path offset (xs ++ ys) =
      place codec path offset xs ++ place codec path (offset + (records codec xs).length) ys := by
  induction xs generalizing offset with
  | nil => simp [place]
  | cons e xs ih =>
    simp only [List.cons_append, place, ih, records_cons, List.length_append, Nat.add_assoc]

theorem map_fst_place (path offset : Nat) (entries : List LogEntry) :
    (place codec path offset entries).map Prod.fst = entries := by
  induction entries generalizing offset with
  | nil => rfl
  | cons e entries ih => rw [place, List.map_cons, ih]

theorem mem_place {path offset : Nat} {entries : List LogEntry} {p : LogEntry × EntryLocation}
    (h : p ∈ place codec path offset entries) :
    ∃ front rear, entries = front ++ p.1 :: rear ∧ p.2 = ⟨path, offset + (records codec front).length⟩ := by
  induction entries generalizing offset with
  | nil => cases h
  | cons e entries ih =>
    rw [place] at h
    rcases List.mem_cons.mp h with rfl | h
    · exact ⟨[], entries, rfl, rfl⟩
    · obtain ⟨front, rear, rfl, hp⟩ := ih h
      refine ⟨e :: front, rear, rfl, ?_⟩
      rw [hp, records_cons, List.length_append, Nat.add_assoc]

theorem map_fst_placed (codec : EntryCodec) (chunks : List Chunk) : (placed codec chunks).map Prod.fst = logOf chunks := by
  rw [placed, logOf, List.map_flatMap]
  congr 1
  funext c
  exact map_fst_place c.start 0 c.entries

theorem placed_append (xs ys : List Chunk) : placed codec (xs ++ ys) = placed codec xs ++ placed codec ys :=
  List.flatMap_append

theorem logOf_append (xs ys : List Chunk) : logOf (xs ++ ys) = logOf xs ++ logOf ys := List.flatMap_append

theorem Ascending.sublist {xs ys : List Chunk} (h : Ascending ys) (hs : xs.Sublist ys) : Ascending xs :=
  ⟨h.starts.sublist hs, fun c hc => h.start_le c (hs.subset hc), fun c hc => h.sorted c (hs.subset hc)⟩

theorem Ascending.find?_start {chunks : List Chunk} (h : Ascending chunks) {c : Chunk} (hc : c ∈ chunks) :
    (chunks.find? fun d => d.start = c.start) = some c := by
  obtain ⟨front, rear, rfl⟩ := List.append_of_mem hc
  have hfront := (List.pairwise_append.mp h.starts).2.2
  rw [List.find?_append, List.find?_eq_none.mpr, Option.none_or, List.find?_cons_of_pos (by simp)]
  intro d hd
  have hlt := (hfront d hd c List.mem_cons_self).1
  simp only [decide_eq_true_eq]
  omega

/-- Entries of earlier chunks come before those of later ones. -/
theorem Ascending.pairwise_logOf {chunks : List Chunk} (h : Ascending chunks) :
    (logOf chunks).Pairwise fun a b => a.index < b.index := by
  induction chunks with
  | nil => exact List.Pairwise.nil
  | cons c chunks ih =>
    rw [show logOf (c :: chunks) = c.entries ++ logOf chunks from rfl, List.pairwise_append]
    refine ⟨h.sorted c List.mem_cons_self, ih (h.sublist (List.sublist_cons_self _ _)), ?_⟩
    intro a ha b hb
    obtain ⟨d, hd, hb⟩ := List.mem_flatMap.mp hb
    have hlt := (List.rel_of_pairwise_cons h.starts hd).2 a ha
    have hle := h.start_le d (List.mem_cons_of_mem _ hd) b hb
    omega

theorem Files.find? {dir : Dir} {chunks : List Chunk} (hf : Files codec dir chunks) (h : Ascending chunks) {c : Chunk}
    (hc : c ∈ chunks) : ∃ f, dir.find? c.start = some f ∧ f.bytes = records codec c.entries := by
  have heq := hf c.start
  rw [h.find?_start hc, Option.map_some] at heq
  exact Option.map_eq_some_iff.mp heq

theorem Files.mem_keys {dir : Dir} {chunks : List Chunk} (hf : Files codec dir chunks) {p : Nat} :
    p ∈ dir.keys ↔ ∃ c ∈ chunks, c.start = p := by
  rw [← Table.find?_isSome, ← Option.isSome_map (f := File.bytes), hf p, Option.isSome_map, List.find?_isSome]
  simp

/-- The segment of a chunk as `RecoverSegment` rebuilds it. -/
def Chunk.recovered (codec : EntryCodec) (c : Chunk) : SegmentMeta :=
  ⟨c.start, c.last, (records codec c.entries).length⟩

/-- The loop goes over whole records and stops at the end of the file or at what does not
read as a record. -/
theorem recoverLoop_place (path : Nat) {bytes tail : Bytes} (entries : List LogEntry)
    (hrec : ∀ e ∈ entries, Recoverable codec e) (hsorted : entries.Pairwise fun a b => a.index < b.index)
    (front : List LogEntry) (hbytes : bytes = records codec (front ++ entries) ++ tail)
    (htail : tail ≠ [] → ∃ err, readRecordAt codec bytes (records codec (front ++ entries)).length = .error err)
    (fuel lastIndex : Nat) (hfuel : (records codec entries).length + tail.length ≤ fuel) (index : Table Nat EntryLocation)
    (hnew : ∀ e ∈ entries, e.index ∉ index.keys) :
    ∃ index', recoverLoop codec path bytes fuel (records codec front).length lastIndex index =
        ((records codec (front ++ entries)).length, entries.getLast?.elim lastIndex LogEntry.index, index', decide (tail ≠ [])) ∧
      index'.rows = index.rows ++ (place codec path (records codec front).length entries).map row := by
  induction entries generalizing front fuel lastIndex index with
  | nil =>
    rw [List.append_nil] at hbytes htail ⊢
    have hlen : bytes.length = (records codec front).length + tail.length := by rw [hbytes, List.length_append]
    refine ⟨index, ?_, by simp [place]⟩
    by_cases hnil : tail = []
    · have hend : ¬(records codec front).length < bytes.length := by
        rw [hnil, List.length_nil] at hlen
        omega
      cases fuel with
      | zero => simp [recoverLoop, hnil]
      | succ fuel => simp [recoverLoop, hend, hnil]
    · obtain ⟨err, herr⟩ := htail hnil
      have hpos := List.length_pos_of_ne_nil hnil
      rw [records_nil, List.length_nil] at hfuel
      obtain ⟨fuel, rfl⟩ : ∃ n, fuel = n + 1 := ⟨fuel - 1, by omega⟩
      rw [recoverLoop, if_pos (by omega), herr]
      simp [hnil]
  | cons e entries ih =>
    have hlen : bytes.length = (records codec front).length +
        ((record (codec.serialize e)).length + (records codec entries).length) + tail.length := by
      rw [hbytes, records_append, records_cons, List.length_append, List.length_append, List.length_append]
    have hsize := length_record (codec.serialize e)
    have hheader : kRecordHeaderSize = 12 := rfl
    rw [records_cons, List.length_append] at hfuel
    obtain ⟨fuel, rfl⟩ : ∃ n, fuel = n + 1 := ⟨fuel - 1, by omega⟩
    have hread : readRecordAt codec bytes (records codec front).length =
        .ok (e, (record (codec.serialize e)).length) := by
      rw [hbytes, records_append, records_cons, ← List.append_assoc, List.append_assoc,
        readRecordAt_record _ _ _ _ (hrec e (by simp)).length, deserialize_serialize (hrec e (by simp))]
    have hnext : (records codec front).length + (record (codec.serialize e)).length =
        (records codec (front ++ [e])).length := by simp
    have hcons : front ++ e :: entries = front ++ [e] ++ entries := by simp
    rw [hcons] at hbytes htail ⊢
    obtain ⟨index', hloop, hrows⟩ := ih (fun x hx => hrec x (by simp [hx])) hsorted.of_cons (front ++ [e])
      hbytes htail fuel e.index (by omega) (index.insert e.index ⟨path, (records codec front).length⟩) (by
        intro x hx
        rw [Table.mem_keys_insert, not_or]
        have hlt := List.rel_of_pairwise_cons hsorted hx
        exact ⟨by omega, hnew x (by simp [hx])⟩)
    refine ⟨index', ?_, ?_⟩
    · rw [recoverLoop, if_pos (by omega), hread]
      simp only
      rw [hnext, hloop]
      cases entries with
      | nil => rfl
      | cons x entries => simp only [List.getLast?_cons_cons]; rfl
    · rw [hrows, Table.rows_insert_of_not_mem _ _ (hnew e (by simp)), place, ← hnext, List.map_cons,
        List.append_assoc]
      rfl

/-- Where a recovery stands: the chunks that it has been through. -/
structure Rebuilt (codec : EntryCodec) (w : Wal) (done : List Chunk) : Prop where
  segments : w.segments = done.map (Chunk.recovered codec)
  rows : w.offsetIndex.rows = (placed codec done).map row
  le : ∀ c ∈ done, c.last ≤ w.lastIndex
  last : w.lastIndex = 0 ∨ ∃ c ∈ done, w.lastIndex = c.last

/-- The file of a chunk holds its records, and behind them what recovery cuts off. -/
theorem rebuilt_segment {w : Wal} {done rest : List Chunk} {c : Chunk} {tail : Bytes} (h : Rebuilt codec w done)
    (hasc : Ascending (done ++ c :: rest))
    (hfile : ∃ f, w.dir.find? c.start = some f ∧ f.bytes = records codec c.entries ++ tail)
    (htail : tail ≠ [] →
      ∃ err, readRecordAt codec (records codec c.entries ++ tail) (records codec c.entries).length = .error err)
    (hrec : ∀ e ∈ c.entries, Recoverable codec e) :
    ∃ w', w.recoverSegment codec c.start = (w', decide (tail ≠ [])) ∧ Rebuilt codec w' (done ++ [c]) ∧
      w'.dir = (if tail = [] then w.dir else w.dir.truncate c.start (records codec c.entries).length) ∧
      w'.segmentSizeBytes = w.segmentSizeBytes := by
  obtain ⟨f, hfind, hbytes⟩ := hfile
  have hnew : ∀ e ∈ c.entries, e.index ∉ w.offsetIndex.keys := by
    intro e he hmem
    rw [Table.keys, h.rows, List.map_map, List.mem_map] at hmem
    obtain ⟨p, hp, hindex⟩ := hmem
    have hlog : p.1 ∈ logOf done := by
      rw [← map_fst_placed codec]
      exact List.mem_map.mpr ⟨p, hp, rfl⟩
    have hsorted := hasc.pairwise_logOf
    rw [logOf_append, List.pairwise_append] at hsorted
    have hlt := hsorted.2.2 p.1 hlog e (List.mem_flatMap.mpr ⟨c, List.mem_cons_self, he⟩)
    simp only [Function.comp_apply, row] at hindex
    omega
  obtain ⟨index', hloop, hrows⟩ := recoverLoop_place c.start c.entries hrec (hasc.sorted c (by simp)) []
    hbytes (by rw [hbytes]; exact htail) f.bytes.length (c.start - 1) (by rw [hbytes, List.length_append])
    w.offsetIndex hnew
  rw [records_nil, List.length_nil] at hloop hrows
  rw [List.nil_append] at hloop
  have hstep : w.recoverSegment codec c.start = ({ w with
      dir := if tail = [] then w.dir else w.dir.truncate c.start (records codec c.entries).length
      segments := w.segments ++ [⟨c.start, c.last, (records codec c.entries).length⟩]
      offsetIndex := index'
      lastIndex := max w.lastIndex c.last }, decide (tail ≠ [])) := by
    simp only [recoverSegment, hfind, Option.getD_some, hloop]
    by_cases hnil : tail = []
    · simp only [hnil, ne_eq, not_true, decide_false, Bool.false_eq_true, if_true, if_false]
      rfl
    · simp only [hnil, ne_eq, not_false_eq_true, decide_true, if_true, if_false]
      rfl
  refine ⟨_, hstep, ⟨?_, ?_, ?_, ?_⟩, rfl, rfl⟩
  · simp [h.segments, Chunk.recovered]
  · rw [placed_append, List.map_append, ← h.rows]
    simpa [placed] using hrows
  · intro d hd
    rcases List.mem_append.mp hd with hd | hd
    · exact Nat.le_trans (h.le d hd) (Nat.le_max_left _ _)
    · rw [List.mem_singleton.mp hd]
      exact Nat.le_max_right _ _
  · rcases Nat.le_total w.lastIndex c.last with hle | hle
    · exact .inr ⟨c, by simp, Nat.max_eq_right hle⟩
    · rw [show max w.lastIndex c.last = w.lastIndex from Nat.max_eq_left hle]
      exact h.last.imp id fun ⟨d, hd, heq⟩ => ⟨d, by simp [hd], heq⟩

/-- The recovery goes through whole files and on to the next paths. -/
theorem rebuilt_segments {w : Wal} {done more : List Chunk} (rest : List Chunk) (h : Rebuilt codec w done)
    (hasc : Ascending (done ++ rest ++ more))
    (hf : ∀ c ∈ rest, ∃ f, w.dir.find? c.start = some f ∧ f.bytes = records codec c.entries)
    (hrec : ∀ e ∈ logOf rest, Recoverable codec e) :
    ∃ w', (∀ paths, w.recoverSegments codec (rest.map Chunk.start ++ paths) = w'.recoverSegments codec paths) ∧
      Rebuilt codec w' (done ++ rest) ∧ w'.dir = w.dir ∧ w'.segmentSizeBytes = w.segmentSizeBytes := by
  induction rest generalizing w done with
  | nil => exact ⟨w, fun _ => rfl, by simpa using h, rfl, rfl⟩
  | cons c rest ih =>
    have hcons : done ++ c :: rest ++ more = done ++ c :: (rest ++ more) := by simp
    obtain ⟨f, hfind, hbytes⟩ := hf c List.mem_cons_self
    obtain ⟨w₁, hstep, h₁, hdir, hsize⟩ := rebuilt_segment h (hcons ▸ hasc)
      ⟨f, hfind, by rw [hbytes]; exact (List.append_nil _).symm⟩ (fun hne => absurd rfl hne) fun e he =>
        hrec e (List.mem_flatMap.mpr ⟨c, List.mem_cons_self, he⟩)
    rw [if_pos rfl] at hdir
    rw [List.append_cons] at hasc ⊢
    obtain ⟨w₂, hrest, h₂, hdir₂, hsize₂⟩ := ih h₁ hasc (fun d hd => hdir ▸ hf d (List.mem_cons_of_mem _ hd))
      fun e he => hrec e (by
        obtain ⟨d, hd, he⟩ := List.mem_flatMap.mp he
        exact List.mem_flatMap.mpr ⟨d, List.mem_cons_of_mem _ hd, he⟩)
    refine ⟨w₂, ?_, h₂, hdir₂.trans hdir, hsize₂.trans hsize⟩
    intro paths
    rw [List.map_cons, List.cons_append, recoverSegments, hstep]
    exact hrest paths

/-- The files are found in the order of the chunks. -/
theorem Files.keys_sorted {dir : Dir} {chunks : List Chunk} (hf : Files codec dir chunks) (h : Ascending chunks) :
    dir.keys.insertionSort (· ≤ ·) = chunks.map Chunk.start := by
  have hstarts : (chunks.map Chunk.start).Pairwise (· < ·) := List.pairwise_map.mpr (h.starts.imp And.left)
  have hperm : (dir.keys.insertionSort (· ≤ ·)).Perm (chunks.map Chunk.start) := by
    refine (List.perm_insertionSort _ _).trans ((List.perm_ext_iff_of_nodup dir.nodup hstarts.nodup).mpr fun p => ?_)
    exact hf.mem_keys.trans (by simp)
  exact hperm.eq_of_pairwise' (List.pairwise_insertionSort _ _) (hstarts.imp Nat.le_of_lt)

/-- The descriptor stands at the end of the last segment. -/
def activeFd (segments : List SegmentMeta) : Option Fd :=
  segments.getLast?.map fun s => ⟨s.startIndex, s.sizeBytes⟩

theorem find?_truncate_other {dir : Dir} {path size p : Nat} (hp : p ≠ path) :
    (dir.truncate path size).find? p = dir.find? p :=
  Table.find?_adjust_other _ _ _ _ hp

/-- `WAL::Open` on a directory of chunks whose last file goes on with bytes that do not read
as a record: it cuts them off. -/
theorem openWal_torn {dir : Dir} {front : List Chunk} {a : Chunk} {tail : Bytes} (start : Nat) {size : Nat}
    (hsize : size ≠ 0) (hasc : Ascending (front ++ [a]))
    (hf : Files codec (dir.truncate a.start (records codec a.entries).length) (front ++ [a]))
    (hfile : ∃ f, dir.find? a.start = some f ∧ f.bytes = records codec a.entries ++ tail)
    (htail : tail ≠ [] →
      ∃ err, readRecordAt codec (records codec a.entries ++ tail) (records codec a.entries).length = .error err)
    (hrec : ∀ e ∈ logOf (front ++ [a]), Recoverable codec e) :
    ∃ w, openWal codec dir start size = .ok w ∧ Rebuilt codec w (front ++ [a]) ∧
      w.dir = (if tail = [] then dir else dir.truncate a.start (records codec a.entries).length) ∧
      w.segmentSizeBytes = size ∧ w.fd = activeFd w.segments ∧
      w.start = ((front ++ [a]).head?).elim start Chunk.start := by
  have hkeys : dir.keys.insertionSort (· ≤ ·) = front.map Chunk.start ++ [a.start] := by
    have hsorted := hf.keys_sorted hasc
    rw [Dir.truncate, Table.keys_adjust, List.map_append] at hsorted
    exact hsorted
  have hne : dir.keys ≠ [] := by
    intro hnil
    rw [hnil, List.insertionSort_nil] at hkeys
    simp at hkeys
  have hfront : ∀ c ∈ front, ∃ f, dir.find? c.start = some f ∧ f.bytes = records codec c.entries := by
    intro c hc
    have hlt := ((List.pairwise_append.mp hasc.starts).2.2 c hc a List.mem_cons_self).1
    obtain ⟨f, hfind, hbytes⟩ := hf.find? hasc (List.mem_append_left _ hc)
    rw [find?_truncate_other (Nat.ne_of_lt hlt)] at hfind
    exact ⟨f, hfind, hbytes⟩
  have hinit : Rebuilt codec { dir, start, segmentSizeBytes := size } [] := ⟨rfl, rfl, by simp, .inl rfl⟩
  obtain ⟨w₁, hpaths, h₁, hdir₁, hsize₁⟩ := rebuilt_segments front hinit hasc hfront fun e he =>
    hrec e (by rw [logOf_append]; exact List.mem_append_left _ he)
  rw [List.nil_append] at h₁
  obtain ⟨w, hstep, h, hdir, hsize'⟩ := rebuilt_segment h₁ hasc (hdir₁ ▸ hfile) htail fun e he =>
    hrec e (by rw [logOf_append]; exact List.mem_append_right _ (by simpa [logOf] using he))
  rw [hdir₁] at hdir
  have hrecovered : Wal.recoverSegments codec { dir, start, segmentSizeBytes := size }
      (dir.keys.insertionSort (· ≤ ·)) = w := by
    rw [hkeys, hpaths, recoverSegments, hstep]
    cases decide (tail ≠ []) with
    | true => rfl
    | false => rfl
  have hlast : w.segments.getLast? = some (a.recovered codec) := by
    rw [h.segments, List.map_append, List.map_singleton, List.getLast?_concat]
  obtain ⟨first, hfirst⟩ := Option.isSome_iff_exists.mp (List.isSome_head?.mpr (show front ++ [a] ≠ [] by simp))
  have hhead : w.segments.head? = some (first.recovered codec) := by
    rw [h.segments, List.head?_map, hfirst]
    rfl
  have hmem : a.start ∈ w.dir.keys := by
    obtain ⟨f, hfind, -⟩ := hfile
    have hin : a.start ∈ dir.keys := (Table.find?_isSome _ _).mp (by rw [hfind]; rfl)
    rw [hdir]
    split
    · exact hin
    · rwa [Dir.truncate, Table.keys_adjust]
  have hopen : openWal codec dir start size = .ok { w with
      start := first.start
      fd := some ⟨a.start, (records codec a.entries).length⟩ } := by
    unfold openWal loadExistingSegments
    rw [if_neg hsize, if_neg hne]
    simp only [hrecovered, openActiveSegmentForAppend, hlast, hhead, Chunk.recovered, Option.elim_some,
      Table.find?_tryEmplace_of_mem _ _ _ hmem]
  refine ⟨_, hopen, ⟨h.segments, h.rows, h.le, h.last⟩, hdir, hsize'.trans hsize₁, ?_, ?_⟩
  · rw [activeFd, hlast]
    rfl
  · rw [hfirst]
    rfl

/-- What `WAL::Open` leaves of the directory. -/
theorem Files.of_torn {dir dir' : Dir} {front : List Chunk} {a : Chunk} {tail : Bytes}
    (hf : Files codec (dir.truncate a.start (records codec a.entries).length) (front ++ [a]))
    (hfile : ∃ f, dir.find? a.start = some f ∧ f.bytes = records codec a.entries ++ tail)
    (hdir : dir' = (if tail = [] then dir else dir.truncate a.start (records codec a.entries).length)) :
    Files codec dir' (front ++ [a]) := by
  rw [hdir]
  split
  · next hnil =>
    obtain ⟨f, hfind, hbytes⟩ := hfile
    intro p
    rw [← hf p]
    by_cases hp : p = a.start
    · rw [hp, Dir.truncate, Table.find?_adjust_self, hfind, Option.map_some, Option.map_some, Option.map_some, hbytes,
        hnil, List.append_nil, List.take_length]
    · rw [find?_truncate_other hp]
  · exact hf

/-- A file that is cut at its end stays as it is. -/
theorem Files.truncate_end {dir : Dir} {front : List Chunk} {a : Chunk} (hf : Files codec dir (front ++ [a]))
    (hasc : Ascending (front ++ [a])) :
    Files codec (dir.truncate a.start (records codec a.entries).length) (front ++ [a]) := by
  obtain ⟨f, hfind, hbytes⟩ := hf.find? hasc (c := a) (by simp)
  intro p
  rw [← hf p]
  by_cases hp : p = a.start
  · rw [hp, Dir.truncate, Table.find?_adjust_self, hfind, Option.map_some, Option.map_some, Option.map_some, hbytes,
      List.take_length]
  · rw [find?_truncate_other hp]

/-- `WAL::Open` on a directory of chunks, whether or not their indices have gaps. -/
theorem openWal_rebuilt {dir : Dir} {chunks : List Chunk} (start : Nat) {size : Nat} (hsize : size ≠ 0)
    (hne : chunks ≠ []) (hasc : Ascending chunks) (hf : Files codec dir chunks)
    (hrec : ∀ e ∈ logOf chunks, Recoverable codec e) :
    ∃ w, openWal codec dir start size = .ok w ∧ Rebuilt codec w chunks ∧ w.dir = dir ∧
      w.segmentSizeBytes = size ∧ w.fd = activeFd w.segments ∧
      w.start = (chunks.head?).elim start Chunk.start := by
  obtain ⟨front, a, rfl⟩ := (List.eq_nil_or_concat' chunks).resolve_left hne
  obtain ⟨f, hfind, hbytes⟩ := hf.find? hasc (c := a) (by simp)
  have hfile : f.bytes = records codec a.entries ++ [] := by rw [hbytes, List.append_nil]
  exact openWal_torn start hsize hasc (hf.truncate_end hasc) ⟨f, hfind, hfile⟩ (fun h => absurd rfl h) hrec

/-- One empty segment, or no empty one. -/
def Filled (chunks : List Chunk) : Prop :=
  (∃ c, chunks = [c] ∧ c.entries = []) ∨ chunks ≠ [] ∧ ∀ c ∈ chunks, c.entries ≠ []

/-- The chunks hold one range of indices. -/
structure Regular (codec : EntryCodec) (chunks : List Chunk) : Prop where
  ascending : Ascending chunks
  filled : Filled chunks
  consecutive : (logOf chunks).IsChain fun a b => b.index = a.index + 1
  positive : ∀ e ∈ logOf chunks, 1 ≤ e.index
  recoverable : ∀ e ∈ logOf chunks, Recoverable codec e

/-- Files, segments, `offset_index_` and `last_index_` are those of the chunks. -/
structure Layout (codec : EntryCodec) (w : Wal) (chunks : List Chunk) : Prop extends Regular codec chunks where
  segments : w.segments = chunks.map Chunk.seg
  sizes : ∀ c ∈ chunks, c.seg.sizeBytes = (records codec c.entries).length
  lasts : ∀ c ∈ chunks, ∀ e ∈ c.entries.getLast?, c.seg.lastIndex = e.index
  files : Files codec w.dir chunks
  rows : w.offsetIndex.rows = (placed codec chunks).map row
  last : ∀ e ∈ (logOf chunks).getLast?, w.lastIndex = e.index
  fd : w.fd = none ∨ w.fd = activeFd w.segments
  start : w.start = (chunks.head?).elim w.start Chunk.start
  size : w.segmentSizeBytes ≠ 0

/-- A chunk with its segment as recovery rebuilds it. -/
def Chunk.reopened (codec : EntryCodec) (c : Chunk) : Chunk := ⟨c.recovered codec, c.entries⟩

theorem Filled.ne_nil {chunks : List Chunk} (h : Filled chunks) : chunks ≠ [] := by
  rcases h with ⟨c, rfl, -⟩ | ⟨hne, -⟩
  · simp
  · exact hne

theorem logOf_reopened (codec : EntryCodec) (chunks : List Chunk) : logOf (chunks.map (Chunk.reopened codec)) = logOf chunks := by
  rw [logOf, List.flatMap_map]
  rfl

theorem placed_reopened (chunks : List Chunk) :
    placed codec (chunks.map (Chunk.reopened codec)) = placed codec chunks := by
  rw [placed, List.flatMap_map]
  rfl

theorem Files.reopened {dir : Dir} {chunks : List Chunk} (h : Files codec dir chunks) :
    Files codec dir (chunks.map (Chunk.reopened codec)) := by
  intro p
  rw [h p, List.find?_map, Option.map_map]
  rfl

theorem Regular.reopened {chunks : List Chunk} (h : Regular codec chunks) :
    Regular codec (chunks.map (Chunk.reopened codec)) := by
  have hlog := logOf_reopened codec chunks
  refine ⟨⟨?_, ?_, ?_⟩, ?_, by rw [hlog]; exact h.consecutive, by rw [hlog]; exact h.positive,
    by rw [hlog]; exact h.recoverable⟩
  · exact List.pairwise_map.mpr h.ascending.starts
  · intro c hc
    obtain ⟨d, hd, rfl⟩ := List.mem_map.mp hc
    exact h.ascending.start_le d hd
  · intro c hc
    obtain ⟨d, hd, rfl⟩ := List.mem_map.mp hc
    exact h.ascending.sorted d hd
  · rcases h.filled with ⟨c, rfl, hc⟩ | ⟨hne, hall⟩
    · exact .inl ⟨c.reopened codec, rfl, hc⟩
    · refine .inr ⟨by simpa using hne, fun c hc => ?_⟩
      obtain ⟨d, hd, rfl⟩ := List.mem_map.mp hc
      exact hall d hd

/-- The last index of a later chunk is larger. -/
theorem Ascending.last_le {chunks : List Chunk} (h : Ascending chunks) {active c : Chunk}
    (hactive : chunks.getLast? = some active) (hc : c ∈ chunks) : c.last ≤ active.last := by
  obtain ⟨front, rfl⟩ := List.getLast?_eq_some_iff.mp hactive
  rcases List.mem_append.mp hc with hc | hc
  · have hlt := (List.pairwise_append.mp h.starts).2.2 c hc active List.mem_cons_self
    have hle : active.start - 1 ≤ active.last := by
      unfold Chunk.last
      cases he : active.entries.getLast? with
      | none => exact Nat.le_refl _
      | some e =>
        have := h.start_le active (by simp) e (List.mem_of_getLast? he)
        simp only [Option.elim_some]
        omega
    have hprev : c.last ≤ active.start - 1 := by
      unfold Chunk.last
      cases he : c.entries.getLast? with
      | none => simp only [Option.elim_none]; omega
      | some e =>
        have := hlt.2 e (List.mem_of_getLast? he)
        simp only [Option.elim_some]
        omega
    omega
  · rw [List.mem_singleton.mp hc]

theorem Rebuilt.lastIndex {w : Wal} {chunks : List Chunk} (h : Rebuilt codec w chunks) (hasc : Ascending chunks)
    {active : Chunk} (hactive : chunks.getLast? = some active) : w.lastIndex = active.last := by
  have hle := h.le active (List.mem_of_getLast? hactive)
  rcases h.last with hzero | ⟨c, hc, heq⟩
  · omega
  · have := hasc.last_le hactive hc
    omega

theorem Filled.getLast?_logOf {chunks : List Chunk} (h : Filled chunks) {active : Chunk}
    (hactive : chunks.getLast? = some active) : (logOf chunks).getLast? = active.entries.getLast? := by
  obtain ⟨front, rfl⟩ := List.getLast?_eq_some_iff.mp hactive
  rw [logOf_append, show logOf [active] = active.entries by simp [logOf]]
  rcases h with ⟨c, hc, hnil⟩ | ⟨-, hall⟩
  · cases front with
    | nil => rfl
    | cons d front => simp at hc
  · rw [List.getLast?_append, List.getLast?_eq_some_getLast (hall active (by simp))]
    rfl

/-- Recovery of regular chunks rebuilds their layout. -/
theorem Rebuilt.layout {w : Wal} {chunks : List Chunk} (hr : Rebuilt codec w chunks) (h : Regular codec chunks)
    (hf : Files codec w.dir chunks) (hfd : w.fd = activeFd w.segments) {start : Nat}
    (hstart : w.start = (chunks.head?).elim start Chunk.start) (hsize : w.segmentSizeBytes ≠ 0) :
    Layout codec w (chunks.map (Chunk.reopened codec)) := by
  refine { h.reopened with
    segments := ?_, sizes := ?_, lasts := ?_, files := hf.reopened, rows := ?_, last := ?_, fd := .inr hfd
    start := ?_, size := hsize }
  · rw [hr.segments, List.map_map]
    rfl
  · intro c hc
    obtain ⟨d, -, rfl⟩ := List.mem_map.mp hc
    rfl
  · intro c hc e he
    obtain ⟨d, -, rfl⟩ := List.mem_map.mp hc
    have hlast : d.entries.getLast? = some e := he
    change d.last = e.index
    rw [Chunk.last, hlast]
    rfl
  · rw [hr.rows, placed_reopened]
  · rw [logOf_reopened]
    intro e he
    obtain ⟨active, hactive⟩ := Option.isSome_iff_exists.mp (List.getLast?_isSome.mpr h.filled.ne_nil)
    rw [h.filled.getLast?_logOf hactive] at he
    rw [hr.lastIndex h.ascending hactive, Chunk.last, Option.mem_def.mp he]
    rfl
  · obtain ⟨first, hfirst⟩ := Option.isSome_iff_exists.mp (List.isSome_head?.mpr h.filled.ne_nil)
    rw [List.head?_map, hstart, hfirst]
    rfl

/-- A regular directory is reopened with its layout. -/
theorem openWal_layout {dir : Dir} {chunks : List Chunk} (start : Nat) {size : Nat} (hsize : size ≠ 0)
    (h : Regular codec chunks) (hf : Files codec dir chunks) :
    ∃ w, openWal codec dir start size = .ok w ∧ Layout codec w (chunks.map (Chunk.reopened codec)) ∧
      w.segmentSizeBytes = size ∧ w.fd = activeFd w.segments ∧
      ∀ active, chunks.getLast? = some active → w.lastIndex = active.last := by
  obtain ⟨w, hopen, hr, hdir, hsize', hfd, hstart⟩ :=
    openWal_rebuilt start hsize h.filled.ne_nil h.ascending hf h.recoverable
  refine ⟨w, hopen, hr.layout h (hdir ▸ hf) hfd hstart (hsize' ▸ hsize), hsize', hfd, ?_⟩
  intro active hactive
  exact hr.lastIndex h.ascending hactive

end RaftVdb.Wal
