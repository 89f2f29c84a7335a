import Mathlib.Data.List.Nodup
import Mathlib.Tactic.Set
import Mathlib.Tactic.Tauto
import RaftVdb.Wal

/-!
# Recovery of whole records

A file that holds the records of a list of entries is recovered exactly: `RecoverSegment`
indexes every record of it and truncates nothing, and reading an indexed location returns
the entry whose record stands there.
-/

namespace RaftVdb.Wal

open Lib

variable {codec : EntryCodec}

/-- The bytes of consecutive records. -/
def records (codec : EntryCodec) (entries : List LogEntry) : Bytes :=
  entries.flatMap fun e => record (codec.serialize e)

@[simp] theorem records_nil : records codec [] = [] := rfl

@[simp] theorem records_cons (e : LogEntry) (entries : List LogEntry) :
    records codec (e :: entries) = record (codec.serialize e) ++ records codec entries := rfl

@[simp] theorem records_append (xs ys : List LogEntry) :
    records codec (xs ++ ys) = records codec xs ++ records codec ys :=
  List.flatMap_append

theorem records_eq_nil {entries : List LogEntry} : records codec entries = [] ↔ entries = [] := by
  cases entries with
  | nil => simp
  | cons e entries =>
    simp only [records_cons, List.append_eq_nil_iff, reduceCtorEq, iff_false, not_and]
    intro h
    simpa [kRecordHeaderSize] using congrArg List.length h

/-- The codes of the entry have enumerators. -/
def Known (e : LogEntry) : Prop := e.type.isKnown = true ∧ e.cmdType.isKnown = true

instance (e : LogEntry) : Decidable (Known e) := by
  unfold Known
  infer_instance

/-- The record of the entry reads back as the entry. -/
structure Recoverable (codec : EntryCodec) (e : LogEntry) : Prop where
  known : Known e
  parse : codec.parse (codec.serialize e) = some e
  length : (codec.serialize e).length < 2 ^ 32

theorem deserialize_serialize {e : LogEntry} (h : Recoverable codec e) :
    codec.deserialize (codec.serialize e) = .ok e := by
  simp [EntryCodec.deserialize, h.parse, h.known.1, h.known.2]

theorem known_of_deserialize {data : Bytes} {e : LogEntry} (h : codec.deserialize data = .ok e) : Known e := by
  unfold EntryCodec.deserialize at h
  split at h
  · cases h
  · split at h
    · cases h
    · next ht =>
      split at h
      · cases h
      · next hc =>
        cases h
        exact ⟨by simpa using ht, by simpa using hc⟩

/-- Whatever follows the records of a file does not matter to them. -/
theorem readRecordAt_records_append {e : LogEntry} (h : Recoverable codec e) (front rear : List LogEntry) (tail : Bytes) :
    readRecordAt codec (records codec (front ++ e :: rear) ++ tail) (records codec front).length =
      .ok (e, (record (codec.serialize e)).length) := by
  rw [records_append, records_cons, ← List.append_assoc, List.append_assoc, readRecordAt_record _ _ _ _ h.length,
    deserialize_serialize h]

theorem readRecordAt_records {e : LogEntry} (h : Recoverable codec e) (front rear : List LogEntry) :
    readRecordAt codec (records codec (front ++ e :: rear)) (records codec front).length =
      .ok (e, (record (codec.serialize e)).length) := by
  rw [← List.append_nil (records codec (front ++ e :: rear)), readRecordAt_records_append h]

theorem known_of_read {w : Wal} {i : Nat} {e : LogEntry} (h : w.read codec i = .ok e) : Known e := by
  unfold read at h
  split at h
  · cases h
  · split at h
    · cases h
    · next f hf =>
      unfold readRecordAt at h
      simp only at h
      split at h <;> try cases h
      split at h <;> try cases h
      split at h <;> try cases h
      split at h <;> try cases h
      split at h
      · cases h
      · next entry hentry =>
        cases h
        exact known_of_deserialize hentry

/-- The location is the one of a record with this index, in files with these contents. -/
def Located (codec : EntryCodec) (content : Nat → List LogEntry) (i : Nat) (loc : EntryLocation) : Prop :=
  ∃ front e rear, content loc.path = front ++ e :: rear ∧ loc.offset = (records codec front).length ∧
    e.index = i

theorem recoverLoop_records {content : Nat → List LogEntry} {path : Nat} {bytes : Bytes}
    (hbytes : bytes = records codec (content path)) (entries : List LogEntry)
    (hrec : ∀ e ∈ entries, Recoverable codec e) (front : List LogEntry)
    (hcontent : content path = front ++ entries) (fuel lastIndex : Nat)
    (hfuel : (records codec entries).length ≤ fuel) (index : Table Nat EntryLocation)
    (hloc : ∀ i loc, index.find? i = some loc → Located codec content i loc) :
    ∃ lastIndex' index', recoverLoop codec path bytes fuel (records codec front).length lastIndex index =
        (bytes.length, lastIndex', index', false) ∧
      (∀ i loc, index'.find? i = some loc → Located codec content i loc) ∧
      ∀ i, i ∈ index'.keys ↔ i ∈ index.keys ∨ ∃ e ∈ entries, e.index = i := by
  induction entries generalizing front fuel lastIndex index with
  | nil =>
    have hend : (records codec front).length = bytes.length := by rw [hbytes, hcontent, List.append_nil]
    refine ⟨lastIndex, index, ?_, hloc, by simp⟩
    cases fuel with
    | zero => rw [recoverLoop, hend]
    | succ fuel => rw [recoverLoop, hend, if_neg (Nat.lt_irrefl _)]
  | cons e entries ih =>
    have hlen : bytes.length =
        (records codec front).length + ((record (codec.serialize e)).length + (records codec entries).length) := by
      rw [hbytes, hcontent, records_append, records_cons, List.length_append, List.length_append]
    have hsize := length_record (codec.serialize e)
    have hheader : kRecordHeaderSize = 12 := rfl
    rw [records_cons, List.length_append] at hfuel
    obtain ⟨fuel, rfl⟩ : ∃ n, fuel = n + 1 := ⟨fuel - 1, by omega⟩
    have hread : readRecordAt codec bytes (records codec front).length =
        .ok (e, (record (codec.serialize e)).length) := by
      rw [hbytes, hcontent]
      exact readRecordAt_records (hrec e (by simp)) front entries
    have hnext : (records codec front).length + (record (codec.serialize e)).length =
        (records codec (front ++ [e])).length := by simp
    obtain ⟨last', index', hloop, hloc', hkeys⟩ := ih (fun x hx => hrec x (by simp [hx])) (front ++ [e])
      (by simp [hcontent]) fuel e.index (by omega)
      (index.insert e.index ⟨path, (records codec front).length⟩) (by
        intro i loc hi
        rw [Table.find?_insert] at hi
        split at hi
        · next he =>
          cases hi
          exact ⟨front, e, entries, hcontent, rfl, he.symm⟩
        · exact hloc i loc hi)
    refine ⟨last', index', ?_, hloc', ?_⟩
    · rw [recoverLoop, if_pos (by omega), hread]
      simp only
      rw [hnext]
      exact hloop
    · intro i
      rw [hkeys, Table.mem_keys_insert]
      simp only [List.mem_cons, exists_eq_or_imp]
      tauto

/-- What a recovery in progress has indexed: the records of the paths it has visited. -/
structure Recovered (codec : EntryCodec) (content : Nat → List LogEntry) (dir : Dir) (visited : List Nat)
    (w : Wal) : Prop where
  dir : w.dir = dir
  segments : w.segments.map SegmentMeta.startIndex = visited
  located : ∀ i loc, w.offsetIndex.find? i = some loc → Located codec content i loc
  keys : ∀ path ∈ visited, ∀ e ∈ content path, e.index ∈ w.offsetIndex.keys

theorem recovered_segment {content : Nat → List LogEntry} {dir : Dir} {visited : List Nat} {w : Wal} {path : Nat}
    (h : Recovered codec content dir visited w) (hpath : path ∈ dir.keys)
    (hfiles : ∀ p f, dir.find? p = some f → f.bytes = records codec (content p))
    (hrec : ∀ e ∈ content path, Recoverable codec e) :
    (w.recoverSegment codec path).2 = false ∧
      Recovered codec content dir (visited ++ [path]) (w.recoverSegment codec path).1 := by
  obtain ⟨f, hf⟩ := Option.isSome_iff_exists.mp ((Table.find?_isSome dir path).mpr hpath)
  have hbytes := hfiles path f hf
  obtain ⟨last', index', hloop, hloc, hkeys⟩ := recoverLoop_records hbytes (content path) hrec [] rfl
    f.bytes.length (path - 1) (by rw [hbytes]) w.offsetIndex h.located
  rw [records_nil, List.length_nil] at hloop
  unfold recoverSegment
  simp only [h.dir, hf, Option.getD_some, hloop]
  refine ⟨trivial, ⟨rfl, by simp [h.segments], hloc, ?_⟩⟩
  intro p hp e he
  refine (hkeys _).mpr ?_
  rcases List.mem_append.mp hp with hp | hp
  · exact .inl (h.keys p hp e he)
  · obtain rfl := List.mem_singleton.mp hp
    exact .inr ⟨e, he, rfl⟩

theorem recovered_segments {content : Nat → List LogEntry} {dir : Dir} {visited : List Nat} {w : Wal}
    (paths : List Nat) (h : Recovered codec content dir visited w) (hpaths : ∀ p ∈ paths, p ∈ dir.keys)
    (hfiles : ∀ p f, dir.find? p = some f → f.bytes = records codec (content p))
    (hrec : ∀ p ∈ dir.keys, ∀ e ∈ content p, Recoverable codec e) :
    Recovered codec content dir (visited ++ paths) (w.recoverSegments codec paths) := by
  induction paths generalizing visited w with
  | nil => simpa [recoverSegments] using h
  | cons path paths ih =>
    have hpath := hpaths path (by simp)
    obtain ⟨hwhole, hnext⟩ := recovered_segment h hpath hfiles (hrec path hpath)
    have hsplit : w.recoverSegments codec (path :: paths) =
        (w.recoverSegment codec path).1.recoverSegments codec paths := by
      rw [recoverSegments]
      split
      · next hw => rw [hw] at hwhole; cases hwhole
      · next hw => rw [hw]
    rw [hsplit]
    simpa using ih hnext fun p hp => hpaths p (by simp [hp])

/-- The files of a directory hold the records of these entries. -/
structure Holds (codec : EntryCodec) (dir : Dir) (content : Nat → List LogEntry) : Prop where
  bytes : ∀ p f, dir.find? p = some f → f.bytes = records codec (content p)
  absent : ∀ p, p ∉ dir.keys → content p = []

theorem Holds.exists_file {dir : Dir} {content : Nat → List LogEntry} (h : Holds codec dir content) {p : Nat}
    (hp : content p ≠ []) : ∃ f, dir.find? p = some f ∧ f.bytes = records codec (content p) := by
  have hkey : p ∈ dir.keys := by
    by_contra hn
    exact hp (h.absent p hn)
  obtain ⟨f, hf⟩ := Option.isSome_iff_exists.mp ((Table.find?_isSome dir p).mpr hkey)
  exact ⟨f, hf, h.bytes p f hf⟩

/-- A located record is what reading its index returns. -/
theorem read_of_located {content : Nat → List LogEntry} {w : Wal} {i : Nat} {loc : EntryLocation}
    (h : Holds codec w.dir content) (hrec : ∀ p, ∀ e ∈ content p, Recoverable codec e)
    (hfind : w.offsetIndex.find? i = some loc) (hloc : Located codec content i loc) :
    ∃ e ∈ content loc.path, e.index = i ∧ w.read codec i = .ok e := by
  obtain ⟨front, e, rear, hcontent, hoffset, hindex⟩ := hloc
  have he : e ∈ content loc.path := by simp [hcontent]
  obtain ⟨f, hf, hbytes⟩ := h.exists_file (List.ne_nil_of_mem he)
  refine ⟨e, he, hindex, ?_⟩
  simp only [read, hfind, hf]
  rw [hbytes, hcontent, hoffset, readRecordAt_records (hrec loc.path e he)]
  rfl

/-- Opening a directory of whole records reads back these records and nothing else. -/
theorem openWal_records {content : Nat → List LogEntry} {dir : Dir} (start : Nat) {size : Nat} (hsize : size ≠ 0)
    (hdir : dir.keys ≠ []) (h : Holds codec dir content)
    (hrec : ∀ p, ∀ e ∈ content p, Recoverable codec e) :
    ∃ w, openWal codec dir start size = .ok w ∧
      (∀ i e, w.read codec i = .ok e → ∃ p, e ∈ content p) ∧
      ∀ p, ∀ e ∈ content p, ∃ q, ∃ e' ∈ content q, e'.index = e.index ∧ w.read codec e.index = .ok e' := by
  have hstart : Recovered codec content dir [] { dir, start, segmentSizeBytes := size } :=
    ⟨rfl, rfl, by simp, by simp⟩
  have hr := recovered_segments (dir.keys.insertionSort (· ≤ ·)) hstart
    (fun p hp => (List.mem_insertionSort _).mp hp) h.bytes (fun p _ => hrec p)
  rw [List.nil_append] at hr
  set w := Wal.recoverSegments codec { dir, start, segmentSizeBytes := size }
    (dir.keys.insertionSort (· ≤ ·)) with hw
  have hne : w.segments ≠ [] := by
    intro he
    have hs := hr.segments
    rw [he, List.map_nil] at hs
    have hl := congrArg List.length hs
    rw [List.length_insertionSort] at hl
    exact hdir (List.length_eq_zero_iff.mp hl.symm)
  obtain ⟨active, hactive⟩ := Option.isSome_iff_exists.mp
    (by rw [List.getLast?_isSome]; exact hne : w.segments.getLast?.isSome)
  have hmem : active.startIndex ∈ dir.keys := by
    have hin : active.startIndex ∈ w.segments.map SegmentMeta.startIndex :=
      List.mem_map.mpr ⟨active, List.mem_of_getLast? hactive, rfl⟩
    rw [hr.segments] at hin
    exact (List.mem_insertionSort _).mp hin
  have hopen : ∃ w', openWal codec dir start size = .ok w' ∧ w'.dir = dir ∧ w'.offsetIndex = w.offsetIndex := by
    unfold openWal loadExistingSegments
    rw [if_neg hsize, if_neg hdir]
    simp only [← hw, openActiveSegmentForAppend, hactive, hr.dir, Table.find?_tryEmplace_of_mem _ _ _ hmem]
    exact ⟨_, rfl, rfl, rfl⟩
  obtain ⟨w', hok, hdir', hindex'⟩ := hopen
  have hholds : Holds codec w'.dir content := hdir' ▸ h
  refine ⟨w', hok, ?_, ?_⟩
  · intro i e hread
    cases hfind : w'.offsetIndex.find? i with
    | none =>
      simp only [read, hfind] at hread
      cases hread
    | some loc =>
      have hloc := hr.located i loc (hindex' ▸ hfind)
      obtain ⟨e', he', -, hread'⟩ := read_of_located hholds hrec hfind hloc
      rw [hread] at hread'
      cases hread'
      exact ⟨_, he'⟩
  · intro p e he
    have hp : p ∈ dir.keys := by
      by_contra hn
      rw [h.absent p hn] at he
      cases he
    have hkey := hr.keys p ((List.mem_insertionSort _).mpr hp) e he
    obtain ⟨loc, hfind⟩ := Option.isSome_iff_exists.mp ((Table.find?_isSome _ _).mpr hkey)
    obtain ⟨e', he', hindex, hread⟩ := read_of_located hholds hrec (hindex' ▸ hfind) (hr.located _ loc hfind)
    exact ⟨loc.path, e', he', hindex, hread⟩

end RaftVdb.Wal
