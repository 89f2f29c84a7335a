import RaftVdb.WalPending

/-!
# Recovery of a torn last segment

The last segment file may be cut anywhere, in particular inside a record. `RecoverSegment`
keeps the records that are whole and cuts the file behind them. The last segment may be left
without a record while the earlier ones have some, which no other call brings about; the
next entry then has the start index of that segment.
-/

namespace RaftVdb.Wal

open Lib

variable {codec : EntryCodec} {w w' : Wal} {chunks : List Chunk}

/-- Append one entry after the other. -/
def appendAll (codec : EntryCodec) (w : Wal) : List LogEntry → Except String Wal
  | [] => .ok w
  | e :: entries => match w.append codec e with
    | .ok w' => appendAll codec w' entries
    | .error message => .error message

/-- The readable entries are those of a log with the indices from 1 on. -/
def ReadsAs (codec : EntryCodec) (w : Wal) (log : List LogEntry) : Prop :=
  ∀ i e, w.read codec i = .ok e ↔ 1 ≤ i ∧ log[i - 1]? = some e

/-- The entries have the indices 1, 2, and so on. -/
def FromFirst (log : List LogEntry) : Prop := ∀ i e, log[i]? = some e → e.index = i + 1

/-! ## A record that is cut -/

theorem readRecordAt_torn (codec : EntryCodec) (front : Bytes) {payload : Bytes} {t : Nat}
    (ht : t < (record payload).length) (hlen : payload.length < 2 ^ 32) :
    ∃ err, readRecordAt codec (front ++ (record payload).take t) front.length = .error err := by
  have hrest : ∀ size, readExactly (front ++ (record payload).take t) front.length size = ((record payload).take t).take size := by
    intro size
    rw [readExactly, List.drop_left]
  rcases Nat.lt_or_ge t kRecordHeaderSize with hshort | hlong
  · refine ⟨"WAL 记录头不完整", ?_⟩
    have hheader : (readExactly (front ++ (record payload).take t) front.length kRecordHeaderSize).length ≠
        kRecordHeaderSize := by
      rw [hrest, List.length_take, List.length_take]
      omega
    rw [readRecordAt, if_pos hheader]
  · have hheader : readExactly (front ++ (record payload).take t) front.length kRecordHeaderSize =
        recordHeader payload := by
      rw [hrest, List.take_take, Nat.min_eq_left hlong, record_eq, List.take_left' (length_recordHeader payload)]
    have hpayload : (readExactly (front ++ (record payload).take t) (front.length + kRecordHeaderSize)
        payload.length).length ≠ payload.length := by
      rw [length_record] at ht
      rw [readExactly, ← List.drop_drop, List.drop_left, List.length_take, List.length_drop, List.length_take,
        length_record]
      omega
    rw [readRecordAt]
    simp only [hheader, recordHeader_length_field hlen, if_pos hpayload]
    split
    · exact ⟨_, rfl⟩
    split
    · exact ⟨_, rfl⟩
    · exact ⟨_, rfl⟩

/-- The bytes of a file that is cut: whole records, and a piece of the next one. -/
theorem take_records (codec : EntryCodec) (entries : List LogEntry) (len : Nat) :
    ∃ kept tail, kept ≤ entries.length ∧ (records codec entries).take len = records codec (entries.take kept) ++ tail ∧
      (∀ j ≤ entries.length, j ≤ kept ↔ (records codec (entries.take j)).length ≤ len) ∧
      (tail ≠ [] → ∃ e ∈ entries, ∃ t < (record (codec.serialize e)).length, tail = (record (codec.serialize e)).take t) := by
  induction entries generalizing len with
  | nil =>
    refine ⟨0, [], Nat.le_refl 0, by simp, ?_, fun h => absurd rfl h⟩
    intro j hj
    simpa using hj
  | cons e entries ih =>
    rcases Nat.lt_or_ge len (record (codec.serialize e)).length with hshort | hlong
    · refine ⟨0, (record (codec.serialize e)).take len, Nat.zero_le _, ?_, ?_, ?_⟩
      · rw [records_cons, List.take_append_of_le_length (Nat.le_of_lt hshort)]
        rfl
      · intro j hj
        cases j with
        | zero => simp
        | succ j =>
          rw [List.take_succ_cons, records_cons, List.length_append]
          omega
      · intro _
        exact ⟨e, List.mem_cons_self, len, hshort, rfl⟩
    · obtain ⟨kept, tail, hle, htake, hcount, htail⟩ := ih (len - (record (codec.serialize e)).length)
      refine ⟨kept + 1, tail, Nat.succ_le_succ hle, ?_, ?_, ?_⟩
      · rw [records_cons, List.take_append, List.take_of_length_le hlong, htake, List.take_succ_cons, records_cons,
          List.append_assoc]
      · intro j hj
        cases j with
        | zero => simp
        | succ j =>
          have hiff := hcount j (Nat.le_of_succ_le_succ hj)
          rw [List.take_succ_cons, records_cons, List.length_append, Nat.succ_le_succ_iff, hiff]
          omega
      · intro hne
        obtain ⟨x, hx, t, ht, heq⟩ := htail hne
        exact ⟨x, List.mem_cons_of_mem _ hx, t, ht, heq⟩

/-! ## What the appends leave -/

theorem FromFirst.left {xs ys : List LogEntry} (h : FromFirst (xs ++ ys)) : FromFirst xs := by
  intro i e he
  exact h i e (by rw [List.getElem?_append_left (List.getElem?_eq_some_iff.mp he).1]; exact he)

theorem FromFirst.take {xs ys : List LogEntry} (h : FromFirst (xs ++ ys)) (k : Nat) : FromFirst (xs ++ ys.take k) := by
  have hall : FromFirst (xs ++ ys.take k ++ ys.drop k) := by
    rw [List.append_assoc, List.take_append_drop]
    exact h
  exact hall.left

theorem FromFirst.concat {log : List LogEntry} {e : LogEntry} (h : FromFirst log) (he : e.index = log.length + 1) :
    FromFirst (log ++ [e]) := by
  intro i x hx
  rcases Nat.lt_or_ge i log.length with hlt | hge
  · rw [List.getElem?_append_left hlt] at hx
    exact h i x hx
  · rw [List.getElem?_append_right hge, List.getElem?_singleton] at hx
    split at hx
    · cases hx
      omega
    · cases hx

/-- The last index of such a log is its length. -/
theorem FromFirst.getLast? {log : List LogEntry} (h : FromFirst log) {e : LogEntry} (he : log.getLast? = some e) :
    e.index = log.length := by
  rw [List.getLast?_eq_getElem?] at he
  have hlt := (List.getElem?_eq_some_iff.mp he).1
  have hindex := h _ e he
  omega

theorem Stored.readsAs {log : List LogEntry} (h : Stored codec w log) (hlog : FromFirst log) : ReadsAs codec w log := by
  intro i e
  rw [h.read_eq_ok]
  constructor
  · rintro ⟨he, rfl⟩
    obtain ⟨j, hj⟩ := List.mem_iff_getElem?.mp he
    have hindex := hlog j e hj
    rw [hindex]
    exact ⟨Nat.le_add_left 1 j, hj⟩
  · rintro ⟨hpos, he⟩
    have hindex := hlog _ e he
    exact ⟨List.mem_of_getElem? he, by omega⟩

theorem start_openActive {v : Wal} (h : w.openActiveSegmentForAppend = .ok v) : v.start = w.start := by
  unfold openActiveSegmentForAppend at h
  split at h
  · cases h
  · cases h
    rfl

theorem start_ensureActive {v : Wal} {i n : Nat} (h : w.ensureActiveSegmentForAppend i n = .ok v) : v.start = w.start := by
  have hfresh : (if w.segments = [] then w.createFreshSegment i else w).start = w.start := by
    split
    · rfl
    · rfl
  unfold ensureActiveSegmentForAppend at h
  simp only at h
  generalize (if w.segments = [] then w.createFreshSegment i else w) = fresh at h hfresh
  rw [← hfresh]
  split at h
  · rw [rotateSegment] at h
    have hstart := start_openActive h
    exact hstart
  split at h
  · exact start_openActive h
  · cases h
    rfl

theorem start_append {e : LogEntry} (h : w.append codec e = .ok w') : w'.start = w.start := by
  unfold append at h
  split at h
  · cases h
  simp only at h
  split at h
  · cases h
  split at h
  · cases h
  split at h
  · cases h
  next v hv =>
  have hstart := start_ensureActive hv
  split at h
  · cases h
    exact hstart
  · cases h

theorem appendAll_layout {entries done : List LogEntry} (h : Layout codec w chunks) (hdone : logOf chunks = done)
    (hstart : w.start = 1) (hindices : FromFirst (done ++ entries)) (hvalid : ∀ e ∈ entries, Known e ∧ codec.RoundTrips e)
    (hok : w.appendAll codec entries = .ok w') :
    ∃ chunks', Layout codec w' chunks' ∧ logOf chunks' = done ++ entries ∧ w'.start = 1 := by
  induction entries generalizing w chunks done with
  | nil =>
    cases hok
    exact ⟨chunks, h, by rw [hdone, List.append_nil], hstart⟩
  | cons e entries ih =>
    rw [appendAll] at hok
    split at hok
    · next w₁ happend =>
      obtain ⟨hknown, hround⟩ := hvalid e List.mem_cons_self
      have hindex : e.index = done.length + 1 := hindices done.length e (by simp)
      obtain ⟨chunks₁, h₁, hlog⟩ := h.append_at happend hknown hround fun _ => by
        rw [hstart]
        omega
      rw [List.append_cons] at hindices ⊢
      exact ih h₁ (by rw [hlog, hdone]) ((start_append happend).trans hstart) hindices
        (fun x hx => hvalid x (List.mem_cons_of_mem _ hx)) hok
    · cases hok

/-! ## What recovery makes of the cut -/

theorem find?_truncate_self {dir : Dir} {path : Nat} (size : Nat) {f : File} (hf : dir.find? path = some f) :
    ((dir.truncate path size).find? path).map File.bytes = some (f.bytes.take size) := by
  rw [Dir.truncate, Table.find?_adjust_self, hf]
  rfl

/-- Cutting at a record after cutting behind it. -/
theorem Files.truncate_twice {dir : Dir} {path long short : Nat} (hle : short ≤ long)
    (hf : Files codec (dir.truncate path short) chunks) : Files codec ((dir.truncate path long).truncate path short) chunks := by
  intro p
  rw [← hf p]
  by_cases hp : p = path
  · rw [hp, Dir.truncate, Dir.truncate, Dir.truncate, Table.find?_adjust_self, Table.find?_adjust_self,
      Table.find?_adjust_self]
    cases dir.find? path with
    | none => rfl
    | some f => simp [List.take_take, Nat.min_eq_left hle]
  · rw [find?_truncate_other hp, find?_truncate_other hp, find?_truncate_other hp]

/-- In a log from index 1 on, a later segment starts right behind the earlier ones. -/
theorem Regular.start_eq {front : List Chunk} {a : Chunk} (h : Regular codec (front ++ [a])) (hfront : front ≠ [])
    (hlog : FromFirst (logOf (front ++ [a]))) : a.start = (logOf front).length + 1 := by
  have hall : ∀ c ∈ front ++ [a], c.entries ≠ [] := by
    rcases h.filled with ⟨c, hc, -⟩ | ⟨-, hall⟩
    · obtain ⟨d, rest, rfl⟩ := List.exists_cons_of_ne_nil hfront
      simp at hc
    · exact hall
  rw [logOf_append] at hlog
  have hsingle : logOf [a] = a.entries := by simp [logOf]
  rw [hsingle] at hlog
  obtain ⟨front', d, rfl⟩ := (List.eq_nil_or_concat' front).resolve_left hfront
  obtain ⟨x, hx⟩ := Option.isSome_iff_exists.mp (List.getLast?_isSome.mpr (hall d (by simp)))
  have hlast : (logOf (front' ++ [d])).getLast? = some x := by
    rw [logOf_append, show logOf [d] = d.entries by simp [logOf], List.getLast?_append, hx]
    rfl
  have hxindex := hlog.left.getLast? hlast
  have hlt := ((List.pairwise_append.mp h.ascending.starts).2.2 d (by simp) a List.mem_cons_self).2 x
    (List.mem_of_getLast? hx)
  obtain ⟨y, ys, hentries⟩ := List.exists_cons_of_ne_nil (hall a (by simp))
  have hyindex := hlog (logOf (front' ++ [d])).length y (by
    rw [List.getElem?_append_right (Nat.le_refl _), Nat.sub_self, hentries]
    rfl)
  have hle := h.ascending.start_le a (by simp) y (by rw [hentries]; exact List.mem_cons_self)
  omega

theorem Regular.init {front : List Chunk} {a : Chunk} (h : Regular codec (front ++ [a])) (hfront : front ≠ []) :
    Regular codec front := by
  have hmem : ∀ e ∈ logOf front, e ∈ logOf (front ++ [a]) := by
    intro e he
    rw [logOf_append]
    exact List.mem_append_left _ he
  refine ⟨h.ascending.sublist (List.sublist_append_left _ _), ?_, ?_, fun e he => h.positive e (hmem e he),
    fun e he => h.recoverable e (hmem e he)⟩
  · rcases h.filled with ⟨c, hc, -⟩ | ⟨-, hall⟩
    · obtain ⟨d, rest, rfl⟩ := List.exists_cons_of_ne_nil hfront
      simp at hc
    · exact .inr ⟨hfront, fun c hc => hall c (List.mem_append_left _ hc)⟩
  · have hall := h.consecutive
    rw [logOf_append] at hall
    exact hall.left_of_append

/-- The last chunk may lose entries from its end, but not all of them behind others. -/
theorem Regular.shrink_last {front : List Chunk} {a a' : Chunk} (h : Regular codec (front ++ [a])) (hstart : a'.start = a.start)
    {rear : List LogEntry} (hentries : a.entries = a'.entries ++ rear) (hleft : front = [] ∨ a'.entries ≠ []) :
    Regular codec (front ++ [a']) := by
  have hlog : logOf (front ++ [a]) = logOf (front ++ [a']) ++ rear := by
    rw [logOf_append, logOf_append, List.append_assoc]
    simp [logOf, hentries]
  have hmem : ∀ e ∈ logOf (front ++ [a']), e ∈ logOf (front ++ [a]) := by
    intro e he
    rw [hlog]
    exact List.mem_append_left _ he
  refine ⟨h.ascending.shrink hstart ?_, ?_, ?_, fun e he => h.positive e (hmem e he), fun e he => h.recoverable e (hmem e he)⟩
  · rw [hentries]
    exact List.sublist_append_left _ _
  · by_cases hnil : a'.entries = []
    · have hfront := hleft.resolve_right (not_not.mpr hnil)
      exact .inl ⟨a', by rw [hfront, List.nil_append], hnil⟩
    · refine .inr ⟨by simp, ?_⟩
      intro c hc
      rcases List.mem_append.mp hc with hc | hc
      · rcases h.filled with ⟨d, hd, -⟩ | ⟨-, hall⟩
        · cases front with
          | nil => cases hc
          | cons x front => simp at hd
        · exact hall c (List.mem_append_left _ hc)
      · rw [List.mem_singleton.mp hc]
        exact hnil
  · have hall := h.consecutive
    rw [hlog] at hall
    exact hall.left_of_append

/-- `WAL::Open` on a log from index 1 on, with its last file cut: the log is stored up to
the last whole record, and the file ends there. -/
theorem Layout.recover_torn {front : List Chunk} {a : Chunk} (h : Layout codec w (front ++ [a]))
    (hlog : FromFirst (logOf (front ++ [a]))) (hfirst : w.start = 1) {kept len : Nat} {tail : Bytes}
    (htake : (records codec a.entries).take len = records codec (a.entries.take kept) ++ tail)
    (hkept : (records codec (a.entries.take kept)).length ≤ len)
    (htail : tail ≠ [] → ∃ e ∈ a.entries, ∃ t < (record (codec.serialize e)).length,
      tail = (record (codec.serialize e)).take t) (start : Nat) {size : Nat} (hsize : size ≠ 0) :
    ∃ v, openWal codec (w.dir.truncate a.start len) start size = .ok v ∧
      Stored codec v (logOf front ++ a.entries.take kept) ∧
      (v.dir.find? a.start).map File.bytes = some (records codec (a.entries.take kept)) ∧
      v.lastIndex = (logOf front ++ a.entries.take kept).length ∧ v.start = 1 := by
  obtain ⟨f, hfind, hbytes⟩ := h.files.find? h.ascending (c := a) (by simp)
  have hother : ∀ d ∈ front, d.start ≠ a.start := fun d hd =>
    Nat.ne_of_lt ((List.pairwise_append.mp h.ascending.starts).2.2 d hd a List.mem_cons_self).1
  have hsplit : a.entries = a.entries.take kept ++ a.entries.drop kept := (List.take_append_drop kept a.entries).symm
  have hfile : ∃ g, (w.dir.truncate a.start len).find? a.start = some g ∧
      g.bytes = records codec (a.entries.take kept) ++ tail := by
    obtain ⟨g, hg, hgbytes⟩ := Option.map_eq_some_iff.mp (find?_truncate_self len hfind)
    exact ⟨g, hg, by rw [hgbytes, hbytes, htake]⟩
  have hdamaged : tail ≠ [] → ∃ err, readRecordAt codec (records codec (a.entries.take kept) ++ tail)
      (records codec (a.entries.take kept)).length = .error err := by
    intro hne
    obtain ⟨e, he, t, ht, rfl⟩ := htail hne
    exact readRecordAt_torn codec _ ht (h.recoverable e (by rw [logOf_append]; simp [logOf, he])).length
  have hwhole : FromFirst (logOf front ++ a.entries) := by
    rw [logOf_append] at hlog
    simpa [logOf] using hlog
  by_cases hgone : front ≠ [] ∧ a.entries.take kept = []
  · obtain ⟨hfront, hnil⟩ := hgone
    have hstart := h.toRegular.start_eq hfront hlog
    have hreg := h.toRegular.init hfront
    have hheld : logOf front ≠ [] := by
      obtain ⟨d, rest, hcons⟩ := List.exists_cons_of_ne_nil hfront
      rcases h.filled with ⟨c, hc, -⟩ | ⟨-, hall⟩
      · rw [hcons] at hc
        simp at hc
      · have hd := hall d (by rw [hcons]; simp)
        rw [hcons]
        simpa [logOf] using fun hentries => absurd hentries hd
    have hlast : ∀ e ∈ (logOf front).getLast?, (logOf front).length = e.index := fun e he =>
      (hwhole.left.getLast? he).symm
    have hbehind : a.start = (Chunk.behind (logOf front).length).start := hstart
    have hempty : (Chunk.behind (logOf front).length).entries = [] := rfl
    have hnone : (records codec (Chunk.behind (logOf front).length).entries).length ≤ len := by
      rw [hempty, records_nil]
      exact Nat.zero_le _
    have hf := (h.files.ftruncate hother hbehind.symm (show a.entries = _ ++ a.entries from rfl)).truncate_twice hnone
    rw [hnil] at hfile hdamaged
    rw [hbehind] at hf hfile ⊢
    obtain ⟨v, hopen, hr, hdir, hsize', hfd, hvstart⟩ := openWal_torn start hsize (hreg.ascending_behind hheld hlast) hf
      hfile hdamaged (by rw [logOf_behind]; exact hreg.recoverable)
    have hfv := Files.of_torn hf hfile hdir
    obtain ⟨hpending, hindex⟩ := hr.pending hreg hheld hlast hfv hfd hvstart (hsize' ▸ hsize)
    obtain ⟨g, hg, hgbytes⟩ := hfv.find? (hreg.ascending_behind hheld hlast)
      (c := .behind (logOf front).length) (by simp)
    refine ⟨v, hopen, ⟨_, .inr hpending, ?_⟩, ?_, ?_, ?_⟩
    · rw [logOf_reopened, hnil, List.append_nil]
    · rw [hg, hnil, Option.map_some, hgbytes]
      rfl
    · rw [hindex, hnil, List.append_nil]
    · obtain ⟨d, rest, hcons⟩ := List.exists_cons_of_ne_nil hfront
      rw [← hfirst, h.start, hvstart, hcons]
      rfl
  · let a' : Chunk := ⟨a.seg, a.entries.take kept⟩
    have hreg : Regular codec (front ++ [a']) := by
      apply h.toRegular.shrink_last (show a'.start = a.start from rfl) hsplit
      by_cases hfront : front = []
      · exact .inl hfront
      · exact .inr fun hnil => hgone ⟨hfront, hnil⟩
    have hf := (h.files.ftruncate hother (show a'.start = a.start from rfl) hsplit).truncate_twice hkept
    obtain ⟨v, hopen, hr, hdir, hsize', hfd, hvstart⟩ := openWal_torn (a := a') start hsize hreg.ascending hf
      hfile hdamaged hreg.recoverable
    have hfv := Files.of_torn (a := a') hf hfile hdir
    have hlayout := hr.layout hreg hfv hfd hvstart (hsize' ▸ hsize)
    obtain ⟨g, hg, hgbytes⟩ := hfv.find? hreg.ascending (c := a') (by simp)
    have hlogv : logOf (front ++ [a']) = logOf front ++ a.entries.take kept := by
      rw [logOf_append]
      simp [logOf, a']
    refine ⟨v, hopen, ⟨_, .inl hlayout, ?_⟩, ?_, ?_, ?_⟩
    · rw [logOf_reopened, hlogv]
    · rw [show a.start = a'.start from rfl, hg, Option.map_some, hgbytes]
    · rw [hr.lastIndex hreg.ascending List.getLast?_concat, Chunk.last]
      cases hlast : a'.entries.getLast? with
      | some e =>
        have hget : (logOf front ++ a.entries.take kept).getLast? = some e := by
          rw [← hlogv, hreg.filled.getLast?_logOf List.getLast?_concat, hlast]
        exact (hwhole.take kept).getLast? hget
      | none =>
        have hnil : a.entries.take kept = [] := List.getLast?_eq_none_iff.mp hlast
        have hfront : front = [] := by
          by_contra hne
          exact hgone ⟨hne, hnil⟩
        have hstart : a.start = 1 := by
          rw [← hfirst, h.start, hfront]
          rfl
        rw [hnil, hfront]
        show a.start - 1 = 0
        rw [hstart]
    · rw [← hfirst, h.start, hvstart]
      cases front with
      | nil => rfl
      | cons d rest => rfl

/-- A log is appended to an empty directory, and its last segment file is cut to any length.
`WAL::Open` keeps the entries of the earlier segments and the whole records of the last
one, cuts the file behind them, and takes the next entry; reopening then gives the log
with that entry. -/
theorem torn_tail_recovered (codec : EntryCodec) (size : Nat) (w w' : Wal) (entries : List LogEntry)
    (hopen : openWal codec ∅ 1 size = .ok w) (happend : w.appendAll codec entries = .ok w')
    (hindices : FromFirst entries) (hvalid : ∀ e ∈ entries, Known e ∧ codec.RoundTrips e) (active : SegmentMeta)
    (hactive : w'.segments.getLast? = some active) (len start size' : Nat) (hsize' : size' ≠ 0) :
    ∃ earlier last kept v, entries = earlier ++ last ∧
      (w'.dir.find? active.startIndex).map File.bytes = some (records codec last) ∧ kept ≤ last.length ∧
      (∀ j ≤ last.length, j ≤ kept ↔ (records codec (last.take j)).length ≤ len) ∧
      openWal codec (w'.dir.truncate active.startIndex len) start size' = .ok v ∧
      ReadsAs codec v (earlier ++ last.take kept) ∧
      (v.dir.find? active.startIndex).map File.bytes = some (records codec (last.take kept)) ∧
      v.lastIndex = (earlier ++ last.take kept).length ∧
      ∀ e : LogEntry, e.index = v.lastIndex + 1 → Known e → codec.RoundTrips e → codec.serialize e ≠ [] →
        (codec.serialize e).length ≤ 2 ^ 32 - 1 → ∀ start'' size'', size'' ≠ 0 →
          ∃ v₁ v₂, v.append codec e = .ok v₁ ∧ openWal codec v₁.close.dir start'' size'' = .ok v₂ ∧
            ReadsAs codec v₂ (earlier ++ last.take kept ++ [e]) := by
  obtain ⟨hempty, -, -⟩ := layout_open_empty hopen
  have hfirst : w.start = 1 := hempty.start
  have hnone : logOf [fresh 1] = [] := rfl
  obtain ⟨chunks, h, hlog, hstart⟩ := appendAll_layout hempty hnone hfirst hindices hvalid happend
  rw [List.nil_append] at hlog
  obtain ⟨front, a, rfl⟩ := h.exists_active
  rw [h.getLast?_segments rfl, Option.some.injEq] at hactive
  have hpath : active.startIndex = a.start := by rw [← hactive]; rfl
  have hsplit : entries = logOf front ++ a.entries := by
    rw [← hlog, logOf_append]
    simp [logOf]
  obtain ⟨kept, tail, hle, htake, hcount, htail⟩ := take_records codec a.entries len
  obtain ⟨v, hv, hstored, hfile, hindex, hvstart⟩ := h.recover_torn (hlog ▸ hindices) hstart htake
    ((hcount kept hle).mp (Nat.le_refl kept)) htail start hsize'
  obtain ⟨f, hfind, hbytes⟩ := h.files.find? h.ascending (c := a) (by simp)
  have hkeptIndices : FromFirst (logOf front ++ a.entries.take kept) := (hsplit ▸ hindices).take kept
  rw [hpath]
  refine ⟨logOf front, a.entries, kept, v, hsplit, ?_, hle, hcount, hv, hstored.readsAs hkeptIndices, hfile, hindex, ?_⟩
  · rw [hfind, Option.map_some, hbytes]
  · intro e he hknown hround hpayload hlength start'' size'' hsize''
    obtain ⟨v₁, hok, hstored₁, -⟩ := hstored.append ⟨fun _ => he, hpayload, hlength⟩ hknown hround fun _ => by
      rw [he, hvstart]
      omega
    obtain ⟨v₂, hreopen, hstored₂⟩ := hstored₁.closed.reopen start'' hsize''
    exact ⟨v₁, v₂, hok, hreopen, hstored₂.readsAs (hkeptIndices.concat (by rw [he, hindex]))⟩

set_option maxRecDepth 20000 in
/-- The third record is cut after five bytes; its segment stays without a record. -/
theorem torn_tail_recovered_at_five_bytes :
    ∃ w w' v, openWal shortCodec ∅ 1 30 = .ok w ∧
      w.appendAll shortCodec [shortNoop 1, shortNoop 2, shortNoop 3] = .ok w' ∧
      openWal shortCodec (w'.dir.truncate 3 5) 1 30 = .ok v ∧ v.lastIndex = 2 ∧ v.read shortCodec 2 = .ok (shortNoop 2) := by
  obtain ⟨w, w', v, hopen, happend, hactive, hv, hlast⟩ : ∃ w w' v, openWal shortCodec ∅ 1 30 = .ok w ∧
      w.appendAll shortCodec [shortNoop 1, shortNoop 2, shortNoop 3] = .ok w' ∧
      w'.segments.getLast? = some ⟨3, 3, 20⟩ ∧
      openWal shortCodec (w'.dir.truncate 3 5) 1 30 = .ok v ∧ v.lastIndex = 2 := ⟨_, _, _, rfl, rfl, rfl, rfl, rfl⟩
  obtain ⟨earlier, last, kept, v', hsplit, -, -, -, hv', hreads, -, hindex, -⟩ :=
    torn_tail_recovered shortCodec 30 w w' _ hopen happend (by
      intro i e he
      rcases i with _ | _ | _ | i
      all_goals cases he
      all_goals rfl) (by
      intro e he
      simp only [List.mem_cons, List.not_mem_nil, or_false] at he
      rcases he with rfl | rfl | rfl
      all_goals exact ⟨by decide, fun _ => by decide⟩) ⟨3, 3, 20⟩ hactive 5 1 30 (by decide)
  rw [hv, Except.ok.injEq] at hv'
  subst hv'
  refine ⟨w, w', v, hopen, happend, hv, hlast, (hreads 2 (shortNoop 2)).mpr ⟨by decide, ?_⟩⟩
  have hpart : earlier ++ last.take kept = [shortNoop 1, shortNoop 2, shortNoop 3].take 2 := by
    have hprefix : earlier ++ last.take kept <+: [shortNoop 1, shortNoop 2, shortNoop 3] := by
      rw [hsplit]
      exact (List.prefix_append_right_inj earlier).mpr (List.take_prefix _ _)
    rw [List.prefix_iff_eq_take.mp hprefix, ← hindex, hlast]
  rw [hpart]
  rfl

end RaftVdb.Wal
