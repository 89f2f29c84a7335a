import RaftVdb.WalReopen

/-!
# A segment without a record

A rotation may fail after it has added the new segment, and a file may be cut before its
first record. The WAL then has an empty segment behind the ones with entries, and goes on
as if it had just rotated.
-/

namespace RaftVdb.Wal

open Lib

variable {codec : EntryCodec} {w w' : Wal} {chunks : List Chunk}

/-- The chunk of the segment behind an index. -/
def Chunk.behind (last : Nat) : Chunk := ⟨⟨last + 1, last, 0⟩, []⟩

theorem logOf_behind (chunks : List Chunk) (last : Nat) : logOf (chunks ++ [Chunk.behind last]) = logOf chunks := by
  simp [logOf, Chunk.behind]

theorem placed_behind (chunks : List Chunk) (last : Nat) : placed codec (chunks ++ [Chunk.behind last]) = placed codec chunks := by
  simp [placed, place, Chunk.behind]

theorem Pending.files_behind (h : Pending codec w chunks) : Files codec w.dir (chunks ++ [Chunk.behind w.lastIndex]) := h.files

theorem Pending.segments_behind (h : Pending codec w chunks) :
    w.segments = (chunks ++ [Chunk.behind w.lastIndex]).map Chunk.seg := by
  rw [h.segments, List.map_append]
  rfl

theorem Regular.ascending_behind (h : Regular codec chunks) (hheld : logOf chunks ≠ []) {last : Nat}
    (hlast : ∀ e ∈ (logOf chunks).getLast?, last = e.index) : Ascending (chunks ++ [Chunk.behind last]) := by
  refine ⟨List.pairwise_append.mpr ⟨h.ascending.starts, List.pairwise_singleton _ _, ?_⟩, ?_, ?_⟩
  · intro c hc d hd
    rw [List.mem_singleton.mp hd]
    exact h.ends_before hheld hlast hc
  · intro c hc e he
    rcases List.mem_append.mp hc with hc | hc
    · exact h.ascending.start_le c hc e he
    · rw [List.mem_singleton.mp hc] at he
      cases he
  · intro c hc
    rcases List.mem_append.mp hc with hc | hc
    · exact h.ascending.sorted c hc
    · rw [List.mem_singleton.mp hc]
      exact List.Pairwise.nil

theorem Pending.readable (h : Pending codec w chunks) : Readable codec w (chunks ++ [Chunk.behind w.lastIndex]) :=
  ⟨h.toRegular.ascending_behind h.held h.last, by rw [logOf_behind]; exact h.recoverable, h.files_behind,
    by rw [placed_behind]; exact h.rows⟩

theorem Pending.entries_ne_nil (h : Pending codec w chunks) {c : Chunk} (hc : c ∈ chunks) : c.entries ≠ [] := by
  rcases h.filled with ⟨d, rfl, hd⟩ | ⟨-, hall⟩
  · exact absurd (by simpa [logOf] using hd) h.held
  · exact hall c hc

theorem Pending.read_eq_ok (h : Pending codec w chunks) {i : Nat} {e : LogEntry} :
    w.read codec i = .ok e ↔ e ∈ logOf chunks ∧ e.index = i := by
  rw [h.readable.read_eq_ok, logOf_behind]

theorem Pending.size_ne_zero (h : Pending codec w chunks) : w.offsetIndex.size ≠ 0 := by
  rw [Ne, h.readable.size_eq_zero, logOf_behind]
  exact h.held

theorem Pending.listed (h : Pending codec w chunks) : Listed codec w (chunks ++ [Chunk.behind w.lastIndex]) := by
  refine ⟨h.readable, h.segments_behind, ?_, ?_, h.fd, h.size⟩
  · intro c hc
    rcases List.mem_append.mp hc with hc | hc
    · exact h.sizes c hc
    · rw [List.mem_singleton.mp hc]
      rfl
  · intro c hc e he
    rcases List.mem_append.mp hc with hc | hc
    · exact h.lasts c hc e he
    · rw [List.mem_singleton.mp hc] at he
      cases he

theorem Listed.pending (h : Listed codec w (chunks ++ [Chunk.behind w.lastIndex])) (hreg : Regular codec chunks)
    (hheld : logOf chunks ≠ []) (hlast : ∀ e ∈ (logOf chunks).getLast?, w.lastIndex = e.index)
    (hstart : w.start = (chunks.head?).elim w.start Chunk.start) : Pending codec w chunks :=
  { hreg with
    held := hheld
    segments := by rw [h.segments, List.map_append]; rfl
    sizes := fun c hc => h.sizes c (List.mem_append_left _ hc)
    lasts := fun c hc => h.lasts c (List.mem_append_left _ hc)
    files := h.files
    rows := by rw [h.rows, placed_behind]
    last := hlast
    fd := h.fd
    start := hstart
    size := h.size }

/-- The next entry is the first one of the segment. -/
theorem Pending.append {e : LogEntry} (h : Pending codec w chunks) (hacc : Session.Accepts codec w e) (hknown : Known e)
    (hround : codec.RoundTrips e) :
    ∃ w' chunks', w.append codec e = .ok w' ∧ Layout codec w' chunks' ∧ logOf chunks' = logOf chunks ++ [e] ∧
      w'.lastIndex = e.index ∧ w'.segmentSizeBytes = w.segmentSizeBytes := by
  have hindex : e.index = w.lastIndex + 1 := hacc.1 h.size_ne_zero
  have hn : Next codec chunks e := by
    refine ⟨?_, fun hnil => absurd hnil h.held, by omega, hknown, hround hacc.2.1, ?_⟩
    · intro x hx
      rw [hindex, h.last x hx]
    · have := hacc.2.2
      omega
  have hlast : w.segments.getLast? = some ⟨e.index, e.index - 1, 0⟩ := by
    rw [h.segments, List.getLast?_concat, hindex]
    rfl
  have hactive : activeFd w.segments = some ⟨e.index, 0⟩ := by
    rw [activeFd, hlast]
    rfl
  have hok := Session.append_ok (w := { w with fd := activeFd w.segments }) hacc hlast hactive
  rw [← append_activeFd (by simp) h.segments_behind h.files_behind h.fd] at hok
  have hfits : ({ w with fd := activeFd w.segments } : Wal).needsRotation (record (codec.serialize e)).length = false := by
    have hzero : ({ w with fd := activeFd w.segments } : Wal).activeSize = 0 := by
      rw [activeSize]
      simp only [hlast]
      rfl
    simp [needsRotation, hzero]
  rw [hfits, if_neg (by decide)] at hok
  have hopened : Pending codec { w with fd := activeFd w.segments } chunks := { h with fd := .inr rfl }
  obtain ⟨c, hlog, hlayout⟩ := hopened.write hn
  exact ⟨_, _, hok, hlayout, hlog, rfl, rfl⟩

/-- Recovery of regular chunks with an empty file behind them. -/
theorem Rebuilt.pending {last : Nat} (hr : Rebuilt codec w (chunks ++ [Chunk.behind last])) (h : Regular codec chunks)
    (hheld : logOf chunks ≠ []) (hlast : ∀ e ∈ (logOf chunks).getLast?, last = e.index)
    (hf : Files codec w.dir (chunks ++ [Chunk.behind last])) (hfd : w.fd = activeFd w.segments) {start : Nat}
    (hstart : w.start = ((chunks ++ [Chunk.behind last]).head?).elim start Chunk.start) (hsize : w.segmentSizeBytes ≠ 0) :
    Pending codec w (chunks.map (Chunk.reopened codec)) ∧ w.lastIndex = last := by
  have hindex : w.lastIndex = last :=
    hr.lastIndex (h.ascending_behind hheld hlast) List.getLast?_concat
  refine ⟨{ h.reopened with
    held := ?_, segments := ?_, sizes := ?_, lasts := ?_, files := ?_, rows := ?_, last := ?_, fd := .inr hfd
    start := ?_, size := hsize }, hindex⟩
  · rw [logOf_reopened]
    exact hheld
  · rw [hr.segments, List.map_append, List.map_map, hindex]
    rfl
  · intro c hc
    obtain ⟨d, -, rfl⟩ := List.mem_map.mp hc
    rfl
  · intro c hc e he
    obtain ⟨d, -, rfl⟩ := List.mem_map.mp hc
    have hlast : d.entries.getLast? = some e := he
    change d.last = e.index
    rw [Chunk.last, hlast]
    rfl
  · have hreopened := hf.reopened
    rw [List.map_append] at hreopened
    rw [hindex]
    exact hreopened
  · rw [hr.rows, placed_behind, placed_reopened]
  · rw [logOf_reopened, hindex]
    exact hlast
  · obtain ⟨first, hfirst⟩ := Option.isSome_iff_exists.mp (List.isSome_head?.mpr h.filled.ne_nil)
    rw [hstart, List.head?_append, hfirst, List.head?_map, hfirst]
    rfl

theorem Pending.reopen (h : Pending codec w chunks) (start : Nat) {size : Nat} (hsize : size ≠ 0) :
    ∃ v, openWal codec w.dir start size = .ok v ∧ Pending codec v (chunks.map (Chunk.reopened codec)) ∧
      v.lastIndex = w.lastIndex ∧ v.segmentSizeBytes = size := by
  obtain ⟨v, hopen, hr, hdir, hsize', hfd, hstart⟩ := openWal_rebuilt start hsize (by simp) h.readable.ascending
    h.files_behind h.readable.recoverable
  obtain ⟨hpending, hindex⟩ :=
    hr.pending h.toRegular h.held h.last (hdir ▸ h.files_behind) hfd hstart (hsize' ▸ hsize)
  exact ⟨v, hopen, hpending, hindex, hsize'⟩

/-! ## Truncation -/

/-- Behind the log everything ends. -/
theorem Pending.split_all {k : Nat} (h : Pending codec w chunks) (hk : w.lastIndex < k) :
    Split k (chunks ++ [Chunk.behind w.lastIndex]) (chunks ++ [Chunk.behind w.lastIndex]) [] := by
  obtain ⟨x, hx⟩ := Option.isSome_iff_exists.mp (List.getLast?_isSome.mpr h.held)
  have hlast := h.last x hx
  have hpos := h.positive x (List.mem_of_getLast? hx)
  refine ⟨(List.append_nil _).symm, ?_, by simp⟩
  intro c hc
  have hends : c.seg.lastIndex ≠ 0 ∧ c.seg.lastIndex < k := by
    rcases List.mem_append.mp hc with hc | hc
    · obtain ⟨e, he⟩ := Option.isSome_iff_exists.mp (List.getLast?_isSome.mpr (h.entries_ne_nil hc))
      have he' : e ∈ logOf chunks := List.mem_flatMap.mpr ⟨c, hc, List.mem_of_getLast? he⟩
      have := h.toRegular.le_last he' hx
      have := h.positive e he'
      rw [h.lasts c hc e he]
      omega
    · rw [List.mem_singleton.mp hc, Chunk.behind]
      exact ⟨Nat.ne_of_gt (hlast ▸ hpos), hk⟩
  simpa [endsBefore] using hends

/-- Within the log the empty segment stays. -/
theorem split_kept {k : Nat} {gone kept : List Chunk} (hk : ¬ w.lastIndex < k) (h : Split k chunks gone kept) :
    Split k (chunks ++ [Chunk.behind w.lastIndex]) gone (kept ++ [Chunk.behind w.lastIndex]) := by
  refine ⟨by rw [h.chunks, List.append_assoc], h.gone, ?_⟩
  intro c hc
  rcases List.mem_append.mp hc with hc | hc
  · exact h.kept c hc
  · rw [List.mem_singleton.mp hc]
    rw [endsBefore, Chunk.behind, decide_eq_false hk, Bool.and_false]

/-- `TruncateBefore` removes the empty segment only together with all others. -/
theorem Pending.truncateBefore {k : Nat} (h : Pending codec w chunks) (hok : w.truncateBefore k = .ok w') :
    ∃ chunks', (Layout codec w' chunks' ∨ Pending codec w' chunks') ∧ ∀ e ∈ logOf chunks', e ∈ logOf chunks := by
  by_cases hk : w.lastIndex < k
  · obtain ⟨w₁, hok', hlisted, hstart, -, -⟩ := h.listed.truncateBefore (h.split_all hk) (by simp)
    rw [hok] at hok'
    cases hok'
    refine ⟨[fresh k], .inl (hlisted.layout (regular_fresh codec k) ?_ hstart), ?_⟩
    · intro e he
      cases he
    · intro e he
      cases he
  · obtain ⟨x, hx⟩ := Option.isSome_iff_exists.mp (List.getLast?_isSome.mpr h.held)
    have hlast := h.last x hx
    have hmem := List.mem_of_getLast? hx
    obtain ⟨gone, kept, hsplit⟩ := h.toRegular.exists_split h.lasts k
    have hkept : x ∈ logOf kept := by
      rw [hsplit.chunks, logOf_append] at hmem
      refine (List.mem_append.mp hmem).resolve_left fun hgone => ?_
      obtain ⟨c, hc, hxc⟩ := List.mem_flatMap.mp hgone
      have hc' : c ∈ chunks ++ [Chunk.behind w.lastIndex] := by rw [hsplit.chunks]; simp [hc]
      have := History.index_lt_of_endsBefore h.listed hc' (hsplit.gone c hc) hxc
      omega
    have hne : kept ≠ [] := by
      rintro rfl
      cases hkept
    obtain ⟨w₁, hok', hlisted, hstart, hindex, -⟩ := h.listed.truncateBefore (split_kept hk hsplit) (by simp)
    rw [hok] at hok'
    cases hok'
    have hxkept : (logOf kept).getLast? = some x := by
      rw [hsplit.chunks, logOf_append, List.getLast?_append_of_ne_nil _ (List.ne_nil_of_mem hkept)] at hx
      exact hx
    have hsame : w'.lastIndex = w.lastIndex := by
      rw [hindex, logOf_behind, hxkept, hlast]
      rfl
    rw [keptChunks, if_neg (by simp), ← hsame] at hlisted hstart
    refine ⟨kept, .inr (hlisted.pending ?_ (List.ne_nil_of_mem hkept) ?_ ?_), ?_⟩
    · have hreg := h.toRegular
      rw [hsplit.chunks] at hreg
      exact hreg.suffix hne
    · intro e he
      rw [hxkept] at he
      cases he
      rw [hsame, hlast]
    · cases kept with
      | nil => exact absurd rfl hne
      | cons c kept => exact hstart
    · intro e he
      rw [hsplit.chunks, logOf_append]
      exact List.mem_append_right _ he

/-- `TruncateSuffix` removes the empty segment with the entries. -/
theorem Pending.cut {k : Nat} {before rest : List Chunk} {c : Chunk} {front rear : List LogEntry} {x : LogEntry}
    (h : Pending codec w chunks) (hcut : Cut k chunks before c rest front x rear) (hk : k ≠ 0) (hle : k ≤ w.lastIndex) :
    ∃ w', w.truncateSuffix k = .ok w' ∧ Layout codec w' (cutChunks codec k before c front) ∧
      w'.lastIndex = (logOf before ++ front).getLast?.elim (k - 1) LogEntry.index := by
  have hcut' : Cut k (chunks ++ [Chunk.behind w.lastIndex]) before c (rest ++ [Chunk.behind w.lastIndex]) front x rear := by
    refine { hcut with chunks := by rw [hcut.chunks]; simp, rest := ?_ }
    intro d hd
    rcases List.mem_append.mp hd with hd | hd
    · exact hcut.rest d hd
    · rw [List.mem_singleton.mp hd]
      exact ⟨Nat.le_succ_of_le hle, by simp [Chunk.behind]⟩
  obtain ⟨w', hok, hlayout, hlast, -⟩ := h.listed.truncateSuffix hcut' (hcut.regular h.toRegular)
    (hcut.lasts h.toRegular h.lasts) hk hle
  exact ⟨w', hok, hlayout, hlast⟩

theorem Pending.truncateSuffix {k : Nat} (h : Pending codec w chunks) (hok : w.truncateSuffix k = .ok w') :
    ∃ chunks', (Layout codec w' chunks' ∨ Pending codec w' chunks') ∧ ∀ e ∈ logOf chunks', e ∈ logOf chunks := by
  have hk : k ≠ 0 := by
    rintro rfl
    cases hok
  obtain ⟨x, hx⟩ := Option.isSome_iff_exists.mp (List.getLast?_isSome.mpr h.held)
  have hlast := h.last x hx
  by_cases hle : k ≤ w.lastIndex
  · obtain ⟨before, c, rest, front, y, rear, hcut⟩ := h.toRegular.exists_cut h.lasts (k := k) hx (by omega)
    obtain ⟨w₁, hok', hlayout, -⟩ := h.cut hcut hk hle
    rw [hok] at hok'
    cases hok'
    exact ⟨_, .inl hlayout, fun e he => hcut.mem_of_cutChunks h.ascending he⟩
  · rw [Wal.truncateSuffix, if_neg hk, if_pos (.inr (by omega))] at hok
    cases hok
    exact ⟨chunks, .inr h, fun _ he => he⟩

theorem Pending.flush (h : Pending codec w chunks) (hok : w.flush = .ok w') : Pending codec w' chunks := by
  unfold Wal.flush at hok
  split at hok
  · cases hok
  · next fd hfd =>
    cases hok
    exact { h with files := h.files.fdatasync fd.path }

/-! ## A stored log -/

/-- The WAL stores the log, in segments that all have entries but perhaps the last one. -/
def Stored (codec : EntryCodec) (w : Wal) (log : List LogEntry) : Prop :=
  ∃ chunks, (Layout codec w chunks ∨ Pending codec w chunks) ∧ logOf chunks = log

variable {log : List LogEntry}

theorem Stored.read_eq_ok (h : Stored codec w log) {i : Nat} {e : LogEntry} :
    w.read codec i = .ok e ↔ e ∈ log ∧ e.index = i := by
  obtain ⟨chunks, hlayout | hpending, rfl⟩ := h
  · exact hlayout.readable.read_eq_ok
  · exact hpending.read_eq_ok

theorem Stored.size_eq_zero (h : Stored codec w log) : w.offsetIndex.size = 0 ↔ log = [] := by
  obtain ⟨chunks, hlayout | hpending, rfl⟩ := h
  · exact hlayout.size_eq_zero
  · exact iff_of_false hpending.size_ne_zero hpending.held

theorem Stored.last (h : Stored codec w log) {e : LogEntry} (he : log.getLast? = some e) : w.lastIndex = e.index := by
  obtain ⟨chunks, hlayout | hpending, rfl⟩ := h
  · exact hlayout.last e he
  · exact hpending.last e he

theorem Stored.positive (h : Stored codec w log) {e : LogEntry} (he : e ∈ log) : 1 ≤ e.index := by
  obtain ⟨chunks, hlayout | hpending, rfl⟩ := h
  · exact hlayout.positive e he
  · exact hpending.positive e he

theorem Stored.append {e : LogEntry} (h : Stored codec w log) (hacc : Session.Accepts codec w e) (hknown : Known e)
    (hround : codec.RoundTrips e) (hfirst : log = [] → 1 ≤ e.index ∧ w.start ≤ e.index) :
    ∃ w', w.append codec e = .ok w' ∧ Stored codec w' (log ++ [e]) ∧ w'.lastIndex = e.index := by
  obtain ⟨chunks, hlayout | hpending, rfl⟩ := h
  · obtain ⟨w', hok, hindex, -⟩ := append_of_accepts hacc
    obtain ⟨chunks', h', hlog⟩ := hlayout.append_at hok hknown hround fun hzero =>
      hfirst (hlayout.size_eq_zero.mp hzero)
    exact ⟨w', hok, ⟨chunks', .inl h', hlog⟩, hindex⟩
  · obtain ⟨w', chunks', hok, h', hlog, hindex, -⟩ := hpending.append hacc hknown hround
    exact ⟨w', hok, ⟨chunks', .inl h', hlog⟩, hindex⟩

/-- `TruncateSuffix` cuts the log, and an empty one starts at or below the index. -/
theorem Stored.truncateSuffix {k : Nat} {x : LogEntry} (h : Stored codec w log) (hx : x ∈ log) (hk : 1 ≤ k)
    (hle : k ≤ x.index) :
    ∃ w', w.truncateSuffix k = .ok w' ∧ Stored codec w' (log.filter fun e => e.index < k) ∧ w'.start ≤ k ∧
      w'.lastIndex = (log.filter fun e => e.index < k).getLast?.elim (k - 1) LogEntry.index := by
  obtain ⟨chunks, hshape, rfl⟩ := h
  have hreg : Regular codec chunks := hshape.elim Layout.toRegular Pending.toRegular
  have hlasts : ∀ c ∈ chunks, ∀ e ∈ c.entries.getLast?, c.seg.lastIndex = e.index :=
    hshape.elim Layout.lasts Pending.lasts
  obtain ⟨last, hlast⟩ := Option.isSome_iff_exists.mp (List.getLast?_isSome.mpr (List.ne_nil_of_mem hx))
  have hindex : w.lastIndex = last.index := hshape.elim (fun h => h.last last hlast) fun h => h.last last hlast
  have hkl : k ≤ last.index := Nat.le_trans hle (hreg.le_last hx hlast)
  obtain ⟨before, c, rest, front, y, rear, hcut⟩ := hreg.exists_cut hlasts hlast hkl
  obtain ⟨w', hok, hlayout, hlast'⟩ : ∃ w', w.truncateSuffix k = .ok w' ∧
      Layout codec w' (cutChunks codec k before c front) ∧
      w'.lastIndex = (logOf before ++ front).getLast?.elim (k - 1) LogEntry.index := by
    rcases hshape with hlayout | hpending
    · obtain ⟨w', hok, h', hlast', -⟩ := hlayout.truncateSuffix hcut (by omega) (by omega)
      exact ⟨w', hok, h', hlast'⟩
    · exact hpending.cut hcut (by omega) (by omega)
  refine ⟨w', hok, ⟨_, .inl hlayout, ?_⟩, ?_, by rw [hcut.filter_log, hlast']⟩
  · rw [hcut.logOf_cutChunks codec hreg.ascending, hcut.filter_log]
  · obtain ⟨d, ds, hchunks⟩ := List.exists_cons_of_ne_nil hlayout.filled.ne_nil
    have hstart := hlayout.start
    rw [hchunks] at hstart
    have hd : d ∈ cutChunks codec k before c front := by
      rw [hchunks]
      exact List.mem_cons_self
    rw [hstart]
    exact hcut.start_le hd

theorem Stored.reopen (h : Stored codec w log) (start : Nat) {size : Nat} (hsize : size ≠ 0) :
    ∃ v, openWal codec w.dir start size = .ok v ∧ Stored codec v log := by
  obtain ⟨chunks, hlayout | hpending, rfl⟩ := h
  · obtain ⟨v, hopen, h', -⟩ := openWal_layout start hsize hlayout.toRegular hlayout.files
    exact ⟨v, hopen, _, .inl h', logOf_reopened codec chunks⟩
  · obtain ⟨v, hopen, h', -⟩ := hpending.reopen start hsize
    exact ⟨v, hopen, _, .inr h', logOf_reopened codec chunks⟩

theorem Stored.closed (h : Stored codec w log) : Stored codec w.close log := by
  obtain ⟨chunks, hlayout | hpending, hlog⟩ := h
  · exact ⟨chunks, .inl hlayout.closed, hlog⟩
  · exact ⟨chunks, .inr { hpending with fd := .inl rfl }, hlog⟩

end RaftVdb.Wal
