import Mathlib.Logic.Function.Basic
import RaftVdb.Lib.Transition
import RaftVdb.WalCut

/-!
# What the calls on a write-ahead log have put into it

A history is a WAL in use with the entry that was last appended at each index and that no
later `TruncateSuffix` has removed. The log may hold less at its front, where
`TruncateBefore` removes whole segments, but never what `TruncateBefore` was to keep.
-/

namespace RaftVdb.Wal

open Lib

variable {codec : EntryCodec} {w w' : Wal} {chunks : List Chunk}

inductive Call where
  | append (entry : LogEntry)
  | flush
  | truncateBefore (index : Nat)
  | truncateSuffix (index : Nat)
  | close
  | reopen (startIndex segmentSizeBytes : Nat)
  deriving DecidableEq, Repr

/-- A call that succeeds. -/
def call (codec : EntryCodec) (w : Wal) : Call → Option Wal
  | .append entry => (w.append codec entry).toOption
  | .flush => w.flush.toOption
  | .truncateBefore index => (w.truncateBefore index).toOption
  | .truncateSuffix index => (w.truncateSuffix index).toOption
  | .close => some w.close
  | .reopen startIndex segmentSizeBytes => (openWal codec w.dir startIndex segmentSizeBytes).toOption

/-- A WAL with what its calls amount to. An entry is retained if no later `TruncateBefore`
may have removed it; `floor` is the largest index given to a truncation since the log held
an entry, or at first to `WAL::Open`. -/
structure History where
  wal : Wal
  floor : Nat
  appended : Nat → Option LogEntry := fun _ => none
  retained : Nat → Option LogEntry := fun _ => none

namespace History

/-- The floor after a truncation at an index. -/
def raise (h : History) (w : Wal) (index : Nat) : Nat := if w.offsetIndex.size = 0 then max h.floor index else 0

def record (h : History) (w : Wal) : Call → History
  | .append entry => {
      wal := w
      floor := 0
      appended := Function.update h.appended entry.index (some entry)
      retained := Function.update h.retained entry.index (some entry) }
  | .truncateBefore index => { h with
      wal := w
      floor := h.raise w index
      retained := fun i => if i < index then none else h.retained i }
  | .truncateSuffix index => {
      wal := w
      floor := h.raise w index
      appended := fun i => if i < index then h.appended i else none
      retained := fun i => if i < index then h.retained i else none }
  | _ => { h with wal := w }

def step (codec : EntryCodec) (h : History) (c : Call) : Option History :=
  (h.wal.call codec c).map fun w => h.record w c

/-- Appended entries have an index from 1 on and known codes and survive protobuf; an
empty log takes none below its floor. -/
def Admissible (codec : EntryCodec) (h : History) : Call → Prop
  | .append entry => 1 ≤ entry.index ∧ Known entry ∧ codec.RoundTrips entry ∧
    (h.wal.offsetIndex.size = 0 → h.floor ≤ entry.index)
  | _ => True

instance (e : LogEntry) : Decidable (codec.RoundTrips e) := by
  unfold EntryCodec.RoundTrips
  infer_instance

instance (h : History) (c : Call) : Decidable (Admissible codec h c) := by
  cases c <;> unfold Admissible <;> infer_instance

/-- The log holds what the history says. -/
structure Accounts (codec : EntryCodec) (h : History) (chunks : List Chunk) : Prop where
  layout : Layout codec h.wal chunks
  floor : logOf chunks = [] → ∀ c ∈ chunks, c.start ≤ h.floor
  appended : ∀ e ∈ logOf chunks, h.appended e.index = some e
  retained : ∀ i e, h.retained i = some e → e ∈ logOf chunks ∧ e.index = i

theorem Accounts.append {h : History} {e : LogEntry} (ha : Accounts codec h chunks)
    (hadm : Admissible codec h (.append e)) (hok : h.wal.append codec e = .ok w') :
    ∃ chunks', Accounts codec (h.record w' (.append e)) chunks' := by
  obtain ⟨hpos, hknown, hround, hfloor⟩ := hadm
  have hstart : logOf chunks = [] → ∀ c ∈ chunks, c.start ≤ e.index := fun hnil c hc =>
    Nat.le_trans (ha.floor hnil c hc) (hfloor (ha.layout.size_eq_zero.mpr hnil))
  obtain ⟨chunks', hn, h', hlog, -, -⟩ := ha.layout.append_ok hok hstart hpos hknown hround
  have hne : ∀ x ∈ logOf chunks, x.index ≠ e.index := fun x hx =>
    Nat.ne_of_lt (ha.layout.toRegular.lt_next hn hx)
  refine ⟨chunks', h', ?_, ?_, ?_⟩
  · rw [hlog]
    simp
  · rw [hlog]
    intro x hx
    simp only [record]
    rcases List.mem_append.mp hx with hx | hx
    · rw [Function.update_of_ne (hne x hx)]
      exact ha.appended x hx
    · rw [List.mem_singleton.mp hx, Function.update_self]
  · rw [hlog]
    intro i x hi
    simp only [record] at hi
    by_cases hie : i = e.index
    · rw [hie, Function.update_self] at hi
      cases hi
      exact ⟨by simp, hie.symm⟩
    · rw [Function.update_of_ne hie] at hi
      obtain ⟨hx, hindex⟩ := ha.retained i x hi
      exact ⟨List.mem_append_left _ hx, hindex⟩

/-- What ends before an index has no entry from there on. -/
theorem index_lt_of_endsBefore (h : Listed codec w chunks) {k : Nat} {c : Chunk} (hc : c ∈ chunks)
    (hends : endsBefore k c.seg = true) {e : LogEntry} (he : e ∈ c.entries) : e.index < k := by
  obtain ⟨last, hlast⟩ := Option.isSome_iff_exists.mp (List.getLast?_isSome.mpr (List.ne_nil_of_mem he))
  obtain ⟨front, hentries⟩ := List.getLast?_eq_some_iff.mp hlast
  have hseg := h.lasts c hc last hlast
  have hsorted := h.ascending.sorted c hc
  simp only [endsBefore, ne_eq, decide_not, Bool.and_eq_true, Bool.not_eq_eq_eq_not, Bool.not_true,
    decide_eq_false_iff_not, decide_eq_true_eq] at hends
  rw [hentries] at he hsorted
  rcases List.mem_append.mp he with he | he
  · have := (List.pairwise_append.mp hsorted).2.2 e he last List.mem_cons_self
    omega
  · rw [List.mem_singleton.mp he]
    omega

/-- `TruncateBefore` keeps the entries from its index on and drops some of the others. -/
theorem truncateBefore_ok {k : Nat} (h : Layout codec w chunks) (hok : w.truncateBefore k = .ok w') :
    ∃ chunks', Layout codec w' chunks' ∧ (∀ e ∈ logOf chunks', e ∈ logOf chunks) ∧
      (∀ e ∈ logOf chunks, k ≤ e.index → e ∈ logOf chunks') ∧
      (logOf chunks' = [] → (chunks' = [fresh k] ∨ chunks' = chunks)) ∧
      w'.segmentSizeBytes = w.segmentSizeBytes := by
  obtain ⟨gone, kept, hsplit⟩ := h.toRegular.exists_split h.lasts k
  obtain ⟨w₁, hok', h', -, hsize⟩ := h.truncateBefore hsplit
  rw [hok] at hok'
  cases hok'
  obtain ⟨rfl, hgone, -⟩ := hsplit
  refine ⟨_, h', ?_, ?_, ?_, hsize⟩
  · rw [logOf_keptChunks, logOf_append]
    exact fun e he => List.mem_append_right _ he
  · rw [logOf_keptChunks, logOf_append]
    intro e he hk
    rcases List.mem_append.mp he with he | he
    · obtain ⟨c, hc, he⟩ := List.mem_flatMap.mp he
      have := index_lt_of_endsBefore h.listed (List.mem_append_left _ hc) (hgone c hc) he
      omega
    · exact he
  · rw [logOf_keptChunks, keptChunks]
    intro hnil
    by_cases hkept : kept = []
    · rw [if_pos hkept]
      exact .inl rfl
    · rw [if_neg hkept]
      right
      rcases h.filled with ⟨c, hc, -⟩ | ⟨-, hall⟩
      · cases gone with
        | nil => rfl
        | cons d gone =>
          rw [List.cons_append, List.cons.injEq, List.append_eq_nil_iff] at hc
          exact absurd hc.2.2 hkept
      · obtain ⟨c, hc⟩ := List.exists_mem_of_ne_nil _ hkept
        obtain ⟨e, he⟩ := List.exists_mem_of_ne_nil _ (hall c (List.mem_append_right _ hc))
        have hmem : e ∈ logOf kept := List.mem_flatMap.mpr ⟨c, hc, he⟩
        rw [hnil] at hmem
        cases hmem

theorem Accounts.truncateBefore {h : History} {k : Nat} (ha : Accounts codec h chunks)
    (hok : h.wal.truncateBefore k = .ok w') : ∃ chunks', Accounts codec (h.record w' (.truncateBefore k)) chunks' := by
  obtain ⟨chunks', h', hsub, hkeep, hempty, -⟩ := truncateBefore_ok ha.layout hok
  refine ⟨chunks', h', ?_, fun e he => ha.appended e (hsub e he), ?_⟩
  · intro hnil c hc
    simp only [record, raise, if_pos (h'.size_eq_zero.mpr hnil)]
    rcases hempty hnil with rfl | rfl
    · rw [List.mem_singleton.mp hc]
      exact Nat.le_max_right _ _
    · exact Nat.le_trans (ha.floor hnil c hc) (Nat.le_max_left _ _)
  · intro i e hi
    simp only [record] at hi
    split at hi
    · cases hi
    · next hk =>
      obtain ⟨he, rfl⟩ := ha.retained i e hi
      exact ⟨hkeep e he (by omega), rfl⟩

theorem Accounts.truncateSuffix {h : History} {k : Nat} (ha : Accounts codec h chunks)
    (hok : h.wal.truncateSuffix k = .ok w') : ∃ chunks', Accounts codec (h.record w' (.truncateSuffix k)) chunks' := by
  have hrest : ∀ chunks', (∀ e, e ∈ logOf chunks' ↔ e ∈ logOf chunks ∧ e.index < k) →
      (∀ e ∈ logOf chunks', (h.record w' (.truncateSuffix k)).appended e.index = some e) ∧
      ∀ i e, (h.record w' (.truncateSuffix k)).retained i = some e → e ∈ logOf chunks' ∧ e.index = i := by
    intro chunks' hlog
    constructor
    · intro e he
      obtain ⟨he, hlt⟩ := (hlog e).mp he
      simp only [record, if_pos hlt]
      exact ha.appended e he
    · intro i e hi
      simp only [record] at hi
      split at hi
      · next hlt =>
        obtain ⟨he, rfl⟩ := ha.retained i e hi
        exact ⟨(hlog e).mpr ⟨he, hlt⟩, rfl⟩
      · cases hi
  rcases ha.layout.truncateSuffix_ok hok with ⟨rfl, hall⟩ | ⟨before, c, rest, front, x, rear, hcut, h', -, -⟩
  · obtain ⟨happended, hretained⟩ := hrest chunks fun e => ⟨fun he => ⟨he, hall e he⟩, And.left⟩
    refine ⟨chunks, ha.layout, ?_, happended, hretained⟩
    intro hnil d hd
    simp only [record, raise, if_pos (ha.layout.size_eq_zero.mpr hnil)]
    exact Nat.le_trans (ha.floor hnil d hd) (Nat.le_max_left _ _)
  · have hlog := hcut.logOf_cutChunks codec ha.layout.ascending
    obtain ⟨happended, hretained⟩ := hrest _ fun e => by
      rw [hlog, ← hcut.filter_log]
      simp
    refine ⟨_, h', ?_, happended, hretained⟩
    intro hnil d hd
    simp only [record, raise, if_pos (h'.size_eq_zero.mpr hnil)]
    refine Nat.le_trans ?_ (Nat.le_max_right _ _)
    exact hcut.start_le hd

/-- `WAL::Open` finds the log that was there. -/
theorem reopen_ok {start size : Nat} (h : Layout codec w chunks) (hok : openWal codec w.dir start size = .ok w') :
    Layout codec w' (chunks.map (Chunk.reopened codec)) ∧ w'.segmentSizeBytes = size ∧
      ∀ active, chunks.getLast? = some active → w'.lastIndex = active.last := by
  have hsize : size ≠ 0 := by
    rintro rfl
    cases hok
  obtain ⟨w₁, hok', h', hsize', -, hlast⟩ := openWal_layout start hsize h.toRegular h.files
  rw [hok] at hok'
  cases hok'
  exact ⟨h', hsize', hlast⟩

theorem Accounts.reopen {h : History} {start size : Nat} (ha : Accounts codec h chunks)
    (hok : openWal codec h.wal.dir start size = .ok w') :
    Accounts codec (h.record w' (.reopen start size)) (chunks.map (Chunk.reopened codec)) := by
  have hlog := logOf_reopened codec chunks
  refine ⟨(reopen_ok ha.layout hok).1, ?_, by rw [hlog]; exact ha.appended, by rw [hlog]; exact ha.retained⟩
  rw [hlog]
  intro hnil c hc
  obtain ⟨d, hd, rfl⟩ := List.mem_map.mp hc
  exact ha.floor hnil d hd

theorem accounts_step {h h' : History} {c : Call} (ha : ∃ chunks, Accounts codec h chunks)
    (hstep : Transition.restrict (Admissible codec) (step codec) h c = some h') :
    ∃ chunks, Accounts codec h' chunks := by
  obtain ⟨hadm, hstep⟩ := Transition.restrict_eq_some.mp hstep
  obtain ⟨w', hcall, rfl⟩ := Option.map_eq_some_iff.mp hstep
  obtain ⟨chunks, ha⟩ := ha
  cases c with
  | append e => exact ha.append hadm (Transition.ok_of_toOption hcall)
  | flush =>
    obtain ⟨h', -, -⟩ := ha.layout.flush (Transition.ok_of_toOption hcall)
    exact ⟨chunks, h', ha.floor, ha.appended, ha.retained⟩
  | truncateBefore k => exact ha.truncateBefore (Transition.ok_of_toOption hcall)
  | truncateSuffix k => exact ha.truncateSuffix (Transition.ok_of_toOption hcall)
  | close =>
    cases hcall
    exact ⟨chunks, ha.layout.closed, ha.floor, ha.appended, ha.retained⟩
  | reopen start size => exact ⟨_, ha.reopen (Transition.ok_of_toOption hcall)⟩

end History

/-- An empty directory is opened with one empty segment. -/
theorem layout_open_empty {start size : Nat} (hok : openWal codec ∅ start size = .ok w) :
    Layout codec w [fresh start] ∧ w.lastIndex = 0 ∧ w.segmentSizeBytes = size := by
  obtain ⟨hsize, rfl⟩ := openWal_empty hok
  have hempty : Files codec (∅ : Dir) [] := fun p => rfl
  have hfiles : Files codec ((∅ : Dir).insert start {}) [fresh start] :=
    hempty.create (c := fresh start) (by simp) rfl
  refine ⟨{ regular_fresh codec start with
    segments := rfl, sizes := ?_, lasts := ?_, files := hfiles, rows := rfl, last := ?_
    fd := .inr rfl, start := rfl, size := hsize }, rfl, rfl⟩
  · intro c hc
    rw [List.mem_singleton.mp hc]
    rfl
  · intro c hc e he
    rw [List.mem_singleton.mp hc] at he
    cases he
  · intro e he
    cases he

/-- Consecutive entries have the indices from the first one on. -/
theorem indices_of_isChain {e : LogEntry} {entries : List LogEntry}
    (h : (e :: entries).IsChain fun a b => b.index = a.index + 1) :
    (e :: entries).map LogEntry.index = List.range' e.index (entries.length + 1) := by
  induction entries generalizing e with
  | nil => rfl
  | cons x entries ih =>
    rw [List.isChain_cons_cons] at h
    rw [List.map_cons, ih h.2, h.1]
    rfl

theorem index_of_isChain {e x : LogEntry} {entries : List LogEntry} {j : Nat}
    (h : (e :: entries).IsChain fun a b => b.index = a.index + 1) (hx : (e :: entries)[j]? = some x) :
    x.index = e.index + j := by
  have hget : ((e :: entries).map LogEntry.index)[j]? = some x.index := by rw [List.getElem?_map, hx]; rfl
  rw [indices_of_isChain h] at hget
  obtain ⟨hj, hval⟩ := List.getElem?_eq_some_iff.mp hget
  rw [List.getElem_range'] at hval
  omega

/-- The entries from one on are the consecutive indices up to the last. -/
theorem Layout.lastIndex_eq (h : Layout codec w chunks) {front entries : List LogEntry} {e : LogEntry}
    (hlog : logOf chunks = front ++ e :: entries) : w.lastIndex = e.index + entries.length := by
  have hchain := h.consecutive
  rw [hlog] at hchain
  obtain ⟨last, hlast⟩ := Option.isSome_iff_exists.mp (List.getLast?_isSome.mpr (List.cons_ne_nil e entries))
  rw [h.last last (by rw [hlog, List.getLast?_append, hlast]; rfl)]
  refine index_of_isChain hchain.right_of_append (j := entries.length) ?_
  rw [List.getLast?_eq_getElem?] at hlast
  exact hlast

theorem Layout.readable_iff (h : Layout codec w chunks) :
    ∃ first, ∀ i, (∃ e, w.read codec i = .ok e) ↔ first ≤ i ∧ i ≤ w.lastIndex := by
  have hread : ∀ i, (∃ e, w.read codec i = .ok e) ↔ i ∈ (logOf chunks).map LogEntry.index := by
    intro i
    rw [List.mem_map]
    exact exists_congr fun e => h.readable.read_eq_ok
  cases hlog : logOf chunks with
  | nil =>
    refine ⟨w.lastIndex + 1, fun i => ?_⟩
    rw [hread, hlog]
    simp only [List.map_nil, List.not_mem_nil, false_iff, not_and]
    omega
  | cons e entries =>
    have hchain := h.consecutive
    rw [hlog] at hchain
    have hlast := h.lastIndex_eq (show logOf chunks = [] ++ e :: entries from hlog)
    refine ⟨e.index, fun i => ?_⟩
    rw [hread, hlog, indices_of_isChain hchain, List.mem_range'_1]
    omega

/-- `ReadFrom` a readable index returns what `Read` returns from there on. -/
theorem Layout.readFrom_range (h : Layout codec w chunks) {i m : Nat} {e : LogEntry} (hread : w.read codec i = .ok e) :
    ∃ entries, w.readFrom codec i m = .ok entries ∧ entries.length = min m (w.lastIndex + 1 - i) ∧
      ∀ j x, entries[j]? = some x → w.read codec (i + j) = .ok x := by
  obtain ⟨he, rfl⟩ := h.readable.read_eq_ok.mp hread
  obtain ⟨front, rear, hlog⟩ := List.append_of_mem he
  have hlast := h.lastIndex_eq hlog
  have hsorted := h.ascending.pairwise_logOf
  have hchain := h.consecutive
  rw [hlog, List.pairwise_append] at hsorted
  rw [hlog] at hchain
  have hfilter : (logOf chunks).filter (fun x => e.index ≤ x.index) = e :: rear := by
    rw [hlog]
    refine (filter_append_of_bound LogEntry.index (fun x hx => hsorted.2.2 x hx e List.mem_cons_self) ?_).2
    intro x hx
    rcases List.mem_cons.mp hx with rfl | hx
    · exact Nat.le_refl _
    · exact Nat.le_of_lt (List.rel_of_pairwise_cons hsorted.2.1 hx)
  refine ⟨(e :: rear).take m, ?_, ?_, ?_⟩
  · rw [h.readFrom_eq, IndexedLog.readFrom]
    split
    · next hout =>
      rcases hout with rfl | hnil | hgt
      · rfl
      · rw [show (indexed w chunks).entries = logOf chunks from rfl] at hnil
        rw [hnil] at he
        cases he
      · rw [show (indexed w chunks).lastIndex = w.lastIndex from rfl] at hgt
        omega
    · rw [h.ordered.read_eq_ok.mpr ⟨he, rfl⟩, ← hfilter]
      rfl
  · rw [List.length_take, List.length_cons, hlast]
    congr 1
    omega
  · intro j x hx
    rw [List.getElem?_take] at hx
    split at hx
    · refine h.readable.read_eq_ok.mpr ⟨?_, index_of_isChain hchain.right_of_append hx⟩
      rw [hlog]
      exact List.mem_append_right _ (List.mem_of_getElem? hx)
    · cases hx

/-- The WAL is the log of its history. Whatever calls succeed on a WAL opened on an empty
directory, the readable indices are one range up to `LastIndex()`; what is read is what
was last appended there and not removed by `TruncateSuffix`, and everything is still there
that no `TruncateBefore` was allowed to remove; a further `TruncateBefore` keeps every
entry from its index on; and `ReadFrom` returns the entries that `Read` returns. -/
theorem wal_refines_history (codec : EntryCodec) (start size : Nat) (w : Wal) (calls : List Call) (h : History)
    (hopen : openWal codec ∅ start size = .ok w)
    (hrun : Transition.run (Transition.restrict (History.Admissible codec) (History.step codec))
      { wal := w, floor := start } calls = some h) :
    (∃ first, ∀ i, (∃ e, h.wal.read codec i = .ok e) ↔ first ≤ i ∧ i ≤ h.wal.lastIndex) ∧
    (∀ i e, h.wal.read codec i = .ok e → h.appended i = some e) ∧
    (∀ i e, h.retained i = some e → h.wal.read codec i = .ok e) ∧
    (∀ k w', h.wal.truncateBefore k = .ok w' → ∀ i, k ≤ i → w'.read codec i = h.wal.read codec i) ∧
    ∀ i m e, h.wal.read codec i = .ok e → ∃ entries, h.wal.readFrom codec i m = .ok entries ∧
      entries.length = min m (h.wal.lastIndex + 1 - i) ∧
      ∀ j x, entries[j]? = some x → h.wal.read codec (i + j) = .ok x := by
  have hinit : ∃ chunks, History.Accounts codec { wal := w, floor := start } chunks := by
    refine ⟨[fresh start], (layout_open_empty hopen).1, ?_, ?_, ?_⟩
    · intro _ c hc
      rw [List.mem_singleton.mp hc]
      exact Nat.le_refl start
    · intro e he
      cases he
    · intro i e he
      cases he
  obtain ⟨chunks, ha⟩ := Transition.run_invariant (fun h => ∃ chunks, History.Accounts codec h chunks)
    (fun _ _ _ hi hs => History.accounts_step hi hs) hinit hrun
  refine ⟨ha.layout.readable_iff, ?_, ?_, ?_, fun i m e => ha.layout.readFrom_range⟩
  · intro i e hread
    obtain ⟨he, rfl⟩ := ha.layout.readable.read_eq_ok.mp hread
    exact ha.appended e he
  · intro i e hi
    exact ha.layout.readable.read_eq_ok.mpr (ha.retained i e hi)
  · intro k w' hok i hki
    obtain ⟨chunks', h', hsub, hkeep, -, -⟩ := History.truncateBefore_ok ha.layout hok
    rw [h'.read_eq, ha.layout.read_eq]
    exact IndexedLog.read_congr h'.ordered.sorted ha.layout.ordered.sorted fun e hindex =>
      ⟨hsub e, fun he => hkeep e he (by omega)⟩

set_option maxRecDepth 20000 in
/-- Of two segments the second is cut and filled again and the first removed; the last
`WAL::Open` finds what is left. -/
theorem wal_refines_history_after_calls :
    ∃ w h, openWal shortCodec ∅ 1 30 = .ok w ∧
      Transition.run (Transition.restrict (History.Admissible shortCodec) (History.step shortCodec))
        { wal := w, floor := 1 } [.append (shortNoop 1), .append (shortNoop 2), .append (shortNoop 3), .flush,
          .truncateSuffix 3, .append { shortNoop 3 with term := 2 }, .truncateBefore 3, .close, .reopen 1 30] =
          some h ∧
      h.retained 3 = some { shortNoop 3 with term := 2 } ∧
      h.wal.read shortCodec 3 = .ok { shortNoop 3 with term := 2 } := by
  obtain ⟨w, h, hopen, hrun, hretained⟩ : ∃ w h, openWal shortCodec ∅ 1 30 = .ok w ∧
      Transition.run (Transition.restrict (History.Admissible shortCodec) (History.step shortCodec))
        { wal := w, floor := 1 } [.append (shortNoop 1), .append (shortNoop 2), .append (shortNoop 3), .flush,
          .truncateSuffix 3, .append { shortNoop 3 with term := 2 }, .truncateBefore 3, .close, .reopen 1 30] =
          some h ∧
      h.retained 3 = some { shortNoop 3 with term := 2 } := ⟨_, _, rfl, rfl, rfl⟩
  exact ⟨w, h, hopen, hrun, hretained,
    (wal_refines_history shortCodec 1 30 w _ h hopen hrun).2.2.1 3 _ hretained⟩

end RaftVdb.Wal
