import RaftVdb.WalCrash
import RaftVdb.WalPending

/-!
# Appends that fail

Any of the system calls of `Append` may fail: the close of the full segment, the creation of
the next one, the opening of the active one, and each of the four writes, after any number of
their bytes. `Append` then returns with what the earlier calls have done. The descriptor has
moved by the bytes that were written, while `size_bytes` and `offset_index_` have not changed.
-/

namespace RaftVdb.Wal

open Lib

/-- A failed `::close` may have released the descriptor all the same, as it does on Linux. -/
inductive CloseError where
  | released
  | kept
  deriving DecidableEq, Repr

/-- The system call that fails. `lseek` is followed by a `::close` whose result is ignored. -/
inductive Fault where
  | close (error : CloseError)
  | createOpen
  | createClose
  | openActive
  | seek (closing : Option CloseError)
  | write (written : Nat)
  deriving DecidableEq, Repr

/-- A WAL object. The number in `fd_` is stale if its descriptor is no longer open. -/
structure Handle where
  wal : Wal
  stale : Bool := false
  deriving DecidableEq

/-- `OpenActiveSegmentForAppend` without an open descriptor. -/
def failOpenActive (w : Wal) (fault : Fault) : Option Handle :=
  match fault, w.segments.getLast? with
  | .openActive, some _ => some ⟨w, false⟩
  | .seek closing, some active =>
    let opened := { w with dir := w.dir.tryEmplace active.startIndex {}, fd := some ⟨active.startIndex, 0⟩ }
    match closing with
    | none => some ⟨{ opened with fd := none }, false⟩
    | some .released => some ⟨opened, true⟩
    | some .kept => some ⟨opened, false⟩
  | _, _ => none

/-- `CreateFreshSegment`, which adds the segment to `segments_` last. -/
def failCreateFreshSegment (w : Wal) (startIndex : Nat) : Fault → Option Handle
  | .createOpen => some ⟨w, false⟩
  | .createClose => some ⟨{ w with dir := w.dir.insert startIndex {} }, false⟩
  | _ => none

def failRotateSegment (w : Wal) (nextIndex : Nat) (fault : Fault) : Option Handle :=
  match fault with
  | .close error => w.fd.map fun _ => ⟨w, error = .released⟩
  | _ => ({ w with fd := none }.failCreateFreshSegment nextIndex fault).or
      (({ w with fd := none }.createFreshSegment nextIndex).failOpenActive fault)

def failEnsureActive (w : Wal) (nextIndex recordSize : Nat) (fault : Fault) : Option Handle :=
  let created := if w.segments = [] then w.failCreateFreshSegment nextIndex fault else none
  let w := if w.segments = [] then w.createFreshSegment nextIndex else w
  created.or (if w.needsRotation recordSize then w.failRotateSegment nextIndex fault
    else match w.fd with
      | none => w.failOpenActive fault
      | some _ => none)

/-- The writes put the first bytes of the record into the file. -/
def failWrite (w : Wal) (payload : Bytes) (written : Nat) : Option Handle :=
  match w.fd with
  | some fd =>
    if written < (record payload).length then
      some ⟨{ w with dir := w.dir.write fd.path fd.pos ((record payload).take written)
                     fd := some ⟨fd.path, fd.pos + written⟩ }, false⟩
    else none
  | none => none

/-- `Append` with a failing call; `none` if it does not come to that call. -/
def failAppend (codec : EntryCodec) (w : Wal) (entry : LogEntry) (fault : Fault) : Option Handle :=
  if w.offsetIndex.size ≠ 0 ∧ entry.index ≠ w.lastIndex + 1 then none
  else
    let payload := codec.serialize entry
    if payload = [] then none
    else if payload.length > 2 ^ 32 - 1 then none
    else match fault with
      | .write written => (w.ensureActiveSegmentForAppend entry.index (record payload).length).toOption.bind fun w =>
          w.failWrite payload written
      | fault => w.failEnsureActive entry.index (record payload).length fault

namespace Handle

/-- The entry is read through `fd_`. -/
def readsActive (h : Handle) (index : Nat) : Bool :=
  match h.wal.offsetIndex.find? index, h.wal.segments.getLast? with
  | some location, some active => location.path = active.startIndex
  | _, _ => false

def read (codec : EntryCodec) (h : Handle) (index : Nat) : Except String LogEntry :=
  if h.stale && h.readsActive index then .error "WAL 读取失败: Bad file descriptor" else h.wal.read codec index

inductive Action where
  | call (c : Call)
  | fail (entry : LogEntry) (fault : Fault)
  deriving DecidableEq

/-- A call that succeeds, or an `Append` that fails. A stale descriptor is followed only to
the next `WAL::Open` on the directory. -/
def step (codec : EntryCodec) (h : Handle) : Action → Option Handle
  | .call (.reopen startIndex segmentSizeBytes) =>
    (openWal codec h.wal.dir startIndex segmentSizeBytes).toOption.map fun w => ⟨w, false⟩
  | .call c => if h.stale then none else (h.wal.call codec c).map fun w => ⟨w, false⟩
  | .fail entry fault => if h.stale then none else h.wal.failAppend codec entry fault

end Handle

/-- The failure leaves the descriptor closed or at the end of the active segment, and no file
that is not in `segments_`. -/
def Fault.Clean : Fault → Prop
  | .close error => error = .kept
  | .createClose => False
  | .seek closing => closing = none
  | .write written => written = 0
  | _ => True

instance (fault : Fault) : Decidable fault.Clean := by
  cases fault <;> unfold Fault.Clean <;> infer_instance

def Handle.Harmless (h : Handle) : Handle.Action → Prop
  | .call c => Fits h.wal c
  | .fail _ fault => fault.Clean

instance (h : Handle) (a : Handle.Action) : Decidable (h.Harmless a) := by
  cases a <;> unfold Handle.Harmless <;> infer_instance

variable {codec : EntryCodec} {w w' : Wal} {chunks : List Chunk} {log : List LogEntry}

/-! ## Stored logs -/

theorem Stored.listed (h : Stored codec w log) : ∃ chunks, chunks ≠ [] ∧ Listed codec w chunks ∧ logOf chunks = log := by
  obtain ⟨chunks, hlayout | hpending, rfl⟩ := h
  · exact ⟨chunks, hlayout.filled.ne_nil, hlayout.listed, rfl⟩
  · exact ⟨_, by simp, hpending.listed, logOf_behind chunks w.lastIndex⟩

theorem Stored.read_eq (h : Stored codec w log) (i : Nat) : w.read codec i = (⟨log, 0⟩ : IndexedLog).read i := by
  obtain ⟨chunks, -, hlisted, rfl⟩ := h.listed
  exact hlisted.toReadable.read_eq 0 i

theorem Stored.sorted (h : Stored codec w log) : log.Pairwise fun a b => a.index < b.index := by
  obtain ⟨chunks, -, hlisted, rfl⟩ := h.listed
  exact hlisted.ascending.pairwise_logOf

theorem Stored.with_fd (h : Stored codec w log) {fd : Option Fd} (hfd : fd = none ∨ fd = activeFd w.segments) :
    Stored codec { w with fd := fd } log := by
  obtain ⟨chunks, hlayout | hpending, hlog⟩ := h
  · exact ⟨chunks, .inl { hlayout with fd := hfd }, hlog⟩
  · exact ⟨chunks, .inr { hpending with fd := hfd }, hlog⟩

theorem Stored.flush (h : Stored codec w log) (hok : w.flush = .ok w') :
    Stored codec w' log ∧ w'.lastIndex = w.lastIndex := by
  have hlast : w'.lastIndex = w.lastIndex := by
    unfold Wal.flush at hok
    split at hok
    · cases hok
    · cases hok
      rfl
  obtain ⟨chunks, hlayout | hpending, hlog⟩ := h
  · exact ⟨⟨chunks, .inl (hlayout.flush hok).1, hlog⟩, hlast⟩
  · exact ⟨⟨chunks, .inr (hpending.flush hok), hlog⟩, hlast⟩

theorem Stored.openActive (h : Stored codec w log) :
    w.openActiveSegmentForAppend = .ok { w with fd := activeFd w.segments } := by
  obtain ⟨chunks, hne, hlisted, -⟩ := h.listed
  exact openActive_of_files hne hlisted.segments hlisted.files

theorem Stored.segments_ne_nil (h : Stored codec w log) : w.segments ≠ [] := by
  obtain ⟨chunks, hne, hlisted, -⟩ := h.listed
  rw [hlisted.segments]
  simpa using hne

/-- A segment that is full has entries, so the next index is behind them. -/
theorem Stored.rotated {size : Nat} (h : Stored codec w log) (hrot : w.needsRotation size = true) :
    log ≠ [] ∧ Stored codec (Session.rotated w (w.lastIndex + 1)) log := by
  have hsize : w.activeSize ≠ 0 := by
    intro hzero
    rw [needsRotation, hzero] at hrot
    cases hrot
  obtain ⟨chunks, hlayout | hpending, rfl⟩ := h
  · have hheld : logOf chunks ≠ [] := by
      intro hnil
      obtain ⟨c, rfl, hc⟩ := hlayout.filled.eq_singleton hnil
      apply hsize
      rw [activeSize, hlayout.segments]
      show c.seg.sizeBytes = 0
      rw [hlayout.sizes c List.mem_cons_self, hc]
      rfl
    exact ⟨hheld, chunks, .inr (hlayout.rotated hheld), rfl⟩
  · refine absurd ?_ hsize
    rw [activeSize, hpending.segments, List.getLast?_concat]
    rfl

/-- The state after `EnsureActiveSegmentForAppend`. -/
theorem Stored.ensure {next size : Nat} (h : Stored codec w log) (hnext : log ≠ [] → next = w.lastIndex + 1)
    (hok : w.ensureActiveSegmentForAppend next size = .ok w') : Stored codec w' log ∧ w'.lastIndex = w.lastIndex := by
  simp only [ensureActiveSegmentForAppend, if_neg h.segments_ne_nil] at hok
  split at hok
  · next hrot =>
    obtain ⟨hne, hrotated⟩ := h.rotated hrot
    rw [Session.rotateSegment_eq, hnext hne] at hok
    cases hok
    exact ⟨hrotated, rfl⟩
  · split at hok
    · rw [h.openActive] at hok
      cases hok
      exact ⟨h.with_fd (.inr rfl), rfl⟩
    · cases hok
      exact ⟨h, rfl⟩

theorem tryEmplace_active {active : SegmentMeta} (h : Stored codec w log) (hactive : w.segments.getLast? = some active) :
    w.dir.tryEmplace active.startIndex {} = w.dir := by
  have hopen := h.openActive
  rw [openActiveSegmentForAppend, hactive] at hopen
  exact congrArg Wal.dir (Except.ok.inj hopen)

/-- A write of no bytes. -/
theorem write_nil (dir : Dir) (path pos : Nat) : dir.write path pos [] = dir := by
  have hsame : (fun f : File => { f with bytes := f.bytes.take pos ++ [] ++ f.bytes.drop (pos + ([] : Bytes).length) }) = id := by
    funext f
    simp
  rw [Dir.write, hsame, Table.adjust_id]

/-- An append that fails does so in its write, or before there is a segment to write to. -/
theorem Stored.failAppend_cases {e : LogEntry} {fault : Fault} {h' : Handle} (h : Stored codec w log)
    (hfail : w.failAppend codec e fault = some h') :
    (log ≠ [] → e.index = w.lastIndex + 1) ∧
      ((∃ written w₁ fd, fault = .write written ∧ Stored codec w₁ log ∧ w₁.lastIndex = w.lastIndex ∧
          w₁.fd = some fd ∧ h' = ⟨{ w₁ with
            dir := w₁.dir.write fd.path fd.pos ((record (codec.serialize e)).take written)
            fd := some ⟨fd.path, fd.pos + written⟩ }, false⟩) ∨
        w.failEnsureActive e.index (record (codec.serialize e)).length fault = some h') := by
  unfold Wal.failAppend at hfail
  split at hfail
  · cases hfail
  next hindex =>
  have hnext : log ≠ [] → e.index = w.lastIndex + 1 := by
    intro hne
    by_contra hgap
    exact hindex ⟨fun hzero => hne (h.size_eq_zero.mp hzero), hgap⟩
  simp only at hfail
  split at hfail
  · cases hfail
  split at hfail
  · cases hfail
  refine ⟨hnext, ?_⟩
  cases fault with
  | write written =>
    obtain ⟨w₁, hensure, hwrite⟩ := Option.bind_eq_some_iff.mp hfail
    obtain ⟨hstored, hlast⟩ := h.ensure hnext (Transition.ok_of_toOption hensure)
    unfold failWrite at hwrite
    split at hwrite
    · next fd hfd =>
      split at hwrite
      · cases hwrite
        exact .inl ⟨written, w₁, fd, rfl, hstored, hlast, hfd, rfl⟩
      · cases hwrite
    · cases hwrite
  | close error => exact .inr hfail
  | createOpen => exact .inr hfail
  | createClose => exact .inr hfail
  | openActive => exact .inr hfail
  | seek closing => exact .inr hfail

/-! ## What a failing append leaves stored -/

/-- The failure leaves the WAL as one that stores the same log: no byte of the record, no file
that is not in `segments_`, and the descriptor closed or at the end of the active segment. -/
def Traceless (w : Wal) (recordSize : Nat) : Fault → Prop
  | .close error => error = .kept
  | .createClose => False
  | .seek closing => closing = none ∨ closing = some .kept ∧ (w.activeSize = 0 ∨ w.needsRotation recordSize = true)
  | .write written => written = 0
  | _ => True

instance (w : Wal) (recordSize : Nat) (fault : Fault) : Decidable (w.Traceless recordSize fault) := by
  cases fault <;> unfold Traceless <;> infer_instance

theorem Fault.Clean.traceless {fault : Fault} {size : Nat} (h : fault.Clean) : w.Traceless size fault := by
  cases fault with
  | close error => exact h
  | createOpen => exact trivial
  | createClose => exact h
  | openActive => exact trivial
  | seek closing => exact .inl h
  | write written => exact h

theorem Stored.fd_eq (h : Stored codec w log) : w.fd = none ∨ w.fd = activeFd w.segments := by
  obtain ⟨chunks, -, hlisted, -⟩ := h.listed
  exact hlisted.fd

theorem Stored.mem_keys {path : Nat} (h : Stored codec w log) :
    path ∈ w.dir.keys ↔ ∃ s ∈ w.segments, s.startIndex = path := by
  obtain ⟨chunks, -, hlisted, -⟩ := h.listed
  rw [hlisted.files.mem_keys, hlisted.segments]
  simp [Chunk.start]

theorem activeFd_of_getLast? {active : SegmentMeta} (hactive : w.segments.getLast? = some active) :
    activeFd w.segments = some ⟨active.startIndex, active.sizeBytes⟩ := by
  rw [activeFd, hactive]
  rfl

/-- The next index has no file yet. -/
theorem Stored.find?_next {size : Nat} (h : Stored codec w log) (hrot : w.needsRotation size = true) :
    w.dir.find? (w.lastIndex + 1) = none := by
  obtain ⟨hne, -⟩ := h.rotated hrot
  obtain ⟨chunks, hlayout | hpending, rfl⟩ := h
  · rw [Table.find?_eq_none, hlayout.files.mem_keys]
    rintro ⟨c, hc, hstart⟩
    have := (hlayout.toRegular.ends_before hne hlayout.last hc).1
    omega
  · rw [needsRotation, activeSize, hpending.segments, List.getLast?_concat] at hrot
    cases hrot

/-- Only an `lseek` that fails may leave a descriptor, and only in an empty segment it is at
the end. -/
theorem Stored.failOpenActive_iff {fault : Fault} {h' : Handle} (h : Stored codec w log)
    (hfail : w.failOpenActive fault = some h') :
    h'.stale = false ∧ Stored codec h'.wal log ↔
      ∀ closing, fault = .seek closing → closing = none ∨ closing = some .kept ∧ w.activeSize = 0 := by
  unfold Wal.failOpenActive at hfail
  split at hfail
  · cases hfail
    exact iff_of_true ⟨rfl, h⟩ fun closing hseek => by cases hseek
  · next closing active hactive =>
    simp only [tryEmplace_active h hactive] at hfail
    cases closing with
    | none =>
      cases hfail
      refine iff_of_true ⟨rfl, h.with_fd (.inl rfl)⟩ fun closing hseek => ?_
      cases hseek
      exact .inl rfl
    | some error =>
      have hend := activeFd_of_getLast? hactive
      cases error with
      | released =>
        cases hfail
        refine iff_of_false (fun hs => by cases hs.1) fun hs => ?_
        simpa using hs _ rfl
      | kept =>
        cases hfail
        constructor
        · rintro ⟨-, hstored⟩ closing hseek
          cases hseek
          have hfd := (hstored.fd_eq.resolve_left (by simp)).trans hend
          refine .inr ⟨rfl, ?_⟩
          rw [activeSize, hactive]
          exact (congrArg Fd.pos (Option.some.inj hfd)).symm
        · intro hs
          have hzero : active.sizeBytes = 0 := by simpa [activeSize, hactive] using hs _ rfl
          exact ⟨rfl, h.with_fd (.inr (by rw [hend, hzero]))⟩
  · cases hfail

theorem Stored.failRotate_iff {size : Nat} {fault : Fault} {h' : Handle} (h : Stored codec w log)
    (hrot : w.needsRotation size = true) (hfail : w.failRotateSegment (w.lastIndex + 1) fault = some h') :
    h'.stale = false ∧ Stored codec h'.wal log ↔ w.Traceless size fault := by
  have hcreated := (h.rotated hrot).2.with_fd (.inl rfl)
  have hzero : ({ Session.rotated w (w.lastIndex + 1) with fd := none } : Wal).activeSize = 0 := by
    simp [activeSize, Session.rotated]
  cases fault with
  | close error =>
    obtain ⟨fd, -, rfl⟩ := Option.map_eq_some_iff.mp hfail
    cases error with
    | released => simp [Traceless]
    | kept => simp [Traceless, h]
  | createOpen =>
    cases hfail
    exact iff_of_true ⟨rfl, h.with_fd (.inl rfl)⟩ trivial
  | createClose =>
    cases hfail
    refine iff_of_false ?_ id
    rintro ⟨-, hstored⟩
    have hnext : w.lastIndex + 1 ∈ w.dir.keys := h.mem_keys.mpr (hstored.mem_keys.mp (by simp))
    exact (Table.find?_eq_none _ _).mp (h.find?_next hrot) hnext
  | openActive =>
    rw [hcreated.failOpenActive_iff hfail]
    simp [Traceless]
  | seek closing =>
    rw [hcreated.failOpenActive_iff hfail]
    simp [Traceless, hzero, hrot]
  | write written => cases hfail

/-- A failing `Append` leaves the log stored exactly if it leaves no trace. -/
theorem Stored.failAppend_stored_iff {e : LogEntry} {fault : Fault} {h' : Handle} (h : Stored codec w log)
    (hfail : w.failAppend codec e fault = some h') :
    h'.stale = false ∧ Stored codec h'.wal log ↔ w.Traceless (record (codec.serialize e)).length fault := by
  obtain ⟨hnext, hcases⟩ := h.failAppend_cases hfail
  cases hcases with
  | inl hwrite =>
    obtain ⟨written, w₁, fd, rfl, hstored, -, hfd, rfl⟩ := hwrite
    constructor
    · rintro ⟨-, hstored'⟩
      have hpos := (hstored'.fd_eq.resolve_left (by simp)).trans (hstored.fd_eq.resolve_left (by simp [hfd])).symm
      rw [hfd] at hpos
      have hend : fd.pos + written = fd.pos := congrArg Fd.pos (Option.some.inj hpos)
      show written = 0
      omega
    · intro hnone
      obtain rfl : written = 0 := hnone
      rw [List.take_zero, write_nil, Nat.add_zero, ← hfd]
      exact ⟨rfl, hstored⟩
  | inr hensure =>
    simp only [Wal.failEnsureActive, if_neg h.segments_ne_nil, Option.none_or] at hensure
    split at hensure
    · next hrot =>
      rw [hnext (h.rotated hrot).1] at hensure
      exact h.failRotate_iff hrot hensure
    · next hrot =>
      split at hensure
      · rw [h.failOpenActive_iff hensure]
        cases fault with
        | seek closing => simp [Traceless, hrot, -length_record]
        | openActive => simp [Traceless]
        | close error => cases hensure
        | createOpen => cases hensure
        | createClose => cases hensure
        | write written => cases hensure
      · cases hensure

/-! ## What a failing append leaves readable -/

/-- The files of one directory go on in the other. -/
def Grows (dir dir' : Dir) : Prop :=
  ∀ p f, dir.find? p = some f → ∃ g tail, dir'.find? p = some g ∧ g.bytes = f.bytes ++ tail

theorem Grows.refl (dir : Dir) : Grows dir dir := fun _ f hf => ⟨f, [], hf, (List.append_nil _).symm⟩

theorem grows_insert {dir : Dir} {path : Nat} (hnew : dir.find? path = none) : Grows dir (dir.insert path {}) := by
  intro p f hf
  have hp : p ≠ path := by
    rintro rfl
    rw [hnew] at hf
    cases hf
  exact ⟨f, [], by rw [Table.find?_insert, if_neg hp, hf], (List.append_nil _).symm⟩

/-- Bytes at the end of a file. -/
theorem grows_write {dir : Dir} {path : Nat} {f : File} (hf : dir.find? path = some f) (data : Bytes) :
    Grows dir (dir.write path f.bytes.length data) := by
  intro p g hg
  by_cases hp : p = path
  · subst hp
    rw [hf] at hg
    cases hg
    refine ⟨_, data, by rw [Dir.write, Table.find?_adjust_self, hf]; rfl, ?_⟩
    simp
  · exact ⟨g, [], by rw [Dir.write, Table.find?_adjust_other _ _ _ _ hp, hg], (List.append_nil _).symm⟩

/-- Bytes behind the records change no `Read`. -/
theorem Stored.read_of_grows {v : Wal} (h : Stored codec w log) (hindex : v.offsetIndex = w.offsetIndex)
    (hdir : Grows w.dir v.dir) (i : Nat) : v.read codec i = w.read codec i := by
  obtain ⟨chunks, -, hl, -⟩ := h.listed
  rw [read_eq_readLocation, read_eq_readLocation, hindex]
  cases hfind : w.offsetIndex.find? i with
  | none => rfl
  | some location =>
    rw [Table.find?_eq_some, hl.rows] at hfind
    obtain ⟨p, hp, hrow⟩ := List.mem_map.mp hfind
    cases hrow
    simp only
    rw [hl.toReadable.readLocation hp]
    obtain ⟨c, hc, hp⟩ := List.mem_flatMap.mp hp
    obtain ⟨front, rear, hentries, hloc⟩ := mem_place hp
    obtain ⟨f, hf, hbytes⟩ := hl.files.find? hl.ascending hc
    obtain ⟨g, tail, hg, hgrown⟩ := hdir _ f hf
    have hrec : Recoverable codec p.1 :=
      hl.recoverable p.1 (List.mem_flatMap.mpr ⟨c, hc, by rw [hentries]; simp⟩)
    rw [hloc, Wal.readLocation]
    simp only [hg, Nat.zero_add]
    rw [hgrown, hbytes, hentries, readRecordAt_records_append hrec]
    rfl

/-- The descriptor of a WAL that stores a log stands at the end of its file. -/
theorem Stored.fd_at_end {fd : Fd} (h : Stored codec w log) (hfd : w.fd = some fd) :
    ∃ f, w.dir.find? fd.path = some f ∧ fd.pos = f.bytes.length := by
  obtain ⟨chunks, hne, hl, -⟩ := h.listed
  obtain ⟨front, a, rfl⟩ := (List.eq_nil_or_concat' chunks).resolve_left hne
  have hactive : w.fd = some ⟨a.start, a.seg.sizeBytes⟩ := by
    rw [hl.fd.resolve_left (by rw [hfd]; simp), hl.segments]
    simp [activeFd, Chunk.start]
  rw [hactive] at hfd
  cases hfd
  obtain ⟨f, hf, hbytes⟩ := hl.files.find? hl.ascending (c := a) (by simp)
  exact ⟨f, hf, by rw [hbytes, hl.sizes a (by simp)]⟩

/-- The WAL that a failing call has got hold of, with what it has done to it. -/
structure Attempted (codec : EntryCodec) (log : List LogEntry) (w : Wal) (h : Handle) : Prop where
  stored : Stored codec w log
  last : h.wal.lastIndex = w.lastIndex
  index : h.wal.offsetIndex = w.offsetIndex
  segments : h.wal.segments = w.segments
  dir : Grows w.dir h.wal.dir

theorem Stored.attempted_open {fault : Fault} {h' : Handle} (h : Stored codec w log)
    (hfail : w.failOpenActive fault = some h') : Attempted codec log w h' := by
  unfold Wal.failOpenActive at hfail
  split at hfail
  · cases hfail
    exact ⟨h, rfl, rfl, rfl, .refl _⟩
  · next closing active hactive =>
    simp only [tryEmplace_active h hactive] at hfail
    cases closing with
    | none =>
      cases hfail
      exact ⟨h, rfl, rfl, rfl, .refl _⟩
    | some error =>
      cases error with
      | released =>
        cases hfail
        exact ⟨h, rfl, rfl, rfl, .refl _⟩
      | kept =>
        cases hfail
        exact ⟨h, rfl, rfl, rfl, .refl _⟩
  · cases hfail

/-- The failure takes the descriptor of a segment with entries from the WAL. -/
def Blinds (w : Wal) (recordSize : Nat) : Fault → Prop
  | .close error => error = .released
  | .seek closing => closing = some .released ∧ w.activeSize ≠ 0 ∧ w.needsRotation recordSize = false
  | _ => False

instance (w : Wal) (recordSize : Nat) (fault : Fault) : Decidable (w.Blinds recordSize fault) := by
  cases fault <;> unfold Blinds <;> infer_instance

theorem Traceless.not_blinds {fault : Fault} {size : Nat} (h : w.Traceless size fault) : ¬ w.Blinds size fault := by
  cases fault with
  | close error => simp [Blinds, show error = .kept from h]
  | seek closing =>
    rcases h with rfl | ⟨rfl, -⟩
    · simp [Blinds]
    · simp [Blinds]
  | createOpen => exact id
  | createClose => exact id
  | openActive => exact id
  | write written => exact id

theorem failOpenActive_stale {fault : Fault} {h' : Handle} (hfail : w.failOpenActive fault = some h') :
    h'.stale = true ↔ fault = .seek (some .released) := by
  unfold Wal.failOpenActive at hfail
  split at hfail
  · cases hfail
    simp
  · next closing active hactive =>
    cases closing with
    | none =>
      cases hfail
      simp
    | some error =>
      cases error with
      | released =>
        cases hfail
        simp
      | kept =>
        cases hfail
        simp
  · cases hfail

/-- A rotation that is stopped anywhere. -/
theorem Stored.attempted_rotate {size : Nat} {fault : Fault} {h' : Handle} (h : Stored codec w log)
    (hrot : w.needsRotation size = true) (hfail : w.failRotateSegment (w.lastIndex + 1) fault = some h') :
    ∃ w₁, Attempted codec log w₁ h' ∧ w₁.lastIndex = w.lastIndex ∧
      (h'.stale = true ∧ w₁.activeSize ≠ 0 ↔ w.Blinds size fault) := by
  obtain ⟨hne, hrotated⟩ := h.rotated hrot
  have hsize : w.activeSize ≠ 0 := by
    intro hzero
    rw [needsRotation, hzero] at hrot
    cases hrot
  have hcreated := hrotated.with_fd (.inl rfl)
  have hzero : ({ Session.rotated w (w.lastIndex + 1) with fd := none } : Wal).activeSize = 0 := by
    simp [activeSize, Session.rotated]
  cases fault with
  | close error =>
    obtain ⟨fd, -, rfl⟩ := Option.map_eq_some_iff.mp hfail
    refine ⟨w, ⟨h, rfl, rfl, rfl, .refl _⟩, rfl, ?_⟩
    simp [Blinds, hsize]
  | createOpen =>
    cases hfail
    exact ⟨w, ⟨h, rfl, rfl, rfl, .refl _⟩, rfl, by simp [Blinds]⟩
  | createClose =>
    cases hfail
    exact ⟨w, ⟨h, rfl, rfl, rfl, grows_insert (h.find?_next hrot)⟩, rfl, by simp [Blinds]⟩
  | openActive => exact ⟨_, hcreated.attempted_open hfail, rfl, by simp [Blinds, hzero]⟩
  | seek closing => exact ⟨_, hcreated.attempted_open hfail, rfl, by simp [Blinds, hzero, hrot]⟩
  | write written => cases hfail

theorem Stored.attempted {e : LogEntry} {fault : Fault} {h' : Handle} (h : Stored codec w log)
    (hfail : w.failAppend codec e fault = some h') :
    ∃ w₁, Attempted codec log w₁ h' ∧ w₁.lastIndex = w.lastIndex ∧
      (h'.stale = true ∧ w₁.activeSize ≠ 0 ↔ w.Blinds (record (codec.serialize e)).length fault) := by
  obtain ⟨hnext, hcases⟩ := h.failAppend_cases hfail
  cases hcases with
  | inl hwrite =>
    obtain ⟨written, w₁, fd, rfl, hstored, hlast, hfd, rfl⟩ := hwrite
    obtain ⟨f, hf, hpos⟩ := hstored.fd_at_end hfd
    exact ⟨w₁, ⟨hstored, rfl, rfl, rfl, hpos ▸ grows_write hf _⟩, hlast, by simp [Blinds]⟩
  | inr hensure =>
    simp only [Wal.failEnsureActive, if_neg h.segments_ne_nil, Option.none_or] at hensure
    split at hensure
    · next hrot =>
      rw [hnext (h.rotated hrot).1] at hensure
      exact h.attempted_rotate hrot hensure
    · next hrot =>
      split at hensure
      · refine ⟨w, h.attempted_open hensure, rfl, ?_⟩
        rw [failOpenActive_stale hensure]
        cases fault with
        | seek closing => simp [Blinds, hrot, -length_record]
        | openActive => simp [Blinds]
        | close error => cases hensure
        | createOpen => cases hensure
        | createClose => cases hensure
        | write written => cases hensure
      · cases hensure

/-- Every indexed entry reads back. -/
theorem Stored.exists_read {i : Nat} {location : EntryLocation} (h : Stored codec w log)
    (hfind : w.offsetIndex.find? i = some location) : ∃ e, w.read codec i = .ok e := by
  obtain ⟨chunks, -, hl, -⟩ := h.listed
  rw [read_eq_readLocation, hfind]
  rw [Table.find?_eq_some, hl.rows] at hfind
  obtain ⟨p, hp, hrow⟩ := List.mem_map.mp hfind
  cases hrow
  exact ⟨p.1, hl.toReadable.readLocation hp⟩

/-- The active segment has entries if it has bytes. -/
theorem Stored.active_indexed_iff (h : Stored codec w log) {active : SegmentMeta}
    (hactive : w.segments.getLast? = some active) :
    (∃ i location, w.offsetIndex.find? i = some location ∧ location.path = active.startIndex) ↔ w.activeSize ≠ 0 := by
  obtain ⟨chunks, hne, hl, -⟩ := h.listed
  obtain ⟨front, a, rfl⟩ := (List.eq_nil_or_concat' chunks).resolve_left hne
  have hsize : w.activeSize = (records codec a.entries).length := by
    rw [activeSize, hactive, ← hl.sizes a (by simp)]
    rw [hl.segments, List.map_append, List.map_singleton, List.getLast?_concat] at hactive
    cases hactive
    rfl
  rw [hl.segments, List.map_append, List.map_singleton, List.getLast?_concat] at hactive
  cases hactive
  rw [hsize, Ne, List.length_eq_zero_iff, records_eq_nil]
  constructor
  · rintro ⟨i, location, hfind, hpath⟩ hnil
    rw [Table.find?_eq_some, hl.rows] at hfind
    obtain ⟨p, hp, hrow⟩ := List.mem_map.mp hfind
    cases hrow
    rw [placed_append] at hp
    rcases List.mem_append.mp hp with hp | hp
    · obtain ⟨c, hc, hpc⟩ := path_of_mem_placed hp
      have hlt := ((List.pairwise_append.mp hl.ascending.starts).2.2 c hc a List.mem_cons_self).1
      have hsame : p.2.path = a.start := hpath
      omega
    · rw [placed, List.flatMap_singleton, hnil] at hp
      cases hp
  · intro hentries
    obtain ⟨e, entries, hcons⟩ := List.exists_cons_of_ne_nil hentries
    refine ⟨e.index, ⟨a.start, 0⟩, ?_, rfl⟩
    rw [Table.find?_eq_some, hl.rows]
    refine List.mem_map.mpr ⟨(e, ⟨a.start, 0⟩), ?_, rfl⟩
    rw [placed_append]
    apply List.mem_append_right
    rw [placed, List.flatMap_singleton, hcons]
    exact List.mem_cons_self

theorem Handle.readsActive_eq_true {h : Handle} {i : Nat} : h.readsActive i = true ↔
    ∃ location active, h.wal.offsetIndex.find? i = some location ∧ h.wal.segments.getLast? = some active ∧
      location.path = active.startIndex := by
  unfold Handle.readsActive
  split
  · next location active hfind hactive => simp [hfind, hactive]
  · next hnone =>
    refine iff_of_false Bool.false_ne_true ?_
    rintro ⟨location, active, hfind, hactive, -⟩
    exact hnone location active hfind hactive

/-- A failing `Append` changes what can be read exactly if it takes the descriptor of a
segment with entries. -/
theorem Stored.failAppend_read_iff {e : LogEntry} {fault : Fault} {h' : Handle} (h : Stored codec w log)
    (hfail : w.failAppend codec e fault = some h') :
    h'.wal.lastIndex = w.lastIndex ∧
      ((∀ i, h'.read codec i = w.read codec i) ↔ ¬ w.Blinds (record (codec.serialize e)).length fault) := by
  obtain ⟨w₁, ha, hlast, hblinds⟩ := h.attempted hfail
  refine ⟨ha.last.trans hlast, ?_⟩
  have hsame : ∀ i, w.read codec i = w₁.read codec i := fun i => by rw [h.read_eq, ha.stored.read_eq]
  rw [← hblinds]
  constructor
  · rintro hall ⟨hstale, hsize⟩
    obtain ⟨active, hactive⟩ := Option.isSome_iff_exists.mp (List.getLast?_isSome.mpr ha.stored.segments_ne_nil)
    obtain ⟨i, location, hfind, hpath⟩ := (ha.stored.active_indexed_iff hactive).mpr hsize
    obtain ⟨x, hx⟩ := ha.stored.exists_read hfind
    have hreads : h'.readsActive i = true :=
      Handle.readsActive_eq_true.mpr ⟨location, active, ha.index ▸ hfind, ha.segments ▸ hactive, hpath⟩
    have hi := hall i
    rw [Handle.read, hstale, hreads, hsame, hx] at hi
    cases hi
  · intro hblind i
    rw [hsame, ← ha.stored.read_of_grows ha.index ha.dir, Handle.read]
    split
    · next hreads =>
      rw [Bool.and_eq_true, Handle.readsActive_eq_true, ha.index, ha.segments] at hreads
      obtain ⟨hstale, location, active, hfind, hactive, hpath⟩ := hreads
      exact absurd ⟨hstale, (ha.stored.active_indexed_iff hactive).mp ⟨i, location, hfind, hpath⟩⟩ hblind
    · rfl

/-! ## Runs -/

/-- A call that succeeds adds no entry but the one that it appends. -/
theorem Stored.call {c : Call} (h : Stored codec w log) (hfits : Fits w c)
    (hround : ∀ e, c = .append e → codec.RoundTrips e) (hcall : w.call codec c = some w') :
    ∃ log', Stored codec w' log' ∧ ∀ x ∈ log', x ∈ log ∨ c = .append x := by
  cases c with
  | append e =>
    have hok := Transition.ok_of_toOption hcall
    obtain ⟨w₁, hok', hstored, -⟩ := h.append (accepts_of_append hok) hfits.1 (hround e rfl) fun hnil =>
      hfits.2 (h.size_eq_zero.mpr hnil)
    rw [hok] at hok'
    cases hok'
    refine ⟨_, hstored, fun x hx => (List.mem_append.mp hx).imp_right fun hx => ?_⟩
    rw [List.mem_singleton.mp hx]
  | flush => exact ⟨log, (h.flush (Transition.ok_of_toOption hcall)).1, fun _ => .inl⟩
  | truncateBefore k =>
    obtain ⟨chunks, hlayout | hpending, rfl⟩ := h
    · obtain ⟨chunks', h', hmem, -⟩ := History.truncateBefore_ok hlayout (Transition.ok_of_toOption hcall)
      exact ⟨_, ⟨chunks', .inl h', rfl⟩, fun x hx => .inl (hmem x hx)⟩
    · obtain ⟨chunks', h', hmem⟩ := hpending.truncateBefore (Transition.ok_of_toOption hcall)
      exact ⟨_, ⟨chunks', h', rfl⟩, fun x hx => .inl (hmem x hx)⟩
  | truncateSuffix k =>
    obtain ⟨chunks, hlayout | hpending, rfl⟩ := h
    · rcases hlayout.truncateSuffix_ok (Transition.ok_of_toOption hcall) with ⟨rfl, -⟩ | ⟨_, _, _, _, _, _, hcut, h', -⟩
      · exact ⟨_, ⟨chunks, .inl hlayout, rfl⟩, fun _ => .inl⟩
      · exact ⟨_, ⟨_, .inl h', rfl⟩, fun x hx => .inl (hcut.mem_of_cutChunks hlayout.ascending hx)⟩
    · obtain ⟨chunks', h', hmem⟩ := hpending.truncateSuffix (Transition.ok_of_toOption hcall)
      exact ⟨_, ⟨chunks', h', rfl⟩, fun x hx => .inl (hmem x hx)⟩
  | close =>
    cases hcall
    exact ⟨log, h.closed, fun _ => .inl⟩
  | reopen start size =>
    have hok := Transition.ok_of_toOption hcall
    have hsize : size ≠ 0 := by
      rintro rfl
      cases hok
    obtain ⟨v, hopen, hstored⟩ := h.reopen start hsize
    rw [hok] at hopen
    cases hopen
    exact ⟨log, hstored, fun _ => .inl⟩

namespace Handle

variable {h h' : Handle}

/-- The descriptor is that of the WAL, which stores entries of one kind. -/
def Sound (codec : EntryCodec) (known : LogEntry → Prop) (h : Handle) : Prop :=
  h.stale = false ∧ ∃ log, Stored codec h.wal log ∧ ∀ x ∈ log, known x

theorem read_of_not_stale (codec : EntryCodec) (h : Handle) (hstale : h.stale = false) (i : Nat) : h.read codec i = h.wal.read codec i := by
  rw [Handle.read, hstale]
  rfl

theorem step_call {c : Call} (hstale : h.stale = false) :
    h.step codec (.call c) = (h.wal.call codec c).map fun w => ⟨w, false⟩ := by
  obtain ⟨w, stale⟩ := h
  obtain rfl : stale = false := hstale
  cases c with
  | append e => rfl
  | flush => rfl
  | truncateBefore k => rfl
  | truncateSuffix k => rfl
  | close => rfl
  | reopen start size => rfl

theorem Sound.step {known : LogEntry → Prop} {a : Action} (h₀ : Sound codec known h)
    (hround : ∀ e, a = .call (.append e) → codec.RoundTrips e) (hnew : ∀ e, a = .call (.append e) → known e)
    (hstep : Transition.restrict Harmless (Handle.step codec) h a = some h') : Sound codec known h' := by
  obtain ⟨hharmless, hstep⟩ := Transition.restrict_eq_some.mp hstep
  obtain ⟨hstale, log, hstored, hknown⟩ := h₀
  cases a with
  | call c =>
    rw [step_call hstale] at hstep
    obtain ⟨w, hcall, rfl⟩ := Option.map_eq_some_iff.mp hstep
    obtain ⟨log', hstored', hmem⟩ := hstored.call hharmless (fun e he => hround e (by rw [he])) hcall
    exact ⟨rfl, log', hstored', fun x hx => (hmem x hx).elim (hknown x) fun hc => hnew x (by rw [hc])⟩
  | fail e fault =>
    rw [Handle.step, hstale] at hstep
    obtain ⟨hstale', hstored'⟩ := (hstored.failAppend_stored_iff hstep).mpr hharmless.traceless
    exact ⟨hstale', log, hstored', hknown⟩

/-- A run whose failures are all clean reads nothing but what was stored before it and what it
appends. -/
theorem Sound.run {known : LogEntry → Prop} {actions : List Action} (h₀ : Sound codec known h)
    (hround : ∀ e, .call (.append e) ∈ actions → codec.RoundTrips e) (hnew : ∀ e, .call (.append e) ∈ actions → known e)
    (hrun : Transition.run (Transition.restrict Harmless (Handle.step codec)) h actions = some h') :
    Sound codec known h' :=
  Transition.run_invariant_of_mem (Sound codec known)
    (fun _ ha _ _ hs => Sound.step hs (fun e he => hround e (he ▸ ha)) fun e he => hnew e (he ▸ ha)) h₀ hrun

theorem Sound.read {known : LogEntry → Prop} {i : Nat} {x : LogEntry} (h₀ : Sound codec known h)
    (hread : h.read codec i = .ok x) : known x := by
  obtain ⟨hstale, log, hstored, hknown⟩ := h₀
  rw [read_of_not_stale codec h hstale, hstored.read_eq_ok] at hread
  exact hknown x hread.1

/-- In every run whose failures are all clean: the WAL reopens with what it reads; a failing
`Append` leaves `LastIndex()`, and every `Read` too unless the descriptor of a segment with
entries is lost; and one that succeeds adds its entry. -/
theorem clean_failures_keep_wal (codec : EntryCodec) (start size : Nat) (w : Wal) (actions : List Action) (h : Handle)
    (hopen : openWal codec ∅ start size = .ok w) (hround : ∀ e, .call (.append e) ∈ actions → codec.RoundTrips e)
    (hrun : Transition.run (Transition.restrict Harmless (step codec)) ⟨w, false⟩ actions = some h) :
    (∀ start' size', size' ≠ 0 →
      ∃ v, openWal codec h.wal.close.dir start' size' = .ok v ∧ ∀ i, v.read codec i = h.read codec i) ∧
    (∀ e fault h', h.step codec (.fail e fault) = some h' → h'.wal.lastIndex = h.wal.lastIndex ∧
      ((∀ i, h'.read codec i = h.read codec i) ↔ ¬ h.wal.Blinds (record (codec.serialize e)).length fault) ∧
      (fault.Clean → ∀ i, h'.read codec i = h.read codec i)) ∧
    ∀ e h', Fits h.wal (.append e) → codec.RoundTrips e → h.step codec (.call (.append e)) = some h' →
      ∀ i, h'.read codec i = if i = e.index then .ok e else h.read codec i := by
  obtain ⟨hempty, -, -⟩ := layout_open_empty hopen
  have hsound : Sound codec (fun _ => True) h :=
    Sound.run ⟨rfl, _, ⟨_, .inl hempty, rfl⟩, fun _ _ => trivial⟩ hround (fun _ _ => trivial) hrun
  obtain ⟨hstale, log, hstored, -⟩ := hsound
  have hread := fun i => read_of_not_stale codec h hstale i
  refine ⟨?_, ?_, ?_⟩
  · intro start' size' hsize'
    obtain ⟨v, hv, hstored'⟩ := hstored.closed.reopen start' hsize'
    exact ⟨v, hv, fun i => by rw [hread, hstored'.read_eq, hstored.read_eq]⟩
  · intro e fault h' hstep
    rw [step, hstale] at hstep
    simp only [hread]
    obtain ⟨hlast, hiff⟩ := hstored.failAppend_read_iff hstep
    exact ⟨hlast, hiff, fun hclean => hiff.mpr hclean.traceless.not_blinds⟩
  · intro e h' hfits he hstep i
    rw [step_call hstale] at hstep
    obtain ⟨w', hcall, rfl⟩ := Option.map_eq_some_iff.mp hstep
    have hok := Transition.ok_of_toOption hcall
    obtain ⟨w₁, hok', hstored', -⟩ := hstored.append (accepts_of_append hok) hfits.1 he fun hnil =>
      hfits.2 (hstored.size_eq_zero.mpr hnil)
    rw [hok] at hok'
    cases hok'
    rw [hread, read_of_not_stale _ _ rfl]
    split
    · next hi =>
      rw [hstored'.read_eq_ok, hi]
      exact ⟨by simp, rfl⟩
    · next hi =>
      rw [hstored'.read_eq, hstored.read_eq]
      apply IndexedLog.read_congr hstored'.sorted hstored.sorted
      intro x hx
      have hne : x ≠ e := fun heq => hi (by rw [← hx, heq])
      simp [hne]

set_option maxRecDepth 20000 in
/-- The rotation for the second entry fails when the new segment is opened. -/
theorem clean_failures_keep_wal_after_rotation :
    ∃ w h, openWal shortCodec ∅ 1 30 = .ok w ∧
      Transition.run (Transition.restrict Harmless (step shortCodec)) ⟨w, false⟩
        [.call (.append (shortNoop 1)), .fail (shortNoop 2) .openActive, .call (.append (shortNoop 2))] = some h ∧
      h.wal.lastIndex = 2 ∧
      ∃ v, openWal shortCodec h.wal.close.dir 1 30 = .ok v ∧ v.read shortCodec 2 = .ok (shortNoop 2) := by
  obtain ⟨w, h, hopen, hrun, hlast, hread⟩ : ∃ w h, openWal shortCodec ∅ 1 30 = .ok w ∧
      Transition.run (Transition.restrict Harmless (step shortCodec)) ⟨w, false⟩
        [.call (.append (shortNoop 1)), .fail (shortNoop 2) .openActive, .call (.append (shortNoop 2))] = some h ∧
      h.wal.lastIndex = 2 ∧ h.read shortCodec 2 = .ok (shortNoop 2) := ⟨_, _, rfl, rfl, rfl, rfl⟩
  obtain ⟨v, hv, hsame⟩ := (clean_failures_keep_wal shortCodec 1 30 w _ h hopen (by
    intro e he
    simp only [List.mem_cons, Action.call.injEq, Call.append.injEq, reduceCtorEq, List.not_mem_nil, or_false,
      false_or] at he
    rcases he with rfl | rfl
    · exact fun _ => by decide
    · exact fun _ => by decide) hrun).1 1 30 (by decide)
  exact ⟨w, h, hopen, hrun, hlast, v, hv, by rw [hsame, hread]⟩

set_option maxRecDepth 20000 in
/-- A failing `Append` writes one byte. The next one succeeds, but its entry does not read
back, and `WAL::Open` cuts it off. -/
theorem append_after_partial_write_is_lost :
    ∃ w h₁ h₂ v, openWal shortCodec ∅ 1 100 = .ok w ∧
      Transition.run (step shortCodec) ⟨w, false⟩ [.call (.append (shortNoop 1)), .fail (shortNoop 2) (.write 1)] =
        some h₁ ∧
      h₁.step shortCodec (.call (.append (shortNoop 2))) = some h₂ ∧ h₂.wal.lastIndex = 2 ∧
      h₂.read shortCodec 2 = .error "WAL magic 非法" ∧
      openWal shortCodec h₂.wal.close.dir 1 100 = .ok v ∧ v.lastIndex = 1 ∧
      v.read shortCodec 2 = .error "日志索引不存在: 2" :=
  ⟨_, _, _, _, rfl, rfl, rfl, rfl, rfl, rfl, rfl, rfl⟩

end Handle

end RaftVdb.Wal
