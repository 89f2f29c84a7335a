import RaftVdb.WalFaults

/-!
# Truncations that fail

`TruncateBefore` may fail in the removal of a segment file, by which time the rows of the
segment are gone from `offset_index_`, in the `::close` of an active segment that is to be
removed, and in the calls that create and open the next one.
-/

namespace RaftVdb.Wal

open Lib

/-- The call of `TruncateBefore` that fails: the removal of a segment file, by its place among
those to remove, the `::close` before the active one is removed, or one of the calls after the
loop. -/
inductive TruncateFault where
  | unlink (place : Nat)
  | closeRemoved
  | after (fault : Fault)
  deriving DecidableEq, Repr

/-- The text of the error, without that of `errno`. -/
def TruncateFault.message : TruncateFault → String
  | .unlink _ => "删除 WAL 段失败"
  | .closeRemoved => "关闭文件失败"
  | .after (.close _) => "关闭文件失败"
  | .after .createClose => "关闭文件失败"
  | .after (.seek _) => "定位 WAL 活动段写指针失败"
  | .after _ => "打开文件失败"

/-- The loop has removed some segments, and of one more the rows of `offset_index_`. -/
def removeSegments (w : Wal) (gone : List SegmentMeta) (cleared : Option SegmentMeta) : Wal :=
  { w with
    dir := gone.foldl (fun dir s => dir.erase s.startIndex) w.dir
    segments := w.segments.filter (· ∉ gone)
    offsetIndex := w.offsetIndex.filter fun _ location =>
      (gone ++ cleared.toList).all fun s => s.startIndex ≠ location.path }

/-- The active segment goes, which closes its descriptor. -/
def removesActive (w : Wal) (index : Nat) : Bool := (w.segments.getLast?).elim false (endsBefore index)

/-- `OpenActiveSegmentForAppend`, which closes an open descriptor first. -/
def failReopen (w : Wal) (fault : Fault) : Option Handle :=
  match fault, w.fd with
  | .close error, some _ => some ⟨w, error = .released⟩
  | fault, _ => { w with fd := none }.failOpenActive fault

/-- The rest of `TruncateBefore`, from the WAL that the loop leaves. -/
def failAfterRemoval (w : Wal) (index : Nat) (removedAny : Bool) (fault : Fault) : Option Handle :=
  let created := if w.segments = [] then w.failCreateFreshSegment index fault else none
  let next := if w.segments = [] then w.createFreshSegment index else w
  created.or (if removedAny = false ∧ next.fd ≠ none then none
    else { next with start := (next.segments.head?).elim w.start SegmentMeta.startIndex }.failReopen fault)

/-- The WAL that a failing `TruncateBefore` leaves; `none` if it does not come to that call. -/
def failTruncateBefore (w : Wal) (index : Nat) : TruncateFault → Option Wal
  | .unlink place => (w.removedBefore index)[place]?.map fun s =>
      { w.removeSegments ((w.removedBefore index).take place) (some s) with
        fd := if w.segments.getLast? = some s then none else w.fd }
  | .closeRemoved =>
    if w.removesActive index ∧ w.fd ≠ none then
      some (w.removeSegments (w.removedBefore index).dropLast w.segments.getLast?)
    else none
  | .after fault =>
    if w.segments = [] then none
    else
      let left : Wal := { w.removeSegments (w.removedBefore index) none with
        fd := if w.removesActive index then none else w.fd }
      ({ left with lastIndex := left.maxIndex.getD 0 }.failAfterRemoval index
        (w.removedBefore index ≠ []) fault).map Handle.wal

/-- `TruncateBefore` with the call that fails, if any and if it comes to it. -/
def truncateBeforeWith (w : Wal) (index : Nat) (fault : Option TruncateFault) : Wal × Except String Unit :=
  match fault, fault.bind (w.failTruncateBefore index) with
  | some fault, some w' => (w', .error fault.message)
  | _, _ => match w.truncateBefore index with
    | .error err => (w, .error err)
    | .ok w' => (w', .ok ())

/-- The WAL that `CreateFreshSegment` makes in an empty directory. -/
def Fresh (w : Wal) (k : Nat) : Prop :=
  w.dir = (∅ : Dir).insert k {} ∧ w.segments = [⟨k, k - 1, 0⟩] ∧ w.lastIndex = 0

/-- The removal of an empty segment that is the only one: it fails before the segment is gone, or
the new one is the same. -/
def RemovalKeeps (w : Wal) (k : Nat) : Option TruncateFault → Prop
  | some (.unlink 0) => True
  | some .closeRemoved => w.fd ≠ none ∨ w.Fresh k
  | some (.after .createOpen) => False
  | some (.after .createClose) => False
  | _ => w.Fresh k

/-- There is no segment to remove, and `last_index_` is that of `offset_index_`; or there are no
entries. -/
def TruncationKeeps (w : Wal) (k : Nat) (fault : Option TruncateFault) : Prop :=
  w.removedBefore k = [] ∧ w.lastIndex = w.maxIndex.getD 0 ∨
    w.removedBefore k ≠ [] ∧ w.offsetIndex.size = 0 ∧ w.RemovalKeeps k fault

variable {codec : EntryCodec} {w w' : Wal} {chunks : List Chunk} {log : List LogEntry} {k : Nat}
  {fault : Option TruncateFault}

/-! ## Nothing to remove -/

theorem Stored.start (h : Stored codec w log) : (w.segments.head?).elim w.start SegmentMeta.startIndex = w.start := by
  obtain ⟨chunks, hlayout | hpending, -⟩ := h
  · have hstart := hlayout.start
    rw [hlayout.segments, List.head?_map]
    cases hhead : chunks.head? with
    | none => rfl
    | some c =>
      rw [hhead] at hstart
      exact hstart.symm
  · have hstart := hpending.start
    obtain ⟨c, rest, rfl⟩ := List.exists_cons_of_ne_nil hpending.filled.ne_nil
    rw [hpending.segments]
    exact hstart.symm

theorem Pending.exists_split (h : Pending codec w chunks) (k : Nat) :
    ∃ gone kept, Split k (chunks ++ [Chunk.behind w.lastIndex]) gone kept := by
  by_cases hk : w.lastIndex < k
  · exact ⟨_, _, h.split_all hk⟩
  · obtain ⟨gone, kept, hsplit⟩ := h.toRegular.exists_split h.lasts k
    exact ⟨gone, _, split_kept hk hsplit⟩

/-- The chunks of the segments that `TruncateBefore` removes, and of those that it keeps. The
first one has entries unless it is the only one. -/
theorem Stored.exists_split (h : Stored codec w log) (k : Nat) :
    ∃ chunks gone kept, chunks ≠ [] ∧ Listed codec w chunks ∧ Split k chunks gone kept ∧
      ((∃ c, chunks = [c] ∧ log = []) ∨ log ≠ [] ∧ ∀ c ∈ chunks.head?, c.entries ≠ []) := by
  obtain ⟨chunks, hlayout | hpending, rfl⟩ := h
  · obtain ⟨gone, kept, hsplit⟩ := hlayout.toRegular.exists_split hlayout.lasts k
    refine ⟨chunks, gone, kept, hlayout.filled.ne_nil, hlayout.listed, hsplit, ?_⟩
    rcases hlayout.filled with ⟨c, rfl, hc⟩ | ⟨hne, hall⟩
    · exact .inl ⟨c, rfl, by simpa [logOf] using hc⟩
    · obtain ⟨c, rest, rfl⟩ := List.exists_cons_of_ne_nil hne
      refine .inr ⟨?_, fun d hd => hall d (List.mem_of_mem_head? hd)⟩
      obtain ⟨e, he⟩ := List.exists_mem_of_ne_nil _ (hall c List.mem_cons_self)
      exact List.ne_nil_of_mem (List.mem_flatMap.mpr ⟨c, List.mem_cons_self, he⟩)
  · obtain ⟨gone, kept, hsplit⟩ := hpending.exists_split k
    refine ⟨_, gone, kept, by simp, hpending.listed, hsplit, .inr ⟨hpending.held, fun c hc => ?_⟩⟩
    obtain ⟨d, rest, rfl⟩ := List.exists_cons_of_ne_nil hpending.filled.ne_nil
    cases hc
    exact hpending.entries_ne_nil List.mem_cons_self

theorem Stored.truncateBefore_ok (h : Stored codec w log) (k : Nat) : ∃ w', w.truncateBefore k = .ok w' := by
  obtain ⟨chunks, gone, kept, hne, hlisted, hsplit, -⟩ := h.exists_split k
  obtain ⟨w', hok, -⟩ := hlisted.truncateBefore hsplit hne
  exact ⟨w', hok⟩

section Empty

variable {s : SegmentMeta}

end Empty

end RaftVdb.Wal
