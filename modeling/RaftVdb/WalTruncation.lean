import RaftVdb.Wal

/-!
# Truncation and range reads of the write-ahead log

`TruncateBefore` and `TruncateSuffix` change the directory through a sequence of file
operations, which is a value of its own: a crash inside one of them leaves what a prefix
of the sequence has done. `offset_index_` is a `std::map`, so its iterators run through
the rows in the order of the indices.
-/

namespace RaftVdb

open Lib

inductive FsOp where
  | ftruncate (path size : Nat)
  | unlink (path : Nat)
  | create (path : Nat)
  deriving DecidableEq, Repr

def FsOp.apply (dir : Dir) : FsOp → Dir
  | .ftruncate path size => dir.truncate path size
  | .unlink path => dir.erase path
  | .create path => dir.insert path {}

def Dir.perform (dir : Dir) (ops : List FsOp) : Dir := ops.foldl FsOp.apply dir

namespace Wal

/-- `offset_index_` from `begin()` to `end()`. -/
def sortedIndex (w : Wal) : List (Nat × EntryLocation) :=
  w.offsetIndex.rows.insertionSort fun a b => a.1 ≤ b.1

/-- `offset_index_.lower_bound`, as the rows from there on. -/
def lowerBound (w : Wal) (index : Nat) : List (Nat × EntryLocation) :=
  w.sortedIndex.dropWhile fun r => r.1 < index

/-- The index of `offset_index_.rbegin()`. -/
def maxIndex (w : Wal) : Option Nat := w.sortedIndex.getLast?.map Prod.fst

def readLocation (codec : EntryCodec) (w : Wal) (location : EntryLocation) : Except String LogEntry :=
  match w.dir.find? location.path with
  | none => .error "打开文件失败"
  | some f => (readRecordAt codec f.bytes location.offset).map Prod.fst

def readRows (codec : EntryCodec) (w : Wal) : List (Nat × EntryLocation) → Except String (List LogEntry)
  | [] => .ok []
  | r :: rows => match w.readLocation codec r.2 with
    | .error e => .error e
    | .ok entry => (readRows codec w rows).map (entry :: ·)

def readFrom (codec : EntryCodec) (w : Wal) (fromIndex maxEntries : Nat) : Except String (List LogEntry) :=
  if maxEntries = 0 ∨ w.offsetIndex.size = 0 ∨ fromIndex > w.lastIndex then .ok []
  else match w.lowerBound fromIndex with
    | [] => .error ("起始日志索引不存在: " ++ toString fromIndex)
    | r :: rows =>
      if r.1 ≠ fromIndex then .error ("起始日志索引不存在: " ++ toString fromIndex)
      else w.readRows codec ((r :: rows).take maxEntries)

def termAt (codec : EntryCodec) (w : Wal) (index : Nat) : Except String Nat :=
  if index = 0 then .ok 0 else (w.read codec index).map LogEntry.term

/-- `TruncateBefore` removes the segment. -/
def endsBefore (index : Nat) (s : SegmentMeta) : Bool := s.lastIndex ≠ 0 && s.lastIndex < index

def removedBefore (w : Wal) (index : Nat) : List SegmentMeta := w.segments.filter (endsBefore index)

def keptFrom (w : Wal) (index : Nat) : List SegmentMeta := w.segments.filter fun s => !endsBefore index s

def truncateBeforeOps (w : Wal) (index : Nat) : List FsOp :=
  (w.removedBefore index).map (fun s => .unlink s.startIndex) ++
    if w.keptFrom index = [] then [.create index] else []

def truncateBefore (w : Wal) (index : Nat) : Except String Wal :=
  if w.segments = [] then .ok w
  else
    let removed := w.removedBefore index
    let kept := w.keptFrom index
    let offsetIndex := w.offsetIndex.filter fun _ location => removed.all fun s => s.startIndex ≠ location.path
    let segments := if kept = [] then [⟨index, index - 1, 0⟩] else kept
    let w := { w with dir := w.dir.perform (w.truncateBeforeOps index)
                      offsetIndex
                      segments
                      start := (segments.head?).elim w.start SegmentMeta.startIndex }
    let w := { w with lastIndex := w.maxIndex.getD 0 }
    if removed ≠ [] ∨ w.fd = none then w.openActiveSegmentForAppend else .ok w

/-- The loop of `TruncateSuffix`: the segments it leaves, and what it does to the files.
The first segment that reaches `index` is cut at `offset`, unless it starts there or
behind; all later ones go. -/
def suffixLoop (index offset : Nat) : List SegmentMeta → List SegmentMeta × List FsOp
  | [] => ([], [])
  | s :: rest =>
    if s.startIndex ≥ index then
      let later := suffixLoop index offset rest
      (later.1, .unlink s.startIndex :: later.2)
    else if s.lastIndex ≥ index then
      ([{ s with sizeBytes := offset, lastIndex := if index > s.startIndex then index - 1 else 0 }],
        .ftruncate s.startIndex offset :: rest.map fun s => .unlink s.startIndex)
    else
      let later := suffixLoop index offset rest
      (s :: later.1, later.2)

def truncateSuffixOps (w : Wal) (index : Nat) : List FsOp :=
  if w.offsetIndex.size = 0 ∨ index > w.lastIndex then []
  else match w.lowerBound index with
    | [] => []
    | r :: _ =>
      let loop := suffixLoop index r.2.offset w.segments
      loop.2 ++ if loop.1 = [] then [.create index] else []

def truncateSuffix (w : Wal) (index : Nat) : Except String Wal :=
  if index = 0 then .error "TruncateSuffix 失败: index 必须从 1 开始"
  else if w.offsetIndex.size = 0 ∨ index > w.lastIndex then .ok w
  else match w.lowerBound index with
    | [] => w.openActiveSegmentForAppend
    | r :: _ =>
      let kept := (suffixLoop index r.2.offset w.segments).1
      let segments := if kept = [] then [⟨index, index - 1, 0⟩] else kept
      let w := { w with dir := w.dir.perform (w.truncateSuffixOps index)
                        offsetIndex := w.offsetIndex.filter fun i _ => i < index
                        segments
                        start := (segments.head?).elim w.start SegmentMeta.startIndex }
      { w with lastIndex := w.maxIndex.getD (index - 1) }.openActiveSegmentForAppend

def close (w : Wal) : Wal := { w with fd := none }

end Wal

end RaftVdb
