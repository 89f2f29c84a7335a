import Mathlib.Algebra.Group.Nat.Defs
import Mathlib.Data.List.Sort
import Mathlib.Order.Defs.LinearOrder
import RaftVdb.Lib.Table
import RaftVdb.LogEntry

/-!
# The write-ahead log over its segment files

Segment files are byte strings with a synced length, keyed by the start index that
their name carries. A record is magic, payload length, checksum and payload. The
functions follow `wal.cpp`; reading and writing a file never fails, except where the
bytes are not there.
-/

namespace RaftVdb

open Lib

structure File where
  bytes : Bytes := []
  synced : Nat := 0
  deriving DecidableEq, Repr

abbrev Dir := Table Nat File

namespace Dir

/-- A crash cuts every file somewhere between its synced and its written length. -/
def crash (cut : Nat → Nat) (dir : Dir) : Dir :=
  dir.mapValues fun path f =>
    let kept := f.bytes.take (max f.synced (cut path))
    { bytes := kept, synced := kept.length }

/-- `::write` at a position of an open file. -/
def write (dir : Dir) (path pos : Nat) (data : Bytes) : Dir :=
  dir.adjust path fun f => { f with bytes := f.bytes.take pos ++ data ++ f.bytes.drop (pos + data.length) }

def fdatasync (dir : Dir) (path : Nat) : Dir := dir.adjust path fun f => { f with synced := f.bytes.length }

/-- `::ftruncate` to a smaller size. -/
def truncate (dir : Dir) (path size : Nat) : Dir :=
  dir.adjust path fun f => { bytes := f.bytes.take size, synced := min f.synced size }

end Dir

namespace Wal

def kWalMagic : Nat := 0x31424452

def kRecordHeaderSize : Nat := 12

def crcBit (crc : UInt32) : UInt32 := (crc >>> 1) ^^^ (0xEDB88320 &&& (0 - (crc &&& 1)))

def crcByte (crc : UInt32) (byte : UInt8) : UInt32 := crcBit^[8] (crc ^^^ byte.toUInt32)

def computeCrc32 (bytes : Bytes) : UInt32 := ~~~ bytes.foldl crcByte 0xFFFFFFFF

def encodeUint32LE (value : Nat) : Bytes :=
  [UInt8.ofNat value, UInt8.ofNat (value / 2 ^ 8), UInt8.ofNat (value / 2 ^ 16), UInt8.ofNat (value / 2 ^ 24)]

def decodeUint32LE (bytes : Bytes) : Nat :=
  bytes.foldr (fun byte value => byte.toNat + 2 ^ 8 * value) 0

/-- The bytes that `Append` writes for a payload. -/
def record (payload : Bytes) : Bytes :=
  encodeUint32LE kWalMagic ++ encodeUint32LE payload.length ++
    encodeUint32LE (computeCrc32 payload).toNat ++ payload

/-- `ReadExactly`, which stops early at the end of the file. -/
def readExactly (bytes : Bytes) (offset size : Nat) : Bytes := (bytes.drop offset).take size

/-- `ReadRecordAtUnlocked`; `RecoverSegment` makes the same checks. The second component
is the size of the record. -/
def readRecordAt (codec : EntryCodec) (bytes : Bytes) (offset : Nat) : Except String (LogEntry × Nat) :=
  let header := readExactly bytes offset kRecordHeaderSize
  let length := decodeUint32LE ((header.drop 4).take 4)
  let payload := readExactly bytes (offset + kRecordHeaderSize) length
  if header.length ≠ kRecordHeaderSize then .error "WAL 记录头不完整"
  else if decodeUint32LE (header.take 4) ≠ kWalMagic then .error "WAL magic 非法"
  else if payload.length ≠ length then .error "WAL payload 不完整"
  else if (computeCrc32 payload).toNat ≠ decodeUint32LE (header.drop 8) then .error "WAL CRC 校验失败"
  else match codec.deserialize payload with
    | .error e => .error e
    | .ok entry => .ok (entry, kRecordHeaderSize + length)

end Wal

/-- An open descriptor: the file, by its start index, and the write position. -/
structure Fd where
  path : Nat
  pos : Nat
  deriving DecidableEq, Repr

structure SegmentMeta where
  startIndex : Nat
  lastIndex : Nat
  sizeBytes : Nat
  deriving DecidableEq, Repr

structure EntryLocation where
  path : Nat
  offset : Nat
  deriving DecidableEq, Repr

structure Wal where
  dir : Dir
  fd : Option Fd := none
  start : Nat
  lastIndex : Nat := 0
  segmentSizeBytes : Nat
  offsetIndex : Table Nat EntryLocation := ∅
  segments : List SegmentMeta := []
  deriving DecidableEq

namespace Wal

def createFreshSegment (w : Wal) (startIndex : Nat) : Wal :=
  { w with dir := w.dir.insert startIndex {}
           segments := w.segments ++ [⟨startIndex, startIndex - 1, 0⟩] }

def openActiveSegmentForAppend (w : Wal) : Except String Wal :=
  match w.segments.getLast? with
  | none => .error "没有可用的 WAL 段文件"
  | some active => .ok { w with dir := w.dir.tryEmplace active.startIndex {}
                                fd := some ⟨active.startIndex, active.sizeBytes⟩ }

def rotateSegment (w : Wal) (nextIndex : Nat) : Except String Wal :=
  ({ w with fd := none }.createFreshSegment nextIndex).openActiveSegmentForAppend

/-- The size of the active segment, the last one. -/
def activeSize (w : Wal) : Nat := (w.segments.getLast?).elim 0 SegmentMeta.sizeBytes

/-- The record does not fit behind what the active segment already holds. -/
def needsRotation (w : Wal) (recordSize : Nat) : Bool :=
  w.activeSize ≠ 0 && w.activeSize + recordSize > w.segmentSizeBytes

def ensureActiveSegmentForAppend (w : Wal) (nextIndex recordSize : Nat) : Except String Wal :=
  let w := if w.segments = [] then w.createFreshSegment nextIndex else w
  if w.needsRotation recordSize then w.rotateSegment nextIndex
  else match w.fd with
    | none => w.openActiveSegmentForAppend
    | some _ => .ok w

/-- Write a record through the descriptor and account for it in the active segment. -/
def writeRecord (w : Wal) (fd : Fd) (active : SegmentMeta) (index : Nat) (payload : Bytes) : Wal :=
  let data := record payload
  { w with dir := w.dir.write fd.path fd.pos data
           fd := some ⟨fd.path, fd.pos + data.length⟩
           segments := w.segments.dropLast ++ [⟨active.startIndex, index, active.sizeBytes + data.length⟩]
           offsetIndex := w.offsetIndex.insert index ⟨active.startIndex, active.sizeBytes⟩
           lastIndex := index }

/-- Indices stay below 2^64 - 1, so that the next one does not wrap. -/
def append (codec : EntryCodec) (w : Wal) (entry : LogEntry) : Except String Wal :=
  if w.offsetIndex.size ≠ 0 ∧ entry.index ≠ w.lastIndex + 1 then .error "WAL 追加的日志索引不连续"
  else
    let payload := codec.serialize entry
    if payload = [] then .error "WAL 序列化日志失败"
    else if payload.length > 2 ^ 32 - 1 then .error "WAL 记录过大"
    else match w.ensureActiveSegmentForAppend entry.index (record payload).length with
      | .error e => .error e
      | .ok w => match w.fd, w.segments.getLast? with
        | some fd, some active => .ok (w.writeRecord fd active entry.index payload)
        | _, _ => .error "WAL 写入失败"

def flush (w : Wal) : Except String Wal :=
  match w.fd with
  | none => .error "WAL 未打开"
  | some fd => .ok { w with dir := w.dir.fdatasync fd.path }

def read (codec : EntryCodec) (w : Wal) (index : Nat) : Except String LogEntry :=
  match w.offsetIndex.find? index with
  | none => .error ("日志索引不存在: " ++ toString index)
  | some location => match w.dir.find? location.path with
    | none => .error "打开文件失败"
    | some f => (readRecordAt codec f.bytes location.offset).map Prod.fst

/-- The loop of `RecoverSegment`: index records until the end of the file or a damaged one. -/
def recoverLoop (codec : EntryCodec) (path : Nat) (bytes : Bytes) :
    Nat → Nat → Nat → Table Nat EntryLocation → Nat × Nat × Table Nat EntryLocation × Bool
  | 0, offset, lastIndex, offsetIndex => (offset, lastIndex, offsetIndex, false)
  | fuel + 1, offset, lastIndex, offsetIndex =>
    if offset < bytes.length then
      match readRecordAt codec bytes offset with
      | .error _ => (offset, lastIndex, offsetIndex, true)
      | .ok (entry, size) =>
        recoverLoop codec path bytes fuel (offset + size) entry.index
          (offsetIndex.insert entry.index ⟨path, offset⟩)
    else (offset, lastIndex, offsetIndex, false)

/-- `RecoverSegment` for the file of one start index; a record takes more than one byte,
so the length of the file bounds the loop. -/
def recoverSegment (codec : EntryCodec) (w : Wal) (path : Nat) : Wal × Bool :=
  let bytes := ((w.dir.find? path).getD {}).bytes
  match recoverLoop codec path bytes bytes.length 0 (path - 1) w.offsetIndex with
  | (offset, lastIndex, offsetIndex, truncated) =>
    ({ w with dir := if truncated then w.dir.truncate path offset else w.dir
              segments := w.segments ++ [⟨path, lastIndex, offset⟩]
              offsetIndex
              lastIndex := max w.lastIndex lastIndex }, truncated)

/-- Recover the segments in order; behind a damaged one all files are removed. -/
def recoverSegments (codec : EntryCodec) (w : Wal) : List Nat → Wal
  | [] => w
  | path :: rest =>
    match w.recoverSegment codec path with
    | (w, true) => { w with dir := rest.foldl Table.erase w.dir }
    | (w, false) => recoverSegments codec w rest

def loadExistingSegments (codec : EntryCodec) (w : Wal) : Wal :=
  if w.dir.keys = [] then w.createFreshSegment w.start
  else
    let w := w.recoverSegments codec (w.dir.keys.insertionSort (· ≤ ·))
    { w with start := (w.segments.head?).elim w.start SegmentMeta.startIndex }

/-- `WAL::Open` on a directory. -/
def openWal (codec : EntryCodec) (dir : Dir) (startIndex segmentSizeBytes : Nat) : Except String Wal :=
  if segmentSizeBytes = 0 then .error "segment_size_bytes 必须大于 0"
  else (loadExistingSegments codec { dir, start := startIndex, segmentSizeBytes }).openActiveSegmentForAppend

/-- An empty directory is opened with one empty segment. -/
theorem openWal_empty {codec : EntryCodec} {start size : Nat} {w : Wal} (h : openWal codec ∅ start size = .ok w) :
    size ≠ 0 ∧ w = { dir := (∅ : Dir).insert start {}, fd := some ⟨start, 0⟩, start, segmentSizeBytes := size
                     segments := [⟨start, start - 1, 0⟩] } := by
  have hsize : size ≠ 0 := by
    rintro rfl
    simp [openWal] at h
  have hkeys : (∅ : Dir).keys = [] := rfl
  have hmem : start ∈ ((∅ : Dir).insert start ({} : File)).keys := by simp
  simp [openWal, hsize, loadExistingSegments, hkeys, createFreshSegment, openActiveSegmentForAppend,
    Table.find?_tryEmplace_of_mem _ _ _ hmem] at h
  exact ⟨hsize, h.symm⟩

theorem decode_encodeUint32LE {value : Nat} (h : value < 2 ^ 32) :
    decodeUint32LE (encodeUint32LE value) = value := by
  simp only [decodeUint32LE, encodeUint32LE, List.foldr_cons, List.foldr_nil, UInt8.toNat_ofNat']
  omega

@[simp] theorem length_encodeUint32LE (value : Nat) : (encodeUint32LE value).length = 4 := rfl

@[simp] theorem length_record (payload : Bytes) : (record payload).length = kRecordHeaderSize + payload.length := by
  simp [record, kRecordHeaderSize]
  omega

/-- What `Append` writes before a payload. -/
def recordHeader (payload : Bytes) : Bytes :=
  encodeUint32LE kWalMagic ++ encodeUint32LE payload.length ++ encodeUint32LE (computeCrc32 payload).toNat

@[simp] theorem length_recordHeader (payload : Bytes) : (recordHeader payload).length = kRecordHeaderSize := rfl

theorem record_eq (payload : Bytes) : record payload = recordHeader payload ++ payload := rfl

theorem recordHeader_length_field {payload : Bytes} (h : payload.length < 2 ^ 32) :
    decodeUint32LE (((recordHeader payload).drop 4).take 4) = payload.length := by
  rw [recordHeader, List.append_assoc, List.drop_left' (by simp), List.take_left' (by simp), decode_encodeUint32LE h]

/-- Behind the header of a payload any bytes of its length are read, and checked against it. -/
theorem readRecordAt_recordHeader (codec : EntryCodec) (front rear : Bytes) {payload body : Bytes}
    (h : payload.length < 2 ^ 32) (hbody : body.length = payload.length) :
    readRecordAt codec (front ++ recordHeader payload ++ body ++ rear) front.length =
      if computeCrc32 body ≠ computeCrc32 payload then .error "WAL CRC 校验失败"
      else match codec.deserialize body with
        | .error e => .error e
        | .ok entry => .ok (entry, kRecordHeaderSize + payload.length) := by
  have hcrc : (computeCrc32 payload).toNat < 2 ^ 32 := UInt32.toNat_lt _
  have hmagic : kWalMagic < 2 ^ 32 := by decide
  have hheader : readExactly (front ++ recordHeader payload ++ body ++ rear) front.length kRecordHeaderSize =
      recordHeader payload := by
    rw [readExactly, List.append_assoc, List.append_assoc, List.drop_left, List.take_left' (by simp)]
  have hpayload : readExactly (front ++ recordHeader payload ++ body ++ rear) (front.length + kRecordHeaderSize)
      payload.length = body := by
    rw [readExactly, List.append_assoc, List.drop_left' (by simp), List.take_left' hbody]
  have hlength := recordHeader_length_field h
  have hfirst : decodeUint32LE ((recordHeader payload).take 4) = kWalMagic := by
    rw [recordHeader, List.append_assoc, List.take_left' (by simp), decode_encodeUint32LE hmagic]
  have hlast : decodeUint32LE ((recordHeader payload).drop 8) = (computeCrc32 payload).toNat := by
    rw [recordHeader, List.drop_left' (by simp), decode_encodeUint32LE hcrc]
  simp only [readRecordAt, hheader, hlength, hpayload, hfirst, hlast, hbody, length_recordHeader, ne_eq,
    not_true_eq_false, if_false, UInt32.toNat_inj]

/-- A whole record is read back, wherever it stands in the file. -/
theorem readRecordAt_record (codec : EntryCodec) (front rear payload : Bytes) (h : payload.length < 2 ^ 32) :
    readRecordAt codec (front ++ record payload ++ rear) front.length =
      match codec.deserialize payload with
      | .error e => .error e
      | .ok entry => .ok (entry, (record payload).length) := by
  have hread := readRecordAt_recordHeader codec front rear h (rfl : payload.length = payload.length)
  rw [if_neg (by simp)] at hread
  rw [record_eq, ← List.append_assoc, hread, List.length_append, length_recordHeader]

end Wal

end RaftVdb
