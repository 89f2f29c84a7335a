import RaftVdb.Lib.Transition
import RaftVdb.Node

/-!
# The snapshot directory and the WAL of one node

The thread of `LaunchSnapshotTask` and a call of `HandleInstallSnapshot`, each cut into its
operations on files, on the WAL and on the fields of the node, beside the rest of the node
as far as these read it. Both write the same temporary files. An index is the list of the
entries that have been applied to it. Of the log that the cluster commits the node sees a
prefix, and what it learns to be committed is. Files are written and renamed without errors
except where one is missing.
-/

namespace RaftVdb

open Lib

/-- The request of an entry with the outcome that `ApplyCommittedEntries` records for it. -/
def LogEntry.outcome (codec : CommandCodec) (dim : Nat) (e : LogEntry) : Option (String × Except String Unit) :=
  match e.command codec with
  | none => none
  | some (.delete cmd) => some (cmd.requestId, .ok ())
  | some (.upsert cmd) =>
    some (cmd.requestId,
      if cmd.vector = [] then .error "Upsert 的向量指针不能为空"
      else if cmd.vector.length ≠ dim then .error "Upsert 的向量维度与配置不一致"
      else .ok ())

/-- `snapshot.meta`. -/
structure SnapshotMeta where
  raftTerm : Nat
  raftIndex : Nat
  deriving DecidableEq, Repr

abbrev DedupRecords := List (String × DedupEntry)

inductive Writer where
  | task | install
  deriving DecidableEq, Repr

/-- A file that one thread is writing, that both are writing, or that is closed. -/
inductive Contents (α : Type) where
  | torn (w : Writer)
  | mixed
  | whole (a : α)
  deriving DecidableEq, Repr

/-- Open a path with `trunc`. A file that the other thread has open is shared with it. -/
def Contents.openTrunc {α : Type} (w : Writer) : Option (Contents α) → Contents α
  | some (.torn v) => if v = w then .torn w else .mixed
  | some .mixed => .mixed
  | _ => .torn w

structure SnapshotDir where
  /-- `snapshot.usearch` -/
  snapshot : Option (Contents (List LogEntry)) := none
  /-- `snapshot.meta` -/
  metaFile : Option SnapshotMeta := none
  /-- `snapshot.tmp` -/
  tmpSnapshot : Option (Contents (List LogEntry)) := none
  /-- `snapshot.meta.tmp` -/
  tmpMeta : Option SnapshotMeta := none
  /-- `dedup.bin` -/
  dedup : Option (Contents DedupRecords) := none
  /-- `dedup.bin.tmp` -/
  tmpDedup : Option (Contents DedupRecords) := none
  deriving DecidableEq, Repr

namespace SnapshotDir

def cleanupTemporaryFiles (d : SnapshotDir) : SnapshotDir := { d with tmpSnapshot := none, tmpMeta := none, tmpDedup := none }

/-- The index that `snapshot.meta` records, none at all counting as zero. -/
def metaIndex (d : SnapshotDir) : Nat := (d.metaFile.map SnapshotMeta.raftIndex).getD 0

/-- A thread closes the index file it has opened, under the name that the file has now. -/
def closeSnapshot (d : SnapshotDir) (w : Writer) (index : List LogEntry) : SnapshotDir :=
  if d.tmpSnapshot = some (.torn w) then { d with tmpSnapshot := some (.whole index) }
  else if d.snapshot = some (.torn w) then { d with snapshot := some (.whole index) }
  else d

def closeDedup (d : SnapshotDir) (w : Writer) (records : DedupRecords) : SnapshotDir :=
  if d.tmpDedup = some (.torn w) then { d with tmpDedup := some (.whole records) }
  else if d.dedup = some (.torn w) then { d with dedup := some (.whole records) }
  else d

end SnapshotDir

/-- `FinalizeSnapshot`, by its next file operation. -/
inductive FinalizeStage where
  | lookup | saveMeta | renameSnapshot | renameMeta
  deriving DecidableEq, Repr

/-- One operation of `FinalizeSnapshot`, with the stage after it unless that was the last. -/
def finalizeSnapshot (snapMeta : SnapshotMeta) (d : SnapshotDir) :
    FinalizeStage → SnapshotDir × Except String (Option FinalizeStage)
  | .lookup =>
    if d.tmpSnapshot = none then (d, .error "提交快照失败: snapshot.tmp 不存在") else (d, .ok (some .saveMeta))
  | .saveMeta => ({ d with tmpMeta := some snapMeta }, .ok (some .renameSnapshot))
  | .renameSnapshot =>
    match d.tmpSnapshot with
    | none => ({ d with tmpMeta := none }, .error "原子替换正式快照失败: No such file or directory")
    | some file => ({ d with snapshot := some file, tmpSnapshot := none }, .ok (some .renameMeta))
  | .renameMeta =>
    match d.tmpMeta with
    | none => (d, .error "原子替换快照元数据失败: No such file or directory")
    | some m => ({ d with metaFile := some m, tmpMeta := none }, .ok none)

/-- The thread of `LaunchSnapshotTask`, by its next operation. -/
inductive TaskStage where
  | cleanup
  | clone
  | removeTmp (index : List LogEntry)
  | openTmp (index : List LogEntry)
  | closeTmp (index : List LogEntry)
  | termAt
  | finalize (raftTerm : Nat) (stage : FinalizeStage)
  | openDedup (raftTerm : Nat)
  | closeDedup (raftTerm : Nat) (records : DedupRecords)
  | renameDedup (raftTerm : Nat)
  | publish (raftTerm : Nat)
  | truncate
  deriving DecidableEq, Repr

structure Task where
  snapshotIndex : Nat
  /-- The index of the thread, once an installed one has taken its place in the node. -/
  vectorIndex : Option (List LogEntry) := none
  stage : TaskStage := .cleanup
  deriving DecidableEq, Repr

/-- The chunks of `InstallSnapshot`, put together. -/
structure SnapshotStream where
  snapMeta : SnapshotMeta
  index : List LogEntry
  dedup : DedupRecords
  deriving DecidableEq, Repr

/-- `HandleInstallSnapshot`, by its next operation. -/
inductive InstallStage where
  | cleanup
  | openTmp
  | closeTmp
  | openDedup
  | closeDedup
  | finalize (stage : FinalizeStage)
  | renameDedup
  | load
  | truncate
  | publish
  | loadDedup
  deriving DecidableEq, Repr

structure Install where
  stream : SnapshotStream
  stage : InstallStage := .cleanup
  deriving DecidableEq, Repr

/-- What does not change during a run, and the log that the cluster commits. -/
structure StorageConfig where
  codec : CommandCodec
  dim : Nat
  snapshotThreshold : Nat
  dedupWindowSize : Nat
  committed : List LogEntry
  numbered : committed.map LogEntry.index = List.range' 1 committed.length

/-- The committed entry at an index. -/
def StorageConfig.entryAt (cfg : StorageConfig) (index : Nat) : Option LogEntry :=
  if index = 0 then none else cfg.committed[index - 1]?

structure Storage where
  dir : SnapshotDir := {}
  log : IndexedLog := {}
  index : List LogEntry := []
  appliedIndex : Nat := 0
  commitIndex : Nat := 0
  lastSnapshotIndex : Nat := 0
  lastSnapshotTerm : Nat := 0
  dedup : DedupTable
  task : Option Task := none
  install : Option Install := none
  /-- The highest commit index that the node has ever known. -/
  durable : Nat := 0
  deriving DecidableEq

/-- The operation on the segments of the WAL that a crash cuts short. -/
inductive Interrupted where
  | nothing
  /-- `TruncateBefore` of a thread has removed the segments that end before `keepFrom`. -/
  | truncateBefore (keepFrom : Nat)
  /-- `TruncateSuffix` has not yet removed the segments from `rest` on. -/
  | truncateSuffix (index rest : Nat)
  deriving DecidableEq, Repr

namespace Storage

inductive Action where
  | append (e : LogEntry)
  | truncateSuffix (index : Nat)
  /-- The node learns that the entries up to an index are committed. -/
  | commit (index : Nat)
  | apply
  | trackPending (requestId : String) (logIndex : Nat)
  /-- `MaybeTriggerSnapshot` starts the thread of `LaunchSnapshotTask`. -/
  | launch
  /-- The next operation of that thread. `SaveTo` fails unless `saved`; `TruncateBefore` keeps
  the segments from `keepFrom` on. -/
  | task (saved : Bool) (keepFrom : Nat)
  | beginInstall (stream : SnapshotStream)
  | install (keepFrom : Nat)
  /-- The stream breaks off. -/
  | abortInstall
  /-- The process dies and is started again; the last segment of an empty WAL starts at `start`. -/
  | crash (during : Interrupted) (start : Nat)
  deriving DecidableEq, Repr

def logicalLastIndex (s : Storage) : Nat := max s.lastSnapshotIndex s.log.lastIndex

/-- `HandleAppendEntries` skips what the snapshot covers, and an entry at or below the commit
index is the committed one. -/
def append (cfg : StorageConfig) (s : Storage) (e : LogEntry) : Option Storage :=
  if e.index ≤ s.lastSnapshotIndex ∨ e.index ≤ s.commitIndex ∧ cfg.entryAt e.index ≠ some e then none
  else (s.log.append e).toOption.map fun log => { s with log }

def truncateSuffix (s : Storage) (index : Nat) : Option Storage :=
  if s.lastSnapshotIndex < index then (s.log.truncateSuffix index).toOption.map fun log => { s with log } else none

def commit (cfg : StorageConfig) (s : Storage) (index : Nat) : Option Storage :=
  if s.commitIndex < index ∧
      ∀ i < index + 1, s.lastSnapshotIndex < i →
        (cfg.entryAt i).isSome ∧ (s.log.read i).toOption = cfg.entryAt i then
    some { s with commitIndex := index, durable := max s.durable index }
  else none

/-- `Record` for an entry that carries a request. -/
def record (cfg : StorageConfig) (t : DedupTable) (index : Nat) (e : LogEntry) : DedupTable :=
  match e.outcome cfg.codec cfg.dim with
  | none => t
  | some (requestId, .ok _) => t.record requestId index true ""
  | some (requestId, .error err) => t.record requestId index false err

/-- One iteration of `ApplyCommittedEntries`. -/
def apply (cfg : StorageConfig) (s : Storage) : Option Storage :=
  if s.appliedIndex < s.commitIndex then
    (s.log.read (s.appliedIndex + 1)).toOption.map fun e =>
      { s with
        index := s.index ++ [e]
        dedup := record cfg s.dedup (s.appliedIndex + 1) e
        appliedIndex := s.appliedIndex + 1 }
  else none

def launch (cfg : StorageConfig) (s : Storage) : Option Storage :=
  if cfg.snapshotThreshold = 0 ∨ s.appliedIndex ≤ s.lastSnapshotIndex ∨
      s.appliedIndex - s.lastSnapshotIndex ≤ cfg.snapshotThreshold ∨ s.task.isSome then none
  else some { s with task := some { snapshotIndex := s.appliedIndex } }

def stepTask (s : Storage) (t : Task) (saved : Bool) (keepFrom : Nat) : Storage :=
  let next (stage : TaskStage) : Option Task := some { t with stage }
  match t.stage with
  | .cleanup => { s with dir := s.dir.cleanupTemporaryFiles, task := next .clone }
  | .clone => { s with task := next (.removeTmp (t.vectorIndex.getD s.index)) }
  | .removeTmp index => { s with dir := { s.dir with tmpSnapshot := none }, task := next (.openTmp index) }
  | .openTmp index =>
    { s with
      dir := { s.dir with tmpSnapshot := some (.openTrunc .task s.dir.tmpSnapshot) }
      task := next (.closeTmp index) }
  | .closeTmp index => { s with dir := s.dir.closeSnapshot .task index, task := next .termAt }
  | .termAt =>
    match s.log.termAt t.snapshotIndex with
    | .error _ => { s with task := none }
    | .ok raftTerm => { s with task := next (.finalize raftTerm .lookup) }
  | .finalize raftTerm stage =>
    match finalizeSnapshot ⟨raftTerm, t.snapshotIndex⟩ s.dir stage with
    | (dir, .error _) => { s with dir, task := none }
    | (dir, .ok (some stage)) => { s with dir, task := next (.finalize raftTerm stage) }
    | (dir, .ok none) => { s with dir, task := next (.openDedup raftTerm) }
  | .openDedup raftTerm =>
    if saved then
      { s with
        dir := { s.dir with tmpDedup := some (.openTrunc .task s.dir.tmpDedup) }
        task := next (.closeDedup raftTerm s.dedup.saveTo) }
    else { s with task := next (.publish raftTerm) }
  | .closeDedup raftTerm records =>
    { s with dir := s.dir.closeDedup .task records, task := next (.renameDedup raftTerm) }
  | .renameDedup raftTerm =>
    match s.dir.tmpDedup with
    | none => { s with task := next (.publish raftTerm) }
    | some file => { s with dir := { s.dir with dedup := some file, tmpDedup := none }, task := next (.publish raftTerm) }
  | .publish raftTerm =>
    { s with lastSnapshotIndex := t.snapshotIndex, lastSnapshotTerm := raftTerm, task := next .truncate }
  | .truncate => { s with log := s.log.truncateBefore t.snapshotIndex keepFrom, task := none }

def beginInstall (s : Storage) (stream : SnapshotStream) : Option Storage :=
  if s.install = none then some { s with install := some { stream } } else none

/-- `cleanup_temporary_files` of `HandleInstallSnapshot`. -/
def cleanupInstall (d : SnapshotDir) : SnapshotDir := { d with tmpSnapshot := none, tmpDedup := none }

def stepInstall (s : Storage) (i : Install) (keepFrom : Nat) : Storage :=
  let next (stage : InstallStage) : Option Install := some { i with stage }
  let snapMeta := i.stream.snapMeta
  match i.stage with
  | .cleanup => { s with dir := s.dir.cleanupTemporaryFiles, install := next .openTmp }
  | .openTmp =>
    { s with
      dir := { s.dir with tmpSnapshot := some (.openTrunc .install s.dir.tmpSnapshot) }
      install := next .closeTmp }
  | .closeTmp => { s with dir := s.dir.closeSnapshot .install i.stream.index, install := next .openDedup }
  | .openDedup =>
    { s with
      dir := { s.dir with tmpDedup := some (.openTrunc .install s.dir.tmpDedup) }
      install := next .closeDedup }
  | .closeDedup => { s with dir := s.dir.closeDedup .install i.stream.dedup, install := next (.finalize .lookup) }
  | .finalize stage =>
    match finalizeSnapshot snapMeta s.dir stage with
    | (dir, .error _) => { s with dir := cleanupInstall dir, install := none }
    | (dir, .ok (some stage)) => { s with dir, install := next (.finalize stage) }
    | (dir, .ok none) => { s with dir, install := next .renameDedup }
  | .renameDedup =>
    match s.dir.tmpDedup with
    | none => { s with install := none }
    | some file => { s with dir := { s.dir with dedup := some file, tmpDedup := none }, install := next .load }
  | .load =>
    match s.dir.snapshot with
    | some (.whole index) =>
      { s with
        index
        task := s.task.map fun (t : Task) => { t with vectorIndex := t.vectorIndex.or (some s.index) }
        install := next .truncate }
    | _ => { s with install := none }
  -- For a raft_index below 2^64 - 1, as every index of a log is.
  | .truncate => { s with log := s.log.truncateBefore (snapMeta.raftIndex + 1) keepFrom, install := next .publish }
  | .publish =>
    { s with
      appliedIndex := snapMeta.raftIndex
      commitIndex := snapMeta.raftIndex
      lastSnapshotIndex := snapMeta.raftIndex
      lastSnapshotTerm := snapMeta.raftTerm
      durable := max s.durable snapMeta.raftIndex
      install := next .loadDedup }
  | .loadDedup =>
    let dedup := match s.dir.dedup with
      | none => { s.dedup with table := ∅, orderQueue := [] }
      | some (.whole records) => (s.dedup.loadFrom records).toOption.getD s.dedup
      | some _ => s.dedup
    { s with dedup, install := none }

/-- The handler is still reading the stream. -/
def reading : InstallStage → Bool
  | .openTmp | .closeTmp | .openDedup | .closeDedup => true
  | _ => false

/-- The index before which a thread is truncating the WAL, if one is. -/
def truncatesBefore (s : Storage) : Nat :=
  max ((s.task.map fun (t : Task) => if t.stage = .truncate then t.snapshotIndex else 0).getD 0)
    ((s.install.map fun (i : Install) => if i.stage = .truncate then i.stream.snapMeta.raftIndex + 1 else 0).getD 0)

/-- The entries that a crash leaves in the segments. -/
def survivors (s : Storage) : Interrupted → List LogEntry
  | .nothing => s.log.entries
  | .truncateBefore keepFrom => s.log.entries.filter fun e => min keepFrom s.truncatesBefore ≤ e.index
  | .truncateSuffix index rest =>
    if s.lastSnapshotIndex < index then s.log.entries.filter fun e => e.index < index ∨ rest ≤ e.index
    else s.log.entries

/-- `WAL::Open` over segments with these entries. -/
def reopen (entries : List LogEntry) (start : Nat) : IndexedLog :=
  { entries, lastIndex := entries.getLast?.elim (start - 1) LogEntry.index }

/-- `RestoreVectorIndex`: the index and `snapshot.meta`, or an index that is created empty. A
file that is not whole does not load. -/
def restoreVectorIndex (d : SnapshotDir) : Option (List LogEntry × Option SnapshotMeta) :=
  match d.snapshot, d.metaFile with
  | some (.whole index), some snapMeta => some (index, some snapMeta)
  | some _, some _ => none
  | _, _ => some ([], none)

/-- `RestoreDedupTable`. -/
def restoreDedupTable (cfg : StorageConfig) (d : SnapshotDir) (restored : Bool) : Option DedupTable :=
  let fresh : DedupTable := { windowSize := cfg.dedupWindowSize }
  if restored = false then some fresh
  else match d.dedup with
    | none => some fresh
    | some (.whole records) => (fresh.loadFrom records).toOption
    | some _ => none

/-- `main` up to `RaftNode::Create`, over the WAL that is left. Without an index or a table
the process ends. -/
def restart (cfg : StorageConfig) (s : Storage) (log : IndexedLog) : Option Storage :=
  let dir := s.dir.cleanupTemporaryFiles
  match restoreVectorIndex dir with
  | none => none
  | some (index, snapMeta) =>
    (restoreDedupTable cfg dir snapMeta.isSome).map fun dedup =>
      let raftIndex := (snapMeta.map SnapshotMeta.raftIndex).getD 0
      { dir, log, index
        appliedIndex := raftIndex
        commitIndex := raftIndex
        lastSnapshotIndex := raftIndex
        lastSnapshotTerm := (snapMeta.map SnapshotMeta.raftTerm).getD 0
        dedup
        durable := max s.durable raftIndex }

def step (cfg : StorageConfig) (s : Storage) : Action → Option Storage
  | .append e => s.append cfg e
  | .truncateSuffix index => s.truncateSuffix index
  | .commit index => s.commit cfg index
  | .apply => s.apply cfg
  | .trackPending requestId logIndex => some { s with dedup := s.dedup.trackPending requestId logIndex }
  | .launch => s.launch cfg
  | .task saved keepFrom => s.task.map fun t => s.stepTask t saved keepFrom
  | .beginInstall stream => s.beginInstall stream
  | .install keepFrom => s.install.map fun i => s.stepInstall i keepFrom
  | .abortInstall => s.install.bind fun i =>
    if reading i.stage then some { s with dir := cleanupInstall s.dir, install := none } else none
  | .crash during start => s.restart cfg (reopen (s.survivors during) start)

/-- The first start over empty directories. -/
def init (cfg : StorageConfig) : Storage := { dedup := { windowSize := cfg.dedupWindowSize } }

def run (cfg : StorageConfig) (schedule : List Action) : Option Storage :=
  Transition.run (step cfg) (init cfg) schedule

end Storage

/-- Protobuf for vectors of one component, an id below 128 and a short ASCII request id. -/
def scalarCodec : CommandCodec where
  serializeUpsert cmd :=
    [8, UInt8.ofNat cmd.id, 18, 4] ++
      (cmd.vector.flatMap fun x =>
        [UInt8.ofNat x, UInt8.ofNat (x / 2 ^ 8), UInt8.ofNat (x / 2 ^ 16), UInt8.ofNat (x / 2 ^ 24)]) ++
      [26, UInt8.ofNat cmd.requestId.length] ++ cmd.requestId.toList.map fun ch => UInt8.ofNat ch.toNat
  deserializeUpsert
    | 8 :: id :: 18 :: 4 :: b₀ :: b₁ :: b₂ :: b₃ :: 26 :: _ :: rest =>
      .ok ⟨id.toNat, [b₀.toNat + 2 ^ 8 * b₁.toNat + 2 ^ 16 * b₂.toNat + 2 ^ 24 * b₃.toNat],
        String.ofList (rest.map fun b => Char.ofNat b.toNat)⟩
    | _ => .error "protobuf 反序列化失败: UpsertCmd"
  serializeDelete cmd :=
    [8, UInt8.ofNat cmd.id, 18, UInt8.ofNat cmd.requestId.length] ++
      cmd.requestId.toList.map fun ch => UInt8.ofNat ch.toNat
  deserializeDelete
    | 8 :: id :: 18 :: _ :: rest => .ok ⟨id.toNat, String.ofList (rest.map fun b => Char.ofNat b.toNat)⟩
    | _ => .error "protobuf 反序列化失败: DeleteCmd"

/-- An upsert of the vector `[1.0]`, with a request id of one letter. -/
def upsertEntry (index id : Nat) (requestId : UInt8) : LogEntry :=
  { index, term := 1, payload := [8, UInt8.ofNat id, 18, 4, 0, 0, 128, 63, 26, 1, requestId] }

/-- Three upserts of different keys. -/
def threeUpserts : StorageConfig where
  codec := scalarCodec
  dim := 1
  snapshotThreshold := 1
  dedupWindowSize := 8
  committed := [upsertEntry 1 1 97, upsertEntry 2 2 98, upsertEntry 3 3 99]
  numbered := by decide

namespace Storage

/-- The first two entries are in the WAL and applied, and a snapshot of them is due. -/
def twoApplied : List Action :=
  [.append (upsertEntry 1 1 97), .append (upsertEntry 2 2 98), .commit 2, .apply, .apply, .launch]

/-- All three entries, as a leader streams them. -/
def streamOfThree : SnapshotStream :=
  { snapMeta := ⟨1, 3⟩, index := threeUpserts.committed, dedup := [] }

end Storage

end RaftVdb
