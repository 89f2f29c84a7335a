import RaftVdb.SnapshotTransfer
import RaftVdb.TruncateFaults
import RaftVdb.VectorIndex

/-!
# Snapshot installations that fail

`HandleInstallSnapshot` with the files, the index and the WAL that it changes. Every operation
on a file may fail, and so may the load of the new index, `TruncateBefore` and the load of the
new dedup table. Each failure is an early return, unless USearch throws. What has been renamed,
stored or truncated by then stays; only temporary files are removed.
-/

namespace RaftVdb

open Lib

/-! ## `VectorIndex::LoadFromSnapshot` -/

/-- The part of `index_dense_head_t` that is compared or kept. -/
structure IndexHead where
  dimensions : Nat
  kindMetric : Nat
  kindScalar : Nat
  countPresent : Nat
  countDeleted : Nat
  deriving DecidableEq, Repr

/-- How a call ends that does not succeed. An `error_t` of USearch throws its message when it
is destroyed, so the caller of a function that checks one gets this and not the error that the
function returns. -/
inductive Exit where
  | returned (err : String)
  | thrown (what : String)
  deriving DecidableEq, Repr

/-- USearch, as far as a load calls it. -/
structure Usearch (V : Type) where
  metricFromName : String → Except String Nat
  scalarKindFromName : String → Except String Nat
  metadataFromPath : Bytes → Except String IndexHead
  make : Bytes → Except String V
  changeExpansion : V → Nat → Nat → V
  tryReserve : V → Nat → Option V

structure LoadedIndex (V : Type) where
  index : V
  config : VectorConfig
  deletedCount : Nat

def VectorConfig.normalized (cfg : VectorConfig) : VectorConfig :=
  { cfg with metric := cfg.metric.toLower, dataType := cfg.dataType.toLower }

variable {V : Type}

namespace Usearch

def parseMetric (u : Usearch V) (value : String) : Except Exit Nat := (u.metricFromName value.toLower).mapError .thrown

def parseScalarKind (u : Usearch V) (value : String) : Except Exit Nat :=
  (u.scalarKindFromName value.toLower).mapError .thrown

/-- A file that may be missing. -/
def fromPath {α : Type} (read : Bytes → Except String α) : Option Bytes → Except Exit α
  | none => .error (.thrown "No such file or directory")
  | some file => (read file).mapError .thrown

def loadFromSnapshot (u : Usearch V) (cfg : VectorConfig) (file : Option Bytes) : Except Exit (LoadedIndex V) := do
  (validateCreateConfig cfg).mapError .returned
  let normalized := cfg.normalized
  let metricKind ← u.parseMetric normalized.metric
  let scalarKind ← u.parseScalarKind normalized.dataType
  let head ← fromPath u.metadataFromPath file
  if head.dimensions ≠ normalized.dim then .error (.returned "快照维度与当前配置不一致")
  else if head.kindMetric ≠ metricKind then .error (.returned "快照 metric 与当前配置不一致")
  else if head.kindScalar ≠ scalarKind then .error (.returned "快照 data_type 与当前配置不一致")
  else
    let index ← fromPath u.make file
    let index := u.changeExpansion index normalized.expansionAdd normalized.expansionSearch
    match u.tryReserve index (max normalized.initialCapacity (head.countPresent + head.countDeleted)) with
    | none => .error (.returned "为快照索引预留运行时容量失败")
    | some index => .ok ⟨index, normalized, head.countDeleted⟩

/-- The file is an index of the configured kind that fits into memory, and this is the index. -/
def Decodes (u : Usearch V) (cfg : VectorConfig) (file : Option Bytes) (loaded : LoadedIndex V) : Prop :=
  validateCreateConfig cfg = .ok () ∧ ∃ bytes head index, file = some bytes ∧
    u.metadataFromPath bytes = .ok head ∧ head.dimensions = cfg.dim ∧
    u.metricFromName cfg.metric.toLower.toLower = .ok head.kindMetric ∧
    u.scalarKindFromName cfg.dataType.toLower.toLower = .ok head.kindScalar ∧ u.make bytes = .ok index ∧
    u.tryReserve (u.changeExpansion index cfg.expansionAdd cfg.expansionSearch)
      (max cfg.initialCapacity (head.countPresent + head.countDeleted)) = some loaded.index ∧
    loaded.config = cfg.normalized ∧ loaded.deletedCount = head.countDeleted

end Usearch

/-! ## The handler -/

/-- The operations of one pass of the receive loop. -/
inductive ChunkOp where
  | persist (err : String)
  | openTarget
  | write
  deriving DecidableEq, Repr

/-- The operations of `WriteTextFileAtomically`. -/
inductive MetaOp where
  | createDirectories | openTmp | write | rename
  deriving DecidableEq, Repr

/-- The text of the error, without that of `errno` and without the path. -/
def MetaOp.message : MetaOp → String
  | .createDirectories => "创建快照元数据目录失败"
  | .openTmp => "创建快照元数据临时文件失败"
  | .write => "写入快照元数据失败"
  | .rename => "原子替换快照元数据失败"

inductive InstallFault where
  | openStore
  | chunk (place : Nat) (op : ChunkOp)
  | saveMeta (op : MetaOp)
  | renameSnapshot
  | renameMeta
  | renameDedup
  | load (exit : Exit)
  | truncate (fault : Wal.TruncateFault)
  | loadDedup (err : String)
  deriving DecidableEq, Repr

namespace Receiver

def fileNameOf (c : SnapshotChunk) : String := if c.fileName = "" then "snapshot.usearch" else c.fileName

/-- The early return of a pass whose operation fails; `none` if it does not come to it. -/
def failChunk (r : Receiver) (c : SnapshotChunk) : ChunkOp → Option EarlyReturn
  | .persist err =>
    let leaderTerm := incomingLeaderTerm c.header c.leaderTerm
    if r.hasChunk = false ∧ r.node.currentTerm ≤ leaderTerm ∧
        (leaderTerm > r.node.currentTerm ∨ r.node.state ≠ .follower) then
      some (r.cleanupTemporaryFiles, .error err)
    else none
  | .openTarget => match r.checkHeader c, targetFile (fileNameOf c) with
    | .ok r, some _ =>
      if r.currentFileName ≠ fileNameOf c ∧ c.offset = 0 then
        some (r.cleanupTemporaryFiles, .error "InstallSnapshot 失败: 打开临时文件失败")
      else none
    | _, _ => none
  | .write => match r.checkHeader c, targetFile (fileNameOf c) with
    | .ok r, some target => match r.openTarget c (fileNameOf c) target with
      | .ok r =>
        if c.offset = r.expectedOffset then
          some (r.cleanupTemporaryFiles, .error "InstallSnapshot 失败: 写入临时文件失败")
        else none
      | .error _ => none
    | _, _ => none

/-- The failing pass, if the loop comes to it. -/
def failStream (r : Receiver) (chunks : List SnapshotChunk) (place : Nat) (op : ChunkOp) : Option EarlyReturn :=
  match (chunks.take place).foldlM receiveChunk r, chunks[place]? with
  | .ok r, some c => r.failChunk c op
  | _, _ => none

/-- `receiveStream` with the operation that fails, if any. -/
def receiveStreamWith (r : Receiver) (chunks : List SnapshotChunk) (fault : Option InstallFault) :
    Except EarlyReturn Receiver :=
  match fault with
  | some (.chunk place op) => match r.failStream chunks place op with
    | some early => .error early
    | none => r.receiveStream chunks
  | _ => r.receiveStream chunks

end Receiver

/-- The contents of `snapshot.meta`. -/
structure StoredMeta where
  header : SnapshotHeader
  createdAt : String
  deriving DecidableEq, Repr

/-- What `SaveToFile` asks of the fields. -/
def StoredMeta.check (m : StoredMeta) : Except String Unit :=
  if m.header.dim = 0 then .error "snapshot.meta 的 dim 必须大于 0"
  else if m.header.metric = "" then .error "snapshot.meta 的 metric 不能为空"
  else if m.header.dataType = "" then .error "snapshot.meta 的 data_type 不能为空"
  else .ok ()

/-- A node with its snapshot directory, its index and its WAL. -/
structure InstallHost (V : Type) where
  node : Node
  config : VectorConfig
  snapshot : Option Bytes
  metaFile : Option StoredMeta
  dedupBin : Option Bytes
  tmp : TemporaryFile → Option Bytes
  tmpMeta : Option StoredMeta
  index : LoadedIndex V
  wal : Wal

namespace InstallHost

def cleanupTemporaryFiles (h : InstallHost V) : InstallHost V := { h with tmp := fun _ => none }

def removeTmp (h : InstallHost V) (t : TemporaryFile) : InstallHost V := { h with tmp := Function.update h.tmp t none }

/-- `SnapshotMeta::SaveToFile` to `snapshot.meta.tmp`, which is removed if that fails. -/
def saveMeta (h : InstallHost V) (m : StoredMeta) (fault : Option InstallFault) : InstallHost V × Except String Unit :=
  match m.check, fault with
  | .error err, _ => ({ h with tmpMeta := none }, .error err)
  | .ok (), some (.saveMeta op) => ({ h with tmpMeta := none }, .error op.message)
  | .ok (), _ => ({ h with tmpMeta := some m }, .ok ())

def finalizeSnapshot (h : InstallHost V) (m : StoredMeta) (fault : Option InstallFault) :
    InstallHost V × Except String Unit :=
  match h.tmp .snapshot with
  | none => (h, .error "提交快照失败: snapshot.tmp 不存在")
  | some file => match h.saveMeta m fault with
    | (h, .error err) => (h, .error err)
    | (h, .ok ()) =>
      if fault = some .renameSnapshot then
        ({ h.removeTmp .snapshot with tmpMeta := none }, .error "原子替换正式快照失败")
      else
        let h := { h.removeTmp .snapshot with snapshot := some file }
        if fault = some .renameMeta then ({ h with tmpMeta := none }, .error "原子替换快照元数据失败")
        else ({ h with metaFile := some m, tmpMeta := none }, .ok ())

/-- The rename of `dedup.bin.tmp`. -/
def commitDedup (h : InstallHost V) (fault : Option InstallFault) : InstallHost V × Except String Unit :=
  match h.tmp .dedup, fault with
  | some _, some .renameDedup => (h.removeTmp .dedup, .error "InstallSnapshot 失败: 提交 dedup.bin 失败")
  | some file, _ => ({ h.removeTmp .dedup with dedupBin := some file }, .ok ())
  | none, _ => (h.removeTmp .dedup, .error "InstallSnapshot 失败: 提交 dedup.bin 失败")

def loadIndex (u : Usearch V) (cfg : VectorConfig) (file : Option Bytes) :
    Option InstallFault → Except Exit (LoadedIndex V)
  | some (.load exit) => .error exit
  | _ => u.loadFromSnapshot cfg file

/-- `DedupTable::LoadFrom`; a missing file empties the table. -/
def loadDedup (parse : Bytes → Option (List (String × DedupEntry))) (t : DedupTable) (file : Option Bytes) :
    Option InstallFault → Except String DedupTable
  | some (.loadDedup err) => .error err
  | _ => match file with
    | none => .ok { windowSize := t.windowSize }
    | some file => match parse file with
      | none => .error "DedupSnapshot 反序列化失败"
      | some records => t.loadFrom records

def truncateFault : Option InstallFault → Option Wal.TruncateFault
  | some (.truncate fault) => some fault
  | _ => none

def applyInstalledSnapshot (u : Usearch V) (parse : Bytes → Option (List (String × DedupEntry))) (h : InstallHost V)
    (m : SnapshotHeader) (fault : Option InstallFault) : InstallHost V × Except Exit Unit :=
  match loadIndex u h.config h.snapshot fault with
  | .error exit => (h, .error exit)
  | .ok index =>
    let h := { h with index }
    match h.wal.truncateBeforeWith (m.raftIndex + 1) (truncateFault fault) with
    | (wal, .error err) => ({ h with wal }, .error (.returned err))
    | (wal, .ok ()) =>
      let node := { h.node with
        appliedIndex := m.raftIndex
        commitIndex := m.raftIndex
        lastSnapshotIndex := m.raftIndex
        lastSnapshotTerm := m.raftTerm }
      let h := { h with wal, node }
      match loadDedup parse h.node.dedup h.dedupBin fault with
      | .error err => (h, .error (.returned err))
      | .ok dedup => ({ h with node := { h.node with dedup } }, .ok ())

/-- What follows the receive loop. -/
def install (u : Usearch V) (parse : Bytes → Option (List (String × DedupEntry))) (h : InstallHost V) (m : StoredMeta)
    (fault : Option InstallFault) : InstallHost V × Except Exit InstallSnapshotResponse :=
  match h.finalizeSnapshot m fault with
  | (h, .error err) => (h.cleanupTemporaryFiles, .error (.returned err))
  | (h, .ok ()) => match h.commitDedup fault with
    | (h, .error err) => (h, .error (.returned err))
    | (h, .ok ()) => match h.applyInstalledSnapshot u parse m.header fault with
      | (h, .error exit) => (h, .error exit)
      | (h, .ok ()) => (h, .ok ⟨h.node.currentTerm, true⟩)

/-- The receiver of a call. -/
def receiver (h : InstallHost V) : Receiver := { node := h.node, tmp := fun _ => none }

/-- `HandleInstallSnapshot` at a time, for the chunks that the reader returns. -/
def handleInstallSnapshot (u : Usearch V) (parse : Bytes → Option (List (String × DedupEntry))) (now : String)
    (h : InstallHost V) (chunks : List SnapshotChunk) (fault : Option InstallFault) :
    InstallHost V × Except Exit InstallSnapshotResponse :=
  if fault = some .openStore then (h, .error (.returned "创建快照目录失败"))
  else match h.receiver.receiveStreamWith chunks fault with
    | .error (r, answer) => ({ h with node := r.node, tmp := r.tmp, tmpMeta := none }, answer.mapError .returned)
    | .ok r => { h with node := r.node, tmp := r.tmp, tmpMeta := none }.install u parse ⟨r.header, now⟩ fault

/-! ## What a failure leaves -/

/-- The memory is that of the snapshot in the directory, as far as the call gets: either the file
is no index that the node can load, or it holds the index in memory, `TruncateBefore` has nothing
to change, and, unless it fails, the indices are those of the snapshot. -/
def Settled (u : Usearch V) (h : InstallHost V) (m : SnapshotHeader) (fault : Option InstallFault) : Prop :=
  (∃ exit, fault = some (.load exit)) ∨ ∀ loaded, u.Decodes h.config h.snapshot loaded →
    loaded = h.index ∧ h.wal.TruncationKeeps (m.raftIndex + 1) (truncateFault fault) ∧
      ((truncateFault fault).bind (h.wal.failTruncateBefore (m.raftIndex + 1)) = none →
        m.raftIndex = h.node.commitIndex ∧ m.raftIndex = h.node.appliedIndex ∧ m.raftIndex = h.node.lastSnapshotIndex)

/-- The files that are renamed before the failure were there already. -/
def Repeats (u : Usearch V) (h : InstallHost V) (r : Receiver) (now : String) (fault : Option InstallFault) : Prop :=
  r.tmp .snapshot = h.snapshot ∧ (fault = some .renameMeta ∨
    some ⟨r.header, now⟩ = h.metaFile ∧ (fault = some .renameDedup ∨
      r.tmp .dedup = h.dedupBin ∧ Settled u h r.header fault))

/-- `FinalizeSnapshot` fails before the first rename takes effect. -/
def HoldsBack (m : StoredMeta) (fault : Option InstallFault) : Prop :=
  (∃ err, m.check = .error err) ∨ (∃ op, fault = some (.saveMeta op)) ∨ fault = some .renameSnapshot

/-- The call fails before `snapshot.tmp` is renamed, or the snapshot is the one that the node has. -/
def Spared (u : Usearch V) (now : String) (h : InstallHost V) (chunks : List SnapshotChunk)
    (fault : Option InstallFault) : Prop :=
  fault = some .openStore ∨ match h.receiver.receiveStreamWith chunks fault with
    | .error _ => True
    | .ok r => HoldsBack ⟨r.header, now⟩ fault ∨ Repeats u h r now fault

end InstallHost

/-! ## The receive loop -/

/-- What an installation stores in the node. -/
def Node.installed (n : Node) : DedupTable × Nat × Nat × Nat :=
  (n.dedup, n.commitIndex, n.appliedIndex, n.lastSnapshotIndex)

namespace Receiver

variable {r r' : Receiver}

/-- A file that has been seen or is being written is there. -/
structure HasFiles (r : Receiver) : Prop where
  saw : ∀ t, r.saw t = true → ∃ file, r.tmp t = some file
  current : ∀ t, targetFile r.currentFileName = some t → ∃ file, r.tmp t = some file

/-- The node stores what this node stored; a receiver that goes on has its files. -/
def Keeps (n : Node) : Except EarlyReturn Receiver → Prop
  | .ok r => r.node.installed = n.installed ∧ r.HasFiles
  | .error (r, _) => r.node.installed = n.installed

/-- One file is written, and the others are as before. -/
theorem HasFiles.write {fileName : String} {target : TemporaryFile} (h : r.HasFiles)
    (htarget : targetFile fileName = some target) (hname : r'.currentFileName = fileName)
    (hfile : ∃ file, r'.tmp target = some file)
    (hother : ∀ t, t ≠ target → r'.tmp t = r.tmp t ∧ r'.saw t = r.saw t) : r'.HasFiles := by
  constructor
  · intro t ht
    by_cases heq : t = target
    · rw [heq]
      exact hfile
    · obtain ⟨htmp, hsaw⟩ := hother t heq
      rw [htmp]
      exact h.saw t (hsaw ▸ ht)
  · intro t ht
    rw [hname, htarget] at ht
    cases ht
    exact hfile

theorem Keeps.trans {n : Node} {outcome : Except EarlyReturn Receiver} (hnode : r.node.installed = n.installed)
    (h : Keeps r.node outcome) : Keeps n outcome := by
  cases outcome with
  | error early => exact Eq.trans h hnode
  | ok r' => exact ⟨h.1.trans hnode, h.2⟩

end Receiver

namespace InstallHost

variable {u : Usearch V} {parse : Bytes → Option (List (String × DedupEntry))} {g h h' : InstallHost V}
  {fault : Option InstallFault}

/-- The hosts differ in the files of the snapshot directory at most, as far as they are compared. -/
structure SameMemory (h g : InstallHost V) : Prop where
  config : g.config = h.config
  index : g.index = h.index
  wal : g.wal = h.wal
  node : g.node.installed = h.node.installed

theorem SameMemory.trans {h₁ h₂ h₃ : InstallHost V} (h : SameMemory h₁ h₂) (h' : SameMemory h₂ h₃) : SameMemory h₁ h₃ :=
  ⟨h'.config.trans h.config, h'.index.trans h.index, h'.wal.trans h.wal, h'.node.trans h.node⟩

theorem SameMemory.fields (hm : SameMemory h g) : g.node.dedup = h.node.dedup ∧
    g.node.commitIndex = h.node.commitIndex ∧ g.node.appliedIndex = h.node.appliedIndex ∧
    g.node.lastSnapshotIndex = h.node.lastSnapshotIndex := by
  simpa [Node.installed] using hm.node

theorem SameMemory.settled (hm : SameMemory h g) (hsnapshot : g.snapshot = h.snapshot) (m : SnapshotHeader) :
    Settled u g m fault ↔ Settled u h m fault := by
  obtain ⟨-, hcommit, happlied, hlast⟩ := hm.fields
  unfold Settled
  rw [hm.config, hsnapshot, hm.wal, hm.index, hcommit, happlied, hlast]

end InstallHost

end RaftVdb
