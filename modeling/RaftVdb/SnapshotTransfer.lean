import RaftVdb.Lib.InputStream
import RaftVdb.Rpc

/-!
# A snapshot on the wire

`SendSnapshotToPeer` cuts `snapshot.usearch` and `dedup.bin` into chunks and
`HandleInstallSnapshot` puts them together again. The two sides share no state: the
producer goes by the read positions of its files, the receiver by the offsets in the
chunks. `Carries` is what they agree on, a list of chunks that holds the rest of a file.
-/

namespace RaftVdb

open Lib

/-- What every chunk repeats of `snapshot.meta`. -/
structure SnapshotHeader where
  raftTerm : Nat := 0
  raftIndex : Nat := 0
  dim : Nat := 0
  metric : String := ""
  dataType : String := ""
  deriving DecidableEq, Repr

structure SnapshotChunk where
  data : Bytes := []
  offset : Nat := 0
  isLast : Bool := false
  header : SnapshotHeader := {}
  fileName : String := ""
  leaderTerm : Nat := 0
  deriving DecidableEq, Repr

def kInstallSnapshotChunkBytes : Nat := 256 * 1024

/-! ## The sender -/

structure StreamFile where
  name : String
  stream : InputStream UInt8
  deriving DecidableEq, Repr

/-- The state of the producer: `files` are those from `file_index` on. -/
structure Producer where
  header : SnapshotHeader
  leaderTerm : Nat
  files : List StreamFile
  emittedTerminalChunk : Bool := false
  deriving DecidableEq, Repr

namespace Producer

def start (header : SnapshotHeader) (leaderTerm : Nat) (snapshot dedup : Bytes) : Producer where
  header := header
  leaderTerm := leaderTerm
  files := [⟨"snapshot.usearch", { bytes := snapshot }⟩, ⟨"dedup.bin", { bytes := dedup }⟩]

def chunk (header : SnapshotHeader) (leaderTerm : Nat) (fileName : String) (offset : Nat) (data : Bytes)
    (isLast : Bool) : SnapshotChunk :=
  { data, offset, isLast, header, fileName, leaderTerm }

/-- The loop over the files, with the files left over after the chunk. -/
def nextChunk (header : SnapshotHeader) (leaderTerm : Nat) :
    List StreamFile → Except String (Option SnapshotChunk × List StreamFile)
  | [] => .ok (none, [])
  | file :: rest =>
    let stream := file.stream.clear
    let offset := stream.tellg.getD 0
    let (stream, buffer) := stream.read kInstallSnapshotChunkBytes
    if buffer.length = 0 then
      if stream.eof then
        if offset = 0 then .ok (some (chunk header leaderTerm file.name 0 [] rest.isEmpty), rest)
        else nextChunk header leaderTerm rest
      else .error "发送快照失败: 读取快照文件失败"
    else
      let (stream, next) := stream.peek
      let fileFinished := next.isNone
      .ok (some (chunk header leaderTerm file.name offset buffer (fileFinished && rest.isEmpty)),
        if fileFinished then rest else { file with stream } :: rest)

def produce (p : Producer) : Except String (Producer × Option SnapshotChunk) :=
  if p.emittedTerminalChunk then .ok (p, none)
  else match nextChunk p.header p.leaderTerm p.files with
    | .error err => .error err
    | .ok (none, files) => .ok ({ p with files }, none)
    | .ok (some c, files) => .ok ({ p with files, emittedTerminalChunk := c.isLast }, some c)

/-- `RaftClient::InstallSnapshot`: what is written until the producer returns false. -/
def installSnapshot : Nat → Producer → Option (Except String (List SnapshotChunk))
  | 0, _ => none
  | fuel + 1, p =>
    match p.produce with
    | .error err => some (.error err)
    | .ok (_, none) => some (.ok [])
    | .ok (p, some c) => (installSnapshot fuel p).map (Except.map (c :: ·))

end Producer

/-! ## The receiver -/

/-- The temporary files of an install. -/
inductive TemporaryFile where
  | snapshot | dedup
  deriving DecidableEq, Repr

/-- The locals of `HandleInstallSnapshot` and what it can reach. -/
structure Receiver where
  node : Node
  tmp : TemporaryFile → Option Bytes
  hasChunk : Bool := false
  header : SnapshotHeader := {}
  streamLeaderTerm : Nat := 0
  saw : TemporaryFile → Bool := fun _ => false
  streamFinished : Bool := false
  currentFileName : String := ""
  expectedOffset : Nat := 0

/-- An early return, with the state it leaves. -/
abbrev EarlyReturn := Receiver × Except String InstallSnapshotResponse

namespace Receiver

def cleanupTemporaryFiles (r : Receiver) : Receiver := { r with tmp := fun _ => none }

def reject (r : Receiver) (err : String) : Except EarlyReturn Receiver :=
  .error (r.cleanupTemporaryFiles, .error err)

/-- The term of the sender; a chunk without one is of the term of its snapshot. -/
def incomingLeaderTerm (header : SnapshotHeader) (leaderTerm : Nat) : Nat :=
  if leaderTerm = 0 then header.raftTerm else leaderTerm

/-- The first chunk settles the term and the header. -/
def takeHeader (r : Receiver) (header : SnapshotHeader) (leaderTerm : Nat) : Except EarlyReturn Receiver :=
  if leaderTerm < r.node.currentTerm then
    .error (r.cleanupTemporaryFiles, .ok ⟨r.node.currentTerm, false⟩)
  else match if leaderTerm > r.node.currentTerm ∨ r.node.state ≠ .follower then
        r.node.becomeFollower leaderTerm else .ok r.node with
    | .error err => r.reject err
    | .ok node => .ok { r with node, header }

/-- The other chunks repeat what the first one said. -/
def checkHeader (r : Receiver) (c : SnapshotChunk) : Except EarlyReturn Receiver :=
  let leaderTerm := incomingLeaderTerm c.header c.leaderTerm
  if r.hasChunk = false then
    { r with hasChunk := true, streamLeaderTerm := leaderTerm }.takeHeader c.header leaderTerm
  else if leaderTerm ≠ r.streamLeaderTerm ∨ c.header ≠ r.header then
    r.reject "InstallSnapshot 失败: 快照 chunk 元数据不一致"
  else .ok r

def targetFile : String → Option TemporaryFile
  | "snapshot.usearch" => some .snapshot
  | "dedup.bin" => some .dedup
  | _ => none

/-- Open the file of a chunk, unless it is the one that is open. -/
def openTarget (r : Receiver) (c : SnapshotChunk) (fileName : String) (target : TemporaryFile) :
    Except EarlyReturn Receiver :=
  if r.currentFileName ≠ fileName then
    if c.offset ≠ 0 then r.reject "InstallSnapshot 失败: 新文件的首个 chunk offset 必须为 0"
    else .ok { r with
      tmp := Function.update r.tmp target (some []), currentFileName := fileName, expectedOffset := 0 }
  else .ok r

def writeChunk (r : Receiver) (c : SnapshotChunk) (target : TemporaryFile) : Except EarlyReturn Receiver :=
  if c.offset ≠ r.expectedOffset then r.reject "InstallSnapshot 失败: chunk offset 不连续"
  else .ok { r with
    tmp := Function.update r.tmp target ((r.tmp target).map (· ++ c.data))
    expectedOffset := r.expectedOffset + c.data.length
    streamFinished := c.isLast }

/-- One pass of the receive loop. -/
def receiveChunk (r : Receiver) (c : SnapshotChunk) : Except EarlyReturn Receiver := do
  let r ← r.checkHeader c
  let fileName := if c.fileName = "" then "snapshot.usearch" else c.fileName
  match targetFile fileName with
  | none => r.reject ("InstallSnapshot 失败: 不支持的快照文件 " ++ fileName)
  | some target =>
    let r := { r with saw := Function.update r.saw target true }
    let r ← r.openTarget c fileName target
    r.writeChunk c target

/-- The receive loop and the checks after it. -/
def receiveStream (r : Receiver) (chunks : List SnapshotChunk) : Except EarlyReturn Receiver := do
  let r ← chunks.foldlM receiveChunk r
  if r.hasChunk = false then .error (r.cleanupTemporaryFiles, .ok ⟨r.node.currentTerm, false⟩)
  else if r.streamFinished = false then r.reject "InstallSnapshot 失败: 快照流在 is_last 前中断"
  else if r.saw .snapshot = false then r.reject "InstallSnapshot 失败: 缺少 snapshot.usearch"
  else if r.saw .dedup = false then r.reject "InstallSnapshot 失败: 缺少 dedup.bin"
  else .ok r

end Receiver

/-! ## What the two sides agree on -/

/-- Chunks that hold a file from an offset on. Only the last of them can end the stream. -/
inductive Carries (header : SnapshotHeader) (leaderTerm : Nat) (fileName : String) (isLast : Bool) :
    Nat → Bytes → List SnapshotChunk → Prop where
  | last (offset : Nat) (data : Bytes) :
    Carries header leaderTerm fileName isLast offset data
      [Producer.chunk header leaderTerm fileName offset data isLast]
  | more (offset : Nat) (data rest : Bytes) (chunks : List SnapshotChunk)
    (h : Carries header leaderTerm fileName isLast (offset + data.length) rest chunks) :
    Carries header leaderTerm fileName isLast offset (data ++ rest)
      (Producer.chunk header leaderTerm fileName offset data false :: chunks)

namespace Producer

variable {header : SnapshotHeader} {leaderTerm : Nat}

theorem kInstallSnapshotChunkBytes_pos : 0 < kInstallSnapshotChunkBytes := by decide

/-- A file that is at its start or not at its end gives the bytes at its position. -/
theorem nextChunk_cons (file : StreamFile) (rest : List StreamFile)
    (hpos : file.stream.pos = 0 ∨ file.stream.pos < file.stream.bytes.length) :
    let left := file.stream.bytes.drop file.stream.pos
    let data := left.take kInstallSnapshotChunkBytes
    (left = data ∧ nextChunk header leaderTerm (file :: rest) =
        .ok (some (chunk header leaderTerm file.name file.stream.pos data rest.isEmpty), rest)) ∨
      (left ≠ data ∧ ∃ stream : InputStream UInt8, stream.bytes = file.stream.bytes ∧
        stream.pos = file.stream.pos + data.length ∧ nextChunk header leaderTerm (file :: rest) =
          .ok (some (chunk header leaderTerm file.name file.stream.pos data false), ⟨file.name, stream⟩ :: rest)) := by
  intro left data
  have hpeek := InputStream.peek_read_clear file.stream kInstallSnapshotChunkBytes
  have hframe := InputStream.peek_frame (file.stream.clear.read kInstallSnapshotChunkBytes).1
  have hread := InputStream.read_clear file.stream kInstallSnapshotChunkBytes
  have hoffset : file.stream.clear.tellg.getD 0 = file.stream.pos := rfl
  rw [nextChunk]
  dsimp only
  by_cases hempty : data.length = 0
  · have hdata : data = [] := List.length_eq_zero_iff.mp hempty
    have hleft : left = [] := by
      rcases List.take_eq_nil_iff.mp hdata with hzero | hnil
      · exact absurd hzero (Nat.ne_of_gt kInstallSnapshotChunkBytes_pos)
      · exact hnil
    have hzero : file.stream.pos = 0 := by
      have hlen := congrArg List.length hleft
      rw [List.length_drop, List.length_nil] at hlen
      omega
    refine .inl ⟨hleft.trans hdata.symm, ?_⟩
    have heof : (file.stream.clear.read kInstallSnapshotChunkBytes).1.eof = true := by
      rw [hread]
      exact decide_eq_true (hempty.symm ▸ kInstallSnapshotChunkBytes_pos)
    have hbuffer : (file.stream.clear.read kInstallSnapshotChunkBytes).2.length = 0 := by
      rw [hread]
      exact hempty
    rw [if_pos hbuffer, if_pos heof, if_pos (hoffset.trans hzero), hdata, hzero]
  · have hbuffer : ¬ (file.stream.clear.read kInstallSnapshotChunkBytes).2.length = 0 := by
      rw [hread]
      exact hempty
    have hchunk : (file.stream.clear.read kInstallSnapshotChunkBytes).2 = data := by rw [hread]
    rw [if_neg hbuffer, hchunk, hoffset]
    by_cases hfinished : left = data
    · refine .inl ⟨hfinished, ?_⟩
      rw [hpeek.mpr hfinished]
      rfl
    · refine .inr ⟨hfinished, _, hframe.1.trans (by rw [hread]), hframe.2.trans (by rw [hread]), ?_⟩
      obtain ⟨b, hb⟩ := Option.ne_none_iff_exists'.mp (fun hnone => hfinished (hpeek.mp hnone))
      rw [hb]
      rfl

theorem installSnapshot_of_produce {p p' : Producer} {c : SnapshotChunk} (h : p.produce = .ok (p', some c)) (fuel : Nat) :
    installSnapshot (fuel + 1) p = (installSnapshot fuel p').map (Except.map (c :: ·)) := by
  rw [installSnapshot, h]

theorem map_map_append (o : Option (Except String (List SnapshotChunk))) (c : SnapshotChunk) (cs : List SnapshotChunk) :
    (o.map (Except.map (cs ++ ·))).map (Except.map (c :: ·)) = o.map (Except.map ((c :: cs) ++ ·)) := by
  rcases o with _ | e | l
  · rfl
  · rfl
  · rfl

/-- Until a file is through, the chunks written carry what is left of it. -/
theorem installSnapshot_file (left : Nat) (p : Producer) (file : StreamFile) (rest : List StreamFile)
    (hfiles : p.files = file :: rest) (hterminal : p.emittedTerminalChunk = false)
    (hpos : file.stream.pos = 0 ∨ file.stream.pos < file.stream.bytes.length)
    (hleft : file.stream.bytes.length - file.stream.pos = left) :
    ∃ chunks, Carries p.header p.leaderTerm file.name rest.isEmpty file.stream.pos
        (file.stream.bytes.drop file.stream.pos) chunks ∧ chunks.length ≤ left + 1 ∧
      ∀ fuel, installSnapshot (fuel + chunks.length) p =
        (installSnapshot fuel { p with files := rest, emittedTerminalChunk := rest.isEmpty }).map
          (Except.map (chunks ++ ·)) := by
  induction left using Nat.strong_induction_on generalizing p file with
  | _ left ih =>
    rcases @nextChunk_cons p.header p.leaderTerm file rest hpos with ⟨hall, hnext⟩ | ⟨hmore, stream, hbytes, hat, hnext⟩
    · refine ⟨_, .last _ _, Nat.le_add_left 1 left, fun fuel => ?_⟩
      have hproduce : p.produce = .ok ({ p with files := rest, emittedTerminalChunk := rest.isEmpty },
          some (chunk p.header p.leaderTerm file.name file.stream.pos
            (file.stream.bytes.drop file.stream.pos) rest.isEmpty)) := by
        rw [produce, if_neg (by simp [hterminal]), hfiles, hnext, ← hall]
        rfl
      rw [List.length_singleton, installSnapshot_of_produce hproduce]
      rfl
    · have hproduce : p.produce = .ok ({ p with files := ⟨file.name, stream⟩ :: rest },
          some (chunk p.header p.leaderTerm file.name file.stream.pos
            ((file.stream.bytes.drop file.stream.pos).take kInstallSnapshotChunkBytes) false)) := by
        rw [produce, if_neg (by simp [hterminal]), hfiles, hnext]
        simp only [chunk, hterminal]
      have hlong : kInstallSnapshotChunkBytes < (file.stream.bytes.drop file.stream.pos).length := by
        by_contra hshort
        exact hmore (List.take_of_length_le (by omega)).symm
      have htaken : ((file.stream.bytes.drop file.stream.pos).take kInstallSnapshotChunkBytes).length =
          kInstallSnapshotChunkBytes := by
        rw [List.length_take]
        omega
      have hsize := kInstallSnapshotChunkBytes_pos
      rw [htaken] at hat
      rw [List.length_drop] at hlong
      obtain ⟨chunks, hcarries, hlength, hrun⟩ := ih (left - kInstallSnapshotChunkBytes) (by omega)
        { p with files := ⟨file.name, stream⟩ :: rest } ⟨file.name, stream⟩ rfl hterminal
        (by rw [hbytes, hat]; omega) (by rw [hbytes, hat]; omega)
      simp only [hbytes, hat] at hcarries
      have hsplit : file.stream.bytes.drop file.stream.pos =
          (file.stream.bytes.drop file.stream.pos).take kInstallSnapshotChunkBytes ++
            file.stream.bytes.drop (file.stream.pos + kInstallSnapshotChunkBytes) := by
        rw [← List.drop_drop, List.take_append_drop]
      have hfirst := Carries.more file.stream.pos
        ((file.stream.bytes.drop file.stream.pos).take kInstallSnapshotChunkBytes) _ chunks (htaken.symm ▸ hcarries)
      rw [htaken, ← hsplit] at hfirst
      refine ⟨_, hfirst, ?_, fun fuel => ?_⟩
      · rw [List.length_cons]
        omega
      · rw [List.length_cons, ← Nat.add_assoc, installSnapshot_of_produce hproduce, hrun, map_map_append]

/-- The whole stream: the chunks of the one file and then those of the other. -/
theorem installSnapshot_start (snapshot dedup : Bytes) :
    ∃ cs ds, Carries header leaderTerm "snapshot.usearch" false 0 snapshot cs ∧
      Carries header leaderTerm "dedup.bin" true 0 dedup ds ∧
      ∀ fuel, snapshot.length + dedup.length + 3 ≤ fuel →
        installSnapshot fuel (start header leaderTerm snapshot dedup) = some (.ok (cs ++ ds)) := by
  obtain ⟨cs, hcs, hclen, hcrun⟩ := installSnapshot_file snapshot.length (start header leaderTerm snapshot dedup)
    ⟨"snapshot.usearch", { bytes := snapshot }⟩ [⟨"dedup.bin", { bytes := dedup }⟩] rfl rfl (.inl rfl) rfl
  obtain ⟨ds, hds, hdlen, hdrun⟩ := installSnapshot_file dedup.length
    { header, leaderTerm, files := [⟨"dedup.bin", { bytes := dedup }⟩] }
    ⟨"dedup.bin", { bytes := dedup }⟩ [] rfl rfl (.inl rfl) rfl
  refine ⟨cs, ds, hcs, hds, fun fuel hfuel => ?_⟩
  obtain ⟨extra, rfl⟩ : ∃ extra, fuel = extra + 1 + ds.length + cs.length :=
    ⟨fuel - 1 - ds.length - cs.length, by omega⟩
  have hend : installSnapshot (extra + 1) { header, leaderTerm, files := [], emittedTerminalChunk := true } =
      some (.ok []) := rfl
  rw [hcrun]
  change ((installSnapshot (extra + 1 + ds.length) { header, leaderTerm, files := [⟨"dedup.bin", { bytes := dedup }⟩] }).map
    (Except.map (cs ++ ·))) = _
  rw [hdrun]
  change (((installSnapshot (extra + 1) { header, leaderTerm, files := [], emittedTerminalChunk := true }).map
    (Except.map (ds ++ ·))).map (Except.map (cs ++ ·))) = _
  rw [hend]
  simp only [Option.map_some, Except.map, List.append_nil]

end Producer

/-- Only the last chunk of a file can end the stream, and does so as it is told. -/
theorem Carries.ends {header : SnapshotHeader} {leaderTerm offset : Nat} {fileName : String} {isLast : Bool}
    {bytes : Bytes} {chunks : List SnapshotChunk} (h : Carries header leaderTerm fileName isLast offset bytes chunks) :
    ∃ front final, chunks = front ++ [final] ∧ final.isLast = isLast ∧ ∀ c ∈ front, c.isLast = false := by
  induction h with
  | last offset data => exact ⟨[], _, rfl, rfl, fun c hc => by cases hc⟩
  | more offset data rest chunks _ ih =>
    obtain ⟨front, final, rfl, hfinal, hfront⟩ := ih
    refine ⟨_ :: front, final, rfl, hfinal, fun c hc => ?_⟩
    rcases List.mem_cons.mp hc with rfl | hc
    · rfl
    · exact hfront c hc

namespace Receiver

variable {header : SnapshotHeader} {leaderTerm : Nat} {fileName : String} {target : TemporaryFile} {r : Receiver}

/-- The receiver has taken the header of this stream. -/
structure Joined (r : Receiver) (header : SnapshotHeader) (leaderTerm : Nat) : Prop where
  hasChunk : r.hasChunk = true
  term : r.streamLeaderTerm = incomingLeaderTerm header leaderTerm
  header : r.header = header

theorem Joined.checkHeader (h : r.Joined header leaderTerm) (offset : Nat) (data : Bytes) (isLast : Bool) :
    r.checkHeader (Producer.chunk header leaderTerm fileName offset data isLast) = .ok r := by
  unfold Receiver.checkHeader
  simp only [Producer.chunk, h.hasChunk, h.header, h.term, reduceCtorEq, if_false, ne_eq, not_true, or_self]

theorem takeHeader_ok {term : Nat} (hterm : r.node.currentTerm ≤ term) :
    ∃ node, r.takeHeader header term = .ok { r with node, header } := by
  rw [takeHeader, if_neg (Nat.not_lt.mpr hterm)]
  split
  · next err herr =>
    split at herr
    · rw [Node.becomeFollower, if_neg (Nat.not_lt.mpr hterm)] at herr
      cases herr
    · cases herr
  · next node _ => exact ⟨node, rfl⟩

/-- The first chunk of a leader that the receiver's term does not exceed is taken. -/
theorem checkHeader_first (hfirst : r.hasChunk = false) (hterm : r.node.currentTerm ≤ leaderTerm) (offset : Nat)
    (data : Bytes) (isLast : Bool) :
    ∃ r', r.checkHeader (Producer.chunk header leaderTerm fileName offset data isLast) = .ok r' ∧
      r'.Joined header leaderTerm ∧ r'.tmp = r.tmp ∧ r'.saw = r.saw ∧ r'.currentFileName = r.currentFileName := by
  have hle : r.node.currentTerm ≤ incomingLeaderTerm header leaderTerm := by
    unfold incomingLeaderTerm
    split
    · omega
    · exact hterm
  obtain ⟨node, hnode⟩ := @takeHeader_ok header
    { r with hasChunk := true, streamLeaderTerm := incomingLeaderTerm header leaderTerm } _ hle
  have hcheck : r.checkHeader (Producer.chunk header leaderTerm fileName offset data isLast) = .ok
      { r with node, header, hasChunk := true, streamLeaderTerm := incomingLeaderTerm header leaderTerm } := by
    rw [Receiver.checkHeader, if_pos hfirst]
    exact hnode
  exact ⟨_, hcheck, ⟨rfl, rfl, rfl⟩, rfl, rfl, rfl⟩

/-- The receiver is in the middle of a file. -/
structure Writing (r : Receiver) (fileName : String) (target : TemporaryFile) (offset : Nat) (written : Bytes) : Prop where
  name : r.currentFileName = fileName
  offset : r.expectedOffset = offset
  file : r.tmp target = some written
  saw : r.saw target = true

/-- What the rest of a stream does not change of the receiver. -/
structure Frame (r r' : Receiver) (target : TemporaryFile) : Prop where
  tmp : ∀ t, t ≠ target → r'.tmp t = r.tmp t
  saw : ∀ t, t ≠ target → r'.saw t = r.saw t

/-- A chunk with the next bytes of the open file, or the first one of another file. -/
theorem receiveChunk_spec {r₁ : Receiver} {offset : Nat} (written : Bytes) {data : Bytes} {isLast : Bool}
    (hcheck : r.checkHeader (Producer.chunk header leaderTerm fileName offset data isLast) = .ok r₁)
    (hne : fileName ≠ "") (htarget : targetFile fileName = some target)
    (hat : r₁.Writing fileName target offset written ∨
      (r₁.currentFileName ≠ fileName ∧ offset = 0 ∧ written = [])) :
    ∃ r', r.receiveChunk (Producer.chunk header leaderTerm fileName offset data isLast) = .ok r' ∧
      (r₁.Joined header leaderTerm → r'.Joined header leaderTerm) ∧
      r'.Writing fileName target (offset + data.length) (written ++ data) ∧
      r'.streamFinished = isLast ∧ r₁.Frame r' target := by
  have hname : (if (Producer.chunk header leaderTerm fileName offset data isLast).fileName = "" then "snapshot.usearch"
      else (Producer.chunk header leaderTerm fileName offset data isLast).fileName) = fileName := if_neg hne
  unfold receiveChunk
  rw [hcheck]
  simp only [bind, Except.bind, hname, htarget]
  rcases hat with hw | ⟨hother, rfl, rfl⟩
  · rw [openTarget, if_neg (by simp [hw.name])]
    dsimp only
    rw [writeChunk, if_neg (by simp [Producer.chunk, hw.offset])]
    refine ⟨_, rfl, fun hj => ⟨hj.hasChunk, hj.term, hj.header⟩, ⟨hw.name, ?_, ?_, ?_⟩, rfl, ⟨?_, ?_⟩⟩
    · simp only [hw.offset, Producer.chunk]
    · simp only [Function.update_self, hw.file, Option.map_some, Producer.chunk]
    · simp only [Function.update_self]
    · intro t ht
      simp only [Function.update_of_ne ht]
    · intro t ht
      simp only [Function.update_of_ne ht]
  · rw [openTarget, if_pos hother, if_neg (by simp [Producer.chunk])]
    dsimp only
    rw [writeChunk, if_neg (by simp [Producer.chunk])]
    refine ⟨_, rfl, fun hj => ⟨hj.hasChunk, hj.term, hj.header⟩, ⟨rfl, ?_, ?_, ?_⟩, rfl, ⟨?_, ?_⟩⟩
    · simp only [Producer.chunk]
    · simp only [Function.update_self, Option.map_some, Producer.chunk]
    · simp only [Function.update_self]
    · intro t ht
      simp only [Function.update_of_ne ht]
    · intro t ht
      simp only [Function.update_of_ne ht]

theorem Frame.trans {r₁ r₂ r₃ : Receiver} (h : r₁.Frame r₂ target) (h' : r₂.Frame r₃ target) : r₁.Frame r₃ target :=
  ⟨fun t ht => (h'.tmp t ht).trans (h.tmp t ht), fun t ht => (h'.saw t ht).trans (h.saw t ht)⟩

/-- The rest of a file is appended to what has been written of it. -/
theorem receive_rest {offset : Nat} {bytes : Bytes} (written : Bytes) {isLast : Bool} {chunks : List SnapshotChunk}
    (h : Carries header leaderTerm fileName isLast offset bytes chunks) (hj : r.Joined header leaderTerm)
    (hne : fileName ≠ "") (htarget : targetFile fileName = some target)
    (hat : r.Writing fileName target offset written ∨ (r.currentFileName ≠ fileName ∧ offset = 0 ∧ written = [])) :
    ∃ r' end', chunks.foldlM receiveChunk r = .ok r' ∧ r'.Joined header leaderTerm ∧
      r'.Writing fileName target end' (written ++ bytes) ∧ r'.streamFinished = isLast ∧ r.Frame r' target := by
  induction h generalizing r written with
  | last offset data =>
    obtain ⟨r', hr, hj', hw, hfin, hframe⟩ := receiveChunk_spec written (hj.checkHeader offset data isLast) hne htarget hat
    refine ⟨r', _, ?_, hj' hj, hw, hfin, hframe⟩
    rw [List.foldlM_cons, hr]
    rfl
  | more offset data rest chunks _ ih =>
    obtain ⟨r₁, hr, hj', hw, -, hframe⟩ := receiveChunk_spec written (hj.checkHeader offset data false) hne htarget hat
    obtain ⟨r', end', hrest, hj'', hw', hfin, hframe'⟩ := ih (written ++ data) (hj' hj) (.inl hw)
    rw [List.append_assoc] at hw'
    refine ⟨r', end', ?_, hj'', hw', hfin, hframe.trans hframe'⟩
    rw [List.foldlM_cons, hr]
    exact hrest

/-- The first file of a stream, from its first chunk on. -/
theorem receive_first {bytes : Bytes} {isLast : Bool} {chunks : List SnapshotChunk}
    (h : Carries header leaderTerm fileName isLast 0 bytes chunks) (hfirst : r.hasChunk = false)
    (hterm : r.node.currentTerm ≤ leaderTerm) (hname : r.currentFileName ≠ fileName)
    (hne : fileName ≠ "") (htarget : targetFile fileName = some target) :
    ∃ r' end', chunks.foldlM receiveChunk r = .ok r' ∧ r'.Joined header leaderTerm ∧
      r'.Writing fileName target end' bytes ∧ r.Frame r' target := by
  cases h with
  | last _ data =>
    obtain ⟨r₁, hcheck, hj, htmp, hsaw, hcur⟩ := checkHeader_first hfirst hterm 0 bytes isLast
    obtain ⟨r', hr, hj', hw, -, hframe⟩ := receiveChunk_spec [] hcheck hne htarget
      (.inr ⟨hcur ▸ hname, rfl, rfl⟩)
    refine ⟨r', _, ?_, hj' hj, hw, ⟨fun t ht => ?_, fun t ht => ?_⟩⟩
    · rw [List.foldlM_cons, hr]
      rfl
    · rw [hframe.tmp t ht, htmp]
    · rw [hframe.saw t ht, hsaw]
  | more _ data rest chunks hrest =>
    obtain ⟨r₁, hcheck, hj, htmp, hsaw, hcur⟩ := checkHeader_first hfirst hterm 0 data false
    obtain ⟨r₂, hr, hj', hw, -, hframe⟩ := receiveChunk_spec [] hcheck hne htarget
      (.inr ⟨hcur ▸ hname, rfl, rfl⟩)
    obtain ⟨r', end', hrun, hj'', hw', -, hframe'⟩ := receive_rest ([] ++ data) hrest (hj' hj) hne htarget (.inl hw)
    refine ⟨r', end', ?_, hj'', hw', ⟨fun t ht => ?_, fun t ht => ?_⟩⟩
    · rw [List.foldlM_cons, hr]
      exact hrun
    · rw [(hframe.trans hframe').tmp t ht, htmp]
    · rw [(hframe.trans hframe').saw t ht, hsaw]

end Receiver

/-- Whatever the two files hold, the chunks that the sender writes are accepted and put
the same files together on the other side. -/
theorem snapshot_stream_round_trips (snapshot dedup : Bytes) (header : SnapshotHeader) (leaderTerm : Nat) (n : Node)
    (tmp : TemporaryFile → Option Bytes) (hterm : n.currentTerm ≤ leaderTerm) :
    ∃ chunks r,
      (∀ fuel, snapshot.length + dedup.length + 3 ≤ fuel →
        (Producer.start header leaderTerm snapshot dedup).installSnapshot fuel = some (.ok chunks)) ∧
      (∃ front final, chunks = front ++ [final] ∧ final.isLast = true ∧ ∀ c ∈ front, c.isLast = false) ∧
      Receiver.receiveStream { node := n, tmp } chunks = .ok r ∧
      r.tmp .snapshot = some snapshot ∧ r.tmp .dedup = some dedup ∧ r.header = header := by
  obtain ⟨cs, ds, hcs, hds, hrun⟩ := @Producer.installSnapshot_start header leaderTerm snapshot dedup
  obtain ⟨r₁, _, hfirst, hj, hw, -⟩ := Receiver.receive_first (r := { node := n, tmp }) hcs rfl hterm
    (show "" ≠ "snapshot.usearch" by decide) (by decide) (show _ = some TemporaryFile.snapshot from rfl)
  have hname : r₁.currentFileName ≠ "dedup.bin" := by
    rw [hw.name]
    decide
  obtain ⟨r, _, hrest, hj', hw', hfin, hframe⟩ := Receiver.receive_rest [] hds hj (by decide)
    (show _ = some TemporaryFile.dedup from rfl) (.inr ⟨hname, rfl, rfl⟩)
  obtain ⟨front, final, hend, hlast, hfront⟩ := hds.ends
  obtain ⟨front', final', hend', hlast', hfront'⟩ := hcs.ends
  refine ⟨cs ++ ds, r, hrun, ⟨cs ++ front, final, by rw [hend, List.append_assoc], hlast, fun c hc => ?_⟩, ?_, ?_,
    hw'.file, hj'.header⟩
  · rcases List.mem_append.mp hc with hc | hc
    · rw [hend'] at hc
      rcases List.mem_append.mp hc with hc | hc
      · exact hfront' c hc
      · rw [List.mem_singleton.mp hc, hlast']
    · exact hfront c hc
  · have hall : (cs ++ ds).foldlM Receiver.receiveChunk { node := n, tmp } = .ok r := by
      rw [List.foldlM_append, hfirst]
      exact hrest
    have hsaw : r.saw .snapshot = true := (hframe.saw .snapshot (by decide)).trans hw.saw
    unfold Receiver.receiveStream
    rw [hall]
    simp only [bind, Except.bind, hj'.hasChunk, hfin, hsaw, hw'.saw, reduceCtorEq, if_false]
  · exact (hframe.tmp .snapshot (by decide)).trans hw.file

/-- An index file without a byte and a short dedup file, to a new node. -/
theorem snapshot_stream_round_trips_empty_index :
    ∃ chunks r,
      (Producer.start { raftTerm := 1, raftIndex := 4, dim := 3, metric := "cos", dataType := "f32" } 2 [] [7, 8]).installSnapshot 5 =
        some (.ok chunks) ∧
      Receiver.receiveStream { node := Node.create { nodeId := "B", peers := ["A", "C"] } {} {} none, tmp := fun _ => none }
        chunks = .ok r ∧
      r.tmp .snapshot = some [] ∧ r.tmp .dedup = some [7, 8] ∧ r.header.dim = 3 := by
  obtain ⟨chunks, r, hrun, -, hreceive, hsnapshot, hdedup, hheader⟩ := snapshot_stream_round_trips [] [7, 8]
    { raftTerm := 1, raftIndex := 4, dim := 3, metric := "cos", dataType := "f32" } 2
    (Node.create { nodeId := "B", peers := ["A", "C"] } {} {} none) (fun _ => none) (by decide)
  exact ⟨chunks, r, hrun 5 (by decide), hreceive, hsnapshot, hdedup, by rw [hheader]⟩

end RaftVdb
