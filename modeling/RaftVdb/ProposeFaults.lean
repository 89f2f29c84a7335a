import RaftVdb.CommitProgress
import RaftVdb.WalFaults

/-!
# Proposals that fail

`Propose` of a leader over its write-ahead log with the files. `Append` may fail in any of
its system calls, and `Flush` in `fdatasync`. By then the entry is in `offset_index_`, where
replication finds it, and the request is pending in the dedup table; the error path takes
neither back.
-/

namespace RaftVdb

open Lib

/-- The text of the error, without that of `errno`. -/
def Wal.Fault.message : Wal.Fault → String
  | .close _ => "关闭文件失败"
  | .createOpen => "打开文件失败"
  | .createClose => "关闭文件失败"
  | .openActive => "打开文件失败"
  | .seek _ => "定位 WAL 活动段写指针失败"
  | .write _ => "WAL 写入失败"

namespace Node

inductive ProposeFault where
  | append (fault : Wal.Fault)
  | flush
  deriving DecidableEq, Repr

/-- The entry as `Propose` appends it. -/
def nextEntry (n : Node) (e : LogEntry) : LogEntry := { e with index := n.logicalLastIndex + 1, term := n.currentTerm }

/-- `Propose` with the call that fails, if any; `none` if it does not come to that call. -/
def proposeOn (entryCodec : EntryCodec) (codec : CommandCodec) (n : Node) (h : Wal.Handle) (e : LogEntry)
    (fault : Option ProposeFault) : Option (Node × Wal.Handle × Except String Nat) :=
  if n.state ≠ .leader then some (n, h, .error "当前节点不是 Leader，无法执行 Propose")
  else match fault with
    | some (.append fault) =>
      (h.wal.failAppend entryCodec (n.nextEntry e) fault).map fun h' => (n, h', .error fault.message)
    | _ => match h.wal.append entryCodec (n.nextEntry e) with
      | .error err => some (n, h, .error err)
      | .ok w =>
        let m := (n.proposeAppend codec e).1
        match fault, w.flush with
        | some _, _ => some (m, ⟨w, false⟩, .error "fdatasync 失败")
        | none, .error err => some (m, ⟨w, false⟩, .error err)
        | none, .ok w => some (m.proposeFlush (n.nextEntry e).index, ⟨w, false⟩, .ok (n.nextEntry e).index)

/-- The WAL holds the log of the node. -/
structure Backed (entryCodec : EntryCodec) (n : Node) (h : Wal.Handle) : Prop where
  valid : h.stale = false
  stored : Wal.Stored entryCodec h.wal n.log.entries
  last : h.wal.lastIndex = n.log.lastIndex

/-- The entries that `ReplicationLoop` may send are those that the WAL reads. -/
def Sendable (entryCodec : EntryCodec) (h : Wal.Handle) (e : LogEntry) : Prop := ∃ i, h.read entryCodec i = .ok e

structure Unaffected (entryCodec : EntryCodec) (n : Node) (h : Wal.Handle) (n' : Node) (h' : Wal.Handle) : Prop where
  log : n'.log = n.log
  read : ∀ i, h'.read entryCodec i = h.read entryCodec i
  lastIndex : h'.wal.lastIndex = h.wal.lastIndex
  logicalLastIndex : n'.logicalLastIndex = n.logicalLastIndex
  dedup : n'.dedup = n.dedup
  sendable : ∀ x, Sendable entryCodec h' x ↔ Sendable entryCodec h x

/-- The calls of a later time read only what could be read before `Propose`, and what they
append themselves. -/
def Forgotten (entryCodec : EntryCodec) (h h' : Wal.Handle) : Prop :=
  ∀ actions h₁, (∀ x, .call (.append x) ∈ actions → entryCodec.RoundTrips x) →
    Transition.run (Transition.restrict Wal.Handle.Harmless (Wal.Handle.step entryCodec)) h' actions = some h₁ →
    ∀ i x, h₁.read entryCodec i = .ok x → Sendable entryCodec h x ∨ .call (.append x) ∈ actions

/-- The WAL still holds the log and nothing else, so the entry is not there later either. -/
structure NoEffect (entryCodec : EntryCodec) (n : Node) (h : Wal.Handle) (n' : Node) (h' : Wal.Handle) : Prop where
  unaffected : Unaffected entryCodec n h n' h'
  backed : Backed entryCodec n' h'
  forgotten : Forgotten entryCodec h h'

/-- The failing call leaves no trace in the WAL, and it is not the `fdatasync` behind an
`Append` that succeeds. -/
def Spared (entryCodec : EntryCodec) (n : Node) (h : Wal.Handle) (e : LogEntry) : Option ProposeFault → Prop
  | none => True
  | some (.append fault) => h.wal.Traceless (Wal.record (entryCodec.serialize (n.nextEntry e))).length fault
  | some .flush => ¬ Wal.Session.Accepts entryCodec h.wal (n.nextEntry e)

variable {entryCodec : EntryCodec} {codec : CommandCodec} {n n' : Node} {h h' : Wal.Handle} {e : LogEntry}

theorem Unaffected.of_read (hread : ∀ i, h'.read entryCodec i = h.read entryCodec i)
    (hlast : h'.wal.lastIndex = h.wal.lastIndex) : Unaffected entryCodec n h n h' :=
  ⟨rfl, hread, hlast, rfl, rfl, fun x => exists_congr fun i => by rw [hread]⟩

theorem Backed.forgotten (hbacked : Backed entryCodec n h) (hbacked' : Backed entryCodec n h') :
    Forgotten entryCodec h h' := by
  intro actions h₁ hround hrun i x hread
  have hsound : Wal.Handle.Sound entryCodec (fun y => Sendable entryCodec h y ∨ .call (.append y) ∈ actions) h₁ := by
    refine Wal.Handle.Sound.run ⟨hbacked'.valid, _, hbacked'.stored, fun y hy => .inl ⟨y.index, ?_⟩⟩ hround
      (fun _ => .inr) hrun
    rw [Wal.Handle.read_of_not_stale _ _ hbacked.valid, hbacked.stored.read_eq_ok]
    exact ⟨hy, rfl⟩
  exact hsound.read hread

theorem Backed.noEffect (hbacked : Backed entryCodec n h) : NoEffect entryCodec n h n h :=
  ⟨.of_read (fun _ => rfl) rfl, hbacked, hbacked.forgotten hbacked⟩

/-- `Append` leaves an open descriptor, so `Flush` fails only in `fdatasync`. -/
theorem flush_of_append {w w' : Wal} (hok : w.append entryCodec e = .ok w') : ∃ w'', w'.flush = .ok w'' := by
  obtain ⟨hacc, hpayload, hlength⟩ := Wal.accepts_of_append hok
  obtain ⟨w₁, fd, active, hensure, hfd, hactive⟩ :=
    Wal.ensureActive_ok w e.index (Wal.record (entryCodec.serialize e)).length
  rw [Wal.append, if_neg fun hn => hn.2 (hacc hn.1)] at hok
  simp only at hok
  rw [if_neg hpayload, if_neg (by omega), hensure] at hok
  simp only [hfd, hactive] at hok
  cases hok
  exact ⟨_, rfl⟩

theorem accepts_iff_append {w : Wal} : Wal.Session.Accepts entryCodec w e ↔ ∃ w', w.append entryCodec e = .ok w' := by
  constructor
  · intro hacc
    obtain ⟨w', hok, -⟩ := Wal.append_of_accepts hacc
    exact ⟨w', hok⟩
  · rintro ⟨w', hok⟩
    exact Wal.accepts_of_append hok

/-- When `Propose` returns an error, log, `LogicalLastIndex()`, dedup table and what
replication may send are as before, and the WAL never reads the entry later, exactly if the
failure is spared; then no field of the node has changed. -/
theorem failed_propose_unaffected_iff (entryCodec : EntryCodec) (codec : CommandCodec) (n n' : Node)
    (h h' : Wal.Handle) (e : LogEntry) (fault : Option ProposeFault) (err : String) (hleader : n.state = .leader)
    (hbacked : Backed entryCodec n h) (hfailed : n.proposeOn entryCodec codec h e fault = some (n', h', .error err)) :
    (NoEffect entryCodec n h n' h' ↔ Spared entryCodec n h e fault) ∧
      (Spared entryCodec n h e fault → n' = n) := by
  unfold proposeOn at hfailed
  rw [if_neg (not_not.mpr hleader)] at hfailed
  have hread := Wal.Handle.read_of_not_stale entryCodec h hbacked.valid
  have hnew : (n.nextEntry e).index ≠ h.wal.lastIndex := by
    have hle : n.log.lastIndex ≤ n.logicalLastIndex := Nat.le_max_right _ _
    have hindex : (n.nextEntry e).index = n.logicalLastIndex + 1 := rfl
    rw [hbacked.last]
    omega
  cases fault with
  | none =>
    simp only at hfailed
    split at hfailed
    · cases hfailed
      exact ⟨iff_of_true hbacked.noEffect trivial, fun _ => rfl⟩
    · next w hok =>
      obtain ⟨w', hflush⟩ := flush_of_append hok
      rw [hflush] at hfailed
      cases hfailed
  | some fault =>
    cases fault with
    | append fault =>
      obtain ⟨h₁, hfail, heq⟩ := Option.map_eq_some_iff.mp hfailed
      cases heq
      obtain ⟨hlast, hiff⟩ := hbacked.stored.failAppend_read_iff hfail
      simp only [← hread] at hiff
      have hstored := hbacked.stored.failAppend_stored_iff hfail
      refine ⟨⟨fun hn => hstored.mp ⟨hn.backed.valid, hn.backed.stored⟩, fun hs => ?_⟩, fun _ => rfl⟩
      obtain ⟨hvalid, hkept⟩ := hstored.mpr hs
      have hbacked' : Backed entryCodec n h' := ⟨hvalid, hkept, hlast.trans hbacked.last⟩
      exact ⟨.of_read (hiff.mpr hs.not_blinds) hlast, hbacked', hbacked.forgotten hbacked'⟩
    | flush =>
      simp only at hfailed
      split at hfailed
      · next hrefused =>
        cases hfailed
        have hspared : Spared entryCodec n h e (some .flush) := by
          rw [Spared, accepts_iff_append]
          rintro ⟨w', hok⟩
          rw [hrefused] at hok
          cases hok
        exact ⟨iff_of_true hbacked.noEffect hspared, fun _ => rfl⟩
      · next w hok =>
        cases hfailed
        have hacc := Wal.accepts_of_append hok
        obtain ⟨w₁, hok', hindex, -⟩ := Wal.append_of_accepts hacc
        rw [hok] at hok'
        cases hok'
        refine ⟨iff_of_false ?_ (not_not.mpr hacc), fun hs => absurd hacc hs⟩
        intro hn
        exact hnew (hindex.symm.trans hn.unaffected.lastIndex)

/-- Without a failing call, a `Propose` that succeeds is that of the node. -/
theorem Backed.propose_ok {i : Nat} (hbacked : Backed entryCodec n h) (hknown : Wal.Known e)
    (hround : entryCodec.RoundTrips (n.nextEntry e)) (hfirst : n.log.entries = [] → h.wal.start ≤ n.logicalLastIndex + 1)
    (hok : n.proposeOn entryCodec codec h e none = some (n', h', .ok i)) :
    n.propose codec e = (n', .ok i) ∧ Backed entryCodec n' h' := by
  unfold proposeOn at hok
  split at hok
  · cases hok
  next hleader =>
  simp only at hok
  split at hok
  · cases hok
  next w happend =>
  split at hok
  · next hsome => cases hsome
  · cases hok
  next w' _ hflush =>
  cases hok
  have hacc := Wal.accepts_of_append happend
  obtain ⟨w₁, happend', hstored, hindex⟩ := hbacked.stored.append hacc hknown hround fun hnil =>
    ⟨Nat.succ_pos _, hfirst hnil⟩
  rw [happend] at happend'
  cases happend'
  have hlog : n.log.append (n.nextEntry e) = .ok ⟨n.log.entries ++ [n.nextEntry e], (n.nextEntry e).index⟩ := by
    rw [IndexedLog.append, if_neg]
    rintro ⟨hne, hgap⟩
    refine hgap ?_
    rw [hacc.1 fun hzero => hne (hbacked.stored.size_eq_zero.mp hzero), hbacked.last]
  obtain ⟨m, hm, hmlog⟩ : ∃ m, n.proposeAppend codec e = (m, .ok (n.nextEntry e).index) ∧
      m.log = ⟨n.log.entries ++ [n.nextEntry e], (n.nextEntry e).index⟩ := by
    unfold proposeAppend
    rw [if_neg hleader]
    dsimp only
    rw [show n.log.append { e with index := n.logicalLastIndex + 1, term := n.currentTerm } = _ from hlog]
    exact ⟨_, rfl, rfl⟩
  obtain ⟨hflushed, hlast⟩ := hstored.flush hflush
  rw [hm]
  refine ⟨by rw [propose_eq, hm], rfl, ?_, ?_⟩
  · rw [proposeFlush, hmlog]
    exact hflushed
  · rw [proposeFlush, hmlog, hlast, hindex]

/-- The protobuf encoding of entries whose numbers and whose payload length fit in one byte. -/
def framedCodec : EntryCodec where
  serialize e := Wal.shortCodec.serialize e ++
    if e.payload = [] then [] else 0x2A :: UInt8.ofNat e.payload.length :: e.payload
  parse data :=
    match data.drop 8 with
    | [] => Wal.shortCodec.parse data
    | 0x2A :: _ :: payload => (Wal.shortCodec.parse (data.take 8)).map fun e => { e with payload }
    | _ => none

/-- The first entry of a leader in term 1. -/
def firstNoop : LogEntry := { noopEntry with index := 1, term := 1 }

/-- A write of a client. -/
def clientDelete : LogEntry := { cmdType := .delete, payload := sampleCodec.serializeDelete ⟨7, "r"⟩ }

theorem backed_of_first {w w' : Wal} (hopen : Wal.openWal framedCodec ∅ 1 100 = .ok w)
    (happend : w.append framedCodec firstNoop = .ok w') (hentries : n.log.entries = [firstNoop])
    (hlast : w'.lastIndex = n.log.lastIndex) : Backed framedCodec n ⟨w', false⟩ := by
  have hempty : Wal.Stored framedCodec w [] := ⟨_, .inl (Wal.layout_open_empty hopen).1, rfl⟩
  have hstart : w.start = 1 := (Wal.layout_open_empty hopen).1.start
  obtain ⟨w₁, happend', hstored, -⟩ := hempty.append (Wal.accepts_of_append happend) (by decide) (fun _ => by decide)
    fun _ => ⟨by decide, by rw [hstart]; decide⟩
  rw [happend] at happend'
  cases happend'
  exact ⟨rfl, by rw [hentries]; exact hstored, hlast⟩

set_option maxRecDepth 20000 in
/-- The first write of the record fails. -/
theorem failed_propose_unaffected_at_write : ∃ (s : Leading) (w : Wal) (n' : Node) (h' : Wal.Handle),
    s.node.state = .leader ∧ Backed framedCodec s.node ⟨w, false⟩ ∧
    s.node.proposeOn framedCodec sampleCodec ⟨w, false⟩ clientDelete (some (.append (.write 0))) =
      some (n', h', .error "WAL 写入失败") ∧
    NoEffect framedCodec s.node ⟨w, false⟩ n' h' := by
  obtain ⟨s, w, w', n', h', hrun, hopen, happend, hleader, hentries, hlast, hfailed⟩ : ∃ s w w' n' h',
      Transition.run (Leading.step sampleCodec) { node := Node.create Leading.proposerConfig {} {} none }
        Leading.electedAndCommitted = some s ∧
      Wal.openWal framedCodec ∅ 1 100 = .ok w ∧ w.append framedCodec firstNoop = .ok w' ∧ s.node.state = .leader ∧
      s.node.log.entries = [firstNoop] ∧ w'.lastIndex = s.node.log.lastIndex ∧
      s.node.proposeOn framedCodec sampleCodec ⟨w', false⟩ clientDelete (some (.append (.write 0))) =
        some (n', h', .error "WAL 写入失败") := ⟨_, _, _, _, _, rfl, rfl, rfl, rfl, rfl, rfl, rfl⟩
  have hbacked := backed_of_first hopen happend hentries hlast
  exact ⟨s, w', n', h', hleader, hbacked, hfailed,
    (failed_propose_unaffected_iff _ _ _ _ _ _ _ _ _ hleader hbacked hfailed).1.mpr rfl⟩

set_option maxRecDepth 20000 in
/-- `fdatasync` fails in a cluster of three. The client is told so, but both other nodes get
the entry, and it is committed and executed. -/
theorem failed_propose_is_committed : ∃ s w w' n' h' s' m, Transition.run (Leading.step sampleCodec)
      { node := Node.create Leading.proposerConfig {} {} none } Leading.electedAndCommitted = some s ∧
    Wal.openWal framedCodec ∅ 1 100 = .ok w ∧ w.append framedCodec firstNoop = .ok w' ∧
    s.node.log.entries = [firstNoop] ∧
    s.node.proposeOn framedCodec sampleCodec ⟨w', false⟩ clientDelete (some .flush) =
      some (n', h', .error "fdatasync 失败") ∧
    s.node.logicalLastIndex = 1 ∧ n'.logicalLastIndex = 2 ∧
    s.node.dedup.table.find? "r" = none ∧ n'.dedup.table.find? "r" = some { logIndex := 2 } ∧
    h'.read framedCodec 2 = .ok (s.node.nextEntry clientDelete) ∧
    Transition.run (Leading.step sampleCodec) { s with node := n' }
      [.dispatch "B", .dispatch "C", .deliver 0 (some { term := 1, success := true, matchIndex := 2 }),
        .deliver 0 (some { term := 1, success := true, matchIndex := 2 })] = some s' ∧
    s'.node.commitIndex = 2 ∧
    (s'.node.applyCommittedEntry sampleCodec (.ok ())).bind
      (fun r => r.1.applyCommittedEntry sampleCodec (.ok ())) = some m ∧ m.1.executed = [.delete ⟨7, "r"⟩] :=
  ⟨_, _, _, _, _, _, _, rfl, rfl, rfl, rfl, rfl, rfl, rfl, rfl, rfl, rfl, rfl, rfl, rfl, rfl⟩

end Node

end RaftVdb
