import RaftVdb.Frame
import RaftVdb.LogicalLog
import RaftVdb.WalFaults

/-!
# Entries from the wire

`HandleAppendEntries` over the write-ahead log with the files. The codes of an entry come as
32-bit numbers and are cast to enumerations of eight bits; `Append` writes any code, `Read` and
recovery refuse the ones without an enumerator.
-/

namespace RaftVdb

open Lib

/-- `static_cast<EntryType>` keeps the low eight bits. -/
def EntryType.ofCode (code : UInt32) : EntryType :=
  if code.toUInt8 = 1 then .normal
  else if code.toUInt8 = 2 then .config
  else if code.toUInt8 = 3 then .noop
  else .other code.toUInt8

def CmdType.ofCode (code : UInt32) : CmdType :=
  if code.toUInt8 = 1 then .upsert
  else if code.toUInt8 = 2 then .delete
  else .other code.toUInt8

/-- `static_cast<uint32_t>`. -/
def EntryType.code : EntryType → UInt32
  | .normal => 1
  | .config => 2
  | .noop => 3
  | .other code => code.toUInt32

def CmdType.code : CmdType → UInt32
  | .upsert => 1
  | .delete => 2
  | .other code => code.toUInt32

structure WireEntry where
  index : Nat
  term : Nat
  type : UInt32
  cmdType : UInt32
  payload : Bytes := []
  deriving DecidableEq, Repr

namespace WireEntry

/-- The entry as the handler takes it. -/
def incoming (x : WireEntry) : LogEntry where
  index := x.index
  term := x.term
  type := .ofCode x.type
  cmdType := .ofCode x.cmdType
  payload := x.payload

/-- Both codes have an enumerator. -/
def Known (x : WireEntry) : Prop := (x.type = 1 ∨ x.type = 2 ∨ x.type = 3) ∧ (x.cmdType = 1 ∨ x.cmdType = 2)

instance (x : WireEntry) : Decidable x.Known := by
  unfold Known
  infer_instance

/-- Term, payload and codes are those of the wire. -/
structure Matches (x : WireEntry) (e : LogEntry) : Prop where
  term : e.term = x.term
  payload : e.payload = x.payload
  type : e.type.code = x.type
  cmdType : e.cmdType.code = x.cmdType

variable {x : WireEntry}

theorem Known.incoming (h : x.Known) : Wal.Known x.incoming := by
  obtain ⟨htype, hcmd⟩ := h
  constructor
  · rcases htype with h | h | h <;> simp [WireEntry.incoming, h] <;> decide
  · rcases hcmd with h | h <;> simp [WireEntry.incoming, h] <;> decide

theorem Known.matches_incoming (h : x.Known) : x.Matches x.incoming := by
  obtain ⟨htype, hcmd⟩ := h
  refine ⟨rfl, rfl, ?_, ?_⟩
  · rcases htype with h | h | h <;> simp [WireEntry.incoming, h] <;> decide
  · rcases hcmd with h | h <;> simp [WireEntry.incoming, h] <;> decide

/-- An entry with known codes matches no other ones. -/
theorem Matches.known {e : LogEntry} (h : x.Matches e) (hknown : Wal.Known e) : x.Known := by
  obtain ⟨htype, hcmd⟩ := hknown
  constructor
  · rw [← h.type]
    cases hcase : e.type with
    | other code => rw [hcase] at htype; cases htype
    | _ => decide
  · rw [← h.cmdType]
    cases hcase : e.cmdType with
    | other code => rw [hcase] at hcmd; cases hcmd
    | _ => decide

end WireEntry

/-- `AppendEntriesRequest` as protobuf hands it over. -/
structure WireAppendEntries where
  term : Nat
  leaderId : String
  prevLogIndex : Nat
  prevLogTerm : Nat := 0
  entries : List WireEntry := []
  leaderCommit : Nat
  senderId : String := ""
  topology : TopologyInfo := {}

def WireAppendEntries.received (r : WireAppendEntries) : AppendEntriesRequest :=
  { r with entries := r.entries.map WireEntry.incoming }

namespace Wal

/-- What `Read` and `LastIndex` show of the WAL. -/
def view (codec : EntryCodec) (w : Wal) : IndexedLog where
  entries := w.sortedIndex.filterMap fun row => (w.readLocation codec row.2).toOption
  lastIndex := w.lastIndex

/-- The WAL during the entry loop. -/
structure Splice where
  wal : Wal
  appendedAny : Bool := false
  error : Option String := none

def appendIncoming (codec : EntryCodec) (w : Wal) (incoming : LogEntry) : Splice :=
  match w.append codec incoming with
  | .error err => { wal := w, error := some err }
  | .ok w => { wal := w, appendedAny := true }

/-- One iteration of the entry loop. -/
def spliceEntry (codec : EntryCodec) (snapshotIndex : Nat) (w : Wal) (incoming : LogEntry) : Splice :=
  if snapshotIndex > 0 ∧ incoming.index ≤ snapshotIndex then { wal := w }
  else match w.read codec incoming.index with
    | .error _ => w.appendIncoming codec incoming
    | .ok existing =>
      if existing.term ≠ incoming.term then
        match w.truncateSuffix incoming.index with
        | .error err => { wal := w, error := some err }
        | .ok w => w.appendIncoming codec incoming
      else { wal := w }

def spliceEntries (codec : EntryCodec) (snapshotIndex : Nat) (w : Wal) (appendedAny : Bool) : List WireEntry → Splice
  | [] => { wal := w, appendedAny }
  | x :: rest =>
    let first := w.spliceEntry codec snapshotIndex x.incoming
    if first.error.isSome then first
    else first.wal.spliceEntries codec snapshotIndex (appendedAny || first.appendedAny) rest

end Wal

/-- `HandleAppendEntries` of a node with this WAL. -/
def Node.handleAppendEntriesOn (codec : EntryCodec) (n : Node) (w : Wal) (r : WireAppendEntries) :
    Node × Wal × Except String AppendEntriesResponse :=
  match { n with log := w.view codec }.prepareAppend r.received with
  | (n, some answer) => (n, w, answer)
  | (n, none) =>
    let splice := w.spliceEntries codec n.lastSnapshotIndex false r.entries
    match splice.error with
    | some err => ({ n with log := splice.wal.view codec }, splice.wal, .error err)
    | none => match if splice.appendedAny then splice.wal.flush else .ok splice.wal with
      | .error err => ({ n with log := splice.wal.view codec }, splice.wal, .error err)
      | .ok w =>
        let n := ({ n with log := w.view codec }.advanceCommit r.leaderCommit).dispatchForward r.received
        (n, w, .ok { term := n.currentTerm, success := true, matchIndex := n.logicalLastIndex })

namespace Wal

variable {codec : EntryCodec} {w w' : Wal} {l : IndexedLog} {snapshotIndex : Nat}

/-! ## The loop refines that over the indexed log -/

/-- The WAL holds the indexed log. -/
structure Represents (codec : EntryCodec) (w : Wal) (l : IndexedLog) : Prop where
  stored : Stored codec w l.entries
  last : w.lastIndex = l.lastIndex

theorem Represents.ordered (h : Represents codec w l) : l.Ordered :=
  ⟨h.stored.sorted, fun _ he => h.last.symm.trans (h.stored.last he)⟩

theorem Represents.read_eq (h : Represents codec w l) (i : Nat) : w.read codec i = l.read i := h.stored.read_eq i

/-- An empty WAL takes the entry. -/
def Takes (w : Wal) (index : Nat) : Prop := w.offsetIndex.size = 0 → 1 ≤ index ∧ w.start ≤ index

instance (w : Wal) (index : Nat) : Decidable (w.Takes index) := by
  unfold Takes
  infer_instance

/-- The view is the log. -/
theorem Represents.view_eq (h : Represents codec w l) : w.view codec = l := by
  obtain ⟨chunks, -, hlisted, hlog⟩ := h.stored.listed
  have hentries : (w.view codec).entries = l.entries := by
    rw [view, sortedIndex_of_rows hlisted.ascending hlisted.rows, List.filterMap_map, ← hlog, ← map_fst_placed codec,
      ← List.filterMap_eq_map]
    refine List.filterMap_congr fun p hp => ?_
    simp only [Function.comp_apply, row]
    rw [hlisted.readLocation hp]
    rfl
  have hlast : (w.view codec).lastIndex = l.lastIndex := h.last
  cases l
  cases hentries
  cases hlast
  rfl

theorem Represents.append {e : LogEntry} (h : Represents codec w l) (hknown : Known e) (hround : codec.RoundTrips e)
    (htakes : w.Takes e.index) (hok : w.append codec e = .ok w') :
    ∃ l', l.append e = .ok l' ∧ Represents codec w' l' := by
  have hacc := accepts_of_append hok
  obtain ⟨w₁, hok', hstored, hlast⟩ := h.stored.append hacc hknown hround fun hnil =>
    htakes (h.stored.size_eq_zero.mpr hnil)
  rw [hok] at hok'
  cases hok'
  refine ⟨⟨l.entries ++ [e], e.index⟩, ?_, hstored, hlast⟩
  rw [IndexedLog.append, if_neg]
  rintro ⟨hne, hgap⟩
  refine hgap ?_
  rw [hacc.1 fun hzero => hne (h.stored.size_eq_zero.mp hzero), h.last]

theorem Represents.truncateSuffix {x : LogEntry} (h : Represents codec w l) (hx : x ∈ l.entries) :
    ∃ w' l', w.truncateSuffix x.index = .ok w' ∧ l.truncateSuffix x.index = .ok l' ∧ Represents codec w' l' ∧
      w'.Takes x.index := by
  have hpos : 1 ≤ x.index := h.stored.positive hx
  have hle := h.ordered.le_last hx
  obtain ⟨w', hok, hstored, hstart, hlast⟩ := h.stored.truncateSuffix hx hpos (Nat.le_refl _)
  refine ⟨w', ⟨_, _⟩, hok, ?_, ⟨hstored, hlast⟩, fun _ => ⟨hpos, hstart⟩⟩
  rw [IndexedLog.truncateSuffix, if_neg (by omega), if_neg]
  · rfl
  rintro (hnil | hgt)
  · exact List.ne_nil_of_mem hx hnil
  · omega

/-- What the loop needs of an entry it does not skip. -/
structure Admits (codec : EntryCodec) (w : Wal) (e : LogEntry) : Prop where
  known : Known e
  round : codec.RoundTrips e
  takes : w.Takes e.index

/-- From this WAL on the loop is that over the indexed log unless it fails. -/
structure Follows (codec : EntryCodec) (w : Wal) (s : Splice) (t : Node.Splice) : Prop where
  stored : ∃ log, Stored codec s.wal log
  error : s.error = none → t.error = none
  log : s.error = none → Represents codec s.wal t.log
  takes : s.error = none → ∀ index, w.Takes index → s.wal.Takes index

theorem Represents.follows (h : Represents codec w l) (appendedAny : Bool) (truncations : List (Nat × List LogEntry)) :
    Follows codec w { wal := w, appendedAny } { log := l, truncations } :=
  ⟨⟨_, h.stored⟩, fun _ => rfl, fun _ => h, fun _ _ htakes => htakes⟩

theorem Follows.failed {s : Splice} {t : Node.Splice} (hstored : ∃ log, Stored codec s.wal log) (herr : s.error ≠ none) :
    Follows codec w s t :=
  ⟨hstored, fun h => absurd h herr, fun h => absurd h herr, fun h => absurd h herr⟩

theorem Represents.appendIncoming (w₀ : Wal) {e : LogEntry} (h : Represents codec w l) (he : Admits codec w e)
    (truncations : List (Nat × List LogEntry)) :
    Follows codec w₀ (w.appendIncoming codec e) (match l.append e with
      | .error err => { log := l, truncations, error := some err }
      | .ok log => { log, truncations }) := by
  unfold Wal.appendIncoming
  cases hok : w.append codec e with
  | error err => exact .failed ⟨_, h.stored⟩ nofun
  | ok w' =>
    obtain ⟨l', hl, h'⟩ := h.append he.known he.round he.takes hok
    rw [hl]
    refine ⟨⟨_, h'.stored⟩, fun _ => rfl, fun _ => h', fun _ index _ hzero => ?_⟩
    have hmem : e ∈ l'.entries := (IndexedLog.mem_append hl).mpr (.inr rfl)
    rw [h'.stored.size_eq_zero.mp hzero] at hmem
    cases hmem

theorem Represents.spliceEntry {e : LogEntry} (h : Represents codec w l)
    (he : snapshotIndex = 0 ∨ snapshotIndex < e.index → Admits codec w e) :
    Follows codec w (w.spliceEntry codec snapshotIndex e) (Node.spliceEntry snapshotIndex l e) := by
  unfold Wal.spliceEntry Node.spliceEntry
  by_cases hcovered : snapshotIndex > 0 ∧ e.index ≤ snapshotIndex
  · rw [if_pos hcovered, if_pos hcovered]
    exact h.follows false []
  have he : Admits codec w e := he (by omega)
  rw [if_neg hcovered, if_neg hcovered, h.read_eq]
  cases hread : l.read e.index with
  | error err => exact h.appendIncoming w he []
  | ok existing =>
    obtain ⟨hx, hindex⟩ := h.ordered.read_eq_ok.mp hread
    simp only
    by_cases hterm : existing.term = e.term
    · rw [if_neg (not_not.mpr hterm), if_pos hterm]
      exact h.follows false []
    · obtain ⟨w', l', hw, hl, h', htakes⟩ := h.truncateSuffix hx
      rw [hindex] at hw hl htakes
      rw [if_pos hterm, if_neg hterm, hw, hl]
      exact h'.appendIncoming w { he with takes := htakes } _

theorem Represents.spliceEntries (appendedAny : Bool) {es : List WireEntry} (h : Represents codec w l)
    (hes : ∀ x ∈ es, snapshotIndex = 0 ∨ snapshotIndex < x.index → Admits codec w x.incoming) :
    Follows codec w (w.spliceEntries codec snapshotIndex appendedAny es)
      (Node.spliceEntries snapshotIndex l (es.map WireEntry.incoming)) := by
  induction es generalizing w l appendedAny with
  | nil => exact h.follows appendedAny []
  | cons x rest ih =>
    have hfirst : Follows codec w (w.spliceEntry codec snapshotIndex x.incoming)
        (Node.spliceEntry snapshotIndex l x.incoming) := h.spliceEntry (hes x List.mem_cons_self)
    rw [List.map_cons, Wal.spliceEntries, Node.spliceEntries]
    dsimp only
    cases herr : (w.spliceEntry codec snapshotIndex x.incoming).error with
    | some err =>
      rw [Option.isSome_some, if_pos rfl]
      exact .failed hfirst.stored (by rw [herr]; exact Option.some_ne_none err)
    | none =>
      rw [hfirst.error herr]
      simp only [Option.isSome_none, Bool.false_eq_true, if_false]
      have hrest := ih (appendedAny || (w.spliceEntry codec snapshotIndex x.incoming).appendedAny) (hfirst.log herr)
        fun y hy hnew => by
          have hy := hes y (List.mem_cons_of_mem _ hy) hnew
          exact { hy with takes := hfirst.takes herr _ hy.takes }
      exact ⟨hrest.stored, hrest.error, hrest.log, fun hok index htakes =>
        hrest.takes hok index (hfirst.takes herr index htakes)⟩

/-! ## Reading back -/

/-- `Read` returns what was sent. -/
def ReadsBack (codec : EntryCodec) (w : Wal) (x : WireEntry) : Prop := ∃ e, w.read codec x.index = .ok e ∧ x.Matches e

/-- It does so now and after the WAL is closed and opened again. -/
def Retrievable (codec : EntryCodec) (w : Wal) (x : WireEntry) : Prop :=
  ReadsBack codec w x ∧ ∀ start size, size ≠ 0 →
    ∃ v, openWal codec w.close.dir start size = .ok v ∧ ReadsBack codec v x

/-- The WAL holds an entry of another term under the index. -/
def Conflicts (codec : EntryCodec) (w : Wal) (x : WireEntry) : Prop := ∃ e, w.read codec x.index = .ok e ∧ e.term ≠ x.term

/-- Up to the first conflict, what the WAL holds under an index of the request is what the
request has there. -/
def Agrees (codec : EntryCodec) (w : Wal) (snapshotIndex : Nat) (es : List WireEntry) : Prop :=
  ∀ x ∈ es, snapshotIndex < x.index →
    (∀ y ∈ es, snapshotIndex < y.index → y.index ≤ x.index → ¬ Conflicts codec w y) →
    ∀ e, w.read codec x.index = .ok e → x.Matches e

theorem ReadsBack.known {x : WireEntry} (h : ReadsBack codec w x) : x.Known := by
  obtain ⟨e, hread, hmatch⟩ := h
  exact hmatch.known (known_of_read hread)

theorem Stored.retrievable_iff {log : List LogEntry} (h : Stored codec w log) (x : WireEntry) :
    Retrievable codec w x ↔ ∃ e ∈ log, e.index = x.index ∧ x.Matches e := by
  have hiff : ∀ {v : Wal}, Stored codec v log → (ReadsBack codec v x ↔ ∃ e ∈ log, e.index = x.index ∧ x.Matches e) := by
    intro v hv
    simp only [ReadsBack, hv.read_eq_ok, and_assoc]
  rw [Retrievable, hiff h, and_iff_left_iff_imp]
  intro hx start size hsize
  obtain ⟨v, hopen, hv⟩ := h.closed.reopen start hsize
  exact ⟨v, hopen, (hiff hv).mpr hx⟩

theorem Represents.retrievable_iff {es : List WireEntry} (h : Represents codec w l)
    (hpos : ∀ x ∈ es, 1 ≤ x.index) (hsorted : es.Pairwise fun x y => x.index < y.index)
    (hknown : ∀ x ∈ es, snapshotIndex < x.index → x.Known)
    (hok : (Node.spliceEntries snapshotIndex l (es.map WireEntry.incoming)).error = none)
    (hstored : Stored codec w' (Node.spliceEntries snapshotIndex l (es.map WireEntry.incoming)).log.entries) :
    (∀ x ∈ es, snapshotIndex < x.index → Retrievable codec w' x) ↔ Agrees codec w snapshotIndex es := by
  have hsorted' : (es.map WireEntry.incoming).Pairwise fun a b => a.index < b.index := List.pairwise_map.mpr hsorted
  have hread : ∀ {i : Nat} {e : LogEntry}, w.read codec i = .ok e ↔ e ∈ l.entries ∧ e.index = i := h.stored.read_eq_ok
  simp only [hstored.retrievable_iff]
  constructor
  · intro hall x hx hnew hclear e he
    obtain ⟨he, hindex⟩ := hread.mp he
    obtain ⟨y, hy, hyindex, hmatch⟩ := hall x hx hnew
    have hkept : e ∈ (Node.spliceEntries snapshotIndex l (es.map WireEntry.incoming)).log.entries := by
      refine Node.mem_spliceEntries h.ordered he fun d hd hle hdnew z hz hzindex => ?_
      obtain ⟨y, hy, rfl⟩ := List.mem_map.mp hd
      by_contra hterm
      have hypos := hpos y hy
      refine hclear y hy ?_ ?_ ⟨z, hread.mpr ⟨hz, hzindex⟩, hterm⟩
      · change _ ∨ _ < y.index at hdnew
        omega
      · change y.index ≤ _ at hle
        omega
    have hordered := Node.ordered_spliceEntries snapshotIndex (es.map WireEntry.incoming) h.ordered
    rw [← hordered.eq_of_index hy hkept (hyindex.trans hindex.symm)]
    exact hmatch
  · intro hagrees x hx hnew
    rcases Node.spliced_mem h.ordered hsorted' hok (List.mem_map_of_mem hx) (.inr hnew) with hin | ⟨⟨y, hy, hindex, hin⟩, hclear⟩
    · exact ⟨_, hin, rfl, (hknown x hx hnew).matches_incoming⟩
    · refine ⟨y, hin, hindex, hagrees x hx hnew ?_ y (hread.mpr ⟨hy, hindex⟩)⟩
      rintro z hz hznew hle ⟨e, he, hterm⟩
      obtain ⟨he, heindex⟩ := hread.mp he
      exact hterm (hclear _ (List.mem_map_of_mem hz) (.inr hznew) hle e he heindex)

end Wal

/-! ## The handler -/

namespace Node

variable {codec : EntryCodec} {n n' : Node} {w w' : Wal} {r : WireAppendEntries}

/-- The handler leaves the WAL alone and does not succeed, or it runs the entry loop. -/
theorem handleAppendEntriesOn_cases (codec : EntryCodec) (n : Node) (w : Wal) (r : WireAppendEntries) :
    (∃ m answer, n.handleAppendEntriesOn codec w r = (m, w, answer) ∧ ∀ a, answer = .ok a → a.success = false) ∨
    ∃ m w' answer, n.handleAppendEntriesOn codec w r = (m, w', answer) ∧
      (w' = (w.spliceEntries codec n.lastSnapshotIndex false r.entries).wal ∨
        (w.spliceEntries codec n.lastSnapshotIndex false r.entries).wal.flush = .ok w') ∧
      ∀ a, answer = .ok a → (w.spliceEntries codec n.lastSnapshotIndex false r.entries).error = none := by
  unfold handleAppendEntriesOn
  rcases prepareAppend_cases { n with log := w.view codec } r.received with
    ⟨-, a, hprepare, hfalse⟩ | ⟨-, m, hcore, ⟨err, hprepare⟩ | ⟨a, hprepare, hfalse⟩ | ⟨-, hprepare⟩⟩
  · rw [hprepare]
    refine .inl ⟨_, _, rfl, fun b hb => ?_⟩
    cases hb
    exact hfalse
  · rw [hprepare]
    exact .inl ⟨_, _, rfl, nofun⟩
  · rw [hprepare]
    refine .inl ⟨_, _, rfl, fun b hb => ?_⟩
    cases hb
    exact hfalse
  · have hsnap : m.lastSnapshotIndex = n.lastSnapshotIndex := by
      rw [eq_of_core Node.lastSnapshotIndex (fun _ => rfl) hcore, noted_lastSnapshotIndex]
    right
    rw [hprepare]
    dsimp only
    rw [hsnap]
    generalize w.spliceEntries codec n.lastSnapshotIndex false r.entries = splice
    cases herr : splice.error with
    | some err => exact ⟨_, _, _, rfl, .inl rfl, nofun⟩
    | none =>
      simp only
      split
      · exact ⟨_, _, _, rfl, .inl rfl, nofun⟩
      · next w' hflush =>
        refine ⟨_, _, _, rfl, ?_, fun _ _ => trivial⟩
        split at hflush
        · exact .inr hflush
        · cases hflush
          exact .inl rfl

/-- Over a WAL that holds the log of the node, the handler is that of the node. -/
theorem handleAppendEntriesOn_refines {answer : AppendEntriesResponse} (h : Wal.Represents codec w n.log)
    (hes : ∀ x ∈ r.entries, n.lastSnapshotIndex = 0 ∨ n.lastSnapshotIndex < x.index → Wal.Admits codec w x.incoming)
    (hok : n.handleAppendEntriesOn codec w r = (n', w', .ok answer)) :
    n.handleAppendEntries r.received = (n', .ok answer) := by
  unfold handleAppendEntriesOn at hok
  rw [h.view_eq] at hok
  unfold handleAppendEntries
  rcases prepareAppend_cases n r.received with
    ⟨-, a, hprepare, -⟩ | ⟨-, m, hcore, ⟨err, hprepare⟩ | ⟨a, hprepare, -⟩ | ⟨-, hprepare⟩⟩
  · rw [hprepare] at hok ⊢
    cases hok
    rfl
  · rw [hprepare] at hok
    cases hok
  · rw [hprepare] at hok ⊢
    cases hok
    rfl
  · have hsnap : m.lastSnapshotIndex = n.lastSnapshotIndex := by
      rw [eq_of_core Node.lastSnapshotIndex (fun _ => rfl) hcore, noted_lastSnapshotIndex]
    have hlog : m.log = n.log := by
      rw [eq_of_core Node.log (fun _ => rfl) hcore, noted_log]
    have hfollows : Wal.Follows codec w (w.spliceEntries codec m.lastSnapshotIndex false r.entries)
        (spliceEntries m.lastSnapshotIndex m.log r.received.entries) := by
      rw [hsnap, hlog]
      exact h.spliceEntries false hes
    rw [hprepare] at hok ⊢
    dsimp only [finishAppend] at hok ⊢
    generalize w.spliceEntries codec m.lastSnapshotIndex false r.entries = splice at hok hfollows
    generalize spliceEntries m.lastSnapshotIndex m.log r.received.entries = t at hfollows ⊢
    cases herr : splice.error with
    | some err =>
      rw [herr] at hok
      cases hok
    | none =>
      rw [herr] at hok
      rw [hfollows.error herr]
      dsimp only at hok ⊢
      split at hok
      · cases hok
      · next w₁ hflush =>
        have hview : w₁.view codec = t.log := by
          have hrep := hfollows.log herr
          split at hflush
          · obtain ⟨hstored, hlast⟩ := hrep.stored.flush hflush
            exact Wal.Represents.view_eq ⟨hstored, hlast.trans hrep.last⟩
          · cases hflush
            exact hrep.view_eq
        rw [hview] at hok
        cases hok
        rfl

end Node

namespace Wal

variable {codec : EntryCodec} {w w' : Wal}

/-- What happens to the WAL of a follower: the calls of the node itself, and a request at any
state of the node. -/
inductive Event where
  | call (c : Call)
  | request (n : Node) (r : WireAppendEntries)

/-- The entries that come to `Append`. -/
def Event.entries : Event → List LogEntry
  | .call (.append e) => [e]
  | .call _ => []
  | .request _ r => r.entries.map WireEntry.incoming

def handle (codec : EntryCodec) (w : Wal) : Event → Option Wal
  | .call c => w.call codec c
  | .request n r => some (n.handleAppendEntriesOn codec w r).2.1

/-- The indices count from 1, and an empty WAL takes the entries that are not skipped. -/
def Fitting (w : Wal) (snapshotIndex : Nat) (es : List WireEntry) : Prop :=
  ∀ x ∈ es, 1 ≤ x.index ∧ (snapshotIndex < x.index → w.Takes x.index)

instance (w : Wal) (snapshotIndex : Nat) (es : List WireEntry) : Decidable (w.Fitting snapshotIndex es) := by
  unfold Fitting
  infer_instance

/-- The codes of the entries have enumerators. -/
def KnownCodes (snapshotIndex : Nat) (es : List WireEntry) : Prop := ∀ x ∈ es, snapshotIndex < x.index → x.Known

instance (snapshotIndex : Nat) (es : List WireEntry) : Decidable (KnownCodes snapshotIndex es) := by
  unfold KnownCodes
  infer_instance

/-- The event brings the WAL only entries that it can read. -/
def Legible (w : Wal) : Event → Prop
  | .call c => Fits w c
  | .request n r => w.Fitting n.lastSnapshotIndex r.entries ∧ KnownCodes n.lastSnapshotIndex r.entries

instance (w : Wal) (a : Event) : Decidable (w.Legible a) := by
  cases a <;> unfold Legible <;> infer_instance

theorem Stored.represents {log : List LogEntry} (h : Stored codec w log) : Represents codec w ⟨log, w.lastIndex⟩ := ⟨h, rfl⟩

theorem admits_of_request {snapshotIndex : Nat} {es : List WireEntry} (hfit : w.Fitting snapshotIndex es)
    (hknown : KnownCodes snapshotIndex es) (hround : ∀ e ∈ es.map WireEntry.incoming, codec.RoundTrips e) {x : WireEntry}
    (hx : x ∈ es) (hnew : snapshotIndex = 0 ∨ snapshotIndex < x.index) : Admits codec w x.incoming := by
  obtain ⟨hpos, htakes⟩ := hfit x hx
  have hnew : snapshotIndex < x.index := by omega
  exact ⟨(hknown x hx hnew).incoming, hround _ (List.mem_map_of_mem hx), htakes hnew⟩

theorem stored_handle {a : Event} (h : ∃ log, Stored codec w log) (hround : ∀ e ∈ a.entries, codec.RoundTrips e)
    (hstep : Transition.restrict Legible (handle codec) w a = some w') : ∃ log, Stored codec w' log := by
  obtain ⟨hlegible, hstep⟩ := Transition.restrict_eq_some.mp hstep
  obtain ⟨log, h⟩ := h
  cases a with
  | call c =>
    have hentry : ∀ e, c = .append e → codec.RoundTrips e := by
      rintro e rfl
      exact hround e (List.mem_singleton_self e)
    obtain ⟨log', h', -⟩ := h.call hlegible hentry hstep
    exact ⟨log', h'⟩
  | request n r =>
    cases hstep
    rcases n.handleAppendEntriesOn_cases codec w r with ⟨m, answer, hresult, -⟩ | ⟨m, w₁, answer, hresult, hwal, -⟩
    · rw [hresult]
      exact ⟨log, h⟩
    · obtain ⟨log', h'⟩ := (h.represents.spliceEntries false fun x => admits_of_request hlegible.1 hlegible.2 hround).stored
      rw [hresult]
      rcases hwal with rfl | hflush
      · exact ⟨log', h'⟩
      · exact ⟨log', (h'.flush hflush).1⟩

/-- In every run whose entries have known codes: if a request is accepted and its entries
read back, then their codes are known; and if their indices are in order, known codes are
enough, but for the entries that the WAL holds already. -/
theorem accepted_entries_read_back_iff (codec : EntryCodec) (start size : Nat) (w₀ w w' : Wal) (events : List Event)
    (n n' : Node) (r : WireAppendEntries) (answer : AppendEntriesResponse)
    (hopen : openWal codec ∅ start size = .ok w₀)
    (hround : ∀ a ∈ events ++ [.request n r], ∀ e ∈ a.entries, codec.RoundTrips e)
    (hrun : Transition.run (Transition.restrict Legible (handle codec)) w₀ events = some w)
    (haccepted : n.handleAppendEntriesOn codec w r = (n', w', .ok answer)) (hsuccess : answer.success = true) :
    ((∀ x ∈ r.entries, n.lastSnapshotIndex < x.index → Retrievable codec w' x) →
      KnownCodes n.lastSnapshotIndex r.entries) ∧
    (w.Fitting n.lastSnapshotIndex r.entries → r.entries.Pairwise (fun x y => x.index < y.index) →
      ((∀ x ∈ r.entries, n.lastSnapshotIndex < x.index → Retrievable codec w' x) ↔
        KnownCodes n.lastSnapshotIndex r.entries ∧ Agrees codec w n.lastSnapshotIndex r.entries)) := by
  have hcodes : (∀ x ∈ r.entries, n.lastSnapshotIndex < x.index → Retrievable codec w' x) →
      KnownCodes n.lastSnapshotIndex r.entries := fun h x hx hnew => (h x hx hnew).1.known
  refine ⟨hcodes, fun hfit hsorted => ?_⟩
  obtain ⟨log, hstored⟩ : ∃ log, Stored codec w log :=
    Transition.run_invariant_of_mem (fun w => ∃ log, Stored codec w log)
      (fun a ha _ _ h => stored_handle h (hround a (List.mem_append_left _ ha)))
      ⟨_, _, .inl (layout_open_empty hopen).1, rfl⟩ hrun
  have hround' : ∀ e ∈ r.entries.map WireEntry.incoming, codec.RoundTrips e :=
    hround (.request n r) (List.mem_append_right _ List.mem_cons_self)
  have hiff : KnownCodes n.lastSnapshotIndex r.entries →
      ((∀ x ∈ r.entries, n.lastSnapshotIndex < x.index → Retrievable codec w' x) ↔
        Agrees codec w n.lastSnapshotIndex r.entries) := by
    intro hknown
    have hfollows := hstored.represents.spliceEntries false fun x => admits_of_request hfit hknown hround'
    rcases n.handleAppendEntriesOn_cases codec w r with ⟨m, ans, hresult, hfail⟩ | ⟨m, w₁, ans, hresult, hwal, hloop⟩
    · rw [haccepted] at hresult
      cases hresult
      rw [hfail answer rfl] at hsuccess
      cases hsuccess
    · rw [haccepted] at hresult
      cases hresult
      have herr := hloop answer rfl
      have hspliced := (hfollows.log herr).stored
      refine hstored.represents.retrievable_iff (fun x hx => (hfit x hx).1) hsorted hknown (hfollows.error herr) ?_
      rcases hwal with rfl | hflush
      · exact hspliced
      · exact (hspliced.flush hflush).1
  constructor
  · exact fun h => ⟨hcodes h, (hiff (hcodes h)).mp h⟩
  · exact fun h => (hiff h.1).mpr h.2

/-- A follower in a cluster of three. -/
def wireFollower : Node := Node.create { nodeId := "B", peers := ["A", "C"] } {} {} none

def wireRequest (entries : List WireEntry) : WireAppendEntries :=
  { term := 1, leaderId := "A", prevLogIndex := 0, entries, leaderCommit := 0 }

set_option maxRecDepth 20000 in
/-- The second request repeats the entry of the first one and adds one. -/
theorem accepted_entries_read_back_at_second_request : ∃ w₀ w n' w' answer,
    openWal shortCodec ∅ 1 100 = .ok w₀ ∧
    Transition.run (Transition.restrict Legible (handle shortCodec)) w₀
      [.request wireFollower (wireRequest [⟨1, 1, 3, 1, []⟩])] = some w ∧
    wireFollower.handleAppendEntriesOn shortCodec w (wireRequest [⟨1, 1, 3, 1, []⟩, ⟨2, 1, 1, 2, []⟩]) =
      (n', w', .ok answer) ∧
    answer.success = true ∧ Retrievable shortCodec w' ⟨1, 1, 3, 1, []⟩ ∧ Retrievable shortCodec w' ⟨2, 1, 1, 2, []⟩ := by
  obtain ⟨w₀, w, n', w', answer, hopen, hrun, haccepted, hsuccess, hheld, hfirst, hsecond⟩ : ∃ w₀ w n' w' answer,
      openWal shortCodec ∅ 1 100 = .ok w₀ ∧
      Transition.run (Transition.restrict Legible (handle shortCodec)) w₀
        [.request wireFollower (wireRequest [⟨1, 1, 3, 1, []⟩])] = some w ∧
      wireFollower.handleAppendEntriesOn shortCodec w (wireRequest [⟨1, 1, 3, 1, []⟩, ⟨2, 1, 1, 2, []⟩]) =
        (n', w', .ok answer) ∧
      answer.success = true ∧ w.offsetIndex.size = 1 ∧
      w.read shortCodec 1 = .ok ⟨1, 1, .noop, .upsert, []⟩ ∧ w.read shortCodec 2 = .error "日志索引不存在: 2" :=
    ⟨_, _, _, _, _, rfl, rfl, rfl, rfl, rfl, rfl, rfl⟩
  have hfit : w.Fitting wireFollower.lastSnapshotIndex (wireRequest [⟨1, 1, 3, 1, []⟩, ⟨2, 1, 1, 2, []⟩]).entries := by
    intro x hx
    refine ⟨?_, fun _ hzero => by omega⟩
    rcases List.mem_pair.mp hx with rfl | rfl <;> decide
  have hagrees : Agrees shortCodec w wireFollower.lastSnapshotIndex
      (wireRequest [⟨1, 1, 3, 1, []⟩, ⟨2, 1, 1, 2, []⟩]).entries := by
    intro x hx _ _ e he
    rcases List.mem_pair.mp hx with rfl | rfl
    · rw [hfirst] at he
      cases he
      exact ⟨rfl, rfl, rfl, rfl⟩
    · rw [hsecond] at he
      cases he
  have hall := ((accepted_entries_read_back_iff shortCodec 1 100 w₀ w w' _ _ n' _ answer hopen (by decide) hrun
    haccepted hsuccess).2 hfit (by decide)).mpr ⟨by decide, hagrees⟩
  exact ⟨w₀, w, n', w', answer, hopen, hrun, haccepted, hsuccess, hall _ (by decide) (by decide),
    hall _ (by decide) (by decide)⟩

set_option maxRecDepth 20000 in
/-- The type of the entry has no enumerator. The follower accepts it, but cannot read it,
and `WAL::Open` cuts it off. -/
theorem accepted_unknown_code_is_lost : ∃ w n' w' v answer,
    openWal shortCodec ∅ 1 100 = .ok w ∧
    wireFollower.handleAppendEntriesOn shortCodec w (wireRequest [⟨1, 1, 9, 1, []⟩]) = (n', w', .ok answer) ∧
    answer.success = true ∧ answer.matchIndex = 1 ∧
    w'.read shortCodec 1 = .error "LogEntry.type 非法" ∧
    openWal shortCodec w'.close.dir 1 100 = .ok v ∧ v.read shortCodec 1 = .error "日志索引不存在: 1" ∧
    ¬ Retrievable shortCodec w' ⟨1, 1, 9, 1, []⟩ := by
  obtain ⟨w, n', w', v, answer, hopen, haccepted, hsuccess, hmatch, hread, hreopen, hlost⟩ : ∃ w n' w' v answer,
      openWal shortCodec ∅ 1 100 = .ok w ∧
      wireFollower.handleAppendEntriesOn shortCodec w (wireRequest [⟨1, 1, 9, 1, []⟩]) = (n', w', .ok answer) ∧
      answer.success = true ∧ answer.matchIndex = 1 ∧
      w'.read shortCodec 1 = .error "LogEntry.type 非法" ∧
      openWal shortCodec w'.close.dir 1 100 = .ok v ∧ v.read shortCodec 1 = .error "日志索引不存在: 1" :=
    ⟨_, _, _, _, _, rfl, rfl, rfl, rfl, rfl, rfl, rfl⟩
  refine ⟨w, n', w', v, answer, hopen, haccepted, hsuccess, hmatch, hread, hreopen, hlost, ?_⟩
  rintro ⟨⟨e, he, -⟩, -⟩
  rw [hread] at he
  cases he

end Wal

end RaftVdb
