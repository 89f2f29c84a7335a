import RaftVdb.Cluster
import RaftVdb.HeldLog

/-!
# Replication to one peer

The closed loop of `ReplicatePeerOnce`, the handler of the peer and the callback, without
other events. Each pass is a round of the repair of a log by probing. The answer to a
success is the end of the log of the peer, whatever the batch has compared, so the leader
goes on behind entries in conflict and comes back to the same place again if the batch
does not reach them.
-/

namespace RaftVdb

open Lib LogRepair

namespace Node

variable {n m : Node} {full : List LogEntry}

/-- One pass: a message to the peer, its handler, and the callback. -/
def exchange (peer : String) (keepFrom : Nat) (pair : Node × Node) : Option (Node × Node) :=
  (pair.1.replicatePeerOnce peer).map fun sent =>
    let handled := pair.2.handle true keepFrom sent.2
    (sent.1.onResponse peer false sent.2 handled.2, handled.1)

/-- Any number of passes. What a truncation of the WAL keeps of a segment is an input. -/
def exchanges (peer : String) (keep : Nat → Nat) : Nat → Node × Node → Node × Node
  | 0, pair => pair
  | k + 1, pair => exchanges peer (fun i => keep (i + 1)) k ((exchange peer (keep 0) pair).getD pair)

/-- The node leads, and holds what the sender holds. -/
structure Leads (s : Sender LogEntry) (n : Node) : Prop where
  state : n.state = .leader
  term : 0 < n.currentTerm
  holds : n.Holds s.log
  base : n.lastSnapshotIndex = s.base
  batch : n.config.batchMaxEntries = s.batch
  snapshot : 0 < s.base → ∃ snapshot, n.snapshot = some snapshot ∧ snapshot.raftIndex = s.base ∧
    snapshot.raftTerm = n.lastSnapshotTerm ∧ ∀ row ∈ snapshot.dedup, row.1 ≠ ""

/-- What the leader has on record for the peer, and how many messages are under way. -/
def Records (n : Node) (peer : String) (next acked busy : Nat) : Prop :=
  ∃ p, n.progress.find? peer = some p ∧ p.nextIndex = next ∧ p.matchIndex = acked ∧ p.inFlight = busy ∧
    0 < p.window n.config

/-- The two nodes are in a state of the repair. -/
structure Linked (s : Sender LogEntry) (peer : String) (σ : State LogEntry) (pair : Node × Node) : Prop where
  leads : pair.1.Leads s
  records : pair.1.Records peer σ.next σ.acked 0
  named : pair.2.selfId = peer
  term : pair.2.currentTerm ≤ pair.1.currentTerm
  holds : pair.2.Holds σ.log
  base : pair.2.lastSnapshotIndex = σ.base

variable {s : Sender LogEntry} {peer : String} {σ σ' : State LogEntry} {pair : Node × Node}

theorem Leads.of_core (h : n.Leads s) (hcore : m.core = n.core) : m.Leads s where
  state := (eq_of_core Node.state (fun _ => rfl) hcore).trans h.state
  term := (eq_of_core Node.currentTerm (fun _ => rfl) hcore).symm ▸ h.term
  holds := h.holds.of_core hcore
  base := (eq_of_core Node.lastSnapshotIndex (fun _ => rfl) hcore).trans h.base
  batch := by rw [eq_of_core Node.config (fun _ => rfl) hcore, h.batch]
  snapshot := by
    rw [eq_of_core Node.snapshot (fun _ => rfl) hcore, eq_of_core Node.lastSnapshotTerm (fun _ => rfl) hcore]
    exact h.snapshot

theorem Leads.of_commit (h : n.Leads s) (k : Nat) : { n with commitIndex := k }.Leads s :=
  ⟨h.state, h.term, h.holds.congr rfl rfl rfl, h.base, h.batch, h.snapshot⟩

theorem Records.of_commit {next acked busy : Nat} (h : n.Records peer next acked busy) (k : Nat) :
    { n with commitIndex := k }.Records peer next acked busy := h

theorem Records.ackPeer {next acked busy : Nat} (h : n.Records peer next acked busy) (matchIndex : Nat) :
    (n.ackPeer peer matchIndex).Records peer (max next (matchIndex + 1)) (max acked matchIndex) (busy - 1) := by
  obtain ⟨p, hrow, rfl, rfl, rfl, hwindow⟩ := h
  refine ⟨_, (Table.find?_modify ..).trans (if_pos rfl), ?_⟩
  rw [hrow]
  exact ⟨rfl, rfl, rfl, hwindow⟩

/-- A refusal whose hint lies before the attempt is followed. -/
theorem Records.reject {next acked busy : Nat} (h : n.Records peer next acked busy) {attempted conflict : Nat}
    (hpos : 0 < conflict) (hlt : conflict < attempted) :
    { n with progress := n.progress.adjust peer fun p =>
        rejectPeer n.config { p with inFlight := 0, healthy := true } attempted conflict }.Records peer conflict acked 0 := by
  obtain ⟨p, hrow, rfl, rfl, rfl, hwindow⟩ := h
  refine ⟨rejectPeer n.config { p with inFlight := 0, healthy := true } attempted conflict,
    (Table.find?_adjust_self ..).trans (by rw [hrow]; rfl), ?_⟩
  rw [rejectPeer, if_pos ⟨hpos, hlt⟩]
  exact ⟨rfl, rfl, rfl, hwindow⟩

theorem Records.send {next acked busy : Nat} (h : n.Records peer next acked busy) (count : Nat) :
    { n with progress := n.progress.adjust peer fun p =>
        { p with inFlight := p.inFlight + 1, nextIndex := p.nextIndex + count } }.Records peer (next + count) acked
      (busy + 1) := by
  obtain ⟨p, hrow, rfl, rfl, rfl, hwindow⟩ := h
  exact ⟨{ p with inFlight := p.inFlight + 1, nextIndex := p.nextIndex + count },
    (Table.find?_adjust_self ..).trans (by rw [hrow]; rfl), rfl, rfl, rfl, hwindow⟩

/-- With the snapshot of the sender. -/
theorem Leads.replicate_install (h : n.Leads s) {next acked : Nat} (hrow : n.Records peer next acked 0)
    (hbase : 0 < s.base) (hnext : next ≤ s.base) :
    ∃ snapshot, n.snapshot = some snapshot ∧
      n.replicatePeerOnce peer = some (n, .install { leaderTerm := n.currentTerm, snapshot }) := by
  obtain ⟨snapshot, hsnap, -⟩ := h.snapshot hbase
  obtain ⟨p, hfind, rfl, -, hidle, hwindow⟩ := hrow
  refine ⟨snapshot, hsnap, ?_⟩
  rw [replicatePeerOnce, if_neg (by simp [h.state]), hfind]
  dsimp only
  rw [if_neg (by omega), if_pos (by rw [h.base]; exact ⟨hbase, hnext⟩), sendSnapshot, hsnap]
  rfl

theorem Leads.readFrom (h : n.Leads s) {next : Nat} (hbase : s.base < next) (hbatch : 0 < s.batch) :
    n.log.readFrom next n.config.batchMaxEntries = .ok (s.slice (next - 1)) := by
  rw [h.holds.readFrom (by rw [h.base]; exact hbase) (by rw [h.batch]; exact hbatch), h.batch]
  rfl

theorem Leads.replicate_idle (h : n.Leads s) {next acked : Nat} (hrow : n.Records peer next acked 0)
    (hbase : s.base < next) (hbatch : 0 < s.batch) (hidle : s.slice (next - 1) = [] ∧ s.log.length ≤ acked) :
    n.replicatePeerOnce peer = none := by
  obtain ⟨p, hfind, rfl, rfl, hflight, hwindow⟩ := hrow
  rw [replicatePeerOnce, if_neg (by simp [h.state]), hfind]
  dsimp only
  rw [if_neg (by omega), if_neg (by rw [h.base]; omega), h.readFrom hbase hbatch, h.holds.last]
  dsimp only
  rw [if_pos hidle]

/-- With the next batch, behind the entry before it. -/
theorem Leads.replicate_append (h : n.Leads s) {next acked : Nat} (hrow : n.Records peer next acked 0)
    (hbase : s.base < next) (hbatch : 0 < s.batch) (hbusy : ¬ (s.slice (next - 1) = [] ∧ s.log.length ≤ acked))
    (hend : next - 1 ≤ s.log.length) :
    ∃ r m, n.replicatePeerOnce peer = some (m, .append .replicate r) ∧ m.core = n.core ∧
      m.Records peer (next + (s.slice (next - 1)).length) acked 1 ∧ r.term = n.currentTerm ∧ r.senderId = r.leaderId ∧
      (r.topology.role = "" ∨ ∃ role, parseRole r.topology.role = .ok role) ∧ r.prevLogIndex = next - 1 ∧
      (0 < next - 1 → termAt LogEntry.term s.log (next - 1) = some r.prevLogTerm) ∧ r.entries = s.slice (next - 1) := by
  have hsend := hrow.send (s.slice (next - 1)).length
  obtain ⟨p, hfind, rfl, rfl, hflight, hwindow⟩ := hrow
  obtain ⟨prevTerm, hprev, hat⟩ : ∃ t, n.termAtLogicalIndex (p.nextIndex - 1) = .ok t ∧
      (0 < p.nextIndex - 1 → termAt LogEntry.term s.log (p.nextIndex - 1) = some t) := by
    rcases Nat.eq_zero_or_pos (p.nextIndex - 1) with hzero | hpos
    · exact ⟨0, by rw [hzero]; rfl, by omega⟩
    · obtain ⟨t, ht⟩ : ∃ t, termAt LogEntry.term s.log (p.nextIndex - 1) = some t := by
        unfold termAt
        rw [List.getElem?_eq_getElem (by omega)]
        exact ⟨_, rfl⟩
      exact ⟨t, h.holds.termAtLogicalIndex hpos (by rw [h.base]; omega) ht, fun _ => ht⟩
  rw [replicatePeerOnce, if_neg (by simp [h.state]), hfind]
  dsimp only
  rw [if_neg (by omega), if_neg (by rw [h.base]; omega), h.readFrom hbase hbatch, h.holds.last]
  dsimp only
  rw [if_neg hbusy, hprev]
  refine ⟨_, _, rfl, rfl, hsend, rfl, rfl, ?_, rfl, hat, rfl⟩
  dsimp only [buildTopologyForPeer]
  unfold TopologyManager.toProto
  split
  · exact .inl rfl
  · exact .inr ⟨_, parseRole_roleToString _⟩

theorem exchange_append {r : AppendEntriesRequest} {resp : AppendEntriesResponse} {keepFrom : Nat} {a b : Node}
    (hsend : pair.1.replicatePeerOnce peer = some (a, .append .replicate r))
    (hhandle : pair.2.handleAppendEntries r = (b, .ok resp)) :
    exchange peer keepFrom pair = some (a.onReplicateResponse peer r (some resp), b) := by
  unfold exchange
  rw [hsend, Option.map_some]
  dsimp only [Node.handle]
  rw [hhandle]
  rfl

theorem Linked.install (h : Linked s peer σ pair) (hroot : Rooted s σ) (hbase : 0 < s.base) (hnext : σ.next ≤ s.base)
    (keepFrom : Nat) : ∃ pair', exchange peer keepFrom pair = some pair' ∧
      Linked s peer { log := s.log.take s.base ++ σ.log.drop s.base, base := s.base, next := max σ.next (s.base + 1)
                      acked := max σ.acked s.base } pair' := by
  obtain ⟨snapshot, hsnap, hsend⟩ := h.leads.replicate_install h.records hbase hnext
  obtain ⟨snapshot', hsnap', hindex, hterm, hdedup⟩ := h.leads.snapshot hbase
  rw [hsnap] at hsnap'
  cases hsnap'
  obtain ⟨b, hb, hbterm, hbconfig, hblog, hbindex, hbsnapterm⟩ := handleInstallSnapshot_eq (n := pair.2)
    (r := ⟨pair.1.currentTerm, snapshot⟩) keepFrom h.leads.term h.term hdedup
  dsimp only at hbterm hblog hbindex hbsnapterm
  have hexchange : exchange peer keepFrom pair = some (pair.1.ackPeer peer s.base, b) := by
    unfold exchange
    rw [hsend, Option.map_some]
    dsimp only [Node.handle]
    rw [hb]
    dsimp only [Except.toOption, Option.map_some, onResponse]
    rw [onInstallResponse, if_neg (Nat.lt_irrefl _), if_pos rfl, hindex]
  rw [hindex] at hblog hbindex
  refine ⟨_, hexchange, h.leads.of_core (core_ackPeer ..), h.records.ackPeer s.base, ?_, hbterm.le, ?_, hbindex⟩
  · rw [← h.named]
    unfold selfId
    rw [hbconfig]
  · have hholds := h.leads.holds
    have hcovered := hholds.covered (by rw [h.leads.base]; exact hbase)
    rw [h.leads.base] at hcovered
    refine h.holds.install ?_ ?_ hholds.indexed ?_ hblog hbindex
    · have := hroot.next
      rw [h.base]
      omega
    · have := hholds.snapshot_le
      rw [h.leads.base] at this
      exact this
    · rw [hbsnapterm, hterm]
      exact hcovered

/-- A batch is under way: the request, the leader that waits for the answer, and the peer
before the entry loop. -/
structure Sent (s : Sender LogEntry) (peer : String) (σ : State LogEntry) (pair : Node × Node)
    (r : AppendEntriesRequest) (a b : Node) : Prop where
  sends : pair.1.replicatePeerOnce peer = some (a, .append .replicate r)
  leads : a.Leads s
  records : a.Records peer (σ.next + (s.slice (σ.next - 1)).length) σ.acked 1
  prev : r.prevLogIndex = σ.next - 1
  prevTerm : 0 < σ.next - 1 → termAt LogEntry.term s.log (σ.next - 1) = some r.prevLogTerm
  entries : r.entries = s.slice (σ.next - 1)
  handles : pair.2.handleAppendEntries r =
    match b.rejectPrev r with
    | some resp => (b, .ok resp)
    | none => b.finishAppend r
  holds : b.Holds σ.log
  base : b.lastSnapshotIndex = σ.base
  term : b.currentTerm = a.currentTerm
  named : b.selfId = peer

theorem Linked.sent (h : Linked s peer σ pair) (hpeer : peer ≠ "") (hbatch : 0 < s.batch) (hbase : s.base < σ.next)
    (hbusy : ¬ (s.slice (σ.next - 1) = [] ∧ s.log.length ≤ σ.acked)) (hend : σ.next - 1 ≤ s.log.length) :
    ∃ r a b, Sent s peer σ pair r a b := by
  obtain ⟨r, a, hsend, hacore, harow, hrterm, hrsender, hrrole, hrprev, hrprevTerm, hrentries⟩ :=
    h.leads.replicate_append h.records hbase hbatch hbusy hend
  have hle : pair.2.currentTerm ≤ r.term := by
    rw [hrterm]
    exact h.term
  obtain ⟨b, hbcore, hhandle⟩ := handleAppendEntries_eq hle hrsender (by rw [h.named]; exact hpeer) hrrole
  have hnoted : (pair.2.noted r.term r.leaderId).Holds σ.log := by
    refine h.holds.congr (noted_log pair.2 r.leaderId) (noted_lastSnapshotIndex pair.2 r.leaderId) ?_
    unfold noted
    split <;> rfl
  refine ⟨r, a, b, hsend, h.leads.of_core hacore, harow, hrprev, hrprevTerm, hrentries, hhandle, hnoted.of_core hbcore,
    ?_, ?_, ?_⟩
  · rw [eq_of_core Node.lastSnapshotIndex (fun _ => rfl) hbcore, noted_lastSnapshotIndex, h.base]
  · rw [eq_of_core Node.currentTerm (fun _ => rfl) hbcore, noted_currentTerm pair.2 r.leaderId hle, hrterm,
      eq_of_core Node.currentTerm (fun _ => rfl) hacore]
  · rw [← h.named]
    unfold selfId
    rw [eq_of_core Node.config (fun _ => rfl) hbcore, noted_config]

variable {r : AppendEntriesRequest} {a b : Node}

theorem Sent.refused (h : Sent s peer σ pair r a b) {resp : AppendEntriesResponse} (hreject : b.rejectPrev r = some resp)
    (hno : resp.success = false) (hterm : resp.term = b.currentTerm) (hpos : 0 < resp.conflictIndex)
    (hlt : resp.conflictIndex < σ.next) (keepFrom : Nat) :
    ∃ pair', exchange peer keepFrom pair = some pair' ∧ Linked s peer { σ with next := resp.conflictIndex } pair' := by
  have hhandle := h.handles
  rw [hreject] at hhandle
  have hcallback : a.onReplicateResponse peer r (some resp) =
      { a with progress := a.progress.adjust peer fun p =>
          rejectPeer a.config { p with inFlight := 0, healthy := true } (r.prevLogIndex + 1) resp.conflictIndex } := by
    rw [onReplicateResponse, if_neg (by rw [hterm, h.term]; exact Nat.lt_irrefl _), if_neg (by simp [h.leads.state]),
      if_neg (by simp [hno])]
  refine ⟨_, exchange_append h.sends hhandle, ?_, ?_, h.named, ?_, h.holds, h.base⟩
  all_goals
    dsimp only
    rw [hcallback]
  · exact h.leads.of_core rfl
  · exact h.records.reject hpos (by rw [h.prev]; omega)
  · exact h.term.le

theorem Sent.accepted (h : Sent s peer σ pair r a b) (hreject : b.rejectPrev r = none) (hbase : σ.base < σ.next)
    (hlen : σ.next - 1 ≤ σ.log.length) (keepFrom : Nat) {log : List LogEntry}
    (hlog : log = merge LogEntry.term σ.log (σ.next - 1) (s.slice (σ.next - 1))) :
    ∃ pair', exchange peer keepFrom pair = some pair' ∧
      Linked s peer { σ with log, next := max (σ.next + (s.slice (σ.next - 1)).length) (log.length + 1)
                             acked := max σ.acked log.length } pair' := by
  have hnumbered : Numbered (σ.next - 1) (s.slice (σ.next - 1)) := fun i e he =>
    h.leads.holds.indexed _ e (stands_slice s (σ.next - 1) i e he)
  obtain ⟨hok, hmerged⟩ := h.holds.spliceEntries (by rw [h.base]; omega) hlen hnumbered
  rw [← h.entries] at hok hmerged
  rw [h.entries, ← hlog] at hmerged
  have hhandle := h.handles
  rw [hreject] at hhandle
  rcases b.finishAppend_cases r with ⟨err, herr, -⟩ | ⟨-, hnode, resp, hresp, hsuccess, hterm, hmatch⟩
  · rw [hok] at herr
    cases herr
  have hfinish : pair.2.handleAppendEntries r = ((b.finishAppend r).1, .ok resp) := hhandle.trans (Prod.ext rfl hresp)
  have hacked : resp.matchIndex = log.length := by
    rw [← hmerged.last, hmatch, ← h.entries]
    rfl
  have hkeep : ∀ {α : Type} (g : Node → α), (∀ (n : Node) k, g { n with commitIndex := k } = g n) →
      (∀ (n : Node) fs, g { n with forwards := fs } = g n) → (∀ (n : Node) log, g { n with log } = g n) →
      g (b.finishAppend r).1 = g b := fun g hcommit hforward hfree => by
    rw [hnode, eq_of_advance g hcommit hforward, hfree]
  have hcallback : a.onReplicateResponse peer r (some resp) = (a.ackPeer peer log.length).maybeCommit := by
    rw [onReplicateResponse, if_neg (by rw [hterm, h.term]; exact Nat.lt_irrefl _), if_neg (by simp [h.leads.state]),
      if_pos hsuccess, hacked]
  have hleads : (a.ackPeer peer log.length).Leads s := h.leads.of_core (core_ackPeer ..)
  have hrecords := h.records.ackPeer log.length
  refine ⟨_, exchange_append h.sends hfinish, ?_, ?_, ?_, ?_, ?_, ?_⟩
  · dsimp only
    rw [hcallback]
    rcases (a.ackPeer peer log.length).maybeCommit_cases with heq | ⟨k, -, -, -, -, -, heq⟩
    · rw [heq]
      exact hleads
    · rw [heq]
      exact hleads.of_commit k
  · dsimp only
    rw [hcallback]
    rcases (a.ackPeer peer log.length).maybeCommit_cases with heq | ⟨k, -, -, -, -, -, heq⟩
    · rw [heq]
      exact hrecords
    · rw [heq]
      exact hrecords.of_commit k
  · rw [← h.named]
    exact hkeep Node.selfId (fun _ _ => rfl) (fun _ _ => rfl) (fun _ _ => rfl)
  · dsimp only
    rw [hcallback]
    have hcurrent : (a.ackPeer peer log.length).maybeCommit.currentTerm = a.currentTerm := by
      rcases (a.ackPeer peer log.length).maybeCommit_cases with heq | ⟨k, -, -, -, -, -, heq⟩
      · rw [heq]
        rfl
      · rw [heq]
        rfl
    rw [hcurrent, ← h.term]
    exact (hkeep Node.currentTerm (fun _ _ => rfl) (fun _ _ => rfl) (fun _ _ => rfl)).le
  · refine hmerged.congr ?_ ?_ ?_
    all_goals
      dsimp only
      rw [hnode]
    · rw [eq_of_advance Node.log (fun _ _ => rfl) (fun _ _ => rfl), h.entries]
    · exact eq_of_advance Node.lastSnapshotIndex (fun _ _ => rfl) (fun _ _ => rfl) ..
    · exact eq_of_advance Node.lastSnapshotTerm (fun _ _ => rfl) (fun _ _ => rfl) ..
  · rw [← h.base]
    exact hkeep Node.lastSnapshotIndex (fun _ _ => rfl) (fun _ _ => rfl) (fun _ _ => rfl)

theorem Linked.append (h : Linked s peer σ pair) (hpeer : peer ≠ "") (hbatch : 0 < s.batch) (hroot : Rooted s σ)
    (hwithin : Within s σ) (hbase : s.base < σ.next)
    (hbusy : ¬ (s.slice (σ.next - 1) = [] ∧ s.log.length ≤ σ.acked)) (keepFrom : Nat) :
    ∃ pair' σ', exchange peer keepFrom pair = some pair' ∧ round LogEntry.term s σ = some σ' ∧ Linked s peer σ' pair' := by
  have hnext := hroot.next
  have hend : σ.next - 1 ≤ s.log.length := by
    rcases hwithin with hle | hacked
    · omega
    · by_contra hgt
      refine hbusy ⟨List.eq_nil_of_length_eq_zero ?_, hacked⟩
      rw [length_slice]
      omega
  obtain ⟨r, a, b, hsent⟩ := h.sent hpeer hbatch hbase hbusy hend
  have hprev := hsent.prev
  rw [LogRepair.round, if_neg (by omega), if_neg hbusy]
  by_cases hshort : σ.log.length < σ.next - 1
  · rw [if_pos hshort]
    obtain ⟨pair', hexchange, hlinked⟩ := hsent.refused (hsent.holds.rejectPrev_short (by omega)) rfl rfl
      (Nat.succ_pos _) (show σ.log.length + 1 < σ.next by omega) keepFrom
    exact ⟨pair', _, hexchange, rfl, hlinked⟩
  rw [if_neg hshort]
  have hlen : σ.next - 1 ≤ σ.log.length := Nat.le_of_not_lt hshort
  by_cases hsame : σ.next - 1 = 0 ∨ termAt LogEntry.term σ.log (σ.next - 1) = termAt LogEntry.term s.log (σ.next - 1)
  · rw [if_pos hsame]
    have hreject : b.rejectPrev r = none := by
      refine hsent.holds.rejectPrev_none (by omega) (by rw [hsent.base]; omega) ?_
      rw [hprev]
      rcases Nat.eq_zero_or_pos (σ.next - 1) with hzero | hpos
      · exact .inl hzero
      · rw [hsame.resolve_left (by omega)]
        exact .inr (hsent.prevTerm hpos)
    obtain ⟨pair', hexchange, hlinked⟩ := hsent.accepted hreject hnext hlen keepFrom rfl
    exact ⟨pair', _, hexchange, rfl, hlinked⟩
  · rw [if_neg hsame]
    rw [not_or] at hsame
    obtain ⟨t, ht⟩ : ∃ t, termAt LogEntry.term σ.log (σ.next - 1) = some t := by
      unfold termAt
      rw [List.getElem?_eq_getElem (by omega)]
      exact ⟨_, rfl⟩
    have hbehind := hroot.lt_of_conflict (Nat.pos_of_ne_zero hsame.1) hsame.2
    have hdiff : t ≠ r.prevLogTerm := by
      rintro rfl
      exact hsame.2 (ht.trans (hsent.prevTerm (by omega)).symm)
    have hreject := hsent.holds.rejectPrev_conflict (by omega) (by rw [hsent.base]; omega) (by rw [hprev]; exact ht) hdiff
    rw [hsent.base, hprev] at hreject
    have hstart : σ.base < runStart LogEntry.term t σ.base σ.log (σ.next - 1) := lt_runStart hbehind
    have hle := runStart_le LogEntry.term t σ.base σ.log (σ.next - 1)
    obtain ⟨pair', hexchange, hlinked⟩ := hsent.refused hreject rfl rfl (Nat.lt_of_le_of_lt (Nat.zero_le _) hstart)
      (Nat.lt_of_le_of_lt hle (by omega)) keepFrom
    rw [ht]
    exact ⟨pair', _, hexchange, rfl, hlinked⟩

/-- A pass of the loop is a round of the repair. -/
theorem Linked.exchange (h : Linked s peer σ pair) (hpeer : peer ≠ "") (hbatch : 0 < s.batch) (hroot : Rooted s σ)
    (hwithin : Within s σ) (keepFrom : Nat) :
    Linked s peer ((round LogEntry.term s σ).getD σ) ((exchange peer keepFrom pair).getD pair) := by
  by_cases hinstall : 0 < s.base ∧ σ.next ≤ s.base
  · obtain ⟨pair', hexchange, hlinked⟩ := h.install hroot hinstall.1 hinstall.2 keepFrom
    rw [LogRepair.round, if_pos hinstall, hexchange]
    exact hlinked
  have hbase : s.base < σ.next := by
    have := hroot.next
    omega
  by_cases hidle : s.slice (σ.next - 1) = [] ∧ s.log.length ≤ σ.acked
  · rw [LogRepair.round, if_neg hinstall, if_pos hidle, Node.exchange, h.leads.replicate_idle h.records hbase hbatch hidle]
    exact h
  · obtain ⟨pair', σ', hexchange, hround, hlinked⟩ := h.append hpeer hbatch hroot hwithin hbase hidle keepFrom
    rw [hexchange, hround]
    exact hlinked

theorem Linked.exchanges (h : Linked s peer σ pair) (hpeer : peer ≠ "") (hs : s.base ≤ s.log.length)
    (hbatch : 0 < s.batch) (hroot : Rooted s σ) (hwithin : Within s σ) (keep : Nat → Nat) (k : Nat) :
    Linked s peer (iterate LogEntry.term s k σ) (exchanges peer keep k pair) ∧
      Rooted s (iterate LogEntry.term s k σ) := by
  induction k generalizing σ pair keep with
  | zero => exact ⟨h, hroot⟩
  | succ k ih =>
    have hnext := h.exchange hpeer hbatch hroot hwithin (keep 0)
    rw [iterate, Node.exchanges]
    cases hround : LogRepair.round LogEntry.term s σ with
    | none =>
      rw [hround] at hnext
      exact ih hnext hroot hwithin _
    | some σ' =>
      rw [hround] at hnext
      exact ih hnext (hroot.round hs hround) (hwithin.round hs hround) _

/-- The entries of the peer up to the end of the log of the leader are those of the leader,
and the leader has that end on record for it. -/
def InSync (l : List LogEntry) (peer : String) (pair : Node × Node) : Prop :=
  (∃ p, pair.1.progress.find? peer = some p ∧ p.matchIndex = pair.1.logicalLastIndex) ∧
    ∃ f, pair.2.Holds f ∧ f.take l.length = l

/-- What a log is behind the snapshot is the same for all that read it. -/
theorem Holds.getElem? (h : n.Holds full) {full' : List LogEntry} (h' : n.Holds full') {i : Nat}
    (hi : n.lastSnapshotIndex ≤ i) : full[i]? = full'[i]? := by
  rw [← h.behind i hi, h'.behind i hi]

theorem Linked.inSync_iff (h : Linked s peer σ pair) (hroot : Rooted s σ) : InSync s.log peer pair ↔ Synced s σ := by
  obtain ⟨p, hrow, -, hacked, -, -⟩ := h.records
  have hlast := h.leads.holds.last
  constructor
  · rintro ⟨⟨p', hrow', hmatch⟩, f, hholds, htake⟩
    rw [hrow] at hrow'
    cases hrow'
    refine ⟨List.ext_getElem? fun i => ?_, by rw [← hacked, hmatch, hlast]⟩
    rw [List.getElem?_take]
    split
    · next hi =>
      rcases Nat.lt_or_ge i σ.base with hlt | hge
      · rw [← List.getElem?_take_of_lt hlt, ← hroot.agree, List.getElem?_take_of_lt hlt]
      · rw [h.holds.getElem? hholds (by rw [h.base]; exact hge), ← List.getElem?_take_of_lt hi, htake]
    · next hi => rw [List.getElem?_eq_none (Nat.le_of_not_lt hi)]
  · rintro ⟨htake, hdone⟩
    exact ⟨⟨p, hrow, by rw [hacked, hdone, hlast]⟩, σ.log, h.holds, htake⟩

theorem Linked.converges_iff (h : Linked s peer σ pair) (hpeer : peer ≠ "") (hs : s.base ≤ s.log.length)
    (hbatch : 0 < s.batch) (hroot : Rooted s σ) (hmatch : Matching LogEntry.term s.log σ.log)
    (hnext : σ.next = s.log.length + 1) (hacked : σ.acked = 0) (keep : Nat → Nat) :
    (∃ k, InSync s.log peer (Node.exchanges peer keep k pair)) ↔ Repairable LogEntry.term s σ.log σ.base := by
  rw [← eventually_iff hs hbatch hmatch hroot hnext hacked]
  refine exists_congr fun k => ?_
  obtain ⟨hlinked, hrooted⟩ := h.exchanges hpeer hs hbatch hroot (.inl hnext.le) keep k
  exact hlinked.inSync_iff hrooted

/-- A leader with a fresh row for a peer, and their two logs. The snapshot of the peer
covers entries of the leader. -/
structure Elected (l f : List LogEntry) (peer : String) (pair : Node × Node) : Prop where
  state : pair.1.state = .leader
  term : 0 < pair.1.currentTerm
  follows : pair.2.currentTerm ≤ pair.1.currentTerm
  leader : pair.1.Holds l
  follower : pair.2.Holds f
  matching : Matching LogEntry.term l f
  committed : l.take pair.2.lastSnapshotIndex = f.take pair.2.lastSnapshotIndex
  snapshot : 0 < pair.1.lastSnapshotIndex → ∃ snapshot, pair.1.snapshot = some snapshot ∧
    snapshot.raftIndex = pair.1.lastSnapshotIndex ∧ snapshot.raftTerm = pair.1.lastSnapshotTerm ∧
    ∀ row ∈ snapshot.dedup, row.1 ≠ ""
  row : ∃ p, pair.1.progress.find? peer = some p ∧ p.nextIndex = pair.1.logicalLastIndex + 1 ∧ p.matchIndex = 0 ∧
    p.inFlight = 0 ∧ p.effectiveWindowSize = pair.1.config.pipelineWindowSize
  window : 1 ≤ pair.1.config.pipelineWindowSize
  batch : 1 ≤ pair.1.config.batchMaxEntries
  named : pair.2.selfId = peer ∧ peer ≠ ""

theorem Elected.converges_iff {l f : List LogEntry} (h : Elected l f peer pair) (keep : Nat → Nat) :
    (∃ k, InSync l peer (Node.exchanges peer keep k pair)) ↔
      Repairable LogEntry.term ⟨l, pair.1.lastSnapshotIndex, pair.1.config.batchMaxEntries⟩ f pair.2.lastSnapshotIndex := by
  obtain ⟨p, hrow, hnext, hmatch, hidle, hwindow⟩ := h.row
  have hlast := h.leader.last
  have hleft : pair.2.lastSnapshotIndex ≤ l.length := by
    have hlen := congrArg List.length h.committed
    rw [List.length_take, List.length_take, Nat.min_eq_left h.follower.snapshot_le] at hlen
    omega
  have hlinked : Linked ⟨l, pair.1.lastSnapshotIndex, pair.1.config.batchMaxEntries⟩ peer
      ⟨f, pair.2.lastSnapshotIndex, l.length + 1, 0⟩ pair := by
    refine ⟨⟨h.state, h.term, h.leader, rfl, rfl, h.snapshot⟩, ⟨p, hrow, ?_, hmatch, hidle, ?_⟩, h.named.1, h.follows,
      h.follower, rfl⟩
    · rw [hnext, hlast]
    · have hpos := h.window
      rw [PeerProgress.window]
      split
      · exact hpos
      · next hne => exact Nat.pos_of_ne_zero hne
  exact hlinked.converges_iff h.named.2 h.leader.snapshot_le h.batch
    ⟨Nat.lt_succ_of_le hleft, hleft, h.follower.snapshot_le, h.committed⟩ h.matching rfl rfl keep

/-- Replication to the peer comes to an end with equal logs exactly if the leader has no
entries, the log of the peer is a part of that of the leader, or the logs part at an entry
that a batch reaches: a batch from the start of the run of the conflicting term, or from
the end of the snapshot of the leader if that covers it. -/
theorem replication_converges_iff (l f : List LogEntry) (peer : String) (pair : Node × Node)
    (h : Elected l f peer pair) (keep : Nat → Nat) :
    (∃ k, InSync l peer (exchanges peer keep k pair)) ↔
      l = [] ∨ f.length = common LogEntry.term l f ∨
        (common LogEntry.term l f < l.length ∧
          common LogEntry.term l f + 1 < max
            (runStart LogEntry.term ((termAt LogEntry.term f (common LogEntry.term l f + 1)).getD 0)
              pair.2.lastSnapshotIndex f (common LogEntry.term l f + 1)) (pair.1.lastSnapshotIndex + 1) +
            pair.1.config.batchMaxEntries) :=
  h.converges_iff keep

/-- A WAL that starts with the first entry. -/
theorem holds_of_fromOne (hsnap : n.lastSnapshotIndex = 0) (h : n.log.FromOne) : n.Holds n.log.entries := by
  have hsorted : n.log.entries.Pairwise fun a b => a.index < b.index := by
    rw [List.pairwise_iff_getElem]
    intro i j hi hj hij
    rw [h.index i _ (List.getElem?_eq_getElem hi), h.index j _ (List.getElem?_eq_getElem hj)]
    omega
  refine ⟨⟨hsorted, fun e he => ?_⟩, hsnap ▸ Anchored.zero _, ?_, h.index, by omega, fun i _ => ?_⟩
  · have hpos := List.length_pos_of_mem (List.mem_of_getLast? he)
    rw [List.getLast?_eq_getElem?] at he
    have := h.index _ e he
    have := h.last
    omega
  · rw [logicalLastIndex, hsnap, h.last, Nat.zero_max]
  · cases he : n.log.entries[i]? with
    | some e =>
      rw [h.read_eq_ok.mpr he]
      rfl
    | none =>
      obtain ⟨err, herr⟩ := h.read_error (List.getElem?_eq_none_iff.mp he)
      rw [herr]
      rfl

/-- `A` leads term 3 and has replaced the last of the entries of term 1. -/
def replaced : List LogEntry := [{ index := 1, term := 1 }, { index := 2, term := 1 }, { index := 3, term := 3 }]

/-- `B` still has it. -/
def replaceable : List LogEntry := [{ index := 1, term := 1 }, { index := 2, term := 1 }, { index := 3, term := 1 }]

def freshLeader (batchMaxEntries : Nat) : Node :=
  let config : Config := { nodeId := "A", peers := ["B", "C"], batchMaxEntries }
  { Node.create config {} {} none with
    currentTerm := 3
    log := ⟨replaced, 3⟩
    state := .leader
    progress := resetPeerProgress config (registerConfiguredPeers config) 4 }

def stalePeer : Node :=
  { Node.create { nodeId := "B", peers := ["A", "C"] } {} {} none with log := ⟨replaceable, 3⟩, currentTerm := 2 }

theorem matching_replaced : Matching LogEntry.term replaced replaceable := by
  intro i x y hx hy hterm
  rcases i with _ | _ | _ | i
  · rfl
  · rfl
  · cases hx
    cases hy
    cases hterm
  · cases hx

theorem fromOne_replaced : IndexedLog.FromOne ⟨replaced, 3⟩ ∧ IndexedLog.FromOne ⟨replaceable, 3⟩ := by
  refine ⟨⟨rfl, fun i e he => ?_⟩, ⟨rfl, fun i e he => ?_⟩⟩
  all_goals
    rcases i with _ | _ | _ | i
    all_goals cases he
    all_goals rfl

theorem elected_replaced {batch : Nat} (hbatch : 1 ≤ batch) :
    Elected replaced replaceable "B" (freshLeader batch, stalePeer) where
  state := rfl
  term := show 0 < 3 by decide
  follows := show 2 ≤ 3 by decide
  leader := holds_of_fromOne rfl fromOne_replaced.1
  follower := holds_of_fromOne rfl fromOne_replaced.2
  matching := matching_replaced
  committed := rfl
  snapshot := fun h => absurd h (Nat.lt_irrefl 0)
  row := ⟨_, rfl, rfl, rfl, rfl, rfl⟩
  window := show 1 ≤ 16 by decide
  batch := hbatch
  named := ⟨rfl, by decide⟩

/-- A batch of three entries reaches the conflict. -/
theorem replication_converges_within_batch :
    ∃ k, InSync replaced "B" (exchanges "B" (fun _ => 0) k (freshLeader 3, stalePeer)) :=
  (replication_converges_iff replaced replaceable "B" (freshLeader 3, stalePeer) (elected_replaced (by decide))
    fun _ => 0).mpr (.inr (.inr (by decide)))

/-- Single entries do not: the answer to the first one names the end of the follower's own log, so the
leader takes the follower to have everything and sends no more. -/
theorem replication_of_single_entries_never_converges :
    Elected replaced replaceable "B" (freshLeader 1, stalePeer) ∧
      ∀ keep k, ¬ InSync replaced "B" (exchanges "B" keep k (freshLeader 1, stalePeer)) := by
  have helected := elected_replaced (Nat.le_refl 1)
  refine ⟨helected, fun keep k hsync => ?_⟩
  rcases (helected.converges_iff keep).mp ⟨k, hsync⟩ with hnil | hpart | hreach
  · exact absurd hnil (by decide)
  · exact absurd hpart (by decide)
  · exact absurd hreach (by decide)

end Node

end RaftVdb
