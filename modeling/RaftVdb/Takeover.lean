import RaftVdb.LocalView
import RaftVdb.ProposeFaults

/-!
# A takeover that fails

`BecomeLeader` records the node as the leader and rebuilds the topology before it writes
its first entry, and no error path takes this back. Of its steps only the first, which
stores a term for a node without one, fails before anything is recorded.
-/

namespace RaftVdb

open Lib

namespace Node

inductive TakeoverFault where
  | persist (err : String)
  | append (fault : Wal.Fault)
  | flush
  deriving DecidableEq, Repr

/-- The first updates of `BecomeLeader`, up to the chain. -/
def announce (n : Node) : Node :=
  { n.firstTerm with leaderId := n.selfId, topology := n.topology.setLeader n.selfId n.selfId }

/-- `BecomeLeader` over the files with the call that fails, if any; `none` if it does not come
to that call. -/
def becomeLeaderOn (entryCodec : EntryCodec) (n : Node) (h : Wal.Handle) (fault : Option TakeoverFault) :
    Option (Node × Wal.Handle × Except String Unit) :=
  match fault with
  | some (.persist err) => if n.currentTerm = 0 then some (n, h, .error err) else none
  | fault =>
    let n := n.announce
    match n.topology.rebalance n.config.peers with
    | .error err => some (n, h, .error err)
    | .ok topology =>
      let n := { n with topology }
      match fault with
      | some (.append fault) =>
        (h.wal.failAppend entryCodec (n.nextEntry noopEntry) fault).map fun h' => (n, h', .error fault.message)
      | _ => match h.wal.append entryCodec (n.nextEntry noopEntry) with
        | .error err => some (n, h, .error err)
        | .ok w =>
          let m := { n with log := (n.log.append (n.nextEntry noopEntry)).toOption.getD n.log }
          match fault, w.flush with
          | some _, _ => some (m, ⟨w, false⟩, .error "fdatasync 失败")
          | none, .error err => some (m, ⟨w, false⟩, .error err)
          | none, .ok w =>
            some ({ m with
              flushedIndex := (n.nextEntry noopEntry).index
              progress := resetPeerProgress n.config n.topology ((n.nextEntry noopEntry).index + 1)
              state := .leader }, ⟨w, false⟩, .ok ())

/-- Nothing of a takeover is left. -/
structure Traceless (entryCodec : EntryCodec) (n : Node) (h : Wal.Handle) (n' : Node) (h' : Wal.Handle) : Prop where
  state : n'.state = n.state
  leaderId : n'.leaderId = n.leaderId
  topologyLeader : n'.topology.leaderId = n.topology.leaderId
  roles : ∀ x, n'.topology.getRole x = n.topology.getRole x
  log : n'.log = n.log
  read : ∀ i, h'.read entryCodec i = h.read entryCodec i
  lastIndex : h'.wal.lastIndex = h.wal.lastIndex
  progress : n'.progress = n.progress

/-- What a takeover that fails behind the chain leaves: the node counts as the leader for
`LeaderId()` and for its topology, in its old state and with its old progress table. -/
structure Announced (n n' : Node) : Prop where
  state : n'.state = n.state
  progress : n'.progress = n.progress
  leaderId : n'.leaderId = n.selfId
  leaderAddr : n'.leaderAddr = n.selfId
  chain : n'.topology.leaderId = n.selfId ∧ n'.topology.TwoLevels (TopologyManager.listed n.selfId n.config.peers)

variable {entryCodec : EntryCodec} {n n' : Node} {h h' : Wal.Handle} {fault : Option TakeoverFault} {err : String}

@[simp] theorem announce_leaderId (n : Node) : n.announce.leaderId = n.selfId := rfl

theorem announce_frame (n : Node) : n.announce.state = n.state ∧ n.announce.progress = n.progress ∧
    n.announce.config = n.config ∧ n.announce.log = n.log ∧ n.announce.logicalLastIndex = n.logicalLastIndex := by
  unfold announce firstTerm
  split <;> exact ⟨rfl, rfl, rfl, rfl, rfl⟩

/-- A failing takeover has stopped at the term, at the chain or at the log. -/
theorem becomeLeaderOn_error (hfailed : n.becomeLeaderOn entryCodec h fault = some (n', h', .error err)) :
    (∃ e, fault = some (.persist e) ∧ n' = n ∧ h' = h) ∨
    (∃ e, n.announce.topology.rebalance n.announce.config.peers = .error e) ∨
    ∃ topology log, n.announce.topology.rebalance n.announce.config.peers = .ok topology ∧
      n' = { n.announce with topology, log } := by
  unfold becomeLeaderOn at hfailed
  split at hfailed
  · next e =>
    split at hfailed
    · cases hfailed
      exact .inl ⟨err, rfl, rfl, rfl⟩
    · cases hfailed
  · cases hchain : n.announce.topology.rebalance n.announce.config.peers with
    | error e => exact .inr (.inl ⟨e, rfl⟩)
    | ok topology =>
      simp only [hchain] at hfailed
      refine .inr (.inr ⟨topology, n'.log, rfl, ?_⟩)
      split at hfailed
      · obtain ⟨h₁, -, heq⟩ := Option.map_eq_some_iff.mp hfailed
        cases heq
        rfl
      · split at hfailed
        · cases hfailed
          rfl
        · split at hfailed <;> cases hfailed <;> rfl

theorem becomeLeader_announce (n : Node) : n.becomeLeader = match n.announce.topology.rebalance n.announce.config.peers with
    | .error err => (n.announce, .error err)
    | .ok topology => match appendEntry { n.announce with topology } noopEntry with
      | (m, .error err) => (m, .error err)
      | (m, .ok noopIndex) =>
        ({ m with progress := resetPeerProgress m.config m.topology (noopIndex + 1), state := .leader }, .ok ()) := by
  have hannounce : n.announce = { n.firstTerm with
      leaderId := n.firstTerm.selfId
      topology := n.firstTerm.topology.setLeader n.firstTerm.selfId n.firstTerm.selfId } := by
    unfold announce firstTerm
    split <;> rfl
  rw [hannounce]
  rfl

theorem nextEntry_topology (n : Node) (topology : TopologyManager) (e : LogEntry) :
    nextEntry { n with topology } e = n.nextEntry e := rfl

/-- Without a failing call, a takeover that succeeds is that of the node. -/
theorem Backed.takeover_ok (hbacked : Backed entryCodec n h)
    (hround : entryCodec.RoundTrips (n.announce.nextEntry noopEntry))
    (hfirst : n.log.entries = [] → h.wal.start ≤ n.logicalLastIndex + 1)
    (hok : n.becomeLeaderOn entryCodec h none = some (n', h', .ok ())) :
    n.becomeLeader = (n', .ok ()) ∧ Backed entryCodec n' h' := by
  obtain ⟨-, -, -, hlog, hnext⟩ := n.announce_frame
  cases hchain : n.announce.topology.rebalance n.announce.config.peers with
  | error e => simp [becomeLeaderOn, hchain] at hok
  | ok topology =>
    simp only [becomeLeaderOn, hchain, nextEntry_topology] at hok
    cases happend : h.wal.append entryCodec (n.announce.nextEntry noopEntry) with
    | error e =>
      rw [happend] at hok
      cases hok
    | ok w =>
      rw [happend] at hok
      have hacc := Wal.accepts_of_append happend
      have hknown : Wal.Known noopEntry := by decide
      obtain ⟨w₁, happend', hstored, hindex⟩ := hbacked.stored.append hacc hknown hround fun hnil =>
        ⟨Nat.succ_pos _, by
          rw [show (n.announce.nextEntry noopEntry).index = n.announce.logicalLastIndex + 1 from rfl, hnext]
          exact hfirst hnil⟩
      rw [happend] at happend'
      cases happend'
      obtain ⟨w', hflush⟩ := flush_of_append happend
      simp only [hflush] at hok
      cases hok
      have hadded : n.announce.log.append (n.announce.nextEntry noopEntry) =
          .ok ⟨n.log.entries ++ [n.announce.nextEntry noopEntry], (n.announce.nextEntry noopEntry).index⟩ := by
        rw [hlog, IndexedLog.append, if_neg]
        rintro ⟨hne, hgap⟩
        refine hgap ?_
        rw [hacc.1 fun hzero => hne (hbacked.stored.size_eq_zero.mp hzero), hbacked.last]
      have hentry : appendEntry { n.announce with topology } noopEntry = ({ n.announce with
          topology
          log := ⟨n.log.entries ++ [n.announce.nextEntry noopEntry], (n.announce.nextEntry noopEntry).index⟩
          flushedIndex := (n.announce.nextEntry noopEntry).index }, .ok (n.announce.nextEntry noopEntry).index) := by
        unfold appendEntry
        dsimp only
        rw [show n.announce.log.append { noopEntry with
          index := logicalLastIndex { n.announce with topology } + 1
          term := n.announce.currentTerm } = _ from hadded]
        rfl
      obtain ⟨hflushed, hlast⟩ := hstored.flush hflush
      refine ⟨?_, rfl, ?_, ?_⟩
      · rw [becomeLeader_announce, hchain]
        simp only [hentry, hadded]
        rfl
      · simp only [hadded]
        exact hflushed
      · simp only [hadded]
        rw [hlast, hindex]
        rfl

theorem announce_chain (hid : n.selfId ≠ "") : n.announce.topology.rebalanceLeader = n.selfId := by
  simp [announce, TopologyManager.rebalanceLeader, hid]

/-- Whatever fails behind the chain, the node counts as the leader. -/
theorem failed_takeover_announced (hid : n.selfId ≠ "") (hpersist : ∀ e, fault ≠ some (.persist e))
    (hfailed : n.becomeLeaderOn entryCodec h fault = some (n', h', .error err)) : n.Announced n' := by
  obtain ⟨hstate, hprogress, hconfig, -, -⟩ := n.announce_frame
  rcases becomeLeaderOn_error hfailed with ⟨e, he, -, -⟩ | ⟨e, he⟩ | ⟨topology, log, hok, rfl⟩
  · exact absurd he (hpersist e)
  · obtain ⟨t, ht⟩ := TopologyManager.rebalance_ok (t := n.announce.topology)
      (by rw [announce_chain hid]; exact hid) n.announce.config.peers
    rw [ht] at he
    cases he
  · have hlead := TopologyManager.leaderId_rebalance hok
    have hlevels := TopologyManager.rebalance_twoLevels hok
    rw [announce_chain hid] at hlead hlevels
    refine ⟨hstate, hprogress, rfl, ?_, hlead, hconfig ▸ hlevels⟩
    have hself : ({ n.announce with topology, log } : Node).selfId = n.selfId := congrArg Config.nodeId hconfig
    rw [leaderAddr, hself]
    exact if_pos (.inr rfl)

/-- A takeover that returns an error leaves no trace, and a node that does not report itself as
the leader, exactly if storing the first term is what fails. -/
theorem failed_takeover_traceless_iff (entryCodec : EntryCodec) (n n' : Node) (h h' : Wal.Handle)
    (fault : Option TakeoverFault) (err : String) (hid : n.selfId ≠ "")
    (hfailed : n.becomeLeaderOn entryCodec h fault = some (n', h', .error err)) :
    (Traceless entryCodec n h n' h' ∧ n'.leaderId ≠ n.selfId) ↔
      (∃ e, fault = some (.persist e)) ∧ n.leaderId ≠ n.selfId := by
  constructor
  · rintro ⟨htraceless, hsilent⟩
    refine ⟨?_, htraceless.leaderId ▸ hsilent⟩
    by_contra hpersist
    exact hsilent (failed_takeover_announced hid (fun e he => hpersist ⟨e, he⟩) hfailed).leaderId
  · rintro ⟨⟨e, rfl⟩, hsilent⟩
    rw [becomeLeaderOn] at hfailed
    split at hfailed
    · cases hfailed
      exact ⟨⟨rfl, rfl, rfl, fun _ => rfl, rfl, fun _ => rfl, rfl, rfl⟩, hsilent⟩
    · cases hfailed

/-- A candidate that has no term yet cannot store its first one. -/
theorem failed_takeover_traceless_at_persist : ∃ (n n' : Node) (w : Wal) (h' : Wal.Handle), n.state = .candidate ∧
    n.becomeLeaderOn framedCodec ⟨w, false⟩ (some (.persist "fsync meta.tmp 失败")) =
      some (n', h', .error "fsync meta.tmp 失败") ∧
    Traceless framedCodec n ⟨w, false⟩ n' h' ∧ n'.leaderId ≠ n.selfId := by
  obtain ⟨n, n', w, h', hstate, hid, hsilent, hfailed⟩ : ∃ (n n' : Node) (w : Wal) (h' : Wal.Handle),
      n.state = .candidate ∧ n.selfId ≠ "" ∧ n.leaderId ≠ n.selfId ∧
      n.becomeLeaderOn framedCodec ⟨w, false⟩ (some (.persist "fsync meta.tmp 失败")) =
        some (n', h', .error "fsync meta.tmp 失败") :=
    ⟨{ Node.create Leading.proposerConfig {} {} none with state := .candidate }, _,
      { dir := ∅, start := 1, segmentSizeBytes := 100 }, _, rfl, by decide, by decide, rfl⟩
  exact ⟨n, n', w, h', hstate, hfailed,
    (failed_takeover_traceless_iff _ _ _ _ _ _ _ hid hfailed).mpr ⟨⟨_, rfl⟩, hsilent⟩⟩

set_option maxRecDepth 20000 in
/-- `fdatasync` fails under the first entry of a candidate that has won its election. -/
theorem failed_takeover_reports_itself : ∃ (w : Wal) (n' : Node) (h' : Wal.Handle),
    Wal.openWal framedCodec ∅ 1 100 = .ok w ∧
    (Node.create Leading.proposerConfig {} {} none).becomeCandidate.becomeLeaderOn framedCodec ⟨w, false⟩
      (some .flush) = some (n', h', .error "fdatasync 失败") ∧
    n'.state = .candidate ∧ n'.leaderId = "A" ∧ n'.leaderAddr = "A" ∧ n'.topology.leaderId = "A" ∧
    n'.topology.getRole "A" = .leader ∧ n'.topology.getRole "B" = .mentor ∧
    h'.read framedCodec 1 = .ok firstNoop ∧ n'.log.entries = [firstNoop] ∧
    ¬ Traceless framedCodec (Node.create Leading.proposerConfig {} {} none).becomeCandidate ⟨w, false⟩ n' h' := by
  obtain ⟨w, n', h', hopen, hfailed, hstate, hleader, haddr, htop, hrole, hrole', hread, hlog⟩ : ∃ w n' h',
      Wal.openWal framedCodec ∅ 1 100 = .ok w ∧
      (Node.create Leading.proposerConfig {} {} none).becomeCandidate.becomeLeaderOn framedCodec ⟨w, false⟩
        (some .flush) = some (n', h', .error "fdatasync 失败") ∧
      n'.state = .candidate ∧ n'.leaderId = "A" ∧ n'.leaderAddr = "A" ∧ n'.topology.leaderId = "A" ∧
      n'.topology.getRole "A" = .leader ∧ n'.topology.getRole "B" = .mentor ∧
      h'.read framedCodec 1 = .ok firstNoop ∧ n'.log.entries = [firstNoop] :=
    ⟨_, _, _, rfl, rfl, rfl, rfl, rfl, rfl, rfl, rfl, rfl, rfl⟩
  refine ⟨w, n', h', hopen, hfailed, hstate, hleader, haddr, htop, hrole, hrole', hread, hlog, fun htraceless => ?_⟩
  have hsame := htraceless.leaderId
  rw [hleader] at hsame
  exact absurd hsame (by decide)

end Node

end RaftVdb
