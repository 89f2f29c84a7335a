import RaftVdb.Frame
import RaftVdb.LeaderRole

/-!
# Entries from a sender without authority

A follower takes entries from its source and from the leader only. The check stands
behind the two updates that the same request makes: the leader it names is recorded
and the topology it carries is applied, so it compares the sender with what the
request says and not with what the node knew.
-/

namespace RaftVdb

namespace TopologyManager

variable {t t' : TopologyManager} {id : String} {m : TopologyInfo} {role : NodeRole} {addr : String}

/-- The upstream that a message gives a mentor: its source, or the leader known before. -/
def upstream (t : TopologyManager) (m : TopologyInfo) : String :=
  if m.sourceNodeId = "" then t.leaderId else m.sourceNodeId

/-- The row of the node itself after a message. -/
def toldShape (t : TopologyManager) (id : String) (m : TopologyInfo) : NodeRole → Shape
  | .leader => ⟨.leader, "", true⟩
  | .follower => if id = t.leaderId then ⟨.leader, "", true⟩ else ⟨.follower, m.sourceNodeId, true⟩
  | .mentor =>
    if id = t.upstream m then ⟨.leader, "", true⟩
    else if id = m.followerNodeId then ⟨.follower, id, true⟩
    else ⟨.mentor, t.upstream m, true⟩

theorem shape_normalized (t : TopologyManager) (x : String) (hx : x ≠ "") :
    t.normalizeMentorSources.shape x = if x = t.leaderId then some ⟨.leader, "", true⟩
      else (t.shape x).map fun s => if s.role = .mentor ∧ t.leaderId ≠ "" then { s with source := t.leaderId } else s := by
  by_cases hl : t.leaderId = ""
  · simp [normalizeMentorSources, hl, hx]
  · rw [shape_normalizeMentorSources t hl]
    simp [hl]

theorem shape_told (hid : id ≠ "") (hrole : parseRole m.role = .ok role) (h : t.fromProto id m addr = .ok t') :
    t'.shape id = some (t.toldShape id m role) := by
  have hlead := leaderId_adoptRole (t.noteAddress id addr) id role m.sourceNodeId
  rw [leaderId_noteAddress] at hlead
  rw [fromProto_eq t hid hrole] at h
  have heq := (Except.ok.inj h).symm
  cases role with
  | leader =>
    have hrow := shape_adoptRole_leader (t.noteAddress id addr) hid m.sourceNodeId id
    rw [if_pos rfl] at hrow hlead
    rw [if_neg (by simp [(roles_of_shape hrow).1])] at heq
    rw [heq, shape_normalized _ _ hid, hlead, if_pos rfl, toldShape]
  | follower =>
    have hrow := shape_adoptRole_follower (t.noteAddress id addr) id m.sourceNodeId id
    rw [if_pos rfl] at hrow
    simp only [reduceCtorEq, if_false, false_and] at hlead
    rw [if_neg (by simp [(roles_of_shape hrow).1])] at heq
    rw [heq, shape_normalized _ _ hid, hlead, hrow, toldShape]
    by_cases hl : id = t.leaderId <;> simp [hl]
  | mentor =>
    have hrow := shape_adoptRole_mentor (t.noteAddress id addr) id m.sourceNodeId id
    have hup : ((t.noteAddress id addr).adoptRole id .mentor m.sourceNodeId).leaderId = t.upstream m := by
      rw [hlead, upstream]
      by_cases hs : m.sourceNodeId = "" <;> simp [hs]
    by_cases hs : m.sourceNodeId ≠ "" ∧ id = m.sourceNodeId
    · have hself : id = t.upstream m := by
        rw [upstream, if_neg hs.1]
        exact hs.2
      rw [if_pos hs] at hrow
      rw [if_neg (by simp [(roles_of_shape hrow).1])] at heq
      rw [heq, shape_normalized _ _ hid, hup, if_pos hself, toldShape, if_pos hself]
    · rw [if_neg hs, if_pos rfl] at hrow
      rw [if_pos (roles_of_shape hrow).1] at heq
      rw [heq, shape_normalized _ _ hid, leaderId_adoptFollower, hup, toldShape]
      generalize (t.noteAddress id addr).adoptRole id .mentor m.sourceNodeId = a at hrow
      have hscan : ¬ (a.findFollowerIdOf id = some id ∧ id ≠ m.followerNodeId) := by
        intro hfound
        have hfollows := find_follower_some hfound.1
        rw [Follows, hrow] at hfollows
        cases hfollows
      by_cases hself : id = t.upstream m
      · rw [if_pos hself, if_pos hself]
      · rw [if_neg hself, if_neg hself, shape_adoptFollower, if_neg hscan, hrow]
        by_cases hf : id = m.followerNodeId
        · simp [← hf, hid]
        · rw [if_neg fun h => hf h.2, if_neg hf]
          by_cases hempty : m.sourceNodeId = "" <;> by_cases hl : t.leaderId = "" <;>
            simp [upstream, hempty, hl]

end TopologyManager

namespace Node

open TopologyManager

variable {n m : Node} {r : AppendEntriesRequest} {t : TopologyManager}

/-- The request is answered with `success = false`, and the log, the commit index and the
recorded source are as before. -/
structure Refused (n : Node) (r : AppendEntriesRequest) : Prop where
  answer : ∃ a, (n.handleAppendEntries r).2 = .ok a ∧ a.success = false
  log : (n.handleAppendEntries r).1.log = n.log
  commit : (n.handleAppendEntries r).1.commitIndex = n.commitIndex
  source : (n.handleAppendEntries r).1.topology.getSource n.selfId = n.topology.getSource n.selfId

/-- The request names the receiver as the leader. -/
def NamesSelf (n : Node) (r : AppendEntriesRequest) : Prop := r.leaderId ≠ "" ∧ n.selfId = r.leaderId

/-- The upstream that a request with the mentor role gives. -/
def namedUpstream (r : AppendEntriesRequest) : String :=
  if r.topology.sourceNodeId = "" then r.leaderId else r.topology.sourceNodeId

/-- The request, if it carries a role, carries one that can be applied, and the source that it
gives is the recorded one. -/
def KeepsSource (n : Node) (r : AppendEntriesRequest) : Prop :=
  if r.topology.role = "" then n.NamesSelf r → n.topology.getSource n.selfId = ""
  else n.selfId ≠ "" ∧ match parseRole r.topology.role with
    | .error _ => False
    | .ok .leader => n.topology.getSource n.selfId = ""
    | .ok .follower => n.topology.getSource n.selfId =
        if n.selfId = r.leaderId then "" else r.topology.sourceNodeId
    | .ok .mentor => n.topology.getSource n.selfId =
        if n.selfId = namedUpstream r then "" else
        if n.selfId = r.topology.followerNodeId then n.selfId else namedUpstream r

/-- The request leaves the follower a follower. -/
def StaysFollower (n : Node) (r : AppendEntriesRequest) : Prop :=
  if r.topology.role = "" then ¬ n.NamesSelf r
  else match parseRole r.topology.role with
    | .ok .follower => n.selfId ≠ r.leaderId
    | .ok .mentor => n.selfId ≠ namedUpstream r ∧ n.selfId = r.topology.followerNodeId
    | _ => False

/-- The request changes nothing that the check of the sender reads, or its previous entry is
missing anyway. -/
def Withstands (n : Node) (r : AppendEntriesRequest) : Prop :=
  n.KeepsSource r ∧ ((n.StaysFollower r ∧ r.senderId ≠ r.leaderId) ∨ n.rejectPrev r ≠ none)

/-- The topology that the check of the sender reads. -/
def toldTopology (n : Node) (r : AppendEntriesRequest) : Except String TopologyManager :=
  if r.topology.role = "" then .ok (n.topology.setLeader r.leaderId)
  else (n.topology.setLeader r.leaderId).fromProto n.selfId r.topology n.selfId

theorem conflictStart_frame (hlog : m.log = n.log) (hsnap : m.lastSnapshotIndex = n.lastSnapshotIndex)
    (prevTerm index : Nat) : m.conflictStart prevTerm index = n.conflictStart prevTerm index := by
  induction index with
  | zero => rfl
  | succ index ih => simp only [conflictStart, hlog, hsnap, ih]

/-- The check of the previous entry does not read the topology. -/
theorem rejectPrev_frame (hterm : m.currentTerm = n.currentTerm) (hlog : m.log = n.log)
    (hsnap : m.lastSnapshotIndex = n.lastSnapshotIndex) (hsnapTerm : m.lastSnapshotTerm = n.lastSnapshotTerm)
    (r : AppendEntriesRequest) : m.rejectPrev r = n.rejectPrev r := by
  simp only [rejectPrev, logicalLastIndex, termAtLogicalIndex, conflictStart_frame hlog hsnap, hterm, hlog, hsnap,
    hsnapTerm]

theorem noteLeader_current {term : Nat} (hterm : term = n.currentTerm) (leaderId : String) :
    ∃ m, n.noteLeader term leaderId = .ok m ∧ m.topology = n.topology.setLeader leaderId ∧
      m.selfId = n.selfId ∧ m.log = n.log ∧ m.commitIndex = n.commitIndex ∧
      ∀ r, m.rejectPrev r = n.rejectPrev r := by
  subst hterm
  rw [noteLeader]
  by_cases hstate : n.state = .follower
  · rw [if_neg (by simp [hstate])]
    exact ⟨_, rfl, rfl, rfl, rfl, rfl, rejectPrev_frame rfl rfl rfl rfl⟩
  · rw [if_pos (.inr hstate), becomeFollower, if_neg (Nat.lt_irrefl _)]
    exact ⟨_, rfl, rfl, rfl, rfl, rfl, rejectPrev_frame rfl rfl rfl rfl⟩

theorem handle_told_error {err : String} (hterm : r.term = n.currentTerm) (h : n.toldTopology r = .error err) :
    (n.handleAppendEntries r).2 = .error err := by
  obtain ⟨m, hm, htop, hself, -⟩ := noteLeader_current hterm r.leaderId
  have happly : m.applyTopology r.topology = .error err := by
    rw [toldTopology] at h
    rw [applyTopology, htop, hself]
    split at h
    · cases h
    · next hrole => rw [if_neg hrole, h]
  rw [handleAppendEntries, prepareAppend, if_neg (by omega), hm]
  simp only [happly]

/-- Behind the two updates the request meets the check with the new topology. -/
theorem prepare_told (hterm : r.term = n.currentTerm) (h : n.toldTopology r = .ok t) :
    ∃ m, m.topology = t ∧ m.selfId = n.selfId ∧ m.log = n.log ∧ m.commitIndex = n.commitIndex ∧
      n.prepareAppend r = (m, if m.authorizes r then (n.rejectPrev r).map .ok
        else some (.ok { term := m.currentTerm, success := false })) := by
  obtain ⟨m, hm, htop, hself, hlog, hcommit, hreject⟩ := noteLeader_current hterm r.leaderId
  obtain ⟨m', happly, htop', hself', hlog', hcommit', hreject'⟩ : ∃ m', m.applyTopology r.topology = .ok m' ∧
      m'.topology = t ∧ m'.selfId = n.selfId ∧ m'.log = m.log ∧ m'.commitIndex = m.commitIndex ∧
      m'.rejectPrev r = m.rejectPrev r := by
    rw [toldTopology] at h
    rw [applyTopology, htop, hself]
    split at h
    · next hrole =>
      rw [if_pos hrole]
      exact ⟨m, rfl, htop.trans (Except.ok.inj h), hself, rfl, rfl, rfl⟩
    · next hrole =>
      rw [if_neg hrole, h]
      exact ⟨{ m with topology := t }, rfl, rfl, hself, rfl, rfl,
        rejectPrev_frame (n := m) (m := { m with topology := t }) rfl rfl rfl rfl r⟩
  refine ⟨m', htop', hself', hlog'.trans hlog, hcommit'.trans hcommit, ?_⟩
  rw [prepareAppend, if_neg (by omega), hm]
  simp only [happly]
  by_cases hauth : m'.authorizes r
  · rw [if_pos hauth, if_pos hauth, hreject', hreject]
  · rw [if_neg hauth, if_neg hauth]

/-- The check lets the sender through: the node is no follower any more, or the sender is the
leader or the source that the request names. -/
def Admits (n : Node) (r : AppendEntriesRequest) (t : TopologyManager) : Prop :=
  t.getRole n.selfId ≠ .follower ∨ r.senderId = r.leaderId ∨
    (t.getSource n.selfId ≠ "" ∧ r.senderId = t.getSource n.selfId)

theorem refused_iff_told (hterm : r.term = n.currentTerm) (hsender : r.senderId ≠ "")
    (h : n.toldTopology r = .ok t) : n.Refused r ↔
      t.getSource n.selfId = n.topology.getSource n.selfId ∧ (¬ n.Admits r t ∨ n.rejectPrev r ≠ none) := by
  obtain ⟨m, rfl, hself, hlog, hcommit, hprepare⟩ := prepare_told hterm h
  have hadmits : m.authorizes r = true ↔ n.Admits r m.topology := by
    simp [authorizes, Admits, hsender, hself, or_assoc]
  by_cases hgoes : n.Admits r m.topology ∧ n.rejectPrev r = none
  · rw [if_pos (hadmits.mpr hgoes.1), hgoes.2, Option.map_none] at hprepare
    have hfinish : n.handleAppendEntries r = m.finishAppend r := by
      rw [handleAppendEntries, hprepare]
    constructor
    · intro hrefused
      obtain ⟨a, ha, hfalse⟩ := hrefused.answer
      rw [hfinish] at ha
      rcases m.finishAppend_cases r with ⟨err, -, herr⟩ | ⟨-, -, b, hb, htrue, -⟩
      · rw [herr] at ha
        cases ha
      · rw [hb] at ha
        rw [← Except.ok.inj ha, htrue] at hfalse
        cases hfalse
    · rintro ⟨-, hnot | hnone⟩
      · exact absurd hgoes.1 hnot
      · exact absurd hgoes.2 hnone
  · obtain ⟨a, ha⟩ : ∃ a, n.prepareAppend r = (m, some (.ok a)) := by
      by_cases hadm : n.Admits r m.topology
      · obtain ⟨a, ha⟩ := Option.ne_none_iff_exists'.mp fun hnone => hgoes ⟨hadm, hnone⟩
        rw [if_pos (hadmits.mpr hadm), ha] at hprepare
        exact ⟨a, hprepare⟩
      · rw [if_neg fun hauth => hadm (hadmits.mp hauth)] at hprepare
        exact ⟨_, hprepare⟩
    have hfalse : a.success = false := by
      rcases n.prepareAppend_cases r with ⟨-, b, hb, hfalse⟩ | ⟨-, k, -, ⟨err, hb⟩ | ⟨b, hb, hfalse⟩ | ⟨-, hb⟩⟩
      · rw [hb] at ha
        simp only [Prod.mk.injEq, Option.some.injEq, Except.ok.injEq] at ha
        rw [← ha.2, hfalse]
      · rw [hb] at ha
        simp at ha
      · rw [hb] at ha
        simp only [Prod.mk.injEq, Option.some.injEq, Except.ok.injEq] at ha
        rw [← ha.2, hfalse]
      · rw [hb] at ha
        simp at ha
    have hhandle : n.handleAppendEntries r = (m, .ok a) := by
      rw [handleAppendEntries, ha]
    have hor : ¬ n.Admits r m.topology ∨ n.rejectPrev r ≠ none := by
      by_cases hadm : n.Admits r m.topology
      · exact .inr fun hnone => hgoes ⟨hadm, hnone⟩
      · exact .inl hadm
    constructor
    · intro hrefused
      refine ⟨?_, hor⟩
      rw [← hrefused.source, hhandle]
    · rintro ⟨hsource, -⟩
      refine ⟨⟨a, ?_, hfalse⟩, ?_, ?_, ?_⟩
      · rw [hhandle]
      · rw [hhandle]
        exact hlog
      · rw [hhandle]
        exact hcommit
      · rw [hhandle]
        exact hsource

theorem told_error_iff (n : Node) (r : AppendEntriesRequest) : (∃ err, n.toldTopology r = .error err) ↔
    r.topology.role ≠ "" ∧ (n.selfId = "" ∨ ∃ err, parseRole r.topology.role = .error err) := by
  rw [toldTopology]
  by_cases hrole : r.topology.role = ""
  · simp [hrole]
  · rw [if_neg hrole]
    by_cases hself : n.selfId = ""
    · simp [hrole, hself, fromProto]
    · cases hparse : parseRole r.topology.role with
      | error err => simp [hrole, fromProto, hself, hparse]
      | ok role => simp [fromProto_eq _ hself hparse, hself]

theorem upstream_setLeader (t : TopologyManager) (r : AppendEntriesRequest) (addr : String) :
    (t.setLeader r.leaderId addr).upstream r.topology = namedUpstream r := by
  rw [upstream, leaderId_setLeader, namedUpstream]

/-- What the request makes of the node's own row, read off the request. -/
theorem told_place (hrole : n.topology.getRole n.selfId = .follower) (h : n.toldTopology r = .ok t) :
    (t.getSource n.selfId = n.topology.getSource n.selfId ↔ n.KeepsSource r) ∧
    (t.getRole n.selfId = .follower ↔ n.StaysFollower r) := by
  rw [toldTopology] at h
  rw [KeepsSource, StaysFollower]
  by_cases hempty : r.topology.role = ""
  · rw [if_pos hempty] at h
    rw [if_pos hempty, if_pos hempty, ← Except.ok.inj h]
    rw [getSource_eq_shape, getRole_eq_shape, shape_setLeader]
    by_cases hname : r.leaderId ≠ "" ∧ n.selfId = r.leaderId
    · have hnames : n.NamesSelf r := hname
      rw [if_pos hname]
      simp only [Option.map_some, Option.getD_some, hnames, not_true_eq_false, reduceCtorEq, forall_const, and_true]
      exact eq_comm
    · have hnames : ¬ n.NamesSelf r := hname
      rw [if_neg hname, ← getSource_eq_shape, ← getRole_eq_shape]
      simp [hnames, hrole]
  · rw [if_neg hempty] at h
    rw [if_neg hempty, if_neg hempty]
    by_cases hself : n.selfId = ""
    · simp [fromProto, hself] at h
    · cases hparse : parseRole r.topology.role with
      | error err => simp [fromProto, hself, hparse] at h
      | ok role =>
        obtain ⟨hr, hs⟩ := roles_of_shape (shape_told hself hparse h)
        rw [hr, hs]
        refine ⟨eq_comm.trans ?_, ?_⟩
        · simp only [ne_eq, hself, not_false_eq_true, true_and]
          cases role with
          | leader => rfl
          | follower => by_cases hl : n.selfId = r.leaderId <;> simp [toldShape, hl]
          | mentor =>
            by_cases hup : n.selfId = namedUpstream r
            · simp [toldShape, upstream_setLeader, hup]
            · simp only [toldShape, upstream_setLeader, if_neg hup]
              by_cases hf : n.selfId = r.topology.followerNodeId <;> simp [hf]
        · cases role with
          | leader => simp [toldShape]
          | follower => by_cases hl : n.selfId = r.leaderId <;> simp [toldShape, hl]
          | mentor =>
            by_cases hup : n.selfId = namedUpstream r
            · simp [toldShape, upstream_setLeader, hup]
            · simp only [toldShape, upstream_setLeader, ne_eq, hup, if_false, not_false_eq_true, true_and]
              by_cases hf : n.selfId = r.topology.followerNodeId <;> simp [hf]

/-- A request of the current term from a sender that is not the recorded source is refused
without a trace exactly when it changes nothing that the check reads, or its previous entry
is missing and it keeps the source. -/
theorem unauthorised_sender_refused_iff (n : Node) (r : AppendEntriesRequest)
    (hrole : n.topology.getRole n.selfId = .follower) (hterm : r.term = n.currentTerm) (hsender : r.senderId ≠ "")
    (hsource : r.senderId ≠ n.topology.getSource n.selfId) :
    n.Refused r ↔ n.Withstands r := by
  cases htold : n.toldTopology r with
  | error err =>
    have hanswer := handle_told_error hterm htold
    obtain ⟨hne, hbad⟩ := (told_error_iff n r).mp ⟨err, htold⟩
    have hnot : ¬ n.KeepsSource r := by
      rw [KeepsSource, if_neg hne]
      rintro ⟨hself, hvalid⟩
      obtain ⟨e, he⟩ := hbad.resolve_left hself
      simp [he] at hvalid
    constructor
    · intro hrefused
      obtain ⟨a, ha, -⟩ := hrefused.answer
      rw [hanswer] at ha
      cases ha
    · exact fun hwithstands => absurd hwithstands.1 hnot
  | ok t =>
    obtain ⟨hkeeps, hstays⟩ := told_place hrole htold
    rw [refused_iff_told hterm hsender htold, Withstands, ← hkeeps, ← hstays]
    refine and_congr_right fun heq => or_congr_left ?_
    rw [Admits, heq]
    constructor
    · intro hnot
      simp only [not_or, not_not] at hnot
      exact ⟨hnot.1, hnot.2.1⟩
    · rintro ⟨hfollower, hne⟩
      simp [hfollower, hne, hsource]

/-- `B` below the mentor `M` of the leader `A`, after a heartbeat of `A`. -/
def belowMentor : Node :=
  ((Node.create { nodeId := "B", peers := ["A", "M"] } {} {} none).handleHeartbeat
    { term := 1, leaderId := "A", commitIndex := 0, topology := ⟨"follower", "M", ""⟩ }).1

/-- `X` sends in the name of `A`. -/
theorem unauthorised_sender_refused_in_the_name_of_the_leader : belowMentor.Refused
    { term := 1, leaderId := "A", prevLogIndex := 0, entries := [{ index := 1, term := 1 }]
      leaderCommit := 1, senderId := "X" } :=
  (unauthorised_sender_refused_iff belowMentor _ rfl rfl (by decide) (by decide)).mpr
    ⟨fun hself => absurd hself.2 (by decide), .inl ⟨fun hself => absurd hself.2 (by decide), by decide⟩⟩

/-- `X` calls itself the leader, and its entry is appended and committed. -/
theorem sender_that_names_itself_is_admitted :
    belowMentor.topology.getRole belowMentor.selfId = .follower ∧ belowMentor.leaderId = "A" ∧
    belowMentor.topology.getSource belowMentor.selfId = "M" ∧
    (belowMentor.handleAppendEntries
      { term := 1, leaderId := "X", prevLogIndex := 0, entries := [{ index := 1, term := 1 }]
        leaderCommit := 1, senderId := "X" }).2 = .ok { term := 1, success := true, matchIndex := 1 } ∧
    (belowMentor.handleAppendEntries
      { term := 1, leaderId := "X", prevLogIndex := 0, entries := [{ index := 1, term := 1 }]
        leaderCommit := 1, senderId := "X" }).1.commitIndex = 1 ∧
    ¬ belowMentor.Refused
      { term := 1, leaderId := "X", prevLogIndex := 0, entries := [{ index := 1, term := 1 }]
        leaderCommit := 1, senderId := "X" } := by
  refine ⟨rfl, rfl, rfl, rfl, rfl, fun hrefused => ?_⟩
  exact absurd hrefused.commit (by decide)

end Node

end RaftVdb
