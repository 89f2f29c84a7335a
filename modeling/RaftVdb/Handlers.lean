import RaftVdb.Lib.Transition
import RaftVdb.Rpc

/-!
# Concurrent calls of `HandleAppendEntries`

The handler takes no lock of its own. It checks the term once, and then reads, truncates,
appends and flushes the log in calls that are atomic one by one. Calls for several
requests run side by side on one follower, so what one of them has read may be out of
date when it acts on it. No call writes `last_snapshot_index_`, so the copy that a call
takes of it is not kept.
-/

namespace RaftVdb

open Lib

/-- Where a call of `HandleAppendEntries` stands, with its local variables. -/
inductive HandlerStage where
  /-- Before the term check. -/
  | entered
  /-- `LogicalLastIndex()` is to be read. -/
  | measuring
  /-- `TermAtLogicalIndex(prev_log_index)` is to be read. -/
  | comparing
  /-- The search for the first entry of a conflicting term. -/
  | backing (reject : AppendEntriesResponse) (conflictIndex : Nat)
  /-- The entry loop, before the `Read` of the next entry. -/
  | looping (rest : List LogEntry) (appendedAny : Bool)
  | truncating (incoming : LogEntry) (rest : List LogEntry)
  | appending (incoming : LogEntry) (rest : List LogEntry)
  | flushing
  | committing
  | answering
  | returned (answer : Except String AppendEntriesResponse)

namespace Node

/-- The term check and what goes with it. -/
def admitAppend (n : Node) (r : AppendEntriesRequest) : Node × HandlerStage :=
  if r.term < n.currentTerm then
    (n, .returned (.ok { term := n.currentTerm, success := false, conflictIndex := n.logicalLastIndex + 1 }))
  else match n.noteLeader r.term r.leaderId with
    | .error err => (n, .returned (.error err))
    | .ok n =>
      match n.applyTopology r.topology with
      | .error err => (n, .returned (.error err))
      | .ok n =>
        if n.authorizes r then (n, .measuring)
        else (n, .returned (.ok { term := n.currentTerm, success := false }))

def measurePrev (n : Node) (r : AppendEntriesRequest) : HandlerStage :=
  let reject : AppendEntriesResponse := { term := n.currentTerm, success := false }
  if r.prevLogIndex > n.logicalLastIndex then .returned (.ok { reject with conflictIndex := n.logicalLastIndex + 1 })
  else if n.lastSnapshotIndex > 0 ∧ r.prevLogIndex < n.lastSnapshotIndex then
    .returned (.ok { reject with conflictIndex := n.lastSnapshotIndex + 1, conflictTerm := n.lastSnapshotTerm })
  else if r.prevLogIndex = 0 then .looping r.entries false
  else .comparing

def comparePrev (n : Node) (r : AppendEntriesRequest) : HandlerStage :=
  let reject : AppendEntriesResponse := { term := n.currentTerm, success := false }
  match n.termAtLogicalIndex r.prevLogIndex with
  | .error _ => .returned (.ok { reject with conflictIndex := max (n.lastSnapshotIndex + 1) 1 })
  | .ok prevTerm =>
    if prevTerm = r.prevLogTerm then .looping r.entries false
    else if n.lastSnapshotIndex > 0 ∧ r.prevLogIndex = n.lastSnapshotIndex then
      .returned (.ok { reject with conflictTerm := prevTerm, conflictIndex := n.lastSnapshotIndex })
    else .backing { reject with conflictTerm := prevTerm } r.prevLogIndex

/-- One `Read` of the search for the start of the conflicting term. -/
def backUp (n : Node) (reject : AppendEntriesResponse) (conflictIndex : Nat) : HandlerStage :=
  if conflictIndex > n.lastSnapshotIndex + 1 then
    match n.log.read (conflictIndex - 1) with
    | .error _ => .returned (.ok { reject with conflictIndex })
    | .ok e =>
      if e.term ≠ reject.conflictTerm then .returned (.ok { reject with conflictIndex })
      else .backing reject (conflictIndex - 1)
  else .returned (.ok { reject with conflictIndex })

/-- One `Read` of the entry loop, and the decision taken on it. -/
def readIncoming (n : Node) (appendedAny : Bool) : List LogEntry → HandlerStage
  | [] => if appendedAny then .flushing else .committing
  | incoming :: rest =>
    if n.lastSnapshotIndex > 0 ∧ incoming.index ≤ n.lastSnapshotIndex then .looping rest appendedAny
    else match n.log.read incoming.index with
      | .error _ => .appending incoming rest
      | .ok existing => if existing.term = incoming.term then .looping rest appendedAny else .truncating incoming rest

/-- The next atomic step of a call. -/
def advanceAppend (n : Node) (r : AppendEntriesRequest) : HandlerStage → Option (Node × HandlerStage)
  | .entered => some (n.admitAppend r)
  | .measuring => some (n, n.measurePrev r)
  | .comparing => some (n, n.comparePrev r)
  | .backing reject conflictIndex => some (n, n.backUp reject conflictIndex)
  | .looping rest appendedAny => some (n, n.readIncoming appendedAny rest)
  | .truncating incoming rest =>
    match n.log.truncateSuffix incoming.index with
    | .error err => some (n, .returned (.error err))
    | .ok log => some ({ n with log }, .appending incoming rest)
  | .appending incoming rest =>
    match n.log.append incoming with
    | .error err => some (n, .returned (.error err))
    | .ok log => some ({ n with log }, .looping rest true)
  | .flushing => some (n, .committing)
  | .committing => some ((n.advanceCommit r.leaderCommit).dispatchForward r, .answering)
  | .answering => some (n, .returned (.ok { term := n.currentTerm, success := true, matchIndex := n.logicalLastIndex }))
  | .returned _ => none

end Node

structure HandlerCall where
  request : AppendEntriesRequest
  stage : HandlerStage := .entered

/-- A follower and the calls of `HandleAppendEntries` it has got. -/
structure Follower where
  node : Node
  calls : List HandlerCall := []

inductive FollowerAction where
  | arrive (r : AppendEntriesRequest)
  | advance (i : Nat)

namespace Follower

def step (s : Follower) : FollowerAction → Option Follower
  | .arrive r => some { s with calls := s.calls ++ [{ request := r }] }
  | .advance i =>
    (s.calls[i]?).bind fun call => (s.node.advanceAppend call.request call.stage).map fun next =>
      { node := next.1, calls := s.calls.set i { call with stage := next.2 } }

def run (s : Follower) (schedule : List FollowerAction) : Option Follower := Transition.run step s schedule

/-! ## A call by itself -/

/-- Undisturbed, a call at a stage ends with the node and the answer given. -/
def Alone (r : AppendEntriesRequest) (n : Node) (stage : HandlerStage)
    (outcome : Node × Except String AppendEntriesResponse) : Prop :=
  ∃ steps, run ⟨n, [⟨r, stage⟩]⟩ (List.replicate steps (.advance 0)) =
    some ⟨outcome.1, [⟨r, .returned outcome.2⟩]⟩

variable {r : AppendEntriesRequest} {n m : Node} {stage next : HandlerStage}
  {outcome : Node × Except String AppendEntriesResponse}

theorem Alone.returned (n : Node) (answer : Except String AppendEntriesResponse) :
    Alone r n (.returned answer) (n, answer) := ⟨0, rfl⟩

theorem Alone.advance (h : n.advanceAppend r stage = some (m, next)) (hrest : Alone r m next outcome) :
    Alone r n stage outcome := by
  obtain ⟨steps, hsteps⟩ := hrest
  refine ⟨steps + 1, Transition.run_cons_eq_some.mpr ⟨⟨m, [⟨r, next⟩]⟩, ?_, hsteps⟩⟩
  simp only [step, List.getElem?_cons_zero, Option.bind_some, h, Option.map_some, List.set_cons_zero]

theorem alone_backing (n : Node) (reject : AppendEntriesResponse) (conflictIndex : Nat) :
    Alone r n (.backing reject conflictIndex)
      (n, .ok { reject with conflictIndex := n.conflictStart reject.conflictTerm conflictIndex }) := by
  induction conflictIndex with
  | zero => exact .advance rfl (.returned n _)
  | succ index ih =>
    rw [Node.conflictStart]
    split
    · next habove =>
      cases hread : n.log.read index with
      | error err =>
        refine .advance ?_ (.returned n _)
        simp only [Node.advanceAppend, Node.backUp, if_pos habove, Nat.add_sub_cancel, hread]
      | ok e =>
        dsimp only
        split
        · next hterm =>
          refine .advance ?_ (.returned n _)
          simp only [Node.advanceAppend, Node.backUp, if_pos habove, Nat.add_sub_cancel, hread, if_pos hterm]
        · next hterm =>
          refine .advance ?_ ih
          simp only [Node.advanceAppend, Node.backUp, if_pos habove, Nat.add_sub_cancel, hread, if_neg hterm]
    · next hbelow =>
      refine .advance ?_ (.returned n _)
      simp only [Node.advanceAppend, Node.backUp, if_neg hbelow]

/-- One iteration of the entry loop is `spliceEntry`. -/
theorem alone_iteration (n : Node) (e : LogEntry) (rest : List LogEntry) (appendedAny : Bool) :
    (∃ err, (Node.spliceEntry n.lastSnapshotIndex n.log e).error = some err ∧
      Alone r n (.looping (e :: rest) appendedAny)
        ({ n with log := (Node.spliceEntry n.lastSnapshotIndex n.log e).log }, .error err)) ∨
    ((Node.spliceEntry n.lastSnapshotIndex n.log e).error = none ∧ ∃ any, ∀ outcome,
      Alone r { n with log := (Node.spliceEntry n.lastSnapshotIndex n.log e).log } (.looping rest any) outcome →
        Alone r n (.looping (e :: rest) appendedAny) outcome) := by
  have hread : n.advanceAppend r (.looping (e :: rest) appendedAny) = some (n, n.readIncoming appendedAny (e :: rest)) :=
    rfl
  unfold Node.spliceEntry
  rw [Node.readIncoming] at hread
  split
  · next hcovered =>
    rw [if_pos hcovered] at hread
    exact .inr ⟨rfl, appendedAny, fun _ h => .advance hread h⟩
  next hcovered =>
  rw [if_neg hcovered] at hread
  have happend : ∀ (m : Node), (∃ err, m.log.append e = .error err ∧ Alone r m (.appending e rest) (m, .error err)) ∨
      ∃ log, m.log.append e = .ok log ∧ ∀ outcome, Alone r { m with log } (.looping rest true) outcome →
        Alone r m (.appending e rest) outcome := by
    intro m
    cases hlog : m.log.append e with
    | error err => exact .inl ⟨err, rfl, .advance (by simp only [Node.advanceAppend, hlog]) (.returned m _)⟩
    | ok log => exact .inr ⟨log, rfl, fun _ h => .advance (by simp only [Node.advanceAppend, hlog]) h⟩
  cases hexisting : n.log.read e.index with
  | error err =>
    simp only [hexisting] at hread ⊢
    rcases happend n with ⟨err, hlog, halone⟩ | ⟨log, hlog, halone⟩
    · simp only [hlog]
      exact .inl ⟨err, rfl, .advance hread halone⟩
    · simp only [hlog]
      exact .inr ⟨trivial, true, fun outcome h => .advance hread (halone outcome h)⟩
  | ok existing =>
    simp only [hexisting] at hread ⊢
    split
    · next hterm =>
      rw [if_pos hterm] at hread
      exact .inr ⟨rfl, appendedAny, fun _ h => .advance hread h⟩
    next hterm =>
    rw [if_neg hterm] at hread
    cases hcut : n.log.truncateSuffix e.index with
    | error err =>
      exact .inl ⟨err, rfl, .advance hread (.advance (by simp only [Node.advanceAppend, hcut]) (.returned n _))⟩
    | ok kept =>
      have hstep : n.advanceAppend r (.truncating e rest) = some ({ n with log := kept }, .appending e rest) := by
        simp only [Node.advanceAppend, hcut]
      rcases happend { n with log := kept } with ⟨err, hlog, halone⟩ | ⟨log, hlog, halone⟩
      · simp only [hlog]
        exact .inl ⟨err, rfl, .advance hread (.advance hstep halone)⟩
      · simp only [hlog]
        exact .inr ⟨trivial, true, fun outcome h => .advance hread (.advance hstep (halone outcome h))⟩

/-- The entry loop is `spliceEntries`. -/
theorem alone_looping (n : Node) (rest : List LogEntry) (appendedAny : Bool) :
    (∃ err, (Node.spliceEntries n.lastSnapshotIndex n.log rest).error = some err ∧
      Alone r n (.looping rest appendedAny)
        ({ n with log := (Node.spliceEntries n.lastSnapshotIndex n.log rest).log }, .error err)) ∨
    ((Node.spliceEntries n.lastSnapshotIndex n.log rest).error = none ∧ ∀ outcome,
      Alone r { n with log := (Node.spliceEntries n.lastSnapshotIndex n.log rest).log } .committing outcome →
        Alone r n (.looping rest appendedAny) outcome) := by
  induction rest generalizing n appendedAny with
  | nil =>
    refine .inr ⟨rfl, fun outcome h => ?_⟩
    cases appendedAny with
    | false => exact .advance rfl h
    | true => exact .advance rfl (.advance rfl h)
  | cons e rest ih =>
    rw [Node.spliceEntries]
    dsimp only
    rcases alone_iteration (r := r) n e rest appendedAny with ⟨err, herr, halone⟩ | ⟨hok, any, hgo⟩
    · rw [if_pos (by rw [herr]; rfl)]
      exact .inl ⟨err, herr, halone⟩
    · rw [if_neg (by rw [hok]; simp)]
      rcases ih { n with log := (Node.spliceEntry n.lastSnapshotIndex n.log e).log } any with
        ⟨err, herr, halone⟩ | ⟨hok', hgo'⟩
      · exact .inl ⟨err, herr, hgo _ halone⟩
      · exact .inr ⟨hok', fun outcome h => hgo outcome (hgo' outcome h)⟩

theorem alone_finish (n : Node) (r : AppendEntriesRequest) : Alone r n (.looping r.entries false) (n.finishAppend r) := by
  unfold Node.finishAppend
  rcases alone_looping (r := r) n r.entries false with ⟨err, herr, halone⟩ | ⟨hok, hgo⟩
  · simp only [herr]
    exact halone
  · simp only [hok]
    exact hgo _ (.advance rfl (.advance rfl (.returned _ _)))

theorem alone_compare (n : Node) (r : AppendEntriesRequest) : Alone r n .measuring
    (match n.rejectPrev r with
      | some resp => (n, .ok resp)
      | none => n.finishAppend r) := by
  have hstep : n.advanceAppend r .measuring = some (n, n.measurePrev r) := rfl
  have hnext : n.advanceAppend r .comparing = some (n, n.comparePrev r) := rfl
  unfold Node.measurePrev at hstep
  unfold Node.comparePrev at hnext
  unfold Node.rejectPrev
  dsimp only at hstep hnext ⊢
  by_cases hend : r.prevLogIndex > n.logicalLastIndex
  · rw [if_pos hend] at hstep ⊢
    exact .advance hstep (.returned n _)
  rw [if_neg hend] at hstep ⊢
  by_cases hbehind : n.lastSnapshotIndex > 0 ∧ r.prevLogIndex < n.lastSnapshotIndex
  · rw [if_pos hbehind] at hstep ⊢
    exact .advance hstep (.returned n _)
  rw [if_neg hbehind] at hstep ⊢
  by_cases hzero : r.prevLogIndex = 0
  · rw [if_pos hzero] at hstep ⊢
    exact .advance hstep (alone_finish n r)
  rw [if_neg hzero] at hstep ⊢
  refine .advance hstep ?_
  cases hterm : n.termAtLogicalIndex r.prevLogIndex with
  | error err =>
    simp only [hterm] at hnext ⊢
    exact .advance hnext (.returned n _)
  | ok prevTerm =>
    simp only [hterm] at hnext ⊢
    by_cases hsame : prevTerm = r.prevLogTerm
    · rw [if_pos hsame] at hnext ⊢
      exact .advance hnext (alone_finish n r)
    rw [if_neg hsame] at hnext ⊢
    by_cases hsnap : n.lastSnapshotIndex > 0 ∧ r.prevLogIndex = n.lastSnapshotIndex
    · rw [if_pos hsnap] at hnext ⊢
      exact .advance hnext (.returned n _)
    · rw [if_neg hsnap] at hnext ⊢
      exact .advance hnext (alone_backing n _ _)

/-- A call that nothing comes in between is `HandleAppendEntries`. -/
theorem alone_handleAppendEntries (n : Node) (r : AppendEntriesRequest) :
    Alone r n .entered (n.handleAppendEntries r) := by
  have hstep : n.advanceAppend r .entered = some (n.admitAppend r) := rfl
  unfold Node.admitAppend at hstep
  unfold Node.handleAppendEntries Node.prepareAppend
  by_cases hstale : r.term < n.currentTerm
  · rw [if_pos hstale] at hstep ⊢
    exact .advance hstep (.returned n _)
  rw [if_neg hstale] at hstep ⊢
  cases hnote : n.noteLeader r.term r.leaderId with
  | error err =>
    simp only [hnote] at hstep ⊢
    exact .advance hstep (.returned n _)
  | ok noted =>
    simp only [hnote] at hstep ⊢
    cases htop : noted.applyTopology r.topology with
    | error err =>
      simp only [htop] at hstep ⊢
      exact .advance hstep (.returned noted _)
    | ok m =>
      simp only [htop] at hstep ⊢
      by_cases hauth : m.authorizes r
      · rw [if_pos hauth] at hstep ⊢
        refine .advance hstep ?_
        have halone := alone_compare m r
        cases hreject : m.rejectPrev r with
        | none =>
          rw [hreject] at halone
          exact halone
        | some resp =>
          rw [hreject] at halone
          exact halone
      · rw [if_neg hauth] at hstep ⊢
        exact .advance hstep (.returned m _)

end Follower

end RaftVdb
