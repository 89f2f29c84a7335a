import Mathlib.Algebra.Group.Nat.Defs
import RaftVdb.Lib.Transition
import RaftVdb.LogEntry

/-!
# Votes of one node under every interleaving

The term/vote part of a node, cut into the atomic steps of its RPC handlers: each
unlocked read of `current_term_` or `state_` and each critical section of
`state_mutex_` is one step of a `Call`, and calls interleave freely. Whether the
candidate's log is up to date depends on the WAL and is an input of the step. The
term that `BecomeFollower` gets from a tally, a heartbeat round or a replication
callback is arbitrary, so such a caller is just a call that stands before the
critical section. `records` lists what `PersistMetaLocked` has written, oldest first. A
`RaftMeta::Save` may fail behind its rename: then the record is in `meta.bin`, the node does
not take it over, and until the directory is flushed a crash may undo the rename.
-/

namespace RaftVdb.Votes

open Lib

/-- A running call, by the next atomic step it will take. -/
inductive Call where
  /-- `HandleRequestVote` before its unlocked read of `current_term_`. -/
  | voteRead (term : Nat) (candidateId : String)
  /-- `HandleRequestVote` before the critical section of `BecomeFollower`. -/
  | voteFollow (term : Nat) (candidateId : String)
  /-- `HandleRequestVote` before its own critical section. -/
  | voteDecide (term : Nat) (candidateId : String)
  /-- `HandleAppendEntries` or `HandleHeartbeat` before the unlocked read of `current_term_`. -/
  | appendRead (term : Nat) (leaderId : String)
  | appendLock (term : Nat) (leaderId : String)
  /-- Before the unlocked read of `state_`, with the term read under the lock. -/
  | appendState (term : Nat) (leaderId : String) (currentTerm : Nat)
  /-- `HandleInstallSnapshot` at its first chunk. -/
  | snapshotRead (term : Nat)
  | snapshotTerm (term : Nat)
  | snapshotState (term : Nat)
  /-- Any caller of `BecomeFollower` before its critical section. -/
  | follow (term : Nat) (leaderId : String)
  deriving DecidableEq, Repr

/-- How `RaftMeta::Save` ends: well, with an error before the rename, or with an error of
`FsyncDirectory` behind it. -/
inductive Save where
  | saved
  | refused
  | unflushed
  deriving DecidableEq, Repr

structure State where
  selfId : String
  currentTerm : Nat := 0
  votedFor : String := ""
  leaderId : String := ""
  role : RaftState := .follower
  records : List RaftMeta := []
  /-- What `meta.bin` holds, and behind it the contents that a crash may bring back. -/
  files : List RaftMeta := [{}]
  /-- A `Save` has failed behind its rename since the node started. -/
  unflushed : Bool := false
  calls : List Call := []
  deriving DecidableEq, Repr

inductive Action where
  /-- A call arrives. -/
  | enter (c : Call)
  /-- The call at this position takes its next atomic step, with this end of its `Save`. -/
  | advance (i : Nat) (logIsUpToDate : Bool) (save : Save)
  | becomeCandidate (save : Save)
  | becomeLeader (save : Save)
  /-- A crash that undoes the last renames of this number, and the restart. -/
  | crash (undone : Nat)
  deriving DecidableEq, Repr

/-- `PersistMetaLocked`, and whether it succeeds. -/
def persistMeta (s : State) (term : Nat) (votedFor : String) : Save → State × Bool
  | .saved => ({ s with records := s.records ++ [⟨term, votedFor⟩], files := [⟨term, votedFor⟩] }, true)
  | .refused => (s, false)
  | .unflushed =>
    ({ s with
        records := s.records ++ [⟨term, votedFor⟩]
        files := ⟨term, votedFor⟩ :: s.files
        unflushed := true }, false)

/-- The critical section of `BecomeFollower`, and whether it succeeds. -/
def becomeFollower (s : State) (term : Nat) (leaderId : String) (save : Save) : State × Bool :=
  if term < s.currentTerm then (s, false)
  else match persistMeta s term "" save with
    | (s, false) => (s, false)
    | (s, true) => ({ s with currentTerm := term, votedFor := "", leaderId, role := .follower }, true)

def nextTerm (s : State) : Nat := (s.currentTerm + 1) % 2 ^ 64

def becomeCandidate (s : State) (save : Save) : State × Bool :=
  match persistMeta s (nextTerm s) s.selfId save with
  | (t, false) => (t, false)
  | (t, true) =>
    ({ t with currentTerm := nextTerm s, votedFor := s.selfId, leaderId := "", role := .candidate }, true)

/-- `BecomeLeader`, which touches the vote only on a node that never had a term. -/
def becomeLeader (s : State) (save : Save) : State × Bool :=
  if s.currentTerm = 0 then
    match persistMeta s 1 s.selfId save with
    | (t, false) => (t, false)
    | (t, true) =>
      ({ t with currentTerm := 1, votedFor := s.selfId, leaderId := s.selfId, role := .leader }, true)
  else ({ s with leaderId := s.selfId, role := .leader }, true)

def canVote (s : State) (candidateId : String) : Bool := s.votedFor = "" || s.votedFor = candidateId

/-- The critical section of `HandleRequestVote`. -/
def decideVote (s : State) (term : Nat) (candidateId : String) (logIsUpToDate : Bool) (save : Save) : State :=
  if canVote s candidateId && logIsUpToDate then
    match persistMeta s term candidateId save with
    | (s, false) => s
    | (s, true) => { s with votedFor := candidateId, role := .follower }
  else s

/-- One atomic step of a call: the shared state after it, and what is left of the call. -/
def advanceCall (s : State) (logIsUpToDate : Bool) (save : Save) : Call → State × Option Call
  | .voteRead term candidateId =>
    if term < s.currentTerm then (s, none)
    else if term > s.currentTerm then (s, some (.voteFollow term candidateId))
    else (s, some (.voteDecide term candidateId))
  | .voteFollow term candidateId =>
    match becomeFollower s term "" save with
    | (s, false) => (s, none)
    | (s, true) => (s, some (.voteDecide term candidateId))
  | .voteDecide term candidateId => (decideVote s term candidateId logIsUpToDate save, none)
  | .appendRead term leaderId =>
    if term < s.currentTerm then (s, none) else (s, some (.appendLock term leaderId))
  | .appendLock term leaderId =>
    let s' := if term > s.currentTerm ∨ s.role ≠ .follower then s else { s with leaderId }
    (s', some (.appendState term leaderId s.currentTerm))
  | .appendState term leaderId currentTerm =>
    if term > currentTerm ∨ s.role ≠ .follower then (s, some (.follow term leaderId)) else (s, none)
  | .snapshotRead term =>
    if term < s.currentTerm then (s, none) else (s, some (.snapshotTerm term))
  | .snapshotTerm term =>
    if term > s.currentTerm then (s, some (.follow term "")) else (s, some (.snapshotState term))
  | .snapshotState term =>
    if s.role ≠ .follower then (s, some (.follow term "")) else (s, none)
  | .follow term leaderId => ((becomeFollower s term leaderId save).1, none)

/-- Restart from what `meta.bin` holds after a crash. -/
def restart (s : State) (undone : Nat) : Option State :=
  match s.files.drop undone with
  | [] => none
  | record :: older =>
    some
      { selfId := s.selfId
        currentTerm := record.currentTerm
        votedFor := record.votedFor
        records := s.records
        files := record :: older }

def step (s : State) : Action → Option State
  | .enter c => some { s with calls := s.calls ++ [c] }
  | .advance i logIsUpToDate save => (s.calls[i]?).map fun c =>
    let (s', rest) := advanceCall s logIsUpToDate save c
    { s' with calls := match rest with
      | some c' => s.calls.set i c'
      | none => s.calls.eraseIdx i }
  | .becomeCandidate save => some (becomeCandidate s save).1
  | .becomeLeader save => some (becomeLeader s save).1
  | .crash undone => restart s undone

/-- The later of two records has no smaller term, and repeats a vote cast in its term. -/
def Follows (r r' : RaftMeta) : Prop :=
  r.currentTerm ≤ r'.currentTerm ∧
    (r.currentTerm = r'.currentTerm → r.votedFor ≠ "" → r'.votedFor = r.votedFor)

instance (r r' : RaftMeta) : Decidable (Follows r r') := by
  unfold Follows
  infer_instance

/-- Votes are single and durable: every record agrees with every earlier one. -/
def SingleVotes (records : List RaftMeta) : Prop := records.Pairwise Follows

instance (records : List RaftMeta) : Decidable (SingleVotes records) := by
  unfold SingleVotes
  infer_instance

/-- Where a record is written, no `Save` has failed behind its rename since the start: memory
knows of what is in `meta.bin`. -/
def SaveKnows (s : State) (save : Save) (writes : Prop) : Prop := save = .refused ∨ s.unflushed = false ∧ writes

/-- `BecomeFollower` does not find the term of its argument current and a vote in it. -/
def FollowKeepsVote (s : State) (term : Nat) (save : Save) : Prop :=
  s.currentTerm ≤ term → SaveKnows s save (term = s.currentTerm → s.votedFor = "")

/-- The atomic steps that keep the votes: `BecomeFollower` never clears a vote of the
current term, and `HandleRequestVote` grants only while its term is still the current one. -/
def CallKeepsVotes (s : State) (logIsUpToDate : Bool) (save : Save) : Call → Prop
  | .voteFollow term _ => FollowKeepsVote s term save
  | .follow term _ => FollowKeepsVote s term save
  | .voteDecide term candidateId =>
    canVote s candidateId = true → logIsUpToDate = true → SaveKnows s save (term = s.currentTerm)
  | _ => True

instance (s : State) (logIsUpToDate : Bool) (save : Save) (c : Call) :
    Decidable (CallKeepsVotes s logIsUpToDate save c) := by
  cases c <;> simp only [CallKeepsVotes, FollowKeepsVote, SaveKnows] <;> infer_instance

/-- A crash after such a failure finds the file that was renamed. -/
def KeepsVotes (s : State) : Action → Prop
  | .enter _ => True
  | .advance i logIsUpToDate save => ∀ c ∈ s.calls[i]?, CallKeepsVotes s logIsUpToDate save c
  | .becomeCandidate save => SaveKnows s save (s.currentTerm + 1 < 2 ^ 64)
  | .becomeLeader save => s.currentTerm = 0 → SaveKnows s save True
  | .crash undone => undone = 0

instance (s : State) (a : Action) : Decidable (KeepsVotes s a) := by
  cases a <;> simp only [KeepsVotes, SaveKnows] <;> infer_instance

/-- The records are consistent, the last one is in `meta.bin`, and memory agrees with it unless
a `Save` has failed behind its rename. -/
structure Inv (s : State) : Prop where
  single : SingleVotes s.records
  file : s.files.head? = some (s.records.getLast?.getD {})
  memory : s.unflushed = false → s.records.getLast?.getD {} = ⟨s.currentTerm, s.votedFor⟩

variable {s : State}

/-- A record follows all others if its term is not smaller than the current one and, in the
current term, it does not change a vote. -/
theorem Inv.singleVotes_concat (h : Inv s) (hknown : s.unflushed = false) {term : Nat} {votedFor : String}
    (hge : s.currentTerm ≤ term) (hkeep : term = s.currentTerm → s.votedFor ≠ "" → votedFor = s.votedFor) :
    SingleVotes (s.records ++ [⟨term, votedFor⟩]) := by
  have hmemory := h.memory hknown
  rw [SingleVotes, List.pairwise_append]
  refine ⟨h.single, List.pairwise_singleton _ _, ?_⟩
  intro r hr r' hr'
  obtain rfl := List.mem_singleton.mp hr'
  obtain ⟨front, last, hsplit⟩ := (List.eq_nil_or_concat' s.records).resolve_left (List.ne_nil_of_mem hr)
  have hlast : last = ⟨s.currentTerm, s.votedFor⟩ := by simpa [hsplit] using hmemory
  have hfollow : r = last ∨ Follows r last := by
    have hp := h.single
    rw [SingleVotes, hsplit, List.pairwise_append] at hp
    rw [hsplit] at hr
    rcases List.mem_append.mp hr with hr | hr
    · exact .inr (hp.2.2 r hr last (by simp))
    · exact .inl (List.mem_singleton.mp hr)
  rcases hfollow with rfl | hfollow
  · subst hlast
    exact ⟨hge, fun he hv => hkeep he.symm hv⟩
  · subst hlast
    have hle : r.currentTerm ≤ s.currentTerm := hfollow.1
    refine ⟨Nat.le_trans hle hge, fun he hv => ?_⟩
    simp only at he
    have hcur : term = s.currentTerm := by omega
    have hsame : s.votedFor = r.votedFor := hfollow.2 (he.trans hcur) hv
    rw [← hsame]
    exact hkeep hcur (by rw [hsame]; exact hv)

/-- `PersistMetaLocked` keeps the invariant up to what memory holds, if the record is to be
written and follows the others. -/
theorem inv_persistMeta {save : Save} {term : Nat} {votedFor : String} (h : Inv s)
    (hok : save = .refused ∨ s.unflushed = false ∧ s.currentTerm ≤ term ∧
      (term = s.currentTerm → s.votedFor ≠ "" → votedFor = s.votedFor))
    {t : State} {ok : Bool} (hs : persistMeta s term votedFor save = (t, ok)) :
    (ok = false → Inv t) ∧
      (ok = true → ∀ u : State, u.records = t.records → u.files = t.files →
        (⟨u.currentTerm, u.votedFor⟩ : RaftMeta) = ⟨term, votedFor⟩ → Inv u) := by
  cases save with
  | refused =>
    cases hs
    exact ⟨fun _ => h, fun hok => absurd hok (by decide)⟩
  | saved =>
    obtain ⟨hknown, hge, hkeep⟩ := hok.resolve_left (by decide)
    cases hs
    refine ⟨fun hok => absurd hok (by decide), fun _ u hrecords hfiles hmemory => ?_⟩
    refine ⟨hrecords ▸ h.singleVotes_concat hknown hge hkeep, ?_, fun _ => ?_⟩
    · rw [hfiles, hrecords]
      simp
    · rw [hrecords, hmemory]
      simp
  | unflushed =>
    obtain ⟨hknown, hge, hkeep⟩ := hok.resolve_left (by decide)
    cases hs
    refine ⟨fun _ => ⟨h.singleVotes_concat hknown hge hkeep, by simp, fun hflag => by cases hflag⟩,
      fun hok => absurd hok (by decide)⟩

theorem inv_becomeFollower {term : Nat} {leaderId : String} {save : Save} (h : Inv s)
    (hok : FollowKeepsVote s term save) : Inv (becomeFollower s term leaderId save).1 := by
  unfold becomeFollower
  split
  · exact h
  next hlt =>
  have hwrites : save = .refused ∨ s.unflushed = false ∧ s.currentTerm ≤ term ∧
      (term = s.currentTerm → s.votedFor ≠ "" → "" = s.votedFor) :=
    (hok (by omega)).imp id fun ⟨hknown, hempty⟩ => ⟨hknown, by omega, fun he hv => absurd (hempty he) hv⟩
  split
  · next t hs => exact (inv_persistMeta h hwrites hs).1 rfl
  · next t hs => exact (inv_persistMeta h hwrites hs).2 rfl _ rfl rfl rfl

theorem inv_becomeCandidate {save : Save} (h : Inv s) (hok : SaveKnows s save (s.currentTerm + 1 < 2 ^ 64)) :
    Inv (becomeCandidate s save).1 := by
  have hwrites : save = .refused ∨ s.unflushed = false ∧ s.currentTerm ≤ nextTerm s ∧
      (nextTerm s = s.currentTerm → s.votedFor ≠ "" → s.selfId = s.votedFor) := by
    refine hok.imp id fun ⟨hknown, hlt⟩ => ?_
    have hnext : nextTerm s = s.currentTerm + 1 := Nat.mod_eq_of_lt hlt
    exact ⟨hknown, by omega, fun he => absurd he (by omega)⟩
  unfold becomeCandidate
  split
  · next t hs => exact (inv_persistMeta h hwrites hs).1 rfl
  · next t hs => exact (inv_persistMeta h hwrites hs).2 rfl _ rfl rfl rfl

theorem inv_becomeLeader {save : Save} (h : Inv s) (hok : s.currentTerm = 0 → SaveKnows s save True) :
    Inv (becomeLeader s save).1 := by
  unfold becomeLeader
  split
  · next hzero =>
    have hwrites : save = .refused ∨ s.unflushed = false ∧ s.currentTerm ≤ 1 ∧
        (1 = s.currentTerm → s.votedFor ≠ "" → s.selfId = s.votedFor) :=
      (hok hzero).imp id fun ⟨hknown, _⟩ => ⟨hknown, by omega, fun he => absurd he (by omega)⟩
    split
    · next t hs => exact (inv_persistMeta h hwrites hs).1 rfl
    · next t hs => exact (inv_persistMeta h hwrites hs).2 rfl _ rfl rfl rfl
  · exact ⟨h.single, h.file, h.memory⟩

theorem inv_decideVote {term : Nat} {candidateId : String} {logIsUpToDate : Bool} {save : Save} (h : Inv s)
    (hok : canVote s candidateId = true → logIsUpToDate = true → SaveKnows s save (term = s.currentTerm)) :
    Inv (decideVote s term candidateId logIsUpToDate save) := by
  unfold decideVote
  split
  · next hg =>
    obtain ⟨hcan, hlog⟩ := Bool.and_eq_true_iff.mp hg
    have hwrites : save = .refused ∨ s.unflushed = false ∧ s.currentTerm ≤ term ∧
        (term = s.currentTerm → s.votedFor ≠ "" → candidateId = s.votedFor) := by
      refine (hok hcan hlog).imp id fun ⟨hknown, hterm⟩ => ⟨hknown, by omega, fun _ hv => ?_⟩
      unfold canVote at hcan
      simp only [Bool.or_eq_true, decide_eq_true_eq] at hcan
      exact (hcan.resolve_left hv).symm
    have hcurrent : save ≠ .refused → term = s.currentTerm := fun hsave => ((hok hcan hlog).resolve_left hsave).2
    split
    · next t hs => exact (inv_persistMeta h hwrites hs).1 rfl
    · next t hs =>
      refine (inv_persistMeta h hwrites hs).2 rfl _ rfl rfl ?_
      cases save with
      | saved =>
        cases hs
        simp only [hcurrent (by decide)]
      | refused => cases hs
      | unflushed => cases hs
  · exact h

/-- Memory takes over what it finds in `meta.bin`. -/
theorem inv_restart {t : State} (h : Inv s) (hs : restart s 0 = some t) : Inv t := by
  have hfile := h.file
  unfold restart at hs
  rw [List.drop_zero] at hs
  split at hs
  · cases hs
  · next record older hfiles =>
    cases hs
    rw [hfiles] at hfile
    cases hfile
    exact ⟨h.single, rfl, fun _ => rfl⟩

/-- The invariant does not read the calls in progress. -/
theorem Inv.withCalls (h : Inv s) (calls : List Call) : Inv { s with calls } := ⟨h.single, h.file, h.memory⟩

theorem inv_advanceCall {logIsUpToDate : Bool} {save : Save} {c : Call} (h : Inv s)
    (hok : CallKeepsVotes s logIsUpToDate save c) : Inv (advanceCall s logIsUpToDate save c).1 := by
  cases c with
  | voteRead term candidateId =>
    simp only [advanceCall]
    split
    · exact h
    · split <;> exact h
  | voteFollow term candidateId =>
    have hnext : Inv (becomeFollower s term "" save).1 := inv_becomeFollower h hok
    simp only [advanceCall]
    split <;> next hs =>
      rw [hs] at hnext
      exact hnext
  | voteDecide term candidateId => exact inv_decideVote h hok
  | appendRead term leaderId =>
    simp only [advanceCall]
    split <;> exact h
  | appendLock term leaderId =>
    simp only [advanceCall]
    split
    · exact h
    · exact ⟨h.single, h.file, h.memory⟩
  | appendState term leaderId currentTerm =>
    simp only [advanceCall]
    split <;> exact h
  | snapshotRead term =>
    simp only [advanceCall]
    split <;> exact h
  | snapshotTerm term =>
    simp only [advanceCall]
    split <;> exact h
  | snapshotState term =>
    simp only [advanceCall]
    split <;> exact h
  | follow term leaderId => exact inv_becomeFollower h hok

theorem inv_step {t : State} {a : Action} (h : Inv s) (hok : KeepsVotes s a) (hs : step s a = some t) :
    Inv t := by
  cases a with
  | enter c =>
    cases hs
    exact h.withCalls _
  | advance i logIsUpToDate save =>
    simp only [step, Option.map_eq_some_iff] at hs
    obtain ⟨c, hc, rfl⟩ := hs
    exact (inv_advanceCall h (hok c hc)).withCalls _
  | becomeCandidate save =>
    cases hs
    exact inv_becomeCandidate h hok
  | becomeLeader save =>
    cases hs
    exact inv_becomeLeader h hok
  | crash undone =>
    obtain rfl : undone = 0 := hok
    exact inv_restart h hs

/-- In every run whose steps keep the votes, crashes and restarts included, the
records of `meta.bin` are single votes in non-decreasing terms. -/
theorem records_single_votes (selfId : String) (schedule : List Action) (s : State)
    (h : Transition.run (Transition.restrict KeepsVotes step) { selfId } schedule = some s) :
    SingleVotes s.records := by
  have hinit : Inv { selfId } := ⟨List.Pairwise.nil, rfl, fun _ => rfl⟩
  refine (Transition.run_invariant Inv (fun s a t hi hst => ?_) hinit h).single
  obtain ⟨hok, hst⟩ := Transition.restrict_eq_some.mp hst
  exact inv_step hi hok hst

/-- A vote, a crash and the same candidate again, whose `Save` fails behind its rename; after
another restart the node stands itself. -/
theorem records_single_votes_restart :
    ∃ s, Transition.run (Transition.restrict KeepsVotes step) { selfId := "a" }
      [.enter (.voteRead 1 "b"), .advance 0 true .saved, .advance 0 true .saved, .advance 0 true .saved, .crash 0,
        .enter (.voteRead 1 "b"), .advance 0 true .saved, .advance 0 true .unflushed, .crash 0,
        .becomeCandidate .saved] = some s ∧
      s.records = [⟨1, ""⟩, ⟨1, "b"⟩, ⟨1, "b"⟩, ⟨2, "a"⟩] ∧ SingleVotes s.records := by
  refine ⟨_, rfl, rfl, ?_⟩
  exact records_single_votes "a" [.enter (.voteRead 1 "b"), .advance 0 true .saved, .advance 0 true .saved,
    .advance 0 true .saved, .crash 0, .enter (.voteRead 1 "b"), .advance 0 true .saved, .advance 0 true .unflushed,
    .crash 0, .becomeCandidate .saved] _ rfl

/-- A candidate that hears from the leader of its own term loses its vote and gives it
to somebody else; a vote request overtaken by a newer one writes back its older term; and a
vote whose `Save` failed behind its rename is in `meta.bin` when another one is cast. -/
theorem records_break_votes :
    (∃ s, Transition.run step { selfId := "a" }
      [.becomeCandidate .saved, .enter (.appendRead 1 "l"), .advance 0 true .saved, .advance 0 true .saved,
        .advance 0 true .saved, .advance 0 true .saved, .enter (.voteRead 1 "b"), .advance 0 true .saved,
        .advance 0 true .saved] = some s ∧
      s.records = [⟨1, "a"⟩, ⟨1, ""⟩, ⟨1, "b"⟩] ∧ ¬ SingleVotes s.records) ∧
    (∃ s, Transition.run step { selfId := "a" }
      [.enter (.voteRead 1 "b"), .advance 0 true .saved, .advance 0 true .saved, .enter (.voteRead 2 "c"),
        .advance 1 true .saved, .advance 1 true .saved, .advance 0 true .saved] = some s ∧
      s.records = [⟨1, ""⟩, ⟨2, ""⟩, ⟨1, "b"⟩] ∧ ¬ SingleVotes s.records) ∧
    (∃ s, Transition.run step { selfId := "a" }
      [.enter (.voteRead 1 "b"), .advance 0 true .saved, .advance 0 true .saved, .advance 0 true .unflushed,
        .enter (.voteRead 1 "c"), .advance 0 true .saved, .advance 0 true .saved] = some s ∧
      s.records = [⟨1, ""⟩, ⟨1, "b"⟩, ⟨1, "c"⟩] ∧ ¬ SingleVotes s.records) := by
  refine ⟨⟨_, rfl, rfl, by decide⟩, ⟨_, rfl, rfl, by decide⟩, ⟨_, rfl, rfl, by decide⟩⟩

end RaftVdb.Votes
