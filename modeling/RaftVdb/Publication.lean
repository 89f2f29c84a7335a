import RaftVdb.Node
import RaftVdb.Lib.Transition

/-!
# Interleaving the snapshot boundary

The last snapshot is published by two stores, its index and its term, before the WAL is cut.
`TermAtLogicalIndex` loads both and reads the WAL, `LastLogTermLocked` asks for the last
index first, and nothing holds the writers off in between. Each load, store and WAL call is
one step here. All entries belong to one log, and snapshots end at its entries.
-/

namespace RaftVdb

open Lib

/-- The term under which the entry at an index was created. -/
structure EntryTerms where
  term : Nat → Nat
  zero : term 0 = 0
  pos : ∀ i, 0 < i → 0 < term i

/-- What readers and writers of the boundary share, with the index of the snapshot whose term
was stored last and the index that the log has reached. -/
structure Boundary where
  snapshotIndex : Nat := 0
  snapshotTerm : Nat := 0
  log : IndexedLog := {}
  termOwner : Nat := 0
  reached : Nat := 0
  deriving DecidableEq, Repr

/-- `LastLogTermLocked` with the index that the log had reached when it was called. -/
inductive Caller where
  | direct
  | lastLogTerm (floor : Nat)
  deriving DecidableEq, Repr

/-- A call by its next step, with what it has loaded. -/
inductive Lookup where
  | lastIndex (floor : Nat)
  | walLastIndex (floor snapshotIndex : Nat)
  | loadIndex (caller : Caller) (index : Nat)
  | loadTerm (caller : Caller) (index snapshotIndex : Nat)
  | readWal (caller : Caller) (index : Nat)
  deriving DecidableEq, Repr

/-- A returned term with the index that it was looked up for. -/
structure Answer where
  caller : Caller
  index : Nat
  term : Nat
  deriving DecidableEq, Repr

/-- The thread of `LaunchSnapshotTask` by its next step. -/
inductive Publication where
  | readTerm (index : Nat)
  | storeIndex (index term : Nat)
  | storeTerm (index term : Nat)
  | truncate (index : Nat)
  deriving DecidableEq, Repr

/-- `ApplyInstalledSnapshot` by its next step. -/
inductive Installation where
  | truncate (raftIndex raftTerm : Nat)
  | storeIndex (raftIndex raftTerm : Nat)
  | storeTerm (raftIndex raftTerm : Nat)
  deriving DecidableEq, Repr

namespace Boundary

def ofNode (n : Node) : Boundary where
  snapshotIndex := n.lastSnapshotIndex
  snapshotTerm := n.lastSnapshotTerm
  log := n.log
  termOwner := n.lastSnapshotIndex
  reached := n.logicalLastIndex

/-- An error of `TermAtLogicalIndex`, which `LastLogTermLocked` turns into 0. -/
def noTerm (index : Nat) : Caller → Option Answer
  | .direct => none
  | .lastLogTerm floor => some ⟨.lastLogTerm floor, index, 0⟩

/-- One step of a call: the call as it goes on, or what it returns. -/
def lookup (b : Boundary) : Lookup → Lookup ⊕ Option Answer
  | .lastIndex floor => .inl (.walLastIndex floor b.snapshotIndex)
  | .walLastIndex floor snapshotIndex =>
    let last := max snapshotIndex b.log.lastIndex
    if last = 0 then .inr (some ⟨.lastLogTerm floor, 0, 0⟩) else .inl (.loadIndex (.lastLogTerm floor) last)
  | .loadIndex caller index =>
    if index = 0 then .inr (some ⟨caller, 0, 0⟩) else .inl (.loadTerm caller index b.snapshotIndex)
  | .loadTerm caller index snapshotIndex =>
    if snapshotIndex > 0 ∧ index < snapshotIndex then .inr (noTerm index caller)
    else if snapshotIndex > 0 ∧ index = snapshotIndex ∧ b.snapshotTerm ≠ 0 then
      .inr (some ⟨caller, index, b.snapshotTerm⟩)
    else .inl (.readWal caller index)
  | .readWal caller index =>
    match b.log.termAt index with
    | .error _ => .inr (noTerm index caller)
    | .ok term => .inr (some ⟨caller, index, term⟩)

/-- `keepFrom` says which segments `TruncateBefore` leaves. -/
def publish (b : Boundary) (keepFrom : Nat) : Publication → Boundary × Option Publication
  | .readTerm index =>
    match b.log.termAt index with
    | .error _ => (b, none)
    | .ok term => (b, some (.storeIndex index term))
  | .storeIndex index term => ({ b with snapshotIndex := index }, some (.storeTerm index term))
  | .storeTerm index term => ({ b with snapshotTerm := term, termOwner := index }, some (.truncate index))
  | .truncate index => ({ b with log := b.log.truncateBefore index keepFrom }, none)

def install (b : Boundary) (keepFrom : Nat) : Installation → Boundary × Option Installation
  | .truncate raftIndex raftTerm =>
    ({ b with log := b.log.truncateBefore (raftIndex + 1) keepFrom }, some (.storeIndex raftIndex raftTerm))
  | .storeIndex raftIndex raftTerm =>
    ({ b with snapshotIndex := raftIndex, reached := max b.reached raftIndex }, some (.storeTerm raftIndex raftTerm))
  | .storeTerm raftIndex raftTerm => ({ b with snapshotTerm := raftTerm, termOwner := raftIndex }, none)

end Boundary

/-- `snapshot_in_progress_` allows one task; installations and lookups may be many. -/
structure Interleaving where
  boundary : Boundary
  publication : Option Publication := none
  installations : List Installation := []
  lookups : List Lookup := []
  answers : List Answer := []
  deriving DecidableEq, Repr

namespace Interleaving

inductive Action where
  | append (e : LogEntry)
  | launch (index : Nat)
  | publish (keepFrom : Nat)
  | beginInstall (raftIndex raftTerm : Nat)
  | install (i keepFrom : Nat)
  | termAtLogicalIndex (index : Nat)
  | lastLogTerm
  | advance (i : Nat)
  deriving DecidableEq, Repr

def advance (s : Interleaving) (i : Nat) (c : Lookup) : Interleaving :=
  match s.boundary.lookup c with
  | .inl c' => { s with lookups := s.lookups.set i c' }
  | .inr answer => { s with lookups := s.lookups.eraseIdx i, answers := s.answers ++ answer.toList }

/-- Entries and snapshots belong to the log. -/
def step (created : EntryTerms) (s : Interleaving) : Action → Option Interleaving
  | .append e =>
    if e.term = created.term e.index then (s.boundary.log.append e).toOption.map fun log =>
      { s with boundary := { s.boundary with log, reached := max s.boundary.reached e.index } }
    else none
  | .launch index => if s.publication = none then some { s with publication := some (.readTerm index) } else none
  | .publish keepFrom => s.publication.map fun p =>
    { s with boundary := (s.boundary.publish keepFrom p).1, publication := (s.boundary.publish keepFrom p).2 }
  | .beginInstall raftIndex raftTerm =>
    if raftTerm = created.term raftIndex then
      some { s with installations := s.installations ++ [.truncate raftIndex raftTerm] }
    else none
  | .install i keepFrom => (s.installations[i]?).map fun p =>
    { s with
      boundary := (s.boundary.install keepFrom p).1
      installations := match (s.boundary.install keepFrom p).2 with
        | some p' => s.installations.set i p'
        | none => s.installations.eraseIdx i }
  | .termAtLogicalIndex index => some { s with lookups := s.lookups ++ [.loadIndex .direct index] }
  | .lastLogTerm => some { s with lookups := s.lookups ++ [.lastIndex s.boundary.reached] }
  | .advance i => (s.lookups[i]?).map (s.advance i)

end Interleaving

def Caller.floor : Caller → Nat
  | .direct => 0
  | .lastLogTerm floor => floor

/-- The term is that of the entry, and the last entry is not one that the log had left behind
when the call began. -/
def Answer.Truthful (created : EntryTerms) (a : Answer) : Prop :=
  a.term = created.term a.index ∧ a.caller.floor ≤ a.index

/-- So is every term that a call has returned. -/
def Interleaving.Truthful (created : EntryTerms) (s : Interleaving) : Prop := ∀ a ∈ s.answers, a.Truthful created

/-- A call that is at the boundary loads a term that belongs to a snapshot whose last entry
has the term of its own entry, or none. `LastLogTermLocked` finds no later boundary than its
last index, finds its entry in the WAL if it looks there, and that entry was not left behind
when it began. -/
def Boundary.Settled (created : EntryTerms) (b : Boundary) : Lookup → Prop
  | .walLastIndex floor snapshotIndex => max snapshotIndex b.log.lastIndex = 0 → floor = 0
  | .loadTerm caller index snapshotIndex =>
    if snapshotIndex > 0 ∧ index < snapshotIndex then caller = .direct
    else if snapshotIndex > 0 ∧ index = snapshotIndex ∧ b.snapshotTerm ≠ 0 then
      created.term b.termOwner = created.term index ∧ caller.floor ≤ index
    else True
  | .readWal (.lastLogTerm floor) index => (∃ e ∈ b.log.entries, e.index = index) ∧ floor ≤ index
  | _ => True

namespace Interleaving

def Settled (created : EntryTerms) (s : Interleaving) : Action → Prop
  | .advance i => ∀ c ∈ s.lookups[i]?, s.boundary.Settled created c
  | _ => True

instance (created : EntryTerms) (b : Boundary) : (c : Lookup) → Decidable (b.Settled created c)
  | .lastIndex _ | .loadIndex .. | .readWal .direct _ => isTrue trivial
  | .walLastIndex .. => inferInstanceAs (Decidable (_ → _))
  | .loadTerm caller index snapshotIndex => inferInstanceAs (Decidable (
      if snapshotIndex > 0 ∧ index < snapshotIndex then caller = .direct
      else if snapshotIndex > 0 ∧ index = snapshotIndex ∧ b.snapshotTerm ≠ 0 then
        created.term b.termOwner = created.term index ∧ caller.floor ≤ index
      else True))
  | .readWal (.lastLogTerm _) _ => inferInstanceAs (Decidable ((∃ e ∈ _, _) ∧ _))

instance (created : EntryTerms) (s : Interleaving) : (a : Action) → Decidable (s.Settled created a)
  | .advance _ => inferInstanceAs (Decidable (∀ c ∈ _, _))
  | .append _ | .launch _ | .publish _ | .beginInstall .. | .install .. | .termAtLogicalIndex _ | .lastLogTerm =>
    isTrue trivial

end Interleaving

/-! ## Calls and writers without interference -/

namespace Boundary

/-- A call whose steps nothing comes between. -/
inductive Alone (b : Boundary) : Lookup → Option Answer → Prop
  | returned {c : Lookup} {answer : Option Answer} (h : b.lookup c = .inr answer) : Alone b c answer
  | advance {c c' : Lookup} {answer : Option Answer} (h : b.lookup c = .inl c') (hrest : Alone b c' answer) :
      Alone b c answer

/-- Such a call returns what `termAtLogicalIndex` says. -/
theorem alone_termAtLogicalIndex (n : Node) (caller : Caller) (index : Nat) :
    Alone (ofNode n) (.loadIndex caller index) (match n.termAtLogicalIndex index with
      | .ok term => some ⟨caller, index, term⟩
      | .error _ => noTerm index caller) := by
  unfold Node.termAtLogicalIndex
  by_cases hzero : index = 0
  · rw [if_pos hzero, hzero]
    exact .returned rfl
  rw [if_neg hzero]
  refine .advance (if_neg hzero) ?_
  by_cases hbefore : n.lastSnapshotIndex > 0 ∧ index < n.lastSnapshotIndex
  · rw [if_pos hbefore]
    exact .returned (if_pos hbefore)
  rw [if_neg hbefore]
  by_cases hat : n.lastSnapshotIndex > 0 ∧ index = n.lastSnapshotIndex ∧ n.lastSnapshotTerm ≠ 0
  · rw [if_pos hat]
    exact .returned ((if_neg hbefore).trans (if_pos hat))
  rw [if_neg hat]
  refine .advance ((if_neg hbefore).trans (if_neg hat)) (.returned ?_)
  simp only [lookup, ofNode]
  cases n.log.termAt index <;> rfl

theorem alone_lastLogTerm (n : Node) (floor : Nat) :
    Alone (ofNode n) (.lastIndex floor) (some ⟨.lastLogTerm floor, n.logicalLastIndex, n.lastLogTerm⟩) := by
  unfold Node.lastLogTerm
  refine .advance rfl ?_
  by_cases hzero : n.logicalLastIndex = 0
  · rw [if_pos hzero, hzero]
    exact .returned (if_pos hzero)
  rw [if_neg hzero]
  refine .advance (if_neg hzero) ?_
  have halone := alone_termAtLogicalIndex n (.lastLogTerm floor) n.logicalLastIndex
  cases hterm : n.termAtLogicalIndex n.logicalLastIndex with
  | error err =>
    rw [hterm] at halone
    exact halone
  | ok term =>
    rw [hterm] at halone
    exact halone

end Boundary

namespace Interleaving

/-- A node at which no snapshot is being published. -/
def ofNode (n : Node) : Interleaving := { boundary := .ofNode n }

/-- A publication alone leaves the boundary of `saveSnapshot`. -/
theorem publication_alone (created : EntryTerms) {n m : Node} {task : SnapshotTask} {term keepFrom : Nat}
    (htask : n.snapshotTask = some task) (hterm : n.log.termAt task.snapshotIndex = .ok term)
    (hsave : n.saveSnapshot keepFrom = some m) :
    ∃ t, Transition.run (step created) (ofNode n)
        [.launch task.snapshotIndex, .publish 0, .publish 0, .publish 0, .publish keepFrom] = some t ∧
      t.boundary.snapshotIndex = m.lastSnapshotIndex ∧ t.boundary.snapshotTerm = m.lastSnapshotTerm ∧
      t.boundary.log = m.log ∧ t.publication = none := by
  simp only [Node.saveSnapshot, htask, hterm] at hsave
  cases hsave
  simp [Transition.run_cons, step, ofNode, Boundary.ofNode, Boundary.publish, hterm]

/-- An installation alone leaves that of `applyInstalledSnapshot`. -/
theorem installation_alone (created : EntryTerms) (n : Node) (s : Snapshot) (keepFrom : Nat)
    (hterm : s.raftTerm = created.term s.raftIndex) :
    ∃ t, Transition.run (step created) (ofNode n)
        [.beginInstall s.raftIndex s.raftTerm, .install 0 keepFrom, .install 0 0, .install 0 0] = some t ∧
      t.boundary.snapshotIndex = (n.applyInstalledSnapshot s keepFrom).1.lastSnapshotIndex ∧
      t.boundary.snapshotTerm = (n.applyInstalledSnapshot s keepFrom).1.lastSnapshotTerm ∧
      t.boundary.log = (n.applyInstalledSnapshot s keepFrom).1.log ∧ t.installations = [] := by
  unfold Node.applyInstalledSnapshot
  dsimp only
  cases n.dedup.loadFrom s.dedup <;>
    simp [Transition.run_cons, step, ofNode, Boundary.ofNode, Boundary.install, hterm]

end Interleaving

/-! ## The invariant -/

variable {created : EntryTerms} {b : Boundary}

/-- The term that a publication carries is that of its index. -/
def Publication.Faithful (created : EntryTerms) : Publication → Prop
  | .storeIndex index term | .storeTerm index term => term = created.term index
  | .readTerm _ | .truncate _ => True

def Installation.Faithful (created : EntryTerms) : Installation → Prop
  | .truncate raftIndex raftTerm | .storeIndex raftIndex raftTerm | .storeTerm raftIndex raftTerm =>
    raftTerm = created.term raftIndex

/-- A call that looks up a term looks it up for an entry. -/
def Lookup.Located : Lookup → Prop
  | .loadTerm _ index _ | .readWal _ index => 0 < index
  | .loadIndex caller index => caller = .direct ∨ 0 < index
  | .lastIndex _ | .walLastIndex .. => True

/-- The WAL holds entries of the log, and the term in place is that of the snapshot it was
stored for. -/
structure Boundary.Faithful (created : EntryTerms) (b : Boundary) : Prop where
  log : ∀ e ∈ b.log.entries, e.term = created.term e.index
  term : b.snapshotTerm = 0 ∨ b.snapshotTerm = created.term b.termOwner

structure Interleaving.Faithful (created : EntryTerms) (s : Interleaving) : Prop where
  boundary : s.boundary.Faithful created
  publication : ∀ p ∈ s.publication, p.Faithful created
  installations : ∀ p ∈ s.installations, p.Faithful created
  lookups : ∀ c ∈ s.lookups, c.Located

/-- The WAL has a term for the indices of its entries only. -/
theorem IndexedLog.exists_of_termAt {l : IndexedLog} {index : Nat} (hindex : index ≠ 0) :
    (∃ e ∈ l.entries, e.index = index) ↔ ∃ term, l.termAt index = .ok term := by
  constructor
  · rintro ⟨e, he, hi⟩
    rw [termAt, if_neg hindex, read]
    cases hfind : l.entries.find? fun e => e.index = index with
    | none => exact absurd hi (by simpa using List.find?_eq_none.mp hfind e he)
    | some x => exact ⟨x.term, rfl⟩
  · rintro ⟨term, hterm⟩
    obtain ⟨e, hread, -⟩ := read_of_termAt hindex hterm
    exact ⟨e, mem_of_read hread⟩

namespace Boundary

theorem Faithful.truncateBefore (h : b.Faithful created) (index keepFrom : Nat) :
    Faithful created { b with log := b.log.truncateBefore index keepFrom } :=
  ⟨fun e he => h.log e (IndexedLog.mem_of_mem_truncateBefore he), h.term⟩

/-- What the WAL says of an index is the term of its entry. -/
theorem Faithful.termAt (h : b.Faithful created) {index term : Nat} (hterm : b.log.termAt index = .ok term) :
    term = created.term index := by
  by_cases hindex : index = 0
  · rw [IndexedLog.termAt, if_pos hindex] at hterm
    cases hterm
    rw [hindex, created.zero]
  · obtain ⟨e, hread, rfl⟩ := IndexedLog.read_of_termAt hindex hterm
    obtain ⟨he, rfl⟩ := IndexedLog.mem_of_read hread
    exact h.log e he

theorem Faithful.publish (h : b.Faithful created) {p : Publication} (hp : p.Faithful created) (keepFrom : Nat) :
    (b.publish keepFrom p).1.Faithful created ∧ ∀ p' ∈ (b.publish keepFrom p).2, p'.Faithful created := by
  cases p with
  | readTerm index =>
    cases hterm : b.log.termAt index with
    | error err => simpa [Boundary.publish, hterm] using h
    | ok term => simpa [Boundary.publish, hterm, Publication.Faithful, h.termAt hterm] using h
  | storeIndex index term =>
    refine ⟨⟨h.log, h.term⟩, fun p' hp' => ?_⟩
    cases hp'
    exact hp
  | storeTerm index term =>
    refine ⟨⟨h.log, .inr hp⟩, fun p' hp' => ?_⟩
    cases hp'
    trivial
  | truncate index => exact ⟨h.truncateBefore index keepFrom, fun p' hp' => by cases hp'⟩

theorem Faithful.install (h : b.Faithful created) {p : Installation} (hp : p.Faithful created) (keepFrom : Nat) :
    (b.install keepFrom p).1.Faithful created ∧ ∀ p' ∈ (b.install keepFrom p).2, p'.Faithful created := by
  cases p with
  | truncate raftIndex raftTerm =>
    refine ⟨h.truncateBefore (raftIndex + 1) keepFrom, fun p' hp' => ?_⟩
    cases hp'
    exact hp
  | storeIndex raftIndex raftTerm =>
    refine ⟨⟨h.log, h.term⟩, fun p' hp' => ?_⟩
    cases hp'
    exact hp
  | storeTerm raftIndex raftTerm => exact ⟨⟨h.log, .inr hp⟩, fun p' hp' => by cases hp'⟩

/-- A call goes on to look up a term for an entry. -/
theorem located_of_lookup {c c' : Lookup} (hc : c.Located) (h : b.lookup c = .inl c') : c'.Located := by
  cases c with
  | lastIndex floor =>
    cases h
    trivial
  | walLastIndex floor snapshotIndex =>
    simp only [lookup] at h
    split at h
    · cases h
    · next hlast =>
      cases h
      exact .inr (Nat.pos_of_ne_zero hlast)
  | loadIndex caller index =>
    simp only [lookup] at h
    split at h
    · cases h
    · next hindex =>
      cases h
      exact Nat.pos_of_ne_zero hindex
  | loadTerm caller index snapshotIndex =>
    simp only [lookup] at h
    split at h
    · cases h
    split at h
    · cases h
    · cases h
      exact hc
  | readWal caller index =>
    simp only [lookup] at h
    split at h <;> cases h

end Boundary

namespace Interleaving

variable {s t : Interleaving}

theorem Faithful.advance (h : s.Faithful created) {i : Nat} {c : Lookup} (hc : c ∈ s.lookups) :
    (s.advance i c).Faithful created := by
  unfold Interleaving.advance
  cases hnext : s.boundary.lookup c with
  | inl c' =>
    refine ⟨h.boundary, h.publication, h.installations, fun x hx => ?_⟩
    cases List.mem_or_eq_of_mem_set hx with
    | inl hold => exact h.lookups x hold
    | inr heq =>
      rw [heq]
      exact Boundary.located_of_lookup (h.lookups c hc) hnext
  | inr answer =>
    exact ⟨h.boundary, h.publication, h.installations, fun x hx => h.lookups x (List.mem_of_mem_eraseIdx hx)⟩

theorem Faithful.step (h : s.Faithful created) {a : Action} (hs : step created s a = some t) : t.Faithful created := by
  cases a with
  | append e =>
    simp only [Interleaving.step] at hs
    split at hs
    · next hterm =>
      obtain ⟨log, hlog, rfl⟩ := Option.map_eq_some_iff.mp hs
      refine ⟨⟨fun x hx => ?_, h.boundary.term⟩, h.publication, h.installations, h.lookups⟩
      cases (IndexedLog.mem_append (Transition.ok_of_toOption hlog)).mp hx with
      | inl hold => exact h.boundary.log x hold
      | inr hnew =>
        rw [hnew]
        exact hterm
    · cases hs
  | launch index =>
    simp only [Interleaving.step] at hs
    split at hs
    · cases hs
      refine ⟨h.boundary, fun p hp => ?_, h.installations, h.lookups⟩
      cases hp
      trivial
    · cases hs
  | publish keepFrom =>
    obtain ⟨p, hp, rfl⟩ := Option.map_eq_some_iff.mp hs
    obtain ⟨hboundary, hnext⟩ := h.boundary.publish (h.publication p hp) keepFrom
    exact ⟨hboundary, hnext, h.installations, h.lookups⟩
  | beginInstall raftIndex raftTerm =>
    simp only [Interleaving.step] at hs
    split at hs
    · next hterm =>
      cases hs
      refine ⟨h.boundary, h.publication, fun p hp => ?_, h.lookups⟩
      cases List.mem_append.mp hp with
      | inl hold => exact h.installations p hold
      | inr hnew =>
        rw [List.mem_singleton.mp hnew]
        exact hterm
    · cases hs
  | install i keepFrom =>
    obtain ⟨p, hp, rfl⟩ := Option.map_eq_some_iff.mp hs
    obtain ⟨hboundary, hnext⟩ := h.boundary.install (h.installations p (List.mem_of_getElem? hp)) keepFrom
    refine ⟨hboundary, h.publication, fun x hx => ?_, h.lookups⟩
    dsimp only at hx
    split at hx
    · next p' hp' =>
      cases List.mem_or_eq_of_mem_set hx with
      | inl hold => exact h.installations x hold
      | inr heq =>
        rw [heq]
        exact hnext p' hp'
    · exact h.installations x (List.mem_of_mem_eraseIdx hx)
  | termAtLogicalIndex index =>
    cases hs
    refine ⟨h.boundary, h.publication, h.installations, fun c hc => ?_⟩
    cases List.mem_append.mp hc with
    | inl hold => exact h.lookups c hold
    | inr hnew =>
      rw [List.mem_singleton.mp hnew]
      exact .inl rfl
  | lastLogTerm =>
    cases hs
    refine ⟨h.boundary, h.publication, h.installations, fun c hc => ?_⟩
    cases List.mem_append.mp hc with
    | inl hold => exact h.lookups c hold
    | inr hnew =>
      rw [List.mem_singleton.mp hnew]
      trivial
  | advance i =>
    obtain ⟨c, hc, rfl⟩ := Option.map_eq_some_iff.mp hs
    exact h.advance (List.mem_of_getElem? hc)

end Interleaving

/-! ## What a call returns -/

/-- An error is no answer of `TermAtLogicalIndex`, and a wrong one of `LastLogTermLocked`. -/
theorem noTerm_truthful_iff {index : Nat} (hindex : 0 < index) (caller : Caller) :
    (∀ a ∈ Boundary.noTerm index caller, a.Truthful created) ↔ caller = .direct := by
  cases caller with
  | direct => simp [Boundary.noTerm]
  | lastLogTerm floor =>
    have hpos := created.pos index hindex
    simp [Boundary.noTerm, Answer.Truthful, Nat.ne_of_lt hpos]

/-- The last step of a call returns the truth exactly if the call is settled. -/
theorem Boundary.Faithful.truthful_iff (h : b.Faithful created) {c : Lookup} (hc : c.Located) {answer : Option Answer}
    (hnext : b.lookup c = .inr answer) : (∀ a ∈ answer, a.Truthful created) ↔ b.Settled created c := by
  cases c with
  | lastIndex floor => cases hnext
  | walLastIndex floor snapshotIndex =>
    simp only [Boundary.lookup] at hnext
    split at hnext
    · next hlast =>
      cases hnext
      simp [Answer.Truthful, Caller.floor, created.zero, Boundary.Settled, hlast]
    · cases hnext
  | loadIndex caller index =>
    simp only [Boundary.lookup] at hnext
    split at hnext
    · next hindex =>
      cases hnext
      cases hc with
      | inl hdirect => simp [Answer.Truthful, hdirect, Caller.floor, created.zero, Boundary.Settled]
      | inr hpos => exact absurd hindex (Nat.ne_of_gt hpos)
    · cases hnext
  | loadTerm caller index snapshotIndex =>
    simp only [Boundary.lookup] at hnext
    split at hnext
    · next hbefore =>
      cases hnext
      rw [Boundary.Settled, if_pos hbefore]
      exact noTerm_truthful_iff hc caller
    next hbefore =>
    split at hnext
    · next hat =>
      cases hnext
      rw [Boundary.Settled, if_neg hbefore, if_pos hat]
      simp [Answer.Truthful, h.term.resolve_left hat.2.2]
    · cases hnext
  | readWal caller index =>
    simp only [Boundary.lookup] at hnext
    cases hread : b.log.termAt index with
    | error err =>
      rw [hread] at hnext
      cases hnext
      rw [noTerm_truthful_iff hc caller]
      cases caller with
      | direct => simp [Boundary.Settled]
      | lastLogTerm floor =>
        have hnone : ¬ ∃ e ∈ b.log.entries, e.index = index := by
          rw [IndexedLog.exists_of_termAt (Nat.ne_of_gt hc), hread]
          simp
        exact iff_of_false (by simp) fun hsettled => hnone hsettled.1
    | ok term =>
      rw [hread] at hnext
      cases hnext
      have hterm := h.termAt hread
      have hentry : ∃ e ∈ b.log.entries, e.index = index :=
        (IndexedLog.exists_of_termAt (Nat.ne_of_gt hc)).mpr ⟨term, hread⟩
      cases caller with
      | direct => simp [Boundary.Settled, Answer.Truthful, Caller.floor, hterm]
      | lastLogTerm floor =>
        simp only [Boundary.Settled, hentry, true_and]
        simp [Answer.Truthful, Caller.floor, hterm]

/-- A step within a call is settled or reads what the call will be judged by later. -/
theorem Boundary.settled_of_inl {c c' : Lookup} (hnext : b.lookup c = .inl c') : b.Settled created c := by
  cases c with
  | lastIndex floor => trivial
  | walLastIndex floor snapshotIndex =>
    simp only [lookup] at hnext
    split at hnext
    · cases hnext
    · next hlast => exact fun hzero => absurd hzero hlast
  | loadIndex caller index => trivial
  | loadTerm caller index snapshotIndex =>
    simp only [lookup] at hnext
    split at hnext
    · cases hnext
    next hbefore =>
    split at hnext
    · cases hnext
    · next hat =>
      rw [Settled, if_neg hbefore, if_neg hat]
      trivial
  | readWal caller index =>
    simp only [lookup] at hnext
    split at hnext <;> cases hnext

/-! ## Every interleaving -/

namespace Interleaving

variable {s t : Interleaving}

theorem Faithful.truthful_step (h : s.Faithful created) (hs : s.Truthful created) {a : Action}
    (hstep : Interleaving.step created s a = some t) : t.Truthful created ↔ s.Settled created a := by
  have hsame : t.answers = s.answers → t.Truthful created := by
    intro heq
    rw [Truthful, heq]
    exact hs
  cases a with
  | append e =>
    simp only [Interleaving.step] at hstep
    split at hstep
    · obtain ⟨log, -, rfl⟩ := Option.map_eq_some_iff.mp hstep
      exact iff_of_true (hsame rfl) trivial
    · cases hstep
  | launch index =>
    simp only [Interleaving.step] at hstep
    split at hstep
    · cases hstep
      exact iff_of_true (hsame rfl) trivial
    · cases hstep
  | publish keepFrom =>
    obtain ⟨p, -, rfl⟩ := Option.map_eq_some_iff.mp hstep
    exact iff_of_true (hsame rfl) trivial
  | beginInstall raftIndex raftTerm =>
    simp only [Interleaving.step] at hstep
    split at hstep
    · cases hstep
      exact iff_of_true (hsame rfl) trivial
    · cases hstep
  | install i keepFrom =>
    obtain ⟨p, -, rfl⟩ := Option.map_eq_some_iff.mp hstep
    exact iff_of_true (hsame rfl) trivial
  | termAtLogicalIndex index =>
    cases hstep
    exact iff_of_true (hsame rfl) trivial
  | lastLogTerm =>
    cases hstep
    exact iff_of_true (hsame rfl) trivial
  | advance i =>
    obtain ⟨c, hc, rfl⟩ := Option.map_eq_some_iff.mp hstep
    have hsettled : s.Settled created (.advance i) ↔ s.boundary.Settled created c := by simp [Settled, hc]
    rw [hsettled]
    cases hnext : s.boundary.lookup c with
    | inl c' =>
      refine iff_of_true (hsame ?_) (Boundary.settled_of_inl hnext)
      rw [Interleaving.advance, hnext]
    | inr answer =>
      rw [← h.boundary.truthful_iff (h.lookups c (List.mem_of_getElem? hc)) hnext, Interleaving.advance, hnext]
      constructor
      · exact fun ht a ha => ht a (List.mem_append_right _ (Option.mem_toList.mpr ha))
      · intro hanswer a ha
        cases List.mem_append.mp ha with
        | inl hold => exact hs a hold
        | inr hnew => exact hanswer a (Option.mem_toList.mp hnew)

/-- The returned terms are those of the entries exactly when every step of a call is settled. -/
theorem truthful_iff_settled (created : EntryTerms) {s : Interleaving} (h : s.Faithful created)
    (hnone : s.answers = []) (actions : List Action) :
    Transition.Throughout (step created) (Truthful created) s actions ↔
      Transition.EachStep (step created) (Settled created) s actions := by
  refine Transition.throughout_iff (I := Interleaving.Faithful created) ?_ ?_ h ?_ actions
  · exact fun s a t h hs => h.step hs
  · exact fun s a t h hs hstep => h.truthful_step hs hstep
  · intro a ha
    rw [hnone] at ha
    cases ha

end Interleaving

end RaftVdb
