import RaftVdb.LogicalLog
import RaftVdb.Publication

/-!
# Calls and writers that keep apart

The snapshot boundary is of one piece as long as no writer stores or truncates while a call
stands between its loads, no call goes on while a writer is halfway, and two writers are not
halfway at once. Then what a call has loaded is what there is, and the terms it returns are
those of the entries.
-/

namespace RaftVdb

open Lib

variable {created : EntryTerms} {b : Boundary}

/-- The call has made a load. -/
def Lookup.begun : Lookup → Bool
  | .lastIndex _ | .loadIndex .direct _ => false
  | .walLastIndex .. | .loadIndex (.lastLogTerm _) _ | .loadTerm .. | .readWal .. => true

/-- The index has been stored and the term has not. -/
def Publication.halfway : Publication → Bool
  | .storeTerm .. => true
  | .readTerm _ | .storeIndex .. | .truncate _ => false

/-- The WAL has been cut, and the index and the term have not been stored. -/
def Installation.halfway : Installation → Bool
  | .storeIndex .. | .storeTerm .. => true
  | .truncate .. => false

namespace Interleaving

def publicationHalfway (s : Interleaving) : Bool := s.publication.any Publication.halfway

/-- Some installation other than the one at the position is halfway. -/
def installationHalfway (s : Interleaving) (other : Nat) : Bool :=
  (s.installations.eraseIdx other).any Installation.halfway

def halfway (s : Interleaving) : Bool := s.publicationHalfway || s.installations.any Installation.halfway

/-- A call stands between its loads. -/
def calling (s : Interleaving) : Bool := s.lookups.any Lookup.begun

def PublishApart (s : Interleaving) : Publication → Prop
  | .readTerm _ => True
  | .storeIndex index _ =>
    s.calling = false ∧ s.installations.any Installation.halfway = false ∧ s.boundary.snapshotIndex ≤ index
  | .storeTerm .. | .truncate _ => s.calling = false ∧ s.installations.any Installation.halfway = false

def InstallApart (s : Interleaving) (i : Nat) (p : Installation) : Prop :=
  s.calling = false ∧ s.publicationHalfway = false ∧ s.installationHalfway i = false ∧
    match p with
    | .truncate raftIndex _ => s.boundary.snapshotIndex ≤ raftIndex
    | .storeIndex .. | .storeTerm .. => True

/-- A writer stores and truncates only while no call stands between its loads and no other
writer is halfway, and brings no older snapshot than the last one. A call goes on only while no
writer is halfway. -/
def Apart (s : Interleaving) : Action → Prop
  | .publish _ => ∀ p ∈ s.publication, s.PublishApart p
  | .install i _ => ∀ p ∈ s.installations[i]?, s.InstallApart i p
  | .advance _ => s.halfway = false
  | _ => True

instance (s : Interleaving) : (p : Publication) → Decidable (s.PublishApart p)
  | .readTerm _ => isTrue trivial
  | .storeIndex .. | .storeTerm .. | .truncate _ => inferInstanceAs (Decidable (_ ∧ _))

instance (s : Interleaving) (i : Nat) : (p : Installation) → Decidable (s.InstallApart i p)
  | .truncate raftIndex _ => inferInstanceAs (Decidable (_ ∧ _ ∧ _ ∧ s.boundary.snapshotIndex ≤ raftIndex))
  | .storeIndex .. | .storeTerm .. => inferInstanceAs (Decidable (_ ∧ _ ∧ _ ∧ True))

instance (s : Interleaving) : (a : Action) → Decidable (s.Apart a)
  | .publish _ => inferInstanceAs (Decidable (∀ p ∈ s.publication, s.PublishApart p))
  | .install i _ => inferInstanceAs (Decidable (∀ p ∈ s.installations[i]?, s.InstallApart i p))
  | .advance _ => inferInstanceAs (Decidable (_ = _))
  | .append _ | .launch _ | .beginInstall .. | .termAtLogicalIndex _ | .lastLogTerm => isTrue trivial

end Interleaving

/-- `LastLogTermLocked` looks for an entry that is at the boundary or in the WAL, and that the
log had not left behind. -/
def Caller.Finds (b : Boundary) (index : Nat) (caller : Caller) : Prop :=
  ∀ floor, caller = .lastLogTerm floor → floor ≤ index ∧ b.snapshotIndex ≤ index ∧
    (index = b.snapshotIndex ∨ ∃ e ∈ b.log.entries, e.index = index)

/-- What a call has loaded is still what there is. -/
def Lookup.Current (b : Boundary) : Lookup → Prop
  | .lastIndex floor => floor ≤ b.reached
  | .walLastIndex floor snapshotIndex => snapshotIndex = b.snapshotIndex ∧ floor ≤ max snapshotIndex b.log.lastIndex
  | .loadIndex caller index => caller.Finds b index
  | .loadTerm caller index snapshotIndex => snapshotIndex = b.snapshotIndex ∧ caller.Finds b index
  | .readWal caller index =>
    ∀ floor, caller = .lastLogTerm floor → floor ≤ index ∧ ∃ e ∈ b.log.entries, e.index = index

def Publication.Placed (b : Boundary) : Publication → Prop
  | .readTerm _ | .storeIndex .. => True
  | .storeTerm index _ => b.snapshotIndex = index
  | .truncate index => index ≤ b.snapshotIndex

def Installation.Placed (b : Boundary) : Installation → Prop
  | .truncate .. => True
  | .storeIndex raftIndex _ => b.snapshotIndex ≤ raftIndex ∧ b.reached ≤ max raftIndex b.log.lastIndex
  | .storeTerm raftIndex _ => b.snapshotIndex = raftIndex ∧ b.reached ≤ max raftIndex b.log.lastIndex

/-- While no writer is halfway, the boundary is that of one snapshot and the log goes as far as
it ever has. -/
structure Interleaving.Orderly (created : EntryTerms) (s : Interleaving) : Prop where
  ordered : s.boundary.log.Ordered
  empty : s.boundary.log.entries = [] → s.boundary.log.lastIndex ≤ s.boundary.snapshotIndex
  matched : s.halfway = false → s.boundary.snapshotTerm = created.term s.boundary.snapshotIndex
  reach : s.installations.any Installation.halfway = false →
    s.boundary.reached ≤ max s.boundary.snapshotIndex s.boundary.log.lastIndex
  publication : ∀ p ∈ s.publication, p.Placed s.boundary
  installations : ∀ p ∈ s.installations, p.Placed s.boundary
  lookups : ∀ c ∈ s.lookups, c.Current s.boundary

namespace IndexedLog

variable {l l' : IndexedLog}

/-- Cutting a log off in front leaves its end, unless all of it goes. -/
theorem Ordered.lastIndex_le_truncateBefore (h : l.Ordered) {index k : Nat} (hempty : l.entries = [] → l.lastIndex ≤ k)
    (hindex : index ≤ k + 1) (keepFrom : Nat) : l.lastIndex ≤ max k (l.truncateBefore index keepFrom).lastIndex := by
  by_cases hnil : l.entries = []
  · exact (hempty hnil).trans (le_max_left _ _)
  by_cases hshort : l.lastIndex < index
  · omega
  obtain ⟨front, last, hsplit⟩ := (List.eq_nil_or_concat' l.entries).resolve_left hnil
  have hlast : l.lastIndex = last.index := h.last last (by rw [hsplit, List.getLast?_concat]; rfl)
  have hle : index ≤ last.index := by omega
  have hkept := (h.mem_truncateBefore keepFrom hle).mpr (by rw [hsplit]; simp)
  have hend := (h.truncateBefore index keepFrom).le_last hkept
  omega

theorem lastIndex_truncateBefore_of_nil {index keepFrom : Nat} (h : (l.truncateBefore index keepFrom).entries = []) :
    (l.truncateBefore index keepFrom).lastIndex = 0 := by
  unfold truncateBefore at h ⊢
  split
  · rfl
  · next hlast =>
    rw [if_neg hlast] at h
    dsimp only at h ⊢
    rw [h]
    rfl

/-- A log that goes beyond what an empty one may claim ends with an entry. -/
theorem Ordered.exists_last (h : l.Ordered) {k : Nat} (hempty : l.entries = [] → l.lastIndex ≤ k) (hk : k < l.lastIndex) :
    ∃ e ∈ l.entries, e.index = l.lastIndex := by
  have hne : l.entries ≠ [] := fun hnil => by
    have := hempty hnil
    omega
  obtain ⟨front, last, hsplit⟩ := (List.eq_nil_or_concat' l.entries).resolve_left hne
  exact ⟨last, by rw [hsplit]; simp, (h.last last (by rw [hsplit, List.getLast?_concat]; rfl)).symm⟩

/-- An entry is appended behind the end, or to an empty log. -/
theorem lastIndex_le_append {e : LogEntry} (hl : l.append e = .ok l') {k : Nat}
    (hempty : l.entries = [] → l.lastIndex ≤ k) : l.lastIndex ≤ max k l'.lastIndex := by
  rw [lastIndex_append hl]
  by_cases hnil : l.entries = []
  · exact (hempty hnil).trans (le_max_left _ _)
  · rw [index_of_append hl hnil]
    omega

end IndexedLog

theorem Lookup.Current.of_not_begun {c : Lookup} {b' : Boundary} (h : c.Current b) (hc : c.begun = false)
    (hle : b.reached ≤ b'.reached) : c.Current b' := by
  cases c with
  | lastIndex floor => exact Nat.le_trans h hle
  | loadIndex caller index =>
    cases caller with
    | direct => exact fun floor hcaller => by cases hcaller
    | lastLogTerm floor => cases hc
  | walLastIndex floor snapshotIndex => cases hc
  | loadTerm caller index snapshotIndex => cases hc
  | readWal caller index => cases hc

theorem Installation.Placed.of_not_halfway {p : Installation} (h : p.halfway = false) (b : Boundary) : p.Placed b := by
  cases p with
  | truncate raftIndex raftTerm => trivial
  | storeIndex raftIndex raftTerm => cases h
  | storeTerm raftIndex raftTerm => cases h

theorem Caller.Finds.append {caller : Caller} {index : Nat} {log : IndexedLog} {e : LogEntry} (h : caller.Finds b index)
    (hl : b.log.append e = .ok log) (reached : Nat) : caller.Finds { b with log, reached } index := by
  intro floor hcaller
  obtain ⟨hfloor, hge, hfound⟩ := h floor hcaller
  refine ⟨hfloor, hge, hfound.imp id ?_⟩
  rintro ⟨x, hx, hi⟩
  exact ⟨x, (IndexedLog.mem_append hl).mpr (.inl hx), hi⟩

theorem Lookup.Current.append {c : Lookup} {log : IndexedLog} {e : LogEntry} (h : c.Current b)
    (hempty : b.log.entries = [] → b.log.lastIndex ≤ b.snapshotIndex) (hl : b.log.append e = .ok log) :
    c.Current { b with log, reached := max b.reached e.index } := by
  cases c with
  | lastIndex floor => exact Nat.le_trans h (le_max_left _ _)
  | walLastIndex floor snapshotIndex =>
    obtain ⟨rfl, hfloor⟩ := h
    have hlast := IndexedLog.lastIndex_le_append hl hempty
    refine ⟨rfl, ?_⟩
    dsimp only
    omega
  | loadIndex caller index => exact Caller.Finds.append h hl _
  | loadTerm caller index snapshotIndex => exact ⟨h.1, Caller.Finds.append h.2 hl _⟩
  | readWal caller index =>
    intro floor hcaller
    obtain ⟨hfloor, x, hx, hi⟩ := h floor hcaller
    exact ⟨hfloor, x, (IndexedLog.mem_append hl).mpr (.inl hx), hi⟩

namespace Interleaving

variable {s t : Interleaving}

theorem not_begun_of_calling (h : s.calling = false) {c : Lookup} (hc : c ∈ s.lookups) : c.begun = false := by
  by_contra hbegun
  rw [calling, Bool.eq_false_iff] at h
  exact h (List.any_eq_true.mpr ⟨c, hc, by simpa using hbegun⟩)

theorem mem_eraseIdx_of_mem_set {α : Type} {l : List α} {i : Nat} {a x : α} (h : x ∈ l.set i a) :
    x = a ∨ x ∈ l.eraseIdx i := by
  induction l generalizing i with
  | nil => simp at h
  | cons y rest ih =>
    cases i with
    | zero => simpa using h
    | succ i =>
      rcases List.mem_cons.mp h with rfl | h
      · exact .inr List.mem_cons_self
      · exact (ih h).imp id (List.mem_cons_of_mem y)

/-- The lookups of calls that have not begun stay current. -/
theorem Orderly.lookups_of_calling (h : s.Orderly created) (hcalling : s.calling = false) {b' : Boundary}
    (hle : s.boundary.reached ≤ b'.reached) : ∀ c ∈ s.lookups, c.Current b' :=
  fun c hc => (h.lookups c hc).of_not_begun (not_begun_of_calling hcalling hc) hle

theorem placed_of_not_halfway (h : s.installations.any Installation.halfway = false) (b' : Boundary) :
    ∀ p ∈ s.installations, p.Placed b' := by
  intro p hp
  refine .of_not_halfway ?_ b'
  by_contra hhalf
  rw [Bool.eq_false_iff] at h
  exact h (List.any_eq_true.mpr ⟨p, hp, by simpa using hhalf⟩)

theorem Orderly.publish (h : s.Orderly created) (hf : s.Faithful created) {p : Publication} (hp : p ∈ s.publication)
    (hok : s.PublishApart p) (keepFrom : Nat) :
    Orderly created { s with
      boundary := (s.boundary.publish keepFrom p).1
      publication := (s.boundary.publish keepFrom p).2 } := by
  have hsome : s.publication = some p := hp
  cases p with
  | readTerm index =>
    have hhalf : s.halfway = s.installations.any Installation.halfway := by
      simp [halfway, publicationHalfway, hsome, Publication.halfway]
    have hmatched := h.matched
    rw [hhalf] at hmatched
    have hsame : ∀ publication : Option Publication, (∀ p' ∈ publication, p'.Placed s.boundary ∧ p'.halfway = false) →
        Orderly created { s with publication } := by
      intro publication hnext
      refine ⟨h.ordered, h.empty, fun hno => hmatched ?_, h.reach, fun p' hp' => (hnext p' hp').1, h.installations, h.lookups⟩
      exact (Bool.or_eq_false_iff.mp hno).2
    simp only [Boundary.publish]
    cases s.boundary.log.termAt index with
    | error err => exact hsame none fun p' hp' => by cases hp'
    | ok term =>
      refine hsame (some (.storeIndex index term)) fun p' hp' => ?_
      cases hp'
      exact ⟨trivial, rfl⟩
  | storeIndex index term =>
    obtain ⟨hcalling, hinstall, hle⟩ := hok
    have hreach := h.reach hinstall
    refine ⟨h.ordered, fun hnil => (h.empty hnil).trans hle, fun hno => ?_, fun _ => ?_, fun p' hp' => ?_,
      placed_of_not_halfway hinstall _, h.lookups_of_calling hcalling le_rfl⟩
    · simp [halfway, publicationHalfway, Boundary.publish, Publication.halfway] at hno
    · simp only [Boundary.publish]
      omega
    · cases hp'
      rfl
  | storeTerm index term =>
    obtain ⟨hcalling, hinstall⟩ := hok
    have hplaced : s.boundary.snapshotIndex = index := h.publication _ hp
    have hterm : term = created.term index := hf.publication _ hp
    refine ⟨h.ordered, h.empty, fun _ => ?_, h.reach, fun p' hp' => ?_, placed_of_not_halfway hinstall _,
      h.lookups_of_calling hcalling le_rfl⟩
    · simp only [Boundary.publish]
      rw [hterm, hplaced]
    · cases hp'
      exact hplaced.ge
  | truncate index =>
    obtain ⟨hcalling, hinstall⟩ := hok
    have hplaced : index ≤ s.boundary.snapshotIndex := h.publication _ hp
    have hhalf : s.halfway = false := by
      simp [halfway, publicationHalfway, hsome, Publication.halfway, hinstall]
    have hreach := h.reach hinstall
    have hlast := h.ordered.lastIndex_le_truncateBefore h.empty (Nat.le_succ_of_le hplaced) keepFrom
    refine ⟨h.ordered.truncateBefore index keepFrom, fun hnil => ?_, fun _ => h.matched hhalf, fun _ => ?_,
      (fun p' hp' => by cases hp'), placed_of_not_halfway hinstall _, h.lookups_of_calling hcalling le_rfl⟩
    · exact (IndexedLog.lastIndex_truncateBefore_of_nil hnil).le.trans (Nat.zero_le _)
    · simp only [Boundary.publish]
      omega

/-- A publication that is not halfway stays in its place as the boundary goes on. -/
theorem Orderly.publication_of_le (h : s.Orderly created) (hhalf : s.publicationHalfway = false) {b' : Boundary}
    (hle : s.boundary.snapshotIndex ≤ b'.snapshotIndex) : ∀ p ∈ s.publication, p.Placed b' := by
  intro p hp
  have hplaced := h.publication p hp
  cases p with
  | readTerm index => trivial
  | storeIndex index term => trivial
  | storeTerm index term =>
    rw [publicationHalfway, show s.publication = some (.storeTerm index term) from hp] at hhalf
    cases hhalf
  | truncate index => exact Nat.le_trans hplaced hle

theorem placed_of_installationHalfway {i : Nat} (h : s.installationHalfway i = false) (b' : Boundary) :
    ∀ p ∈ s.installations.eraseIdx i, p.Placed b' :=
  placed_of_not_halfway (s := { s with installations := s.installations.eraseIdx i }) h b'

theorem Orderly.install (h : s.Orderly created) (hf : s.Faithful created) {i : Nat} {p : Installation}
    (hp : s.installations[i]? = some p) (hok : s.InstallApart i p) (keepFrom : Nat) :
    Orderly created { s with
      boundary := (s.boundary.install keepFrom p).1
      installations := match (s.boundary.install keepFrom p).2 with
        | some p' => s.installations.set i p'
        | none => s.installations.eraseIdx i } := by
  obtain ⟨hcalling, hpublication, hothers, horder⟩ := hok
  have hmem := List.mem_of_getElem? hp
  obtain ⟨hi, -⟩ := List.getElem?_eq_some_iff.mp hp
  have hset : ∀ p' : Installation, p'.halfway = true → (s.installations.set i p').any Installation.halfway ≠ false :=
    fun p' hhalf hno => (List.any_eq_false.mp hno) p' (List.mem_set hi p') hhalf
  have hplaced : ∀ {b' : Boundary} {p' : Installation}, p'.Placed b' → ∀ x ∈ s.installations.set i p', x.Placed b' := by
    intro b' p' hp' x hx
    rcases mem_eraseIdx_of_mem_set hx with rfl | hx
    · exact hp'
    · exact placed_of_installationHalfway hothers b' x hx
  cases p with
  | truncate raftIndex raftTerm =>
    have hle : s.boundary.snapshotIndex ≤ raftIndex := horder
    have hquiet : s.installations.any Installation.halfway = false := by
      rw [List.any_eq_false]
      intro x hx
      rw [← List.set_getElem_self hi] at hx
      rcases mem_eraseIdx_of_mem_set hx with rfl | hx
      · rw [(List.getElem?_eq_some_iff.mp hp).2]
        simp [Installation.halfway]
      · exact (List.any_eq_false.mp hothers) x hx
    have hreach := h.reach hquiet
    have hlast : s.boundary.log.lastIndex ≤ max raftIndex (s.boundary.log.truncateBefore (raftIndex + 1) keepFrom).lastIndex :=
      h.ordered.lastIndex_le_truncateBefore (fun hnil => (h.empty hnil).trans hle) le_rfl keepFrom
    refine ⟨h.ordered.truncateBefore _ keepFrom, fun hnil => ?_, fun hno => ?_, fun hno => ?_,
      h.publication_of_le hpublication le_rfl, hplaced ⟨hle, ?_⟩, h.lookups_of_calling hcalling le_rfl⟩
    · exact (IndexedLog.lastIndex_truncateBefore_of_nil hnil).le.trans (Nat.zero_le _)
    · exact absurd (Bool.or_eq_false_iff.mp hno).2 (hset (.storeIndex raftIndex raftTerm) rfl)
    · exact absurd hno (hset (.storeIndex raftIndex raftTerm) rfl)
    · simp only [Boundary.install]
      omega
  | storeIndex raftIndex raftTerm =>
    obtain ⟨hle, hreach⟩ := h.installations _ hmem
    refine ⟨h.ordered, fun hnil => (h.empty hnil).trans hle, fun hno => ?_, fun hno => ?_,
      h.publication_of_le hpublication hle, hplaced ⟨rfl, ?_⟩, h.lookups_of_calling hcalling (le_max_left _ _)⟩
    · exact absurd (Bool.or_eq_false_iff.mp hno).2 (hset (.storeTerm raftIndex raftTerm) rfl)
    · exact absurd hno (hset (.storeTerm raftIndex raftTerm) rfl)
    · simp only [Boundary.install]
      omega
  | storeTerm raftIndex raftTerm =>
    obtain ⟨hsame, hreach⟩ := h.installations _ hmem
    have hterm : raftTerm = created.term raftIndex := hf.installations _ hmem
    refine ⟨h.ordered, h.empty, fun _ => ?_, fun _ => ?_, h.publication_of_le hpublication le_rfl,
      placed_of_installationHalfway hothers _, h.lookups_of_calling hcalling le_rfl⟩
    · simp only [Boundary.install]
      rw [hterm, hsame]
    · simp only [Boundary.install]
      rw [hsame]
      exact hreach

/-- A call that goes on while no writer is halfway is settled, and what it loads is current. -/
theorem Orderly.lookup (h : s.Orderly created) (hf : s.Faithful created) (hhalf : s.halfway = false) {c : Lookup}
    (hc : c ∈ s.lookups) :
    s.boundary.Settled created c ∧ ∀ c', s.boundary.lookup c = .inl c' → c'.Current s.boundary := by
  have hcurrent := h.lookups c hc
  have hlocated := hf.lookups c hc
  have hmatched := h.matched hhalf
  have hreach := h.reach (Bool.or_eq_false_iff.mp hhalf).2
  cases c with
  | lastIndex floor =>
    refine ⟨trivial, fun c' hnext => ?_⟩
    cases hnext
    exact ⟨rfl, Nat.le_trans hcurrent hreach⟩
  | walLastIndex floor snapshotIndex =>
    obtain ⟨rfl, hfloor⟩ := hcurrent
    refine ⟨fun hzero => by omega, fun c' hnext => ?_⟩
    simp only [Boundary.lookup] at hnext
    split at hnext
    · cases hnext
    cases hnext
    intro floor' hcaller
    cases hcaller
    refine ⟨hfloor, le_max_left _ _, ?_⟩
    by_cases hbeyond : s.boundary.snapshotIndex < s.boundary.log.lastIndex
    · rw [Nat.max_eq_right hbeyond.le]
      exact .inr (h.ordered.exists_last h.empty hbeyond)
    · exact .inl (Nat.max_eq_left (Nat.le_of_not_lt hbeyond))
  | loadIndex caller index =>
    refine ⟨trivial, fun c' hnext => ?_⟩
    simp only [Boundary.lookup] at hnext
    split at hnext
    · cases hnext
    · cases hnext
      exact ⟨rfl, hcurrent⟩
  | loadTerm caller index snapshotIndex =>
    obtain ⟨rfl, hfinds⟩ := hcurrent
    have hpos : 0 < index := hlocated
    refine ⟨?_, fun c' hnext => ?_⟩
    · rw [Boundary.Settled]
      split
      · next hbefore =>
        cases caller with
        | direct => rfl
        | lastLogTerm floor => exact absurd hbefore.2 (Nat.not_lt.mpr (hfinds floor rfl).2.1)
      split
      · next hat =>
        refine ⟨?_, ?_⟩
        · rw [← hf.boundary.term.resolve_left hat.2.2, hmatched, hat.2.1]
        · cases caller with
          | direct => exact Nat.zero_le _
          | lastLogTerm floor => exact (hfinds floor rfl).1
      · trivial
    · simp only [Boundary.lookup] at hnext
      split at hnext
      · cases hnext
      split at hnext
      · cases hnext
      next hat =>
      cases hnext
      intro floor hcaller
      obtain ⟨hfloor, -, hfound⟩ := hfinds floor hcaller
      refine ⟨hfloor, hfound.resolve_left fun hindex => hat ⟨by omega, hindex, ?_⟩⟩
      rw [hmatched]
      exact Nat.ne_of_gt (created.pos _ (by omega))
  | readWal caller index =>
    refine ⟨?_, fun c' hnext => ?_⟩
    · cases caller with
      | direct => trivial
      | lastLogTerm floor =>
        obtain ⟨hfloor, hfound⟩ := hcurrent floor rfl
        exact ⟨hfound, hfloor⟩
    · simp only [Boundary.lookup] at hnext
      split at hnext <;> cases hnext

theorem Orderly.advance (h : s.Orderly created) {i : Nat} {c : Lookup}
    (hnext : ∀ c', s.boundary.lookup c = .inl c' → c'.Current s.boundary) : (s.advance i c).Orderly created := by
  unfold Interleaving.advance
  cases hstep : s.boundary.lookup c with
  | inl c' =>
    refine { h with lookups := fun x hx => ?_ }
    rcases List.mem_or_eq_of_mem_set hx with hold | hnew
    · exact h.lookups x hold
    · exact hnew ▸ hnext c' hstep
  | inr answer => exact { h with lookups := fun x hx => h.lookups x (List.mem_of_mem_eraseIdx hx) }

theorem Orderly.append (h : s.Orderly created) {e : LogEntry} {log : IndexedLog} (hl : s.boundary.log.append e = .ok log) :
    Orderly created { s with boundary := { s.boundary with log, reached := max s.boundary.reached e.index } } := by
  have hlast := IndexedLog.lastIndex_append hl
  have hgrow : ∀ k, s.boundary.snapshotIndex ≤ k → s.boundary.log.lastIndex ≤ max k log.lastIndex := fun k hk =>
    IndexedLog.lastIndex_le_append hl fun hnil => (h.empty hnil).trans hk
  refine ⟨h.ordered.append hl, fun hnil => ?_, h.matched, fun hno => ?_, h.publication, fun p hp => ?_,
    fun c hc => (h.lookups c hc).append h.empty hl⟩
  · have hmem := (IndexedLog.mem_append hl).mpr (.inr rfl)
    dsimp only at hnil
    rw [hnil] at hmem
    cases hmem
  · have hreach := h.reach hno
    have := hgrow _ le_rfl
    dsimp only
    omega
  · have hplaced := h.installations p hp
    cases p with
    | truncate raftIndex raftTerm => trivial
    | storeIndex raftIndex raftTerm =>
      have := hgrow _ hplaced.1
      have := hplaced.2
      exact ⟨hplaced.1, by dsimp only; omega⟩
    | storeTerm raftIndex raftTerm =>
      have := hgrow _ hplaced.1.le
      have := hplaced.2
      exact ⟨hplaced.1, by dsimp only; omega⟩

/-- A step that keeps calls and writers apart is settled. -/
theorem Orderly.step (h : s.Orderly created) (hf : s.Faithful created) {a : Action} (hok : s.Apart a)
    (hs : step created s a = some t) : s.Settled created a ∧ t.Orderly created := by
  cases a with
  | append e =>
    simp only [Interleaving.step] at hs
    split at hs
    · obtain ⟨log, hlog, rfl⟩ := Option.map_eq_some_iff.mp hs
      exact ⟨trivial, h.append (Transition.ok_of_toOption hlog)⟩
    · cases hs
  | launch index =>
    simp only [Interleaving.step] at hs
    split at hs
    · next hnone =>
      cases hs
      refine ⟨trivial, { h with matched := fun hno => h.matched ?_, publication := fun p hp => ?_ }⟩
      · simpa [halfway, publicationHalfway, hnone, Publication.halfway] using hno
      · cases hp
        trivial
    · cases hs
  | publish keepFrom =>
    obtain ⟨p, hp, rfl⟩ := Option.map_eq_some_iff.mp hs
    exact ⟨trivial, h.publish hf hp (hok p hp) keepFrom⟩
  | beginInstall raftIndex raftTerm =>
    simp only [Interleaving.step] at hs
    split at hs
    · cases hs
      refine ⟨trivial, { h with
        matched := fun hno => h.matched ?_
        reach := fun hno => h.reach ?_
        installations := fun p hp => ?_ }⟩
      · simpa [halfway, publicationHalfway, Installation.halfway] using hno
      · simpa [Installation.halfway] using hno
      · rcases List.mem_append.mp hp with hold | hnew
        · exact h.installations p hold
        · rw [List.mem_singleton.mp hnew]
          trivial
    · cases hs
  | install i keepFrom =>
    obtain ⟨p, hp, rfl⟩ := Option.map_eq_some_iff.mp hs
    exact ⟨trivial, h.install hf hp (hok p hp) keepFrom⟩
  | termAtLogicalIndex index =>
    cases hs
    refine ⟨trivial, { h with lookups := fun c hc => ?_ }⟩
    rcases List.mem_append.mp hc with hold | hnew
    · exact h.lookups c hold
    · rw [List.mem_singleton.mp hnew]
      exact fun floor hcaller => by cases hcaller
  | lastLogTerm =>
    cases hs
    refine ⟨trivial, { h with lookups := fun c hc => ?_ }⟩
    rcases List.mem_append.mp hc with hold | hnew
    · exact h.lookups c hold
    · rw [List.mem_singleton.mp hnew]
      exact Nat.le_refl _
  | advance i =>
    obtain ⟨c, hc, rfl⟩ := Option.map_eq_some_iff.mp hs
    obtain ⟨hsettled, hnext⟩ := h.lookup hf hok (List.mem_of_getElem? hc)
    have hhere : s.Settled created (.advance i) := by
      intro c' hc'
      cases hc.symm.trans hc'
      exact hsettled
    exact ⟨hhere, h.advance hnext⟩

/-- In every interleaving in which calls and writers keep apart, the returned terms are those of
the entries. -/
theorem reported_terms_apart (created : EntryTerms) (n : Node)
    (hlog : ∀ e ∈ n.log.entries, e.term = created.term e.index) (hordered : n.log.Ordered)
    (hempty : n.log.entries = [] → n.log.lastIndex ≤ n.lastSnapshotIndex)
    (hterm : n.lastSnapshotTerm = created.term n.lastSnapshotIndex) (actions : List Action)
    (h : Transition.EachStep (step created) Apart (ofNode n) actions) :
    Transition.Throughout (step created) (Truthful created) (ofNode n) actions := by
  have hfaithful : (ofNode n).Faithful created := by
    refine ⟨⟨hlog, .inr hterm⟩, ?_, ?_, ?_⟩
    · exact fun p hp => by cases hp
    · exact fun p hp => by cases hp
    · exact fun c hc => by cases hc
  have horderly : (ofNode n).Orderly created := by
    refine ⟨hordered, hempty, fun _ => hterm, fun _ => le_rfl, ?_, ?_, ?_⟩
    · exact fun p hp => by cases hp
    · exact fun p hp => by cases hp
    · exact fun c hc => by cases hc
  rw [truthful_iff_settled created hfaithful rfl]
  refine h.imp (I := fun s => s.Faithful created ∧ s.Orderly created) (fun s a t hs hst hok => ?_) ⟨hfaithful, horderly⟩
  obtain ⟨hsettled, hnext⟩ := hs.2.step hs.1 hok hst
  exact ⟨hsettled, hs.1.step hst, hnext⟩

/-- A log in which every entry has a term of its own. -/
def ownTerms : EntryTerms := ⟨id, rfl, fun _ h => h⟩

/-- A node with a snapshot of its first entry and a second one in the WAL. -/
def oneSnapshot : Node :=
  { Node.create { nodeId := "A", peers := ["B", "C"] } {} {} none with
    currentTerm := 2
    log := ⟨[{ index := 1, term := 1 }, { index := 2, term := 2 }], 2⟩
    appliedIndex := 2
    commitIndex := 2
    lastSnapshotIndex := 1
    lastSnapshotTerm := 1 }

/-- A call, a publication and an installation, one after the other, and calls again. -/
theorem reported_terms_between_publications :
    Transition.Throughout (step ownTerms) (Truthful ownTerms) (ofNode oneSnapshot)
      [.termAtLogicalIndex 1, .advance 0, .advance 0, .launch 2, .publish 0, .publish 0, .publish 0, .publish 0,
        .lastLogTerm, .advance 0, .advance 0, .advance 0, .advance 0, .beginInstall 5 5, .install 0 0, .install 0 0,
        .install 0 0, .lastLogTerm, .advance 0, .advance 0, .advance 0, .advance 0] :=
  reported_terms_apart ownTerms oneSnapshot (by decide) ⟨by decide, by decide⟩ (by decide) (by decide) _ (by decide)

/-- Between the two stores of a publication the new index has the old term. -/
theorem reported_term_of_previous_snapshot :
    ∃ t, Transition.run (step ownTerms) (ofNode oneSnapshot)
        [.launch 2, .publish 0, .publish 0, .termAtLogicalIndex 2, .advance 0, .advance 0] = some t ∧
      t.answers = [⟨.direct, 2, 1⟩] ∧ ownTerms.term 2 = 2 :=
  ⟨_, rfl, rfl, rfl⟩

end Interleaving

end RaftVdb
