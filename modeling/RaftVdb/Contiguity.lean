import RaftVdb.SnapshotFiles

/-!
# The next entry can be appended

`WAL::Append` compares an index with the last one in the WAL, the node counts from the
larger of that and its snapshot index. They agree as long as the WAL is anchored at the
snapshot: it has the entry at the snapshot index, or none below it. An install records its
index in `snapshot.meta` before it truncates the WAL, and a crash between the two leaves a
WAL that may end below.
-/

namespace RaftVdb

open Lib

namespace Storage

variable {cfg : StorageConfig} {s s' : Storage}

/-- The steps that keep the WAL anchored. -/
def Undisturbed (s : Storage) : Action → Prop
  | .launch => s.InstallDone
  | .beginInstall _ => s.TaskDone
  | .append e => ∀ i ∈ s.install, i.stage = .publish → s.log.entries = [] → i.stream.snapMeta.raftIndex < e.index
  | .truncateSuffix index =>
    s.commitIndex < index ∧ ∀ i ∈ s.install, i.stage = .publish → i.stream.snapMeta.raftIndex < index
  | .crash (.truncateSuffix index _) _ =>
    s.commitIndex < index ∧ ∀ i ∈ s.install, pending i.stage = true →
      i.stream.snapMeta.raftIndex < index ∧ Anchored s.log.entries i.stream.snapMeta.raftIndex
  | .crash _ _ => ∀ i ∈ s.install, pending i.stage = true → Anchored s.log.entries i.stream.snapMeta.raftIndex
  | _ => True

instance (s : Storage) (a : Action) : Decidable (Undisturbed s a) := by
  unfold Undisturbed
  split <;> infer_instance

/-- `WAL::Append` takes the entry that the node would append next. -/
def CanAppend (s : Storage) : Prop := ∀ e : LogEntry, e.index = s.logicalLastIndex + 1 → ∃ log, s.log.append e = .ok log

theorem canAppend_iff (s : Storage) : s.CanAppend ↔ s.log.entries = [] ∨ s.lastSnapshotIndex ≤ s.log.lastIndex := by
  constructor
  · intro h
    obtain ⟨log, hlog⟩ := h { index := s.logicalLastIndex + 1, term := 0, payload := [] } rfl
    by_contra hne
    rw [not_or] at hne
    rw [IndexedLog.append, if_pos ⟨hne.1, by simp only [logicalLastIndex]; omega⟩] at hlog
    cases hlog
  · intro h e he
    refine ⟨_, if_neg ?_⟩
    rintro ⟨hne, hindex⟩
    have hle := h.resolve_left hne
    simp only [logicalLastIndex] at he
    omega

structure AnchoredTask (s : Storage) (t : Task) : Prop where
  positive : 0 < t.snapshotIndex
  committed : t.snapshotIndex ≤ s.commitIndex
  standing : TaskStanding (fun _ _ => True) s.dir s.lastSnapshotIndex t.snapshotIndex t.stage
  present : termFound t.stage = true → ∃ e ∈ s.log.entries, e.index = t.snapshotIndex

structure AnchoredInstall (s : Storage) (i : Install) : Prop where
  standing : InstallStanding s.dir s.lastSnapshotIndex i.stream i.stage
  anchored : i.stage = .publish → Anchored s.log.entries i.stream.snapMeta.raftIndex

structure AnchorInv (s : Storage) : Prop where
  ordered : s.log.Ordered
  apart : s.TaskDone ∨ s.InstallDone
  quiet : s.TaskDone → s.InstallDone → s.dir.metaIndex = s.lastSnapshotIndex
  applied_le : s.appliedIndex ≤ s.commitIndex
  anchored : Anchored s.log.entries s.lastSnapshotIndex
  file : ∀ m ∈ s.dir.metaFile, FileFor (fun _ _ => True) s.dir.snapshot m.raftIndex
  task : ∀ t ∈ s.task, t.stage ≠ .truncate → AnchoredTask s t
  install : ∀ i ∈ s.install, i.stage ≠ .loadDedup → AnchoredInstall s i

theorem AnchorInv.canAppend (h : AnchorInv s) : s.CanAppend := (canAppend_iff s).mpr (h.anchored.le_lastIndex h.ordered)

/-! ## The log -/

/-- A log that keeps every anchor. -/
theorem AnchorInv.withLog (h : AnchorInv s) (log : IndexedLog) (hordered : log.Ordered)
    (hanchored : Anchored log.entries s.lastSnapshotIndex)
    (htask : ∀ t ∈ s.task, t.stage ≠ .truncate → (∃ e ∈ s.log.entries, e.index = t.snapshotIndex) →
      ∃ e ∈ log.entries, e.index = t.snapshotIndex)
    (hinstall : ∀ i ∈ s.install, i.stage = .publish → Anchored s.log.entries i.stream.snapMeta.raftIndex →
      Anchored log.entries i.stream.snapMeta.raftIndex) : AnchorInv { s with log } :=
  { h with
    ordered := hordered
    anchored := hanchored
    task := fun t ht hnot =>
      { h.task t ht hnot with present := fun hfound => htask t ht hnot ((h.task t ht hnot).present hfound) }
    install := fun i hi hnot =>
      { h.install i hi hnot with anchored := fun hstage => hinstall i hi hstage ((h.install i hi hnot).anchored hstage) } }

theorem AnchorInv.append (h : AnchorInv s) {e : LogEntry} (hok : Undisturbed s (.append e))
    (hs : s.append cfg e = some s') : AnchorInv s' := by
  unfold Storage.append at hs
  split at hs
  · cases hs
  next hguard =>
  obtain ⟨log, hlog, rfl⟩ := Option.map_eq_some_iff.mp hs
  have happend : s.log.append e = .ok log := Transition.ok_of_toOption hlog
  refine h.withLog log (h.ordered.append happend) (h.anchored.append (by omega) happend) ?_ ?_
  · rintro t - - ⟨x, hx, hindex⟩
    exact ⟨x, (IndexedLog.mem_append happend).mpr (.inl hx), hindex⟩
  · intro i hi hstage hanchored
    refine hanchored.append ?_ happend
    rcases hanchored.le_lastIndex h.ordered with hnil | hle
    · have := hok i hi hstage hnil
      omega
    · by_cases hnil : s.log.entries = []
      · have := hok i hi hstage hnil
        omega
      · have hnext : e.index = s.log.lastIndex + 1 := by
          by_contra hne
          rw [IndexedLog.append, if_pos ⟨hnil, hne⟩] at happend
          cases happend
        omega

theorem AnchorInv.truncateSuffix (h : AnchorInv s) {index : Nat} (hok : Undisturbed s (.truncateSuffix index))
    (hs : s.truncateSuffix index = some s') : AnchorInv s' := by
  unfold Storage.truncateSuffix at hs
  split at hs
  swap
  · cases hs
  next hlast =>
  obtain ⟨log, hlog, rfl⟩ := Option.map_eq_some_iff.mp hs
  have htrunc : s.log.truncateSuffix index = .ok log := Transition.ok_of_toOption hlog
  obtain ⟨hcommit, hpublish⟩ := hok
  refine h.withLog log (h.ordered.truncateSuffix htrunc) (h.anchored.truncateSuffix h.ordered hlast htrunc) ?_ ?_
  · rintro t ht hnot ⟨x, hx, hindex⟩
    have hle := (h.task t ht hnot).committed
    exact ⟨x, (h.ordered.mem_truncateSuffix htrunc).mpr ⟨hx, by omega⟩, hindex⟩
  · intro i hi hstage hanchored
    exact hanchored.truncateSuffix h.ordered (hpublish i hi hstage) htrunc

theorem AnchorInv.commit (h : AnchorInv s) {index : Nat} (hs : s.commit cfg index = some s') : AnchorInv s' := by
  unfold Storage.commit at hs
  split at hs
  swap
  · cases hs
  next hguard =>
  cases hs
  exact
    { h with
      applied_le := by
        have := h.applied_le
        dsimp only
        omega
      task := fun t ht hnot =>
        { h.task t ht hnot with
          committed := by
            have := (h.task t ht hnot).committed
            dsimp only
            omega }
      install := fun i hi hnot => { h.install i hi hnot with } }

theorem AnchorInv.apply (h : AnchorInv s) (hs : s.apply cfg = some s') : AnchorInv s' := by
  unfold Storage.apply at hs
  split at hs
  swap
  · cases hs
  next hlt =>
  obtain ⟨e, -, rfl⟩ := Option.map_eq_some_iff.mp hs
  exact
    { h with
      applied_le := hlt
      task := fun t ht hnot => { h.task t ht hnot with }
      install := fun i hi hnot => { h.install i hi hnot with } }

/-! ## The local snapshot -/

theorem AnchorInv.setTask (h : AnchorInv s) (dir : SnapshotDir) (task : Option Task) (hdone : s.InstallDone)
    (hquiet : (∀ t ∈ task, t.stage = .truncate) → dir.metaIndex = s.lastSnapshotIndex)
    (hfile : ∀ m ∈ dir.metaFile, FileFor (fun _ _ => True) dir.snapshot m.raftIndex)
    (htask : ∀ t ∈ task, AnchoredTask { s with dir, task } t) : AnchorInv { s with dir, task } :=
  { h with
    apart := .inr hdone
    quiet := fun htasks _ => hquiet htasks
    file := hfile
    task := fun t ht _ => htask t ht
    install := fun i hi hnot => absurd (hdone i hi) hnot }

/-- The thread moves on and is not done. -/
theorem AnchorInv.advanceTask (h : AnchorInv s) (dir : SnapshotDir) {t : Task} (hdone : s.InstallDone)
    (hfile : ∀ m ∈ dir.metaFile, FileFor (fun _ _ => True) dir.snapshot m.raftIndex)
    (htask : AnchoredTask { s with dir, task := some t } t) : AnchorInv { s with dir, task := some t } := by
  refine h.setTask dir (some t) hdone (fun htasks => absurd (htasks t rfl) htask.standing.ne_truncate) hfile fun t' ht' => ?_
  cases ht'
  exact htask

theorem AnchorInv.launch (h : AnchorInv s) (hok : s.InstallDone) (hs : s.launch cfg = some s') : AnchorInv s' := by
  unfold Storage.launch at hs
  split at hs
  · cases hs
  next hguard =>
  cases hs
  have htask : s.TaskDone := fun t ht => absurd (by rw [Option.mem_def.mp ht]; simp) hguard
  refine h.advanceTask s.dir hok h.file ?_
  exact ⟨by dsimp only; omega, h.applied_le, h.quiet htask hok, fun hfound => by cases hfound⟩

/-- The last operation of a local snapshot, during an install or not. -/
theorem AnchorInv.truncateTask (h : AnchorInv s) {t : Task} (ht : s.task = some t) (hstage : t.stage = .truncate)
    (keepFrom : Nat) : AnchorInv { s with log := s.log.truncateBefore t.snapshotIndex keepFrom, task := none } := by
  have htask : s.TaskDone := fun t' ht' => by
    rw [ht] at ht'
    cases ht'
    exact hstage
  exact
    { h with
      ordered := h.ordered.truncateBefore _ _
      apart := .inl fun t ht => by cases ht
      quiet := fun _ hdone => h.quiet htask hdone
      anchored := h.anchored.truncateBefore h.ordered _ _
      task := fun t ht => by cases ht
      install := fun i hi hnot =>
        { h.install i hi hnot with
          anchored := fun hpublish => ((h.install i hi hnot).anchored hpublish).truncateBefore h.ordered _ _ } }

theorem AnchorInv.stepTask (h : AnchorInv s) {t : Task} (ht : s.task = some t) (saved : Bool) (keepFrom : Nat) :
    AnchorInv (s.stepTask t saved keepFrom) := by
  by_cases hstage : t.stage = .truncate
  · rw [stepTask_of_truncate hstage]
    exact h.truncateTask ht hstage keepFrom
  have hdone : s.InstallDone := h.apart.resolve_left fun htasks => hstage (htasks t ht)
  obtain ⟨hpositive, hcommitted, hstanding, hpresent⟩ := h.task t ht hstage
  have hmove := hstanding.move (fun _ => trivial) saved keepFrom
  generalize s.stepTask t saved keepFrom = s' at hmove ⊢
  cases hmove with
  | files dir stage hmeta hsnapshot hterm hnext =>
    refine h.advanceTask dir hdone ?_ ⟨hpositive, hcommitted, hnext, fun hfound => hpresent (hterm ▸ hfound)⟩
    rw [hmeta, hsnapshot]
    exact h.file
  | termed raftTerm hterm hnext =>
    refine h.advanceTask s.dir hdone h.file ⟨hpositive, hcommitted, hnext, fun _ => ?_⟩
    rw [IndexedLog.termAt, if_neg (by omega)] at hterm
    cases hread : s.log.read t.snapshotIndex with
    | error err =>
      rw [hread] at hterm
      cases hterm
    | ok e => exact ⟨e, h.ordered.read_eq_ok.mp hread⟩
  | dropped hmeta => exact h.setTask s.dir none hdone (fun _ => hmeta) h.file fun t' ht' => by cases ht'
  | replaced dir raftTerm hmeta hlast hfile hterm htmp =>
    have hindex : dir.metaIndex = s.dir.metaIndex := by simp only [SnapshotDir.metaIndex, hmeta]
    refine h.advanceTask dir hdone ?_
      ⟨hpositive, hcommitted, ⟨hindex.trans hlast, hfile, htmp⟩, fun _ => hpresent hterm⟩
    intro m hm
    obtain ⟨index, hwhole, -⟩ := hfile
    exact ⟨index, hwhole, trivial⟩
  | recorded dir raftTerm hmeta hlast hterm hfile =>
    have hindex : dir.metaIndex = t.snapshotIndex := by
      rw [SnapshotDir.metaIndex, hmeta]
      rfl
    refine h.advanceTask dir hdone ?_ ⟨hpositive, hcommitted, hindex, fun _ => hpresent hterm⟩
    intro m hm
    rw [hmeta] at hm
    cases hm
    exact hfile
  | published raftTerm hmeta hterm =>
    obtain ⟨e, he, hindex⟩ := hpresent hterm
    exact
      { h with
        apart := .inr hdone
        quiet := fun _ _ => hmeta
        anchored := by
          dsimp only
          rw [← hindex]
          exact .of_mem he
        task := fun t' ht' hnot => by
          cases ht'
          exact absurd rfl hnot
        install := fun i hi hnot => absurd (hdone i hi) hnot }

/-! ## The install -/

theorem AnchorInv.setInstall (h : AnchorInv s) (dir : SnapshotDir) (install : Option Install) (hdone : s.TaskDone)
    (hquiet : (∀ i ∈ install, i.stage = .loadDedup) → dir.metaIndex = s.lastSnapshotIndex)
    (hfile : ∀ m ∈ dir.metaFile, FileFor (fun _ _ => True) dir.snapshot m.raftIndex)
    (hinstall : ∀ i ∈ install, AnchoredInstall { s with dir, install } i) : AnchorInv { s with dir, install } :=
  { h with
    apart := .inl hdone
    quiet := fun _ hinstalls => hquiet hinstalls
    file := hfile
    task := fun t ht hnot => absurd (hdone t ht) hnot
    install := fun i hi _ => hinstall i hi }

/-- The install goes on and is not done. -/
theorem AnchorInv.advanceInstall (h : AnchorInv s) (dir : SnapshotDir) {i : Install} (hdone : s.TaskDone)
    (hfile : ∀ m ∈ dir.metaFile, FileFor (fun _ _ => True) dir.snapshot m.raftIndex)
    (hinstall : AnchoredInstall { s with dir, install := some i } i) : AnchorInv { s with dir, install := some i } := by
  refine h.setInstall dir (some i) hdone (fun hinstalls => ?_) hfile fun i' hi' => ?_
  · exact absurd (hinstalls i rfl) hinstall.standing.ne_loadDedup
  · cases hi'
    exact hinstall

theorem AnchorInv.beginInstall (h : AnchorInv s) {stream : SnapshotStream} (hok : s.TaskDone)
    (hs : s.beginInstall stream = some s') : AnchorInv s' := by
  unfold Storage.beginInstall at hs
  split at hs
  swap
  · cases hs
  next hnone =>
  cases hs
  refine h.advanceInstall s.dir hok h.file ⟨h.quiet hok ?_, fun hstage => by cases hstage⟩
  rw [InstallDone, hnone]
  exact fun i hi => by cases hi

theorem AnchorInv.abortInstall (h : AnchorInv s) {i : Install} (hi : s.install = some i) (hreading : reading i.stage = true) :
    AnchorInv { s with dir := cleanupInstall s.dir, install := none } := by
  have hstage : i.stage ≠ .loadDedup := fun heq => by
    rw [heq] at hreading
    cases hreading
  have hdone : s.TaskDone := h.apart.resolve_right fun hinstalls => hstage (hinstalls i hi)
  obtain ⟨hmeta, -⟩ := (h.install i hi hstage).standing.reading hreading
  exact h.setInstall (cleanupInstall s.dir) none hdone (fun _ => hmeta) h.file fun i hi => by cases hi

/-- The last operation of an install, during a local snapshot or not. -/
theorem AnchorInv.finishInstall (h : AnchorInv s) {i : Install} (hi : s.install = some i) (hstage : i.stage = .loadDedup)
    (dedup : DedupTable) : AnchorInv { s with dedup, install := none } := by
  have hdone : s.InstallDone := fun i' hi' => by
    rw [hi] at hi'
    cases hi'
    exact hstage
  exact
    { h with
      apart := .inr fun i hi => by cases hi
      quiet := fun htasks _ => h.quiet htasks hdone
      task := fun t ht hnot => { h.task t ht hnot with }
      install := fun i hi => by cases hi }

theorem AnchorInv.stepInstall (h : AnchorInv s) {i : Install} (hi : s.install = some i) (keepFrom : Nat) :
    AnchorInv (s.stepInstall i keepFrom) := by
  by_cases hstage : i.stage = .loadDedup
  · obtain ⟨dedup, heq⟩ := stepInstall_of_loadDedup (s := s) hstage keepFrom
    rw [heq]
    exact h.finishInstall hi hstage dedup
  have hdone : s.TaskDone := h.apart.resolve_right fun hinstalls => hstage (hinstalls i hi)
  obtain ⟨hstanding, hanchored⟩ := h.install i hi hstage
  have hmove := hstanding.move keepFrom
  generalize s.stepInstall i keepFrom = s' at hmove ⊢
  cases hmove with
  | files dir stage hmeta hsnapshot hpending hold hnew hnext =>
    refine h.advanceInstall dir hdone ?_ ⟨hnext, fun hstage => ?_⟩
    · rw [hmeta, hsnapshot]
      exact h.file
    · dsimp only at hstage
      rw [hstage] at hnew
      cases hnew
  | replaced dir hmeta hold hnext =>
    exact h.advanceInstall dir hdone (fun m _ => ⟨i.stream.index, hnext.2.1, trivial⟩) ⟨hnext, fun hstage => by cases hstage⟩
  | recorded dir hmeta hold hnext =>
    exact h.advanceInstall dir hdone (fun m _ => ⟨i.stream.index, hnext.2.1, trivial⟩) ⟨hnext, fun hstage => by cases hstage⟩
  | loaded hpending hmeta =>
    have hmapped : ∀ t ∈ s.task.map (fun (t : Task) => { t with vectorIndex := t.vectorIndex.or (some s.index) }),
        t.stage = .truncate := by
      intro t ht
      obtain ⟨t', ht', rfl⟩ := Option.mem_map.mp ht
      exact hdone t' ht'
    exact
      { h with
        apart := .inl hmapped
        quiet := fun _ hinstalls => by cases hinstalls _ rfl
        task := fun t ht hnot => absurd (hmapped t ht) hnot
        install := fun i' hi' _ => by
          cases hi'
          exact ⟨hmeta, fun hstage => by cases hstage⟩ }
  | truncated keepFrom hstage hmeta =>
    exact
      { h with
        ordered := h.ordered.truncateBefore _ _
        apart := .inl hdone
        quiet := fun _ hinstalls => by cases hinstalls _ rfl
        anchored := h.anchored.truncateBefore h.ordered _ _
        task := fun t ht hnot => absurd (hdone t ht) hnot
        install := fun i' hi' _ => by
          cases hi'
          exact ⟨hmeta, fun _ => .truncateBefore_of_le (Nat.le_succ _) keepFrom⟩ }
  | published hstage hmeta =>
    exact
      { h with
        apart := .inl hdone
        quiet := fun _ _ => hmeta
        applied_le := Nat.le_refl _
        anchored := hanchored hstage
        task := fun t ht hnot => absurd (hdone t ht) hnot
        install := fun i' hi' hnot => by
          cases hi'
          exact absurd rfl hnot }

/-! ## Crashes and runs -/

theorem TaskStanding.metaIndex {holds : List LogEntry → Nat → Prop} {d : SnapshotDir} {last k : Nat} {stage : TaskStage}
    (h : TaskStanding holds d last k stage) : d.metaIndex = last ∨ d.metaIndex = k ∧ termFound stage = true := by
  cases stage with
  | finalize raftTerm stage =>
    cases stage with
    | lookup => exact .inl h.1
    | saveMeta => exact .inl h.1
    | renameSnapshot => exact .inl h.1
    | renameMeta => exact .inl h.1
  | cleanup => exact .inl h
  | clone => exact .inl h
  | removeTmp index => exact .inl h.1
  | openTmp index => exact .inl h.1
  | closeTmp index => exact .inl h.1
  | termAt => exact .inl h.1
  | openDedup raftTerm => exact .inr ⟨h, rfl⟩
  | closeDedup raftTerm records => exact .inr ⟨h, rfl⟩
  | renameDedup raftTerm => exact .inr ⟨h, rfl⟩
  | publish raftTerm => exact .inr ⟨h, rfl⟩
  | truncate => exact h.elim

theorem InstallStanding.metaIndex {d : SnapshotDir} {last : Nat} {stream : SnapshotStream} {stage : InstallStage}
    (h : InstallStanding d last stream stage) :
    d.metaIndex = last ∨ d.metaIndex = stream.snapMeta.raftIndex ∧ pending stage = true := by
  cases stage with
  | finalize stage =>
    cases stage with
    | lookup => exact .inl h.1
    | saveMeta => exact .inl h.1
    | renameSnapshot => exact .inl h.1
    | renameMeta => exact .inl h.1
  | cleanup => exact .inl h
  | openTmp => exact .inl h.1
  | closeTmp => exact .inl h.1
  | openDedup => exact .inl h.1
  | closeDedup => exact .inl h.1
  | renameDedup => exact .inr ⟨h.1, rfl⟩
  | load => exact .inr ⟨h.1, rfl⟩
  | truncate => exact .inr ⟨h, rfl⟩
  | publish => exact .inr ⟨h, rfl⟩
  | loadDedup => exact h.elim

/-- The label that a crash finds in `snapshot.meta`: the one the node has stored, that of its
thread, or that of the install. -/
theorem AnchorInv.metaIndex (h : AnchorInv s) :
    s.dir.metaIndex = s.lastSnapshotIndex ∨
    (s.dir.metaIndex ≤ s.commitIndex ∧ Anchored s.log.entries s.dir.metaIndex) ∨
    ∃ i ∈ s.install, pending i.stage = true ∧ s.dir.metaIndex = i.stream.snapMeta.raftIndex := by
  by_cases htasks : s.TaskDone
  · by_cases hinstalls : s.InstallDone
    · exact .inl (h.quiet htasks hinstalls)
    · simp only [InstallDone, not_forall] at hinstalls
      obtain ⟨i, hi, hstage⟩ := hinstalls
      refine (h.install i hi hstage).standing.metaIndex.imp_right ?_
      rintro ⟨hmeta, hpending⟩
      exact .inr ⟨i, hi, hpending, hmeta⟩
  · simp only [TaskDone, not_forall] at htasks
    obtain ⟨t, ht, hstage⟩ := htasks
    have htask := h.task t ht hstage
    refine htask.standing.metaIndex.imp_right ?_
    rintro ⟨hmeta, hfound⟩
    obtain ⟨e, he, hindex⟩ := htask.present hfound
    rw [hmeta]
    refine .inl ⟨htask.committed, ?_⟩
    rw [← hindex]
    exact .of_mem he

theorem AnchorInv.survivors (h : AnchorInv s) {during : Interrupted} {start : Nat}
    (hok : Undisturbed s (.crash during start)) :
    (reopen (s.survivors during) start).Ordered ∧ Anchored (s.survivors during) s.dir.metaIndex := by
  have hfilter : ∀ p : LogEntry → Bool, (reopen (s.log.entries.filter p) start).Ordered :=
    fun p => h.ordered.filter p (start - 1)
  have hall : (reopen s.log.entries start).Ordered := by
    have hp := hfilter fun _ => true
    rw [List.filter_true] at hp
    exact hp
  have hpending : ∀ i ∈ s.install, pending i.stage = true → Anchored s.log.entries i.stream.snapMeta.raftIndex := by
    intro i hi hp
    cases during with
    | nothing => exact hok i hi hp
    | truncateBefore keepFrom => exact hok i hi hp
    | truncateSuffix index rest => exact (hok.2 i hi hp).2
  have hanchored : Anchored s.log.entries s.dir.metaIndex := by
    rcases h.metaIndex with hlast | ⟨-, htask⟩ | ⟨i, hi, hp, hmeta⟩
    · rw [hlast]
      exact h.anchored
    · exact htask
    · rw [hmeta]
      exact hpending i hi hp
  cases during with
  | nothing => exact ⟨hall, hanchored⟩
  | truncateBefore keepFrom =>
    refine ⟨hfilter _, hanchored.filter fun e x he hlt hx => ?_⟩
    simp only [decide_eq_true_eq] at he ⊢
    omega
  | truncateSuffix index rest =>
    unfold Storage.survivors
    dsimp only
    split
    · next hlast =>
      refine ⟨hfilter _, hanchored.filter fun e x he hlt hx => ?_⟩
      have hbelow : s.dir.metaIndex < index := by
        rcases h.metaIndex with hmeta | ⟨hle, -⟩ | ⟨i, hi, hp, hmeta⟩
        · omega
        · have := hok.1
          omega
        · have := (hok.2 i hi hp).1
          omega
      simp only [decide_eq_true_eq]
      omega
    · exact ⟨hall, hanchored⟩

theorem AnchorInv.crash (h : AnchorInv s) {during : Interrupted} {start : Nat}
    (hok : Undisturbed s (.crash during start)) (hs : s.restart cfg (reopen (s.survivors during) start) = some s') :
    AnchorInv s' := by
  obtain ⟨hordered, hanchored⟩ := h.survivors hok
  unfold restart at hs
  dsimp only at hs
  split at hs
  · cases hs
  next index snapMeta hrestore =>
  obtain ⟨dedup, -, rfl⟩ := Option.map_eq_some_iff.mp hs
  have hlast : (snapMeta.map SnapshotMeta.raftIndex).getD 0 = s.dir.metaIndex := by
    cases hmeta : s.dir.metaFile with
    | none =>
      have hnone : snapMeta = none := by
        simp [restoreVectorIndex, SnapshotDir.cleanupTemporaryFiles, hmeta] at hrestore
        exact hrestore.2.symm
      rw [hnone, SnapshotDir.metaIndex, hmeta]
    | some m =>
      obtain ⟨file, hfile, -⟩ := h.file m hmeta
      simp only [restoreVectorIndex, SnapshotDir.cleanupTemporaryFiles, hmeta, hfile, Option.some.injEq,
        Prod.mk.injEq] at hrestore
      rw [← hrestore.2, SnapshotDir.metaIndex, hmeta]
  exact
    { ordered := hordered
      apart := .inl fun t ht => by cases ht
      quiet := fun _ _ => hlast.symm
      applied_le := Nat.le_refl _
      anchored := by
        dsimp only
        rw [hlast]
        exact hanchored
      file := h.file
      task := fun t ht => by cases ht
      install := fun i hi => by cases hi }

theorem AnchorInv.step (h : AnchorInv s) {a : Action} (hok : Undisturbed s a) (hs : step cfg s a = some s') :
    AnchorInv s' := by
  cases a with
  | append e => exact h.append hok hs
  | truncateSuffix index => exact h.truncateSuffix hok hs
  | commit index => exact h.commit hs
  | apply => exact h.apply hs
  | trackPending requestId logIndex =>
    cases hs
    exact
      { h with
        task := fun t ht hnot => { h.task t ht hnot with }
        install := fun i hi hnot => { h.install i hi hnot with } }
  | launch => exact h.launch hok hs
  | task saved keepFrom =>
    obtain ⟨t, ht, rfl⟩ := Option.map_eq_some_iff.mp hs
    exact h.stepTask ht saved keepFrom
  | beginInstall stream => exact h.beginInstall hok hs
  | install keepFrom =>
    obtain ⟨i, hi, rfl⟩ := Option.map_eq_some_iff.mp hs
    exact h.stepInstall hi keepFrom
  | abortInstall =>
    obtain ⟨i, hi, hs⟩ := Option.bind_eq_some_iff.mp hs
    split at hs
    · next hreading =>
      cases hs
      exact h.abortInstall hi hreading
    · cases hs
  | crash during start => exact h.crash hok hs

theorem AnchorInv.init (cfg : StorageConfig) : AnchorInv (init cfg) where
  ordered := .empty
  apart := .inl fun t ht => by cases ht
  quiet := fun _ _ => rfl
  applied_le := Nat.le_refl _
  anchored := .nil 0
  file := fun m hm => by cases hm
  task := fun t ht => by cases ht
  install := fun i hi => by cases hi

/-- After any number of crashes and at every moment the next entry passes the check of the WAL,
which then is empty or does not end below the snapshot. -/
theorem canAppend_of_undisturbed (cfg : StorageConfig) (schedule : List Action) (s : Storage)
    (h : Transition.run (Transition.restrict Undisturbed (step cfg)) (init cfg) schedule = some s) :
    s.CanAppend ∧ (s.log.entries = [] ∨ s.lastSnapshotIndex ≤ s.log.lastIndex) := by
  have hinv : AnchorInv s := by
    refine Transition.run_invariant AnchorInv (fun s a t hi hst => ?_) (.init cfg) h
    obtain ⟨hok, hst⟩ := Transition.restrict_eq_some.mp hst
    exact hi.step hok hst
  exact ⟨hinv.canAppend, (canAppend_iff s).mp hinv.canAppend⟩

/-- The third entry is in the WAL when a crash cuts an install of index 3 behind its rename of
`snapshot.meta`. -/
def anchoredInstall : List Action :=
  twoApplied ++ List.replicate 15 (.task true 0) ++ [.append (upsertEntry 3 3 99), .beginInstall streamOfThree] ++
    List.replicate 9 (.install 0) ++ [.crash .nothing 1]

theorem canAppend_after_anchored_install :
    ∃ s, Transition.run (Transition.restrict Undisturbed (step threeUpserts)) (init threeUpserts) anchoredInstall =
      some s ∧ s.lastSnapshotIndex = 3 ∧ s.CanAppend ∧
        (s.log.entries = [] ∨ s.lastSnapshotIndex ≤ s.log.lastIndex) := by
  have hrun : ∃ s, Transition.run (Transition.restrict Undisturbed (step threeUpserts)) (init threeUpserts)
      anchoredInstall = some s ∧ s.lastSnapshotIndex = 3 := by
    decide +kernel
  obtain ⟨s, hs, hlast⟩ := hrun
  exact ⟨s, hs, hlast, canAppend_of_undisturbed threeUpserts anchoredInstall s hs⟩

/-- The WAL ends at 2 at such a crash. -/
def shortInstall : List Action :=
  [.append (upsertEntry 1 1 97), .append (upsertEntry 2 2 98), .beginInstall streamOfThree] ++
    List.replicate 9 (.install 0) ++ [.crash .nothing 1]

/-- The restarted node counts from 3, the WAL from 2. -/
theorem cannot_append_after_short_install :
    ∃ s, run threeUpserts shortInstall = some s ∧ s.lastSnapshotIndex = 3 ∧ s.log.lastIndex = 2 ∧ ¬ s.CanAppend := by
  have hrun : ∃ s, run threeUpserts shortInstall = some s ∧ s.lastSnapshotIndex = 3 ∧ s.log.lastIndex = 2 ∧
      s.log.entries ≠ [] := by
    decide +kernel
  obtain ⟨s, hs, hsnapshot, hlast, hne⟩ := hrun
  refine ⟨s, hs, hsnapshot, hlast, fun hcan => ?_⟩
  have hle := ((canAppend_iff s).mp hcan).resolve_left hne
  omega

end Storage

end RaftVdb
