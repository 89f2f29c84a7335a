import RaftVdb.Storage

/-!
# The files of one snapshot writer

What a local snapshot or an install leaves in the directory at each of its operations while
the other keeps away from it, and what its next operation can do then. The last operation of
either leaves the directory alone: the local snapshot truncates the WAL, the install loads the
dedup table. `holds` says what is known of an index file and its label; it is passed on from
the index that is saved.
-/

namespace RaftVdb.Storage

/-- Of a local snapshot at most its `TruncateBefore` is left. -/
def TaskDone (s : Storage) : Prop := ∀ t ∈ s.task, t.stage = .truncate

instance (s : Storage) : Decidable s.TaskDone := inferInstanceAs (Decidable (∀ t ∈ s.task, _))

/-- Of an install at most the load of the dedup table is left. -/
def InstallDone (s : Storage) : Prop := ∀ i ∈ s.install, i.stage = .loadDedup

instance (s : Storage) : Decidable s.InstallDone := inferInstanceAs (Decidable (∀ i ∈ s.install, _))

variable (holds : List LogEntry → Nat → Prop)

/-- A closed index file for the label. -/
def FileFor (file : Option (Contents (List LogEntry))) (label : Nat) : Prop :=
  ∃ index, file = some (.whole index) ∧ holds index label

/-- Where the files of a local snapshot stand that is not done, with the index that the node has
stored last. -/
def TaskStanding (d : SnapshotDir) (last k : Nat) : TaskStage → Prop
  | .cleanup | .clone => d.metaIndex = last
  | .removeTmp index => d.metaIndex = last ∧ holds index k
  | .openTmp index => d.metaIndex = last ∧ holds index k ∧ d.tmpSnapshot = none
  | .closeTmp index => d.metaIndex = last ∧ holds index k ∧ d.tmpSnapshot = some (.torn .task)
  | .termAt | .finalize _ .lookup | .finalize _ .saveMeta => d.metaIndex = last ∧ FileFor holds d.tmpSnapshot k
  | .finalize raftTerm .renameSnapshot =>
    d.metaIndex = last ∧ FileFor holds d.tmpSnapshot k ∧ d.tmpMeta = some ⟨raftTerm, k⟩
  | .finalize raftTerm .renameMeta => d.metaIndex = last ∧ FileFor holds d.snapshot k ∧ d.tmpMeta = some ⟨raftTerm, k⟩
  | .openDedup _ | .closeDedup _ _ | .renameDedup _ | .publish _ => d.metaIndex = k
  | .truncate => False

/-- The thread has found the term of its label in the WAL. -/
def termFound : TaskStage → Bool
  | .cleanup | .clone | .removeTmp _ | .openTmp _ | .closeTmp _ | .termAt => false
  | _ => true

/-- The next operation of a local snapshot that is not done and that no install disturbs. -/
inductive TaskMove (s : Storage) (t : Task) : Storage → Prop where
  | files (dir : SnapshotDir) (stage : TaskStage) (hmeta : dir.metaFile = s.dir.metaFile)
      (hsnapshot : dir.snapshot = s.dir.snapshot) (hterm : termFound stage = termFound t.stage)
      (hstanding : TaskStanding holds dir s.lastSnapshotIndex t.snapshotIndex stage) :
      TaskMove s t { s with dir, task := some { t with stage } }
  | termed (raftTerm : Nat) (hterm : s.log.termAt t.snapshotIndex = .ok raftTerm)
      (hstanding : TaskStanding holds s.dir s.lastSnapshotIndex t.snapshotIndex (.finalize raftTerm .lookup)) :
      TaskMove s t { s with task := some { t with stage := .finalize raftTerm .lookup } }
  | dropped (hmeta : s.dir.metaIndex = s.lastSnapshotIndex) : TaskMove s t { s with task := none }
  | replaced (dir : SnapshotDir) (raftTerm : Nat) (hmeta : dir.metaFile = s.dir.metaFile)
      (hlast : s.dir.metaIndex = s.lastSnapshotIndex) (hfile : FileFor holds dir.snapshot t.snapshotIndex)
      (hterm : termFound t.stage = true) (htmp : dir.tmpMeta = some ⟨raftTerm, t.snapshotIndex⟩) :
      TaskMove s t { s with dir, task := some { t with stage := .finalize raftTerm .renameMeta } }
  | recorded (dir : SnapshotDir) (raftTerm : Nat) (hmeta : dir.metaFile = some ⟨raftTerm, t.snapshotIndex⟩)
      (hlast : s.dir.metaIndex = s.lastSnapshotIndex) (hterm : termFound t.stage = true)
      (hfile : FileFor holds dir.snapshot t.snapshotIndex) :
      TaskMove s t { s with dir, task := some { t with stage := .openDedup raftTerm } }
  | published (raftTerm : Nat) (hmeta : s.dir.metaIndex = t.snapshotIndex) (hterm : termFound t.stage = true) :
      TaskMove s t
        { s with
          lastSnapshotIndex := t.snapshotIndex
          lastSnapshotTerm := raftTerm
          task := some { t with stage := .truncate } }

variable {holds} {s : Storage} {t : Task} {i : Install}

theorem TaskStanding.ne_truncate {d : SnapshotDir} {last k : Nat} {stage : TaskStage}
    (h : TaskStanding holds d last k stage) : stage ≠ .truncate := by
  rintro rfl
  exact h

theorem TaskStanding.finalize {raftTerm : Nat} {stage : FinalizeStage} (hstage : t.stage = .finalize raftTerm stage)
    (h : TaskStanding holds s.dir s.lastSnapshotIndex t.snapshotIndex (.finalize raftTerm stage)) (saved : Bool)
    (keepFrom : Nat) : TaskMove holds s t (s.stepTask t saved keepFrom) := by
  have hfound : termFound t.stage = true := by rw [hstage]; rfl
  unfold stepTask
  simp only [hstage]
  cases stage with
  | lookup =>
    obtain ⟨hmeta, index, hfile, hholds⟩ := h
    rw [finalizeSnapshot, if_neg (by rw [hfile]; simp)]
    exact .files s.dir _ rfl rfl hfound.symm ⟨hmeta, index, hfile, hholds⟩
  | saveMeta => exact .files _ _ rfl rfl hfound.symm ⟨h.1, h.2, rfl⟩
  | renameSnapshot =>
    obtain ⟨hmeta, ⟨index, hfile, hholds⟩, htmp⟩ := h
    simp only [finalizeSnapshot, hfile]
    exact .replaced _ raftTerm rfl hmeta ⟨index, rfl, hholds⟩ hfound htmp
  | renameMeta =>
    obtain ⟨hmeta, hfile, htmp⟩ := h
    simp only [finalizeSnapshot, htmp]
    exact .recorded _ raftTerm rfl hmeta hfound hfile

theorem TaskStanding.move (h : TaskStanding holds s.dir s.lastSnapshotIndex t.snapshotIndex t.stage)
    (hclone : t.stage = .clone → holds (t.vectorIndex.getD s.index) t.snapshotIndex) (saved : Bool) (keepFrom : Nat) :
    TaskMove holds s t (s.stepTask t saved keepFrom) := by
  cases hstage : t.stage with
  | finalize raftTerm stage =>
    rw [hstage] at h
    exact h.finalize hstage saved keepFrom
  | cleanup =>
    rw [hstage] at h
    simp only [stepTask, hstage]
    exact .files _ _ rfl rfl (by rw [hstage]; rfl) h
  | clone =>
    have hholds := hclone hstage
    rw [hstage] at h
    simp only [stepTask, hstage]
    exact .files s.dir _ rfl rfl (by rw [hstage]; rfl) ⟨h, hholds⟩
  | removeTmp index =>
    rw [hstage] at h
    simp only [stepTask, hstage]
    exact .files _ _ rfl rfl (by rw [hstage]; rfl) ⟨h.1, h.2, rfl⟩
  | openTmp index =>
    rw [hstage] at h
    simp only [stepTask, hstage, h.2.2]
    exact .files _ _ rfl rfl (by rw [hstage]; rfl) ⟨h.1, h.2.1, rfl⟩
  | closeTmp index =>
    rw [hstage] at h
    simp only [stepTask, hstage, SnapshotDir.closeSnapshot, h.2.2, if_true]
    exact .files _ _ rfl rfl (by rw [hstage]; rfl) ⟨h.1, index, rfl, h.2.1⟩
  | termAt =>
    rw [hstage] at h
    simp only [stepTask, hstage]
    split
    · exact .dropped h.1
    · next raftTerm hterm => exact .termed raftTerm hterm h
  | openDedup raftTerm =>
    rw [hstage] at h
    simp only [stepTask, hstage]
    split
    · exact .files _ _ rfl rfl (by rw [hstage]; rfl) h
    · exact .files s.dir _ rfl rfl (by rw [hstage]; rfl) h
  | closeDedup raftTerm records =>
    rw [hstage] at h
    simp only [stepTask, hstage, SnapshotDir.closeDedup]
    split
    · exact .files _ _ rfl rfl (by rw [hstage]; rfl) h
    split
    · exact .files _ _ rfl rfl (by rw [hstage]; rfl) h
    · exact .files s.dir _ rfl rfl (by rw [hstage]; rfl) h
  | renameDedup raftTerm =>
    rw [hstage] at h
    simp only [stepTask, hstage]
    split
    · exact .files s.dir _ rfl rfl (by rw [hstage]; rfl) h
    · exact .files _ _ rfl rfl (by rw [hstage]; rfl) h
  | publish raftTerm =>
    rw [hstage] at h
    simp only [stepTask, hstage]
    exact .published raftTerm h (by rw [hstage]; rfl)
  | truncate =>
    rw [hstage] at h
    exact h.elim

/-- Where the files of an install stand that is not done. -/
def InstallStanding (d : SnapshotDir) (last : Nat) (stream : SnapshotStream) : InstallStage → Prop
  | .cleanup => d.metaIndex = last
  | .openTmp => d.metaIndex = last ∧ d.tmpSnapshot = none
  | .closeTmp => d.metaIndex = last ∧ d.tmpSnapshot = some (.torn .install)
  | .openDedup => d.metaIndex = last ∧ d.tmpSnapshot = some (.whole stream.index)
  | .closeDedup | .finalize .lookup | .finalize .saveMeta =>
    d.metaIndex = last ∧ d.tmpSnapshot = some (.whole stream.index) ∧ d.tmpDedup.isSome
  | .finalize .renameSnapshot =>
    d.metaIndex = last ∧ d.tmpSnapshot = some (.whole stream.index) ∧ d.tmpDedup.isSome ∧
      d.tmpMeta = some stream.snapMeta
  | .finalize .renameMeta =>
    d.metaIndex = last ∧ d.snapshot = some (.whole stream.index) ∧ d.tmpDedup.isSome ∧ d.tmpMeta = some stream.snapMeta
  | .renameDedup =>
    d.metaIndex = stream.snapMeta.raftIndex ∧ d.snapshot = some (.whole stream.index) ∧ d.tmpDedup.isSome
  | .load => d.metaIndex = stream.snapMeta.raftIndex ∧ d.snapshot = some (.whole stream.index)
  | .truncate | .publish => d.metaIndex = stream.snapMeta.raftIndex
  | .loadDedup => False

/-- `snapshot.meta` is that of the install, and the node has not stored its index yet. -/
def pending : InstallStage → Bool
  | .renameDedup | .load | .truncate | .publish => true
  | _ => false

/-- The index in memory is the installed one, and the node has not stored its index yet. -/
def exchanged : InstallStage → Bool
  | .truncate | .publish => true
  | _ => false

/-- The next operation of an install that is not done and that no local snapshot disturbs. -/
inductive InstallMove (s : Storage) (i : Install) : Storage → Prop where
  | files (dir : SnapshotDir) (stage : InstallStage) (hmeta : dir.metaFile = s.dir.metaFile)
      (hsnapshot : dir.snapshot = s.dir.snapshot) (hpending : pending stage = pending i.stage)
      (hold : exchanged i.stage = false) (hnew : exchanged stage = false)
      (hstanding : InstallStanding dir s.lastSnapshotIndex i.stream stage) :
      InstallMove s i { s with dir, install := some { i with stage } }
  | replaced (dir : SnapshotDir) (hmeta : dir.metaFile = s.dir.metaFile) (hold : exchanged i.stage = false)
      (hstanding : InstallStanding dir s.lastSnapshotIndex i.stream (.finalize .renameMeta)) :
      InstallMove s i { s with dir, install := some { i with stage := .finalize .renameMeta } }
  | recorded (dir : SnapshotDir) (hmeta : dir.metaFile = some i.stream.snapMeta) (hold : exchanged i.stage = false)
      (hstanding : InstallStanding dir s.lastSnapshotIndex i.stream .renameDedup) :
      InstallMove s i { s with dir, install := some { i with stage := .renameDedup } }
  | loaded (hpending : pending i.stage = true) (hmeta : s.dir.metaIndex = i.stream.snapMeta.raftIndex) :
      InstallMove s i
        { s with
          index := i.stream.index
          task := s.task.map fun (t : Task) => { t with vectorIndex := t.vectorIndex.or (some s.index) }
          install := some { i with stage := .truncate } }
  | truncated (keepFrom : Nat) (hstage : i.stage = .truncate) (hmeta : s.dir.metaIndex = i.stream.snapMeta.raftIndex) :
      InstallMove s i
        { s with
          log := s.log.truncateBefore (i.stream.snapMeta.raftIndex + 1) keepFrom
          install := some { i with stage := .publish } }
  | published (hstage : i.stage = .publish) (hmeta : s.dir.metaIndex = i.stream.snapMeta.raftIndex) :
      InstallMove s i
        { s with
          appliedIndex := i.stream.snapMeta.raftIndex
          commitIndex := i.stream.snapMeta.raftIndex
          lastSnapshotIndex := i.stream.snapMeta.raftIndex
          lastSnapshotTerm := i.stream.snapMeta.raftTerm
          durable := max s.durable i.stream.snapMeta.raftIndex
          install := some { i with stage := .loadDedup } }

theorem InstallStanding.ne_loadDedup {d : SnapshotDir} {last : Nat} {stream : SnapshotStream} {stage : InstallStage}
    (h : InstallStanding d last stream stage) : stage ≠ .loadDedup := by
  rintro rfl
  exact h

theorem InstallStanding.finalize {stage : FinalizeStage} (hstage : i.stage = .finalize stage)
    (h : InstallStanding s.dir s.lastSnapshotIndex i.stream (.finalize stage)) (keepFrom : Nat) :
    InstallMove s i (s.stepInstall i keepFrom) := by
  have hexchanged : exchanged i.stage = false := by rw [hstage]; rfl
  have hpending : pending i.stage = false := by rw [hstage]; rfl
  unfold stepInstall
  simp only [hstage]
  cases stage with
  | lookup =>
    rw [finalizeSnapshot, if_neg (by rw [h.2.1]; simp)]
    exact .files s.dir _ rfl rfl hpending.symm hexchanged rfl h
  | saveMeta => exact .files _ _ rfl rfl hpending.symm hexchanged rfl ⟨h.1, h.2.1, h.2.2, rfl⟩
  | renameSnapshot =>
    obtain ⟨hmeta, hfile, hdedup, htmp⟩ := h
    simp only [finalizeSnapshot, hfile]
    exact .replaced _ rfl hexchanged ⟨hmeta, rfl, hdedup, htmp⟩
  | renameMeta =>
    obtain ⟨hmeta, hfile, hdedup, htmp⟩ := h
    simp only [finalizeSnapshot, htmp]
    exact .recorded _ rfl hexchanged ⟨rfl, hfile, hdedup⟩

theorem InstallStanding.move (h : InstallStanding s.dir s.lastSnapshotIndex i.stream i.stage) (keepFrom : Nat) :
    InstallMove s i (s.stepInstall i keepFrom) := by
  cases hstage : i.stage with
  | finalize stage =>
    rw [hstage] at h
    exact h.finalize hstage keepFrom
  | cleanup =>
    rw [hstage] at h
    simp only [stepInstall, hstage]
    exact .files _ _ rfl rfl (by rw [hstage]; rfl) (by rw [hstage]; rfl) rfl ⟨h, rfl⟩
  | openTmp =>
    rw [hstage] at h
    simp only [stepInstall, hstage, h.2]
    exact .files _ _ rfl rfl (by rw [hstage]; rfl) (by rw [hstage]; rfl) rfl ⟨h.1, rfl⟩
  | closeTmp =>
    rw [hstage] at h
    simp only [stepInstall, hstage, SnapshotDir.closeSnapshot, h.2, if_true]
    exact .files _ _ rfl rfl (by rw [hstage]; rfl) (by rw [hstage]; rfl) rfl ⟨h.1, rfl⟩
  | openDedup =>
    rw [hstage] at h
    simp only [stepInstall, hstage]
    exact .files _ _ rfl rfl (by rw [hstage]; rfl) (by rw [hstage]; rfl) rfl ⟨h.1, h.2, rfl⟩
  | closeDedup =>
    rw [hstage] at h
    simp only [stepInstall, hstage, SnapshotDir.closeDedup]
    split
    · exact .files _ _ rfl rfl (by rw [hstage]; rfl) (by rw [hstage]; rfl) rfl ⟨h.1, h.2.1, rfl⟩
    split
    · exact .files _ _ rfl rfl (by rw [hstage]; rfl) (by rw [hstage]; rfl) rfl h
    · exact .files s.dir _ rfl rfl (by rw [hstage]; rfl) (by rw [hstage]; rfl) rfl h
  | renameDedup =>
    rw [hstage] at h
    obtain ⟨file, hsome⟩ := Option.isSome_iff_exists.mp h.2.2
    simp only [stepInstall, hstage, hsome]
    exact .files _ _ rfl rfl (by rw [hstage]; rfl) (by rw [hstage]; rfl) rfl ⟨h.1, h.2.1⟩
  | load =>
    rw [hstage] at h
    simp only [stepInstall, hstage, h.2]
    exact .loaded (by rw [hstage]; rfl) h.1
  | truncate =>
    rw [hstage] at h
    simp only [stepInstall, hstage]
    exact .truncated keepFrom hstage h
  | publish =>
    rw [hstage] at h
    simp only [stepInstall, hstage]
    exact .published hstage h
  | loadDedup =>
    rw [hstage] at h
    exact h.elim

/-- As long as it reads the stream an install has changed nothing that counts. -/
theorem InstallStanding.reading (h : InstallStanding s.dir s.lastSnapshotIndex i.stream i.stage)
    (hreading : reading i.stage = true) : s.dir.metaIndex = s.lastSnapshotIndex ∧ exchanged i.stage = false := by
  revert h hreading
  cases i.stage <;> simp +contextual [Storage.reading, InstallStanding, exchanged]

/-- The last operation of a local snapshot. -/
theorem stepTask_of_truncate (hstage : t.stage = .truncate) (saved : Bool) (keepFrom : Nat) :
    s.stepTask t saved keepFrom = { s with log := s.log.truncateBefore t.snapshotIndex keepFrom, task := none } := by
  simp only [stepTask, hstage]

/-- The last operation of an install. -/
theorem stepInstall_of_loadDedup (hstage : i.stage = .loadDedup) (keepFrom : Nat) :
    ∃ dedup, s.stepInstall i keepFrom = { s with dedup, install := none } := by
  simp only [stepInstall, hstage]
  exact ⟨_, rfl⟩

end RaftVdb.Storage
