import RaftVdb.Lib.Replay
import RaftVdb.SnapshotFiles

/-!
# Snapshot and WAL cover the committed log

As long as a local snapshot and an installed one do not overlap, no older snapshot replaces
a newer one, no entry is applied while an install exchanges the index, and no committed
entry is truncated, every crash finds an index file that holds the entries up to its label
and a WAL with those behind it. Without installs nothing of this can happen, and a restart
that replays the WAL over the snapshot gets the index of the whole log.
-/

namespace RaftVdb

open Lib Replay

/-- What `ApplyCommittedEntries` writes into the index for an entry. -/
def LogEntry.write (codec : CommandCodec) (dim : Nat) (e : LogEntry) : Option (Nat × Option (List Nat)) :=
  match e.command codec with
  | none => none
  | some (.delete cmd) => some (cmd.id, none)
  | some (.upsert cmd) => if cmd.vector ≠ [] ∧ cmd.vector.length = dim then some (cmd.id, some cmd.vector) else none

/-- The highest index among the entries of an index. -/
def top (index : List LogEntry) : Nat := (index.map LogEntry.index).foldr max 0

theorem top_concat (index : List LogEntry) (e : LogEntry) : top (index ++ [e]) = max (top index) e.index := by
  induction index with
  | nil => simp [top]
  | cons x rest ih =>
    simp only [top, List.cons_append, List.map_cons, List.foldr_cons] at ih ⊢
    rw [ih, max_assoc]

namespace StorageConfig

variable (cfg : StorageConfig)

/-- The vectors of an index, by their keys. -/
def vectors (index : List LogEntry) : Nat → Option (List Nat) := replay (LogEntry.write cfg.codec cfg.dim) index

/-- The index holds the effects of the committed entries up to the label: the entries behind
it make up the rest. -/
def Holds (index : List LogEntry) (label : Nat) : Prop :=
  CatchesUp (LogEntry.write cfg.codec cfg.dim) cfg.committed index label (top index)

instance (index : List LogEntry) (label : Nat) : Decidable (cfg.Holds index label) :=
  inferInstanceAs (Decidable (CatchesUp _ _ _ _ _))

variable {cfg}

theorem index_of_entryAt {i : Nat} {e : LogEntry} (h : cfg.entryAt i = some e) : e.index = i := by
  unfold entryAt at h
  split at h
  · cases h
  next hi =>
  have hmap := congrArg (·[i - 1]?) cfg.numbered
  simp only [List.getElem?_map, h, Option.map_some] at hmap
  obtain ⟨hlt, -⟩ := List.getElem?_eq_some_iff.mp h
  rw [List.getElem?_range' (by omega)] at hmap
  have := Option.some.inj hmap
  omega

theorem Holds.concat {index : List LogEntry} {label : Nat} {e : LogEntry} (h : cfg.Holds index label)
    (he : cfg.entryAt (label + 1) = some e) : cfg.Holds (index ++ [e]) (label + 1) := by
  unfold Holds
  rw [top_concat, index_of_entryAt he]
  refine CatchesUp.concat h ?_
  simpa [entryAt] using he

theorem Holds.of_le {index : List LogEntry} {label k : Nat} (h : cfg.Holds index label) (hk : k ≤ label) :
    cfg.Holds index k :=
  CatchesUp.of_le h hk

end StorageConfig

namespace Storage

variable {cfg : StorageConfig} {s s' : Storage}

/-- The steps that keep snapshot and WAL together. -/
def Covering (cfg : StorageConfig) (s : Storage) : Action → Prop
  | .launch => s.InstallDone
  | .beginInstall stream => s.TaskDone ∧ s.dir.metaIndex ≤ stream.snapMeta.raftIndex ∧
      cfg.Holds stream.index stream.snapMeta.raftIndex
  | .apply => ∀ i ∈ s.install, exchanged i.stage = false
  | .truncateSuffix index => s.durable < index
  | .crash (.truncateSuffix index _) _ => s.durable < index
  | _ => True

instance (cfg : StorageConfig) (s : Storage) : (a : Action) → Decidable (Covering cfg s a)
  | .launch => inferInstanceAs (Decidable s.InstallDone)
  | .beginInstall _ => inferInstanceAs (Decidable (_ ∧ _ ∧ _))
  | .apply => inferInstanceAs (Decidable (∀ i ∈ s.install, _))
  | .truncateSuffix index => inferInstanceAs (Decidable (s.durable < index))
  | .crash (.truncateSuffix index _) _ => inferInstanceAs (Decidable (s.durable < index))
  | .crash .nothing _ | .crash (.truncateBefore _) _ => isTrue trivial
  | .append _ | .commit _ | .trackPending _ _ | .task _ _ | .install _ | .abortInstall => isTrue trivial

/-- The label of the index in memory: from the exchange until the indices are stored it is that
of the installed one. -/
def label (s : Storage) : Nat :=
  match s.install with
  | some i => if exchanged i.stage then i.stream.snapMeta.raftIndex else s.appliedIndex
  | none => s.appliedIndex

structure TaskInv (cfg : StorageConfig) (d : SnapshotDir) (last applied : Nat) (t : Task) : Prop where
  shared : t.vectorIndex = none
  fresh : last ≤ t.snapshotIndex
  applied : t.snapshotIndex ≤ applied
  standing : TaskStanding cfg.Holds d last t.snapshotIndex t.stage

structure InstallInv (cfg : StorageConfig) (d : SnapshotDir) (last : Nat) (i : Install) : Prop where
  newer : d.metaIndex ≤ i.stream.snapMeta.raftIndex
  holds : cfg.Holds i.stream.index i.stream.snapMeta.raftIndex
  standing : InstallStanding d last i.stream i.stage

structure CoverInv (cfg : StorageConfig) (s : Storage) : Prop where
  ordered : s.log.Ordered
  apart : s.TaskDone ∨ s.InstallDone
  quiet : s.TaskDone → s.InstallDone → s.dir.metaIndex = s.lastSnapshotIndex
  published : s.lastSnapshotIndex ≤ s.dir.metaIndex
  snapshot_le : s.lastSnapshotIndex ≤ s.appliedIndex
  commit_le : s.commitIndex ≤ s.durable
  agree : ∀ e ∈ s.log.entries, s.lastSnapshotIndex < e.index → e.index ≤ s.commitIndex → cfg.entryAt e.index = some e
  present : ∀ i, s.dir.metaIndex < i → i ≤ s.durable → ∃ e ∈ s.log.entries, cfg.entryAt i = some e
  index : cfg.Holds s.index s.label
  file : ∀ m ∈ s.dir.metaFile, FileFor cfg.Holds s.dir.snapshot m.raftIndex
  task : ∀ t ∈ s.task, t.stage ≠ .truncate → TaskInv cfg s.dir s.lastSnapshotIndex s.appliedIndex t
  truncating : ∀ t ∈ s.task, t.stage = .truncate → t.snapshotIndex ≤ s.dir.metaIndex
  install : ∀ i ∈ s.install, i.stage ≠ .loadDedup → InstallInv cfg s.dir s.lastSnapshotIndex i

/-! ## The log -/

theorem CoverInv.withLog (h : CoverInv cfg s) (log : IndexedLog) (hordered : log.Ordered)
    (hsub : ∀ e ∈ log.entries, e ∈ s.log.entries ∨ (e.index ≤ s.commitIndex → cfg.entryAt e.index = some e))
    (hkeep : ∀ e ∈ s.log.entries, s.dir.metaIndex < e.index → e.index ≤ s.durable → e ∈ log.entries) :
    CoverInv cfg { s with log } :=
  { h with
    ordered := hordered
    agree := fun e he hlast hcommit => (hsub e he).elim (fun hold => h.agree e hold hlast hcommit) fun hnew => hnew hcommit
    present := fun i hi hd => by
      obtain ⟨e, he, hentry⟩ := h.present i hi hd
      have hindex := StorageConfig.index_of_entryAt hentry
      exact ⟨e, hkeep e he (hindex.symm ▸ hi) (hindex.symm ▸ hd), hentry⟩ }

theorem CoverInv.append (h : CoverInv cfg s) {e : LogEntry} (hs : s.append cfg e = some s') : CoverInv cfg s' := by
  unfold Storage.append at hs
  split at hs
  · cases hs
  next hguard =>
  obtain ⟨log, hlog, rfl⟩ := Option.map_eq_some_iff.mp hs
  have happend : s.log.append e = .ok log := Transition.ok_of_toOption hlog
  refine h.withLog log (h.ordered.append happend) ?_ ?_
  · intro x hx
    rcases (IndexedLog.mem_append happend).mp hx with hx | rfl
    · exact .inl hx
    · refine .inr fun hle => ?_
      by_contra hne
      exact hguard (.inr ⟨hle, hne⟩)
  · intro x hx _ _
    exact (IndexedLog.mem_append happend).mpr (.inl hx)

theorem CoverInv.truncateSuffix (h : CoverInv cfg s) {index : Nat} (hdurable : s.durable < index)
    (hs : s.truncateSuffix index = some s') : CoverInv cfg s' := by
  unfold Storage.truncateSuffix at hs
  split at hs
  swap
  · cases hs
  obtain ⟨log, hlog, rfl⟩ := Option.map_eq_some_iff.mp hs
  have htrunc : s.log.truncateSuffix index = .ok log := Transition.ok_of_toOption hlog
  refine h.withLog log (h.ordered.truncateSuffix htrunc) ?_ ?_
  · intro x hx
    exact .inl ((h.ordered.mem_truncateSuffix htrunc).mp hx).1
  · intro x hx _ hle
    exact (h.ordered.mem_truncateSuffix htrunc).mpr ⟨hx, by omega⟩

theorem CoverInv.commit (h : CoverInv cfg s) {index : Nat} (hs : s.commit cfg index = some s') : CoverInv cfg s' := by
  unfold Storage.commit at hs
  split at hs
  swap
  · cases hs
  next hguard =>
  cases hs
  obtain ⟨hlt, hread⟩ := hguard
  have hmem : ∀ i, s.lastSnapshotIndex < i → i ≤ index → ∃ e ∈ s.log.entries, cfg.entryAt i = some e := by
    intro i hi hle
    obtain ⟨hsome, heq⟩ := hread i (by omega) hi
    obtain ⟨e, he⟩ := Option.isSome_iff_exists.mp hsome
    refine ⟨e, ?_, he⟩
    rw [he] at heq
    cases hres : s.log.read i with
    | error err =>
      rw [hres] at heq
      cases heq
    | ok x =>
      rw [hres] at heq
      cases heq
      exact (h.ordered.read_eq_ok.mp hres).1
  exact
    { h with
      commit_le := le_max_right _ _
      agree := by
        intro e he hlast hle
        obtain ⟨-, heq⟩ := hread e.index (Nat.lt_succ_of_le hle) hlast
        rw [h.ordered.read_eq_ok.mpr ⟨he, rfl⟩] at heq
        exact heq.symm
      present := by
        intro i hi hle
        rcases Nat.lt_or_ge s.durable i with hd | hd
        · exact hmem i (Nat.lt_of_le_of_lt h.published hi) (by simp at hle; omega)
        · exact h.present i hi hd }

theorem label_of_apply (hok : ∀ i ∈ s.install, exchanged i.stage = false) : s.label = s.appliedIndex := by
  unfold label
  split
  · next i hi =>
    rw [hok i hi]
    rfl
  · rfl

/-- What `ApplyCommittedEntries` reads is the committed entry. -/
theorem CoverInv.entryAt_of_read (h : CoverInv cfg s) (hlt : s.appliedIndex < s.commitIndex) {e : LogEntry}
    (hread : (s.log.read (s.appliedIndex + 1)).toOption = some e) : cfg.entryAt (s.appliedIndex + 1) = some e := by
  have hmem : e ∈ s.log.entries ∧ e.index = s.appliedIndex + 1 := by
    cases hres : s.log.read (s.appliedIndex + 1) with
    | error err => simp [hres, Except.toOption] at hread
    | ok x =>
      have hx : x = e := by simpa [hres, Except.toOption] using hread
      rw [hx] at hres
      exact h.ordered.read_eq_ok.mp hres
  have hsnapshot := h.snapshot_le
  rw [← hmem.2]
  exact h.agree e hmem.1 (by omega) (by omega)

theorem CoverInv.apply (h : CoverInv cfg s) (hok : Covering cfg s .apply) (hs : s.apply cfg = some s') :
    CoverInv cfg s' := by
  unfold Storage.apply at hs
  split at hs
  swap
  · cases hs
  next hlt =>
  obtain ⟨e, hread, rfl⟩ := Option.map_eq_some_iff.mp hs
  have hsnapshot := h.snapshot_le
  have hentry := h.entryAt_of_read hlt hread
  have hlabel := label_of_apply hok
  refine { h with snapshot_le := Nat.le_succ_of_le hsnapshot, index := ?_, task := ?_ }
  · have hnew : Storage.label { s with index := s.index ++ [e], dedup := record cfg s.dedup (s.appliedIndex + 1) e
                                       appliedIndex := s.appliedIndex + 1 } = s.appliedIndex + 1 :=
      label_of_apply (s := { s with
        index := s.index ++ [e], dedup := record cfg s.dedup (s.appliedIndex + 1) e
        appliedIndex := s.appliedIndex + 1 }) hok
    rw [hnew]
    have hold := h.index
    rw [hlabel] at hold
    exact hold.concat hentry
  · intro t ht hstage
    have := (h.task t ht hstage).applied
    exact { h.task t ht hstage with applied := by dsimp only; omega }

/-! ## The local snapshot -/

/-- The thread moves on, with files that are at least as new. -/
theorem CoverInv.setTask (h : CoverInv cfg s) (dir : SnapshotDir) (task : Option Task) (hdone : s.InstallDone)
    (hle : s.dir.metaIndex ≤ dir.metaIndex)
    (hquiet : (∀ t ∈ task, t.stage = .truncate) → dir.metaIndex = s.lastSnapshotIndex)
    (hfile : ∀ m ∈ dir.metaFile, FileFor cfg.Holds dir.snapshot m.raftIndex)
    (htask : ∀ t ∈ task, t.stage ≠ .truncate ∧ TaskInv cfg dir s.lastSnapshotIndex s.appliedIndex t) :
    CoverInv cfg { s with dir, task } :=
  { h with
    apart := .inr hdone
    quiet := fun htasks _ => hquiet htasks
    published := Nat.le_trans h.published hle
    present := fun i hi hd => h.present i (Nat.lt_of_le_of_lt hle hi) hd
    file := hfile
    task := fun t ht _ => (htask t ht).2
    truncating := fun t ht hstage => absurd hstage (htask t ht).1
    install := fun i hi hstage => absurd (hdone i hi) hstage }

/-- The same with a thread that is not done. -/
theorem CoverInv.advanceTask (h : CoverInv cfg s) (dir : SnapshotDir) {t : Task} (hdone : s.InstallDone)
    (hle : s.dir.metaIndex ≤ dir.metaIndex) (hfile : ∀ m ∈ dir.metaFile, FileFor cfg.Holds dir.snapshot m.raftIndex)
    (htask : TaskInv cfg dir s.lastSnapshotIndex s.appliedIndex t) : CoverInv cfg { s with dir, task := some t } := by
  have hstage := htask.standing.ne_truncate
  refine h.setTask dir (some t) hdone hle (fun htasks => absurd (htasks t rfl) hstage) hfile fun t' ht' => ?_
  cases ht'
  exact ⟨hstage, htask⟩

theorem CoverInv.launch (h : CoverInv cfg s) (hok : s.InstallDone) (hs : s.launch cfg = some s') : CoverInv cfg s' := by
  unfold Storage.launch at hs
  split at hs
  · cases hs
  next hguard =>
  cases hs
  have htask : s.TaskDone := fun t ht => absurd (by rw [Option.mem_def.mp ht]; simp) hguard
  exact h.advanceTask s.dir hok (le_refl _) h.file ⟨rfl, h.snapshot_le, le_refl _, h.quiet htask hok⟩

/-- Without an exchange the label of the index in memory is what has been applied. -/
theorem label_of_installDone (hdone : s.InstallDone) : s.label = s.appliedIndex :=
  label_of_apply fun i hi => by rw [hdone i hi]; rfl

/-- The last operation of a local snapshot, during an install or not. -/
theorem CoverInv.truncateTask (h : CoverInv cfg s) {t : Task} (ht : s.task = some t) (hstage : t.stage = .truncate)
    (keepFrom : Nat) : CoverInv cfg { s with log := s.log.truncateBefore t.snapshotIndex keepFrom, task := none } := by
  have htask : s.TaskDone := fun t' ht' => by
    rw [ht] at ht'
    cases ht'
    exact hstage
  have hle := h.truncating t ht hstage
  have hlog := h.withLog (s.log.truncateBefore t.snapshotIndex keepFrom)
    (h.ordered.truncateBefore t.snapshotIndex keepFrom)
    (fun e he => .inl (IndexedLog.mem_of_mem_truncateBefore he))
    fun e he hgt _ => (h.ordered.mem_truncateBefore keepFrom (by omega)).mpr he
  exact
    { hlog with
      apart := .inl fun t ht => by cases ht
      quiet := fun _ hdone => h.quiet htask hdone
      task := fun t ht => by cases ht
      truncating := fun t ht => by cases ht }

theorem CoverInv.stepTask (h : CoverInv cfg s) {t : Task} (ht : s.task = some t) (saved : Bool) (keepFrom : Nat) :
    CoverInv cfg (s.stepTask t saved keepFrom) := by
  by_cases hstage : t.stage = .truncate
  · rw [stepTask_of_truncate hstage]
    exact h.truncateTask ht hstage keepFrom
  have hdone : s.InstallDone := h.apart.resolve_left fun htasks => hstage (htasks t ht)
  obtain ⟨hshared, hfresh, happlied, hstanding⟩ := h.task t ht hstage
  have hclone : t.stage = .clone → cfg.Holds (t.vectorIndex.getD s.index) t.snapshotIndex := by
    intro _
    have hindex := h.index
    rw [label_of_installDone hdone] at hindex
    rw [hshared]
    exact hindex.of_le happlied
  have hmove := hstanding.move hclone saved keepFrom
  generalize s.stepTask t saved keepFrom = s' at hmove ⊢
  cases hmove with
  | files dir stage hmeta hsnapshot hterm hnext =>
    refine h.advanceTask dir hdone ?_ ?_ ⟨hshared, hfresh, happlied, hnext⟩
    · simp only [SnapshotDir.metaIndex, hmeta, le_refl]
    · rw [hmeta, hsnapshot]
      exact h.file
  | termed raftTerm hterm hnext => exact h.advanceTask s.dir hdone (le_refl _) h.file ⟨hshared, hfresh, happlied, hnext⟩
  | dropped hmeta => exact h.setTask s.dir none hdone (le_refl _) (fun _ => hmeta) h.file fun t' ht' => by cases ht'
  | replaced dir raftTerm hmeta hlast hfile hterm htmp =>
    have hindex : dir.metaIndex = s.dir.metaIndex := by simp only [SnapshotDir.metaIndex, hmeta]
    refine h.advanceTask dir hdone hindex.ge ?_ ⟨hshared, hfresh, happlied, hindex.trans hlast, hfile, htmp⟩
    intro m hm
    obtain ⟨index, hwhole, hholds⟩ := hfile
    refine ⟨index, hwhole, hholds.of_le ?_⟩
    have hm' : dir.metaIndex = m.raftIndex := by
      rw [SnapshotDir.metaIndex, Option.mem_def.mp hm]
      rfl
    omega
  | recorded dir raftTerm hmeta hlast hterm hfile =>
    have hindex : dir.metaIndex = t.snapshotIndex := by
      rw [SnapshotDir.metaIndex, hmeta]
      rfl
    refine h.advanceTask dir hdone (by omega) ?_ ⟨hshared, hfresh, happlied, hindex⟩
    intro m hm
    rw [hmeta] at hm
    cases hm
    exact hfile
  | published raftTerm hmeta hterm =>
    exact
      { h with
        apart := .inr hdone
        quiet := fun _ _ => hmeta
        published := hmeta.ge
        snapshot_le := happlied
        agree := fun e he hlast hle => h.agree e he (Nat.lt_of_le_of_lt hfresh hlast) hle
        task := fun t' ht' hnot => by
          cases ht'
          exact absurd rfl hnot
        truncating := fun t' ht' _ => by
          cases ht'
          exact hmeta.ge
        install := fun i hi hnot => absurd (hdone i hi) hnot }

/-! ## The install -/

theorem CoverInv.setInstall (h : CoverInv cfg s) (dir : SnapshotDir) (install : Option Install) (hdone : s.TaskDone)
    (hle : s.dir.metaIndex ≤ dir.metaIndex)
    (hquiet : (∀ i ∈ install, i.stage = .loadDedup) → dir.metaIndex = s.lastSnapshotIndex)
    (hfile : ∀ m ∈ dir.metaFile, FileFor cfg.Holds dir.snapshot m.raftIndex)
    (hindex : cfg.Holds s.index (Storage.label { s with dir, install }))
    (hinstall : ∀ i ∈ install, InstallInv cfg dir s.lastSnapshotIndex i) : CoverInv cfg { s with dir, install } :=
  { h with
    apart := .inl hdone
    quiet := fun _ hinstalls => hquiet hinstalls
    published := Nat.le_trans h.published hle
    present := fun i hi hd => h.present i (Nat.lt_of_le_of_lt hle hi) hd
    index := hindex
    file := hfile
    task := fun t ht hnot => absurd (hdone t ht) hnot
    truncating := fun t ht hstage => (h.truncating t ht hstage).trans hle
    install := fun i hi _ => hinstall i hi }

/-- The same with an install that is not done. -/
theorem CoverInv.advanceInstall (h : CoverInv cfg s) (dir : SnapshotDir) {i : Install} (hdone : s.TaskDone)
    (hle : s.dir.metaIndex ≤ dir.metaIndex) (hfile : ∀ m ∈ dir.metaFile, FileFor cfg.Holds dir.snapshot m.raftIndex)
    (hindex : cfg.Holds s.index (Storage.label { s with dir, install := some i }))
    (hinstall : InstallInv cfg dir s.lastSnapshotIndex i) : CoverInv cfg { s with dir, install := some i } := by
  refine h.setInstall dir (some i) hdone hle (fun hinstalls => ?_) hfile hindex fun i' hi' => ?_
  · exact absurd (hinstalls i rfl) hinstall.standing.ne_loadDedup
  · cases hi'
    exact hinstall

theorem CoverInv.beginInstall (h : CoverInv cfg s) {stream : SnapshotStream} (hok : Covering cfg s (.beginInstall stream))
    (hs : s.beginInstall stream = some s') : CoverInv cfg s' := by
  unfold Storage.beginInstall at hs
  split at hs
  swap
  · cases hs
  next hnone =>
  cases hs
  obtain ⟨hdone, hnewer, hholds⟩ := hok
  have hindex := h.index
  rw [label, hnone] at hindex
  refine h.advanceInstall s.dir hdone (le_refl _) h.file hindex ⟨hnewer, hholds, h.quiet hdone ?_⟩
  rw [InstallDone, hnone]
  exact fun i hi => by cases hi

/-- The index in memory is that of the node until the exchange, and after it. -/
theorem label_of_not_exchanged {i : Install} (hi : s.install = some i) (h : exchanged i.stage = false) :
    s.label = s.appliedIndex := by
  rw [label, hi]
  simp [h]

theorem label_of_exchanged {i : Install} (hi : s.install = some i) (h : exchanged i.stage = true) :
    s.label = i.stream.snapMeta.raftIndex := by
  rw [label, hi]
  simp [h]

theorem CoverInv.abortInstall (h : CoverInv cfg s) {i : Install} (hi : s.install = some i) (hreading : reading i.stage = true) :
    CoverInv cfg { s with dir := cleanupInstall s.dir, install := none } := by
  have hstage : i.stage ≠ .loadDedup := fun heq => by
    rw [heq] at hreading
    cases hreading
  have hdone : s.TaskDone := h.apart.resolve_right fun hinstalls => hstage (hinstalls i hi)
  obtain ⟨hmeta, hexchanged⟩ := (h.install i hi hstage).standing.reading hreading
  have hindex := h.index
  rw [label_of_not_exchanged hi hexchanged] at hindex
  exact h.setInstall (cleanupInstall s.dir) none hdone (le_refl _) (fun _ => hmeta) h.file hindex fun i hi => by cases hi

/-- The last operation of an install, during a local snapshot or not. -/
theorem CoverInv.finishInstall (h : CoverInv cfg s) {i : Install} (hi : s.install = some i) (hstage : i.stage = .loadDedup)
    (dedup : DedupTable) : CoverInv cfg { s with dedup, install := none } := by
  have hdone : s.InstallDone := fun i' hi' => by
    rw [hi] at hi'
    cases hi'
    exact hstage
  have hindex := h.index
  rw [label_of_installDone hdone] at hindex
  exact
    { h with
      apart := .inr fun i hi => by cases hi
      quiet := fun htasks _ => h.quiet htasks hdone
      index := hindex
      install := fun i hi => by cases hi }

theorem CoverInv.stepInstall (h : CoverInv cfg s) {i : Install} (hi : s.install = some i) (keepFrom : Nat) :
    CoverInv cfg (s.stepInstall i keepFrom) := by
  by_cases hstage : i.stage = .loadDedup
  · obtain ⟨dedup, heq⟩ := stepInstall_of_loadDedup (s := s) hstage keepFrom
    rw [heq]
    exact h.finishInstall hi hstage dedup
  have hdone : s.TaskDone := h.apart.resolve_right fun hinstalls => hstage (hinstalls i hi)
  obtain ⟨hnewer, hholds, hstanding⟩ := h.install i hi hstage
  have hindex := h.index
  have hmove := hstanding.move keepFrom
  generalize s.stepInstall i keepFrom = s' at hmove ⊢
  cases hmove with
  | files dir stage hmeta hsnapshot hpending hold hnew hnext =>
    rw [label_of_not_exchanged hi hold] at hindex
    have hsame : dir.metaIndex = s.dir.metaIndex := by simp only [SnapshotDir.metaIndex, hmeta]
    refine h.advanceInstall dir hdone hsame.ge ?_ ?_ ⟨hsame.le.trans hnewer, hholds, hnext⟩
    · rw [hmeta, hsnapshot]
      exact h.file
    · rw [label_of_not_exchanged (i := { i with stage }) rfl hnew]
      exact hindex
  | replaced dir hmeta hold hnext =>
    rw [label_of_not_exchanged hi hold] at hindex
    have hsame : dir.metaIndex = s.dir.metaIndex := by simp only [SnapshotDir.metaIndex, hmeta]
    refine h.advanceInstall dir hdone hsame.ge ?_ hindex ⟨hsame.le.trans hnewer, hholds, hnext⟩
    intro m hm
    refine ⟨i.stream.index, hnext.2.1, hholds.of_le ?_⟩
    have hm' : dir.metaIndex = m.raftIndex := by
      rw [SnapshotDir.metaIndex, Option.mem_def.mp hm]
      rfl
    omega
  | recorded dir hmeta hold hnext =>
    rw [label_of_not_exchanged hi hold] at hindex
    have hm : dir.metaIndex = i.stream.snapMeta.raftIndex := hnext.1
    refine h.advanceInstall dir hdone (by omega) ?_ hindex ⟨hm.le, hholds, hnext⟩
    intro m hm'
    rw [hmeta] at hm'
    cases hm'
    exact ⟨i.stream.index, hnext.2.1, hholds⟩
  | loaded hpending hmeta =>
    have hmapped : ∀ t ∈ s.task.map (fun (t : Task) => { t with vectorIndex := t.vectorIndex.or (some s.index) }),
        ∃ t' ∈ s.task, t.stage = t'.stage ∧ t.snapshotIndex = t'.snapshotIndex := by
      intro t ht
      obtain ⟨t', ht', rfl⟩ := Option.mem_map.mp ht
      exact ⟨t', ht', rfl, rfl⟩
    exact
      { h with
        apart := .inl fun t ht => by
          obtain ⟨t', ht', hsame, -⟩ := hmapped t ht
          exact hsame.trans (hdone t' ht')
        quiet := fun _ hinstalls => by cases hinstalls _ rfl
        index := hholds
        task := fun t ht hnot => by
          obtain ⟨t', ht', hsame, -⟩ := hmapped t ht
          exact absurd (hsame.trans (hdone t' ht')) hnot
        truncating := fun t ht hstage => by
          obtain ⟨t', ht', hsame, hlabel⟩ := hmapped t ht
          rw [hlabel]
          exact h.truncating t' ht' (hsame.symm.trans hstage)
        install := fun i' hi' _ => by
          cases hi'
          exact ⟨hnewer, hholds, hmeta⟩ }
  | truncated keepFrom hstage hmeta =>
    rw [label_of_exchanged hi (by rw [hstage]; rfl)] at hindex
    have hlog := h.withLog (s.log.truncateBefore (i.stream.snapMeta.raftIndex + 1) keepFrom)
      (h.ordered.truncateBefore _ keepFrom)
      (fun e he => .inl (IndexedLog.mem_of_mem_truncateBefore he))
      fun e he hgt _ => (h.ordered.mem_truncateBefore keepFrom (by omega)).mpr he
    exact hlog.advanceInstall s.dir hdone (le_refl _) h.file hindex ⟨hnewer, hholds, hmeta⟩
  | published hstage hmeta =>
    rw [label_of_exchanged hi (by rw [hstage]; rfl)] at hindex
    exact
      { h with
        apart := .inl hdone
        quiet := fun _ _ => hmeta
        published := hmeta.ge
        snapshot_le := le_refl _
        commit_le := le_max_right _ _
        agree := fun e he hlast hle => absurd (Nat.lt_of_lt_of_le hlast hle) (lt_irrefl _)
        present := fun k hk hd => by
          refine h.present k hk ?_
          rcases le_max_iff.mp hd with hd | hd
          · exact hd
          · exact absurd (Nat.lt_of_lt_of_le hk hd) (by rw [← hmeta]; exact lt_irrefl _)
        index := hindex
        task := fun t ht hnot => absurd (hdone t ht) hnot
        install := fun i' hi' hnot => by
          cases hi'
          exact absurd rfl hnot }

/-! ## Crashes and runs -/

theorem CoverInv.truncatesBefore_le (h : CoverInv cfg s) : s.truncatesBefore ≤ s.dir.metaIndex + 1 := by
  unfold truncatesBefore
  refine max_le ?_ ?_
  · cases ht : s.task with
    | none => simp
    | some t =>
      simp only [Option.map_some, Option.getD_some]
      split
      · next hstage => exact (h.truncating t ht hstage).trans (Nat.le_succ _)
      · omega
  · cases hi : s.install with
    | none => simp
    | some i =>
      simp only [Option.map_some, Option.getD_some]
      split
      · next hstage =>
        have hstanding := (h.install i hi (by simp [hstage])).standing
        rw [hstage] at hstanding
        have hmeta : s.dir.metaIndex = i.stream.snapMeta.raftIndex := hstanding
        omega
      · omega

/-- A crash leaves the entries of the WAL that the snapshot does not cover. -/
theorem CoverInv.survivors (h : CoverInv cfg s) {during : Interrupted} {start : Nat}
    (hok : Covering cfg s (.crash during start)) :
    (reopen (s.survivors during) start).Ordered ∧ (∀ e ∈ s.survivors during, e ∈ s.log.entries) ∧
      ∀ e ∈ s.log.entries, s.dir.metaIndex < e.index → e.index ≤ s.durable → e ∈ s.survivors during := by
  have hfilter : ∀ p : LogEntry → Bool, (reopen (s.log.entries.filter p) start).Ordered :=
    fun p => h.ordered.filter p (start - 1)
  have hall : (reopen s.log.entries start).Ordered := by
    have hp := hfilter fun _ => true
    rw [List.filter_true] at hp
    exact hp
  cases during with
  | nothing => exact ⟨hall, fun e he => he, fun e he _ _ => he⟩
  | truncateBefore keepFrom =>
    refine ⟨hfilter _, fun e he => List.mem_of_mem_filter he, fun e he hgt _ => ?_⟩
    have hle := h.truncatesBefore_le
    simp only [Storage.survivors, List.mem_filter, he, decide_eq_true_eq, true_and]
    omega
  | truncateSuffix index rest =>
    have hdurable : s.durable < index := hok
    unfold Storage.survivors
    dsimp only
    split
    · refine ⟨hfilter _, fun e he => List.mem_of_mem_filter he, fun e he _ hle => ?_⟩
      simp only [List.mem_filter, he, decide_eq_true_eq, true_and]
      omega
    · exact ⟨hall, fun e he => he, fun e he _ _ => he⟩

/-- The snapshot that a crash finds loads, and holds the entries up to its label. -/
theorem CoverInv.restored (h : CoverInv cfg s) :
    ∃ index snapMeta, restoreVectorIndex s.dir.cleanupTemporaryFiles = some (index, snapMeta) ∧
      (snapMeta.map SnapshotMeta.raftIndex).getD 0 = s.dir.metaIndex ∧ cfg.Holds index s.dir.metaIndex := by
  cases hmeta : s.dir.metaFile with
  | none =>
    have hzero : s.dir.metaIndex = 0 := by rw [SnapshotDir.metaIndex, hmeta]; rfl
    refine ⟨[], none, ?_, hzero.symm, ?_⟩
    · simp [restoreVectorIndex, SnapshotDir.cleanupTemporaryFiles, hmeta]
    · rw [hzero]
      exact CatchesUp.nil
  | some m =>
    obtain ⟨index, hfile, hholds⟩ := h.file m hmeta
    have hindex : s.dir.metaIndex = m.raftIndex := by rw [SnapshotDir.metaIndex, hmeta]; rfl
    refine ⟨index, some m, ?_, hindex.symm, ?_⟩
    · simp [restoreVectorIndex, SnapshotDir.cleanupTemporaryFiles, hmeta, hfile]
    · rw [hindex]
      exact hholds

theorem CoverInv.crash (h : CoverInv cfg s) {during : Interrupted} {start : Nat}
    (hok : Covering cfg s (.crash during start)) (hs : s.restart cfg (reopen (s.survivors during) start) = some s') :
    CoverInv cfg s' := by
  obtain ⟨hordered, hsub, hkeep⟩ := h.survivors hok
  obtain ⟨index, snapMeta, hrestore, hlast, hholds⟩ := h.restored
  unfold restart at hs
  simp only [hrestore, hlast] at hs
  obtain ⟨dedup, -, rfl⟩ := Option.map_eq_some_iff.mp hs
  have hmeta : s.dir.cleanupTemporaryFiles.metaIndex = s.dir.metaIndex := rfl
  refine ⟨hordered, .inl fun t ht => (by cases ht), fun _ _ => hmeta, hmeta.ge, le_refl _, ?_, ?_, ?_, hholds, h.file, ?_, ?_, ?_⟩
  · exact le_max_right _ _
  · intro e he hlt hle
    exact absurd (Nat.lt_of_lt_of_le hlt hle) (lt_irrefl _)
  · intro i hi hd
    have hi' : s.dir.metaIndex < i := hi
    have hd' : i ≤ s.durable := by
      rcases le_max_iff.mp hd with hd | hd
      · exact hd
      · omega
    obtain ⟨e, he, hentry⟩ := h.present i hi' hd'
    have hindex := StorageConfig.index_of_entryAt hentry
    exact ⟨e, hkeep e he (by omega) (by omega), hentry⟩
  · intro t ht
    cases ht
  · intro t ht
    cases ht
  · intro i hi
    cases hi

theorem CoverInv.step (h : CoverInv cfg s) {a : Action} (hok : Covering cfg s a) (hs : step cfg s a = some s') :
    CoverInv cfg s' := by
  cases a with
  | append e => exact h.append hs
  | truncateSuffix index => exact h.truncateSuffix hok hs
  | commit index => exact h.commit hs
  | apply => exact h.apply hok hs
  | trackPending requestId logIndex =>
    cases hs
    exact { h with }
  | launch => exact h.launch hok hs
  | task saved keepFrom =>
    obtain ⟨t, ht, rfl⟩ := Option.map_eq_some_iff.mp hs
    exact h.stepTask ht saved keepFrom
  | beginInstall stream => exact h.beginInstall hok hs
  | install keepFrom =>
    obtain ⟨i, hi, rfl⟩ := Option.map_eq_some_iff.mp hs
    exact h.stepInstall hi keepFrom
  | abortInstall =>
    obtain ⟨i, hi, hs⟩ := Option.bind_eq_some_iff.mp hs
    split at hs
    · next hreading =>
      cases hs
      exact h.abortInstall hi hreading
    · cases hs
  | crash during start => exact h.crash hok hs

theorem CoverInv.init (cfg : StorageConfig) : CoverInv cfg (init cfg) where
  ordered := .empty
  apart := .inl fun t ht => by cases ht
  quiet := fun _ _ => rfl
  published := le_refl _
  snapshot_le := le_refl _
  commit_le := le_refl _
  agree := fun e he => by cases he
  present := fun i hi hle => absurd (Nat.lt_of_lt_of_le hi hle) (lt_irrefl _)
  index := CatchesUp.nil
  file := fun m hm => by cases hm
  task := fun t ht => by cases ht
  truncating := fun t ht => by cases ht
  install := fun i hi => by cases hi

/-- `snapshot.usearch` holds the effects of the committed entries up to the index that
`snapshot.meta` records, and what is committed behind it and was durable here is in the WAL
or in the snapshot. -/
def Covered (cfg : StorageConfig) (s : Storage) : Prop :=
  ∀ m ∈ s.dir.metaFile, ∃ index, s.dir.snapshot = some (.whole index) ∧ cfg.Holds index m.raftIndex ∧
    ∀ i, m.raftIndex < i → i ≤ s.durable → ∃ e, cfg.entryAt i = some e ∧ (s.log.read i = .ok e ∨ e ∈ index)

theorem CoverInv.covered (h : CoverInv cfg s) : Covered cfg s := by
  intro m hm
  obtain ⟨index, hfile, hholds⟩ := h.file m hm
  have hmeta : s.dir.metaIndex = m.raftIndex := by
    rw [SnapshotDir.metaIndex, Option.mem_def.mp hm]
    rfl
  refine ⟨index, hfile, hholds, fun i hi hd => ?_⟩
  obtain ⟨e, he, hentry⟩ := h.present i (by omega) hd
  exact ⟨e, hentry, .inl (h.ordered.read_eq_ok.mpr ⟨he, StorageConfig.index_of_entryAt hentry⟩)⟩

/-- Stopped anywhere, a run whose steps are covering leaves files that cover the committed log. -/
theorem covered_of_covering (cfg : StorageConfig) (schedule : List Action) (s : Storage)
    (h : Transition.run (Transition.restrict (Covering cfg) (step cfg)) (init cfg) schedule = some s) :
    Covered cfg s := by
  refine (Transition.run_invariant (CoverInv cfg) (fun s a t hi hst => ?_) (.init cfg) h).covered
  obtain ⟨hok, hst⟩ := Transition.restrict_eq_some.mp hst
  exact hi.step hok hst

/-- A local snapshot, an install and a restart, one after the other. -/
def inTurn : List Action :=
  twoApplied ++ List.replicate 15 (.task true 0) ++ [.beginInstall streamOfThree] ++ List.replicate 14 (.install 0) ++
    [.crash .nothing 4]

theorem covered_after_turns :
    ∃ s, Transition.run (Transition.restrict (Covering threeUpserts) (step threeUpserts)) (init threeUpserts) inTurn =
      some s ∧ s.dir.metaIndex = 3 ∧ Covered threeUpserts s := by
  have hrun : ∃ s, Transition.run (Transition.restrict (Covering threeUpserts) (step threeUpserts)) (init threeUpserts)
      inTurn = some s ∧ s.dir.metaIndex = 3 := by
    decide +kernel
  obtain ⟨s, hs, hmeta⟩ := hrun
  exact ⟨s, hs, hmeta, covered_of_covering threeUpserts inTurn s hs⟩

/-- The install has written its `snapshot.tmp` when the task writes its own over it. -/
def overlapping : List Action :=
  twoApplied ++ [.task true 0, .beginInstall streamOfThree] ++ List.replicate 5 (.install 0) ++
    List.replicate 4 (.task true 0) ++ List.replicate 4 (.install 0)

/-- `snapshot.meta` then records the index 3, and `snapshot.usearch` is the index of the
first two entries. -/
theorem uncovered_after_overlap :
    ∃ s, run threeUpserts overlapping = some s ∧ s.dir.metaFile = some ⟨1, 3⟩ ∧
      s.dir.snapshot = some (.whole (threeUpserts.committed.take 2)) ∧ ¬ Covered threeUpserts s := by
  have hrun : ∃ s, run threeUpserts overlapping = some s ∧ s.dir.metaFile = some ⟨1, 3⟩ ∧
      s.dir.snapshot = some (.whole (threeUpserts.committed.take 2)) := by
    decide +kernel
  obtain ⟨s, hs, hmeta, hsnapshot⟩ := hrun
  refine ⟨s, hs, hmeta, hsnapshot, fun hcovered => ?_⟩
  obtain ⟨index, hfile, hholds, -⟩ := hcovered _ hmeta
  rw [hsnapshot] at hfile
  cases hfile
  exact absurd hholds (by decide +kernel)

/-! ## Snapshot plus replay -/

/-- No install, and no committed entry is truncated. -/
def Local (s : Storage) : Action → Prop
  | .beginInstall _ => False
  | .truncateSuffix index => s.durable < index
  | .crash (.truncateSuffix index _) _ => s.durable < index
  | _ => True

instance (s : Storage) : (a : Action) → Decidable (Local s a)
  | .beginInstall _ => isFalse id
  | .truncateSuffix index => inferInstanceAs (Decidable (s.durable < index))
  | .crash (.truncateSuffix index _) _ => inferInstanceAs (Decidable (s.durable < index))
  | .crash .nothing _ | .crash (.truncateBefore _) _ => isTrue trivial
  | .append _ | .commit _ | .apply | .trackPending _ _ | .launch | .task _ _ | .install _ | .abortInstall => isTrue trivial

theorem covering_of_local (cfg : StorageConfig) (hinstall : s.install = none) {a : Action} (h : Local s a) : Covering cfg s a := by
  unfold Covering
  split
  · rw [InstallDone, hinstall]
    exact fun i hi => by cases hi
  · exact h.elim
  · rw [hinstall]
    intro i hi
    cases hi
  · exact h
  · exact h
  · trivial

theorem install_of_local {a : Action} (hok : Local s a) (hinstall : s.install = none) (hs : step cfg s a = some s') :
    s'.install = none := by
  cases a with
  | append e =>
    simp only [Storage.step, Storage.append] at hs
    split at hs
    · cases hs
    · obtain ⟨log, -, rfl⟩ := Option.map_eq_some_iff.mp hs
      exact hinstall
  | truncateSuffix index =>
    simp only [Storage.step, Storage.truncateSuffix] at hs
    split at hs
    · obtain ⟨log, -, rfl⟩ := Option.map_eq_some_iff.mp hs
      exact hinstall
    · cases hs
  | commit index =>
    simp only [Storage.step, Storage.commit] at hs
    split at hs
    · cases hs
      exact hinstall
    · cases hs
  | apply =>
    simp only [Storage.step, Storage.apply] at hs
    split at hs
    · obtain ⟨e, -, rfl⟩ := Option.map_eq_some_iff.mp hs
      exact hinstall
    · cases hs
  | trackPending requestId logIndex =>
    cases hs
    exact hinstall
  | launch =>
    simp only [Storage.step, Storage.launch] at hs
    split at hs
    · cases hs
    · cases hs
      exact hinstall
  | task saved keepFrom =>
    obtain ⟨t, ht, rfl⟩ := Option.map_eq_some_iff.mp hs
    unfold Storage.stepTask
    dsimp only
    split
    all_goals first | exact hinstall | (split <;> exact hinstall)
  | beginInstall stream => exact hok.elim
  | install keepFrom =>
    rw [Storage.step, hinstall] at hs
    cases hs
  | abortInstall =>
    rw [Storage.step, hinstall] at hs
    cases hs
  | crash during start =>
    simp only [Storage.step, Storage.restart] at hs
    split at hs
    · cases hs
    · obtain ⟨dedup, -, rfl⟩ := Option.map_eq_some_iff.mp hs
      rfl

/-- The entries of the WAL behind `start` up to `n`, read one by one. -/
def readEntries (log : IndexedLog) (start n : Nat) : List LogEntry :=
  (List.range' (start + 1) (n - start)).filterMap fun i => (log.read i).toOption

theorem readEntries_eq {cfg : StorageConfig} {log : IndexedLog} {start n : Nat}
    (h : ∀ i, start < i → i ≤ n → ∃ e, cfg.entryAt i = some e ∧ log.read i = .ok e) :
    readEntries log start n = (cfg.committed.take n).drop start := by
  induction hk : n - start generalizing start with
  | zero =>
    have hshort : (cfg.committed.take n).length ≤ start := by
      rw [List.length_take]
      omega
    rw [List.drop_eq_nil_of_le hshort, readEntries, hk]
    rfl
  | succ k ih =>
    obtain ⟨e, hentry, hread⟩ := h (start + 1) (by omega) (by omega)
    have hget : (cfg.committed.take n)[start]? = some e := by
      rw [List.getElem?_take_of_lt (by omega)]
      simpa [StorageConfig.entryAt] using hentry
    obtain ⟨hlt, heq⟩ := List.getElem?_eq_some_iff.mp hget
    have hrest : readEntries log (start + 1) n = (cfg.committed.take n).drop (start + 1) :=
      ih (fun i hi hle => h i (by omega) hle) (by omega)
    rw [List.drop_eq_getElem_cons hlt, heq, ← hrest, readEntries, readEntries, hk, List.range'_succ,
      List.filterMap_cons, hread, show n - (start + 1) = k by omega]
    rfl

theorem top_le_iff {index : List LogEntry} {n : Nat} : top index ≤ n ↔ ∀ e ∈ index, e.index ≤ n := by
  induction index with
  | nil => simp [top]
  | cons x rest ih =>
    simp only [top, List.map_cons, List.foldr_cons, max_le_iff, List.mem_cons, forall_eq_or_imp] at ih ⊢
    rw [ih]

/-- Wherever a run without installs is cut, the restored index and the WAL behind its label
give the vectors of the whole log, from the last entry on that the saved index contained. -/
theorem restored_vectors_eq_replay (cfg : StorageConfig) (schedule : List Action) (s : Storage)
    (h : Transition.run (Transition.restrict Local (step cfg)) (init cfg) schedule = some s)
    (during : Interrupted) (start : Nat) (hcut : Local s (.crash during start)) :
    ∃ index snapMeta, restoreVectorIndex s.dir.cleanupTemporaryFiles = some (index, snapMeta) ∧
      ∀ n, (∀ e ∈ index, e.index ≤ n) → n ≤ s.durable →
        cfg.vectors (index ++ readEntries (reopen (s.survivors during) start)
          ((snapMeta.map SnapshotMeta.raftIndex).getD 0) n) = cfg.vectors (cfg.committed.take n) := by
  obtain ⟨hinv, hinstall⟩ : CoverInv cfg s ∧ s.install = none := by
    refine Transition.run_invariant (fun s => CoverInv cfg s ∧ s.install = none) (fun s a t hi hst => ?_)
      ⟨.init cfg, rfl⟩ h
    obtain ⟨hok, hst⟩ := Transition.restrict_eq_some.mp hst
    exact ⟨hi.1.step (covering_of_local cfg hi.2 hok) hst, install_of_local hok hi.2 hst⟩
  obtain ⟨hordered, -, hkeep⟩ := hinv.survivors (covering_of_local cfg hinstall hcut)
  obtain ⟨index, snapMeta, hrestore, hlast, hholds⟩ := hinv.restored
  refine ⟨index, snapMeta, hrestore, fun n htop hn => ?_⟩
  have hread : readEntries (reopen (s.survivors during) start) s.dir.metaIndex n =
      (cfg.committed.take n).drop s.dir.metaIndex := by
    refine readEntries_eq fun i hi hle => ?_
    obtain ⟨e, he, hentry⟩ := hinv.present i hi (hle.trans hn)
    have hindex := StorageConfig.index_of_entryAt hentry
    exact ⟨e, hentry, hordered.read_eq_ok.mpr ⟨hkeep e he (by omega) (by omega), hindex⟩⟩
  rw [hlast, hread]
  exact hholds n (top_le_iff.mpr htop)

/-- A second snapshot is cut between its two renames. -/
def betweenRenames : List Action :=
  twoApplied ++ List.replicate 15 (.task true 0) ++
    [.append (upsertEntry 3 3 99), .append (upsertEntry 4 1 100), .commit 4, .apply, .apply, .launch] ++
    List.replicate 9 (.task true 0)

/-- Four upserts, the last of which overwrites the first. -/
def fourUpserts : StorageConfig :=
  { threeUpserts with
    committed := threeUpserts.committed ++ [upsertEntry 4 1 100]
    numbered := by decide }

theorem restored_vectors_between_renames :
    ∃ s, Transition.run (Transition.restrict Local (step fourUpserts)) (init fourUpserts) betweenRenames = some s ∧
      s.dir.metaFile = some ⟨1, 2⟩ ∧ s.dir.snapshot = some (.whole fourUpserts.committed) ∧
      fourUpserts.vectors (fourUpserts.committed ++ readEntries (reopen s.log.entries 1) 2 4) =
        fourUpserts.vectors (fourUpserts.committed.take 4) := by
  have hrun : ∃ s, Transition.run (Transition.restrict Local (step fourUpserts)) (init fourUpserts) betweenRenames =
      some s ∧ s.dir.metaFile = some ⟨1, 2⟩ ∧ s.dir.snapshot = some (.whole fourUpserts.committed) ∧ s.durable = 4 := by
    decide +kernel
  obtain ⟨s, hs, hmeta, hsnapshot, hdurable⟩ := hrun
  refine ⟨s, hs, hmeta, hsnapshot, ?_⟩
  obtain ⟨index, snapMeta, hrestore, hvectors⟩ :=
    restored_vectors_eq_replay fourUpserts betweenRenames s hs .nothing 1 trivial
  simp only [restoreVectorIndex, SnapshotDir.cleanupTemporaryFiles, hmeta, hsnapshot, Option.some.injEq,
    Prod.mk.injEq] at hrestore
  obtain ⟨rfl, rfl⟩ := hrestore
  exact hvectors 4 (by decide) hdurable.ge

end Storage

end RaftVdb
