import RaftVdb.Coverage

/-!
# Requests across a restart

`dedup.bin` is written after `snapshot.meta`, from the table as it is then. If the table
still has the requests of the label, `SaveTo` succeeds and no crash comes between the two
renames, then a restarted node answers each of them as before.
-/

namespace RaftVdb

open Lib

/-- The request that applying an entry records, with its success flag. -/
def LogEntry.recorded (codec : CommandCodec) (dim : Nat) (e : LogEntry) : Option (String × Bool) :=
  match e.outcome codec dim with
  | none => none
  | some (requestId, result) => if requestId = "" then none else some (requestId, result.toBool)

namespace StorageConfig

variable (cfg : StorageConfig)

/-- What applying the entries up to an index records, the last first. -/
def requests (n : Nat) : List (String × Bool) :=
  ((cfg.committed.take n).filterMap (LogEntry.recorded cfg.codec cfg.dim)).reverse

/-- The last requests, as many as the window has places. -/
def window (n : Nat) : List (String × Bool) := (cfg.requests n).take cfg.dedupWindowSize

/-- The window is in the table: nothing of it has been evicted or recorded again. -/
def Retained (t : DedupTable) (n : Nat) : Prop :=
  ∀ r ∈ cfg.window n, ∃ e ∈ t.table.find? r.1, e.committed = true ∧ e.logIndex ≤ n

instance (t : DedupTable) (n : Nat) : Decidable (cfg.Retained t n) :=
  inferInstanceAs (Decidable (∀ r ∈ cfg.window n, ∃ e ∈ t.table.find? r.1, e.committed = true ∧ e.logIndex ≤ n))

/-- Each request of the window is answered as committed, with its flag. -/
def Answers (t : DedupTable) (n : Nat) : Prop :=
  ∀ r ∈ cfg.window n, ∃ e, t.check r.1 = .alreadyCommitted e ∧ (cfg.requests n).lookup r.1 = some e.success

variable {cfg}

theorem requests_zero : cfg.requests 0 = [] := rfl

theorem requests_succ_of_entryAt {n : Nat} {x : LogEntry} (h : cfg.entryAt (n + 1) = some x) :
    cfg.requests (n + 1) = (x.recorded cfg.codec cfg.dim).toList ++ cfg.requests n := by
  have hget : cfg.committed[n]? = some x := by simpa [entryAt] using h
  rw [requests, requests, List.take_add_one, hget, List.filterMap_append, List.reverse_append]
  cases hrec : x.recorded cfg.codec cfg.dim with
  | none => simp [hrec]
  | some r => simp [hrec]

theorem requests_succ_of_none {n : Nat} (h : cfg.entryAt (n + 1) = none) : cfg.requests (n + 1) = cfg.requests n := by
  have hget : cfg.committed[n]? = none := by simpa [entryAt] using h
  rw [requests, requests, List.take_add_one, hget]
  simp

/-- The last entry with a request decides its flag. -/
theorem lookup_requests {i n : Nat} {x : LogEntry} {id : String} {flag : Bool} (hi : i ≤ n)
    (hx : cfg.entryAt i = some x) (hrec : x.recorded cfg.codec cfg.dim = some (id, flag))
    (hlast : ∀ j y, i < j → j ≤ n → cfg.entryAt j = some y → ∀ b, y.recorded cfg.codec cfg.dim ≠ some (id, b)) :
    (cfg.requests n).lookup id = some flag := by
  induction n with
  | zero =>
    obtain rfl : i = 0 := by omega
    simp [entryAt] at hx
  | succ n ih =>
    by_cases hin : i = n + 1
    · rw [hin] at hx
      rw [requests_succ_of_entryAt hx, hrec]
      simp
    · have hrest := ih (by omega) fun j y hj hle => hlast j y hj (by omega)
      cases hy : cfg.entryAt (n + 1) with
      | none => rw [requests_succ_of_none hy, hrest]
      | some y =>
        rw [requests_succ_of_entryAt hy]
        cases hrecy : y.recorded cfg.codec cfg.dim with
        | none => simpa using hrest
        | some r =>
          have hne : id ≠ r.1 := by
            intro heq
            exact hlast (n + 1) y (by omega) (Nat.le_refl _) hy r.2 (by rw [hrecy, heq])
          simpa [Table.lookup_cons, hne] using hrest

/-- A table of this configuration whose committed rows are the last records of their requests. -/
structure Recorded (cfg : StorageConfig) (t : DedupTable) (n : Nat) : Prop where
  bounded : t.Bounded
  windowSize : t.windowSize = cfg.dedupWindowSize
  origin : ∀ id e, t.table.find? id = some e → e.committed = true →
    ∃ x, cfg.entryAt e.logIndex = some x ∧ x.recorded cfg.codec cfg.dim = some (id, e.success)
  latest : ∀ id e, t.table.find? id = some e → e.committed = true → ∀ j y, e.logIndex < j → j ≤ n →
    cfg.entryAt j = some y → ∀ b, y.recorded cfg.codec cfg.dim ≠ some (id, b)

theorem Recorded.empty (cfg : StorageConfig) (n : Nat) : Recorded cfg { windowSize := cfg.dedupWindowSize } n where
  bounded := .empty _
  windowSize := rfl
  origin := fun id e h => by cases h
  latest := fun id e h => by cases h

theorem Recorded.of_le {t : DedupTable} {n k : Nat} (h : Recorded cfg t n) (hk : k ≤ n) : Recorded cfg t k :=
  { h with latest := fun id e he hc j y hj hle => h.latest id e he hc j y hj (hle.trans hk) }

theorem Recorded.answers {t : DedupTable} {n : Nat} (h : Recorded cfg t n) (hret : cfg.Retained t n) : cfg.Answers t n := by
  intro r hr
  obtain ⟨e, he, hcommitted, hle⟩ := hret r hr
  obtain ⟨x, hx, hrec⟩ := h.origin r.1 e he hcommitted
  refine ⟨e, ?_, lookup_requests hle hx hrec (h.latest r.1 e he hcommitted)⟩
  rw [DedupTable.check, Option.mem_def.mp he]
  simp [hcommitted]

theorem Recorded.trackPending {t : DedupTable} {n : Nat} (h : Recorded cfg t n) (requestId : String) (logIndex : Nat) :
    Recorded cfg (t.trackPending requestId logIndex) n := by
  have hbounded := h.bounded.trackPending requestId logIndex
  unfold DedupTable.trackPending at hbounded ⊢
  split
  · exact h
  split
  · exact h
  have hold : ∀ id e, (t.insertOrUpdate requestId { logIndex }).table.find? id = some e → e.committed = true →
      t.table.find? id = some e := by
    intro id e he hc
    rcases h.bounded.find?_insertOrUpdate he with ⟨-, rfl⟩ | ⟨-, hfind⟩
    · cases hc
    · exact hfind
  exact ⟨by simpa [*] using hbounded, h.windowSize, fun id e he hc => h.origin id e (hold id e he hc) hc,
    fun id e he hc => h.latest id e (hold id e he hc) hc⟩

theorem Recorded.record {t : DedupTable} {n : Nat} (h : Recorded cfg t n) {x : LogEntry}
    (hx : cfg.entryAt (n + 1) = some x) : Recorded cfg (Storage.record cfg t (n + 1) x) (n + 1) := by
  have hskip : x.recorded cfg.codec cfg.dim = none → Recorded cfg t (n + 1) := by
    intro hnone
    refine { h with latest := fun id e he hc j y hj hle hy b hrec => ?_ }
    by_cases hjn : j = n + 1
    · rw [hjn, hx] at hy
      cases hy
      rw [hnone] at hrec
      cases hrec
    · exact h.latest id e he hc j y hj (by omega) hy b hrec
  have hinsert : ∀ id flag error, x.recorded cfg.codec cfg.dim = some (id, flag) → id ≠ "" →
      Recorded cfg (t.insertOrUpdate id ⟨true, flag, error, n + 1⟩) (n + 1) := by
    intro id flag error hrec hid
    refine ⟨h.bounded.insertOrUpdate hid, h.windowSize, fun id' e he hc => ?_, fun id' e he hc j y hj hle hy b hrecy => ?_⟩
    · rcases h.bounded.find?_insertOrUpdate he with ⟨rfl, rfl⟩ | ⟨-, hold⟩
      · exact ⟨x, hx, hrec⟩
      · exact h.origin id' e hold hc
    · rcases h.bounded.find?_insertOrUpdate he with ⟨rfl, rfl⟩ | ⟨hne, hold⟩
      · dsimp only at hj
        omega
      · by_cases hjn : j = n + 1
        · rw [hjn, hx] at hy
          cases hy
          rw [hrec] at hrecy
          cases hrecy
          exact hne rfl
        · exact h.latest id' e hold hc j y hj (by omega) hy b hrecy
  unfold Storage.record
  cases houtcome : x.outcome cfg.codec cfg.dim with
  | none => exact hskip (by rw [LogEntry.recorded, houtcome])
  | some r =>
    obtain ⟨id, result⟩ := r
    by_cases hid : id = ""
    · have hnone := hskip (by rw [LogEntry.recorded, houtcome]; exact if_pos hid)
      cases result with
      | error err => simpa [DedupTable.record, hid] using hnone
      | ok u => simpa [DedupTable.record, hid] using hnone
    · have hrec : x.recorded cfg.codec cfg.dim = some (id, result.toBool) := by
        rw [LogEntry.recorded, houtcome]
        exact if_neg hid
      cases result with
      | error err =>
        show Recorded cfg (t.record id (n + 1) false err) (n + 1)
        rw [DedupTable.record, if_neg hid]
        exact hinsert id _ err hrec hid
      | ok u =>
        show Recorded cfg (t.record id (n + 1) true "") (n + 1)
        rw [DedupTable.record, if_neg hid]
        exact hinsert id _ "" hrec hid

/-- Of a saved table a restart loads the committed rows. -/
theorem Recorded.loadFrom_saveTo {t : DedupTable} {n : Nat} (h : Recorded cfg t n) (hret : cfg.Retained t n) :
    ∃ t', DedupTable.loadFrom { windowSize := cfg.dedupWindowSize } t.saveTo = .ok t' ∧ Recorded cfg t' n ∧
      cfg.Retained t' n := by
  obtain ⟨t', hload, hwindow, hbounded, hfind, -⟩ :=
    h.bounded.loadFrom_saveTo { windowSize := cfg.dedupWindowSize } h.windowSize.symm
  refine ⟨t', hload, ⟨hbounded, hwindow.trans h.windowSize, fun id e he => ?_, fun id e he => ?_⟩, fun r hr => ?_⟩
  · exact h.origin id e ((hfind id e).mp he).1
  · exact h.latest id e ((hfind id e).mp he).1
  · obtain ⟨e, he, hcommitted, hle⟩ := hret r hr
    exact ⟨e, (hfind r.1 e).mpr ⟨he, hcommitted⟩, hcommitted, hle⟩

/-- `dedup.bin` next to a snapshot with the label. -/
def SavedAt (cfg : StorageConfig) (file : Option (Contents DedupRecords)) (n : Nat) : Prop :=
  file = none ∧ n = 0 ∨ ∃ t : DedupTable, file = some (.whole t.saveTo) ∧ Recorded cfg t n ∧ cfg.Retained t n

end StorageConfig

namespace Storage

variable {cfg : StorageConfig} {s s' : Storage}

/-- `snapshot.meta` is that of the thread and `dedup.bin` is not yet. -/
def unsaved : TaskStage → Bool
  | .openDedup _ | .closeDedup _ _ | .renameDedup _ => true
  | _ => false

def opensDedup : TaskStage → Bool
  | .openDedup _ => true
  | _ => false

/-- The steps that keep the requests, in a run without installs. -/
def KeepsRequests (cfg : StorageConfig) (s : Storage) (a : Action) : Prop :=
  Local s a ∧ match a with
    | .task saved _ => ∀ t ∈ s.task, opensDedup t.stage = true → saved = true ∧ cfg.Retained s.dedup t.snapshotIndex
    | .crash _ _ => ∀ t ∈ s.task, unsaved t.stage = false
    | _ => True

instance (cfg : StorageConfig) (s : Storage) : (a : Action) → Decidable (KeepsRequests cfg s a)
  | .task _ _ => inferInstanceAs (Decidable (_ ∧ ∀ t ∈ s.task, _))
  | .crash _ _ => inferInstanceAs (Decidable (_ ∧ ∀ t ∈ s.task, _))
  | .append _ | .truncateSuffix _ | .commit _ | .apply | .trackPending _ _ | .launch | .beginInstall _ | .install _ |
    .abortInstall => inferInstanceAs (Decidable (_ ∧ True))

/-- Where `dedup.bin.tmp` stands. -/
def DedupStanding (cfg : StorageConfig) (d : SnapshotDir) (k : Nat) : TaskStage → Prop
  | .cleanup => True
  | .closeDedup _ records => d.tmpDedup = some (.torn .task) ∧
      ∃ t : DedupTable, records = t.saveTo ∧ cfg.Recorded t k ∧ cfg.Retained t k
  | .renameDedup _ => ∃ t : DedupTable, d.tmpDedup = some (.whole t.saveTo) ∧ cfg.Recorded t k ∧ cfg.Retained t k
  | _ => d.tmpDedup = none

structure RequestInv (cfg : StorageConfig) (s : Storage) : Prop where
  cover : CoverInv cfg s
  install : s.install = none
  memory : cfg.Recorded s.dedup s.appliedIndex
  file : (∀ t ∈ s.task, unsaved t.stage = false) → cfg.SavedAt s.dir.dedup s.dir.metaIndex
  task : ∀ t ∈ s.task, DedupStanding cfg s.dir t.snapshotIndex t.stage

/-- `FinalizeSnapshot` leaves the dedup files alone, and `snapshot.meta` until it is done. -/
theorem finalizeSnapshot_dedup (snapMeta : SnapshotMeta) (d : SnapshotDir) (stage : FinalizeStage) :
    (finalizeSnapshot snapMeta d stage).1.dedup = d.dedup ∧ (finalizeSnapshot snapMeta d stage).1.tmpDedup = d.tmpDedup ∧
      ((finalizeSnapshot snapMeta d stage).2 = .ok none ∨
        (finalizeSnapshot snapMeta d stage).1.metaIndex = d.metaIndex) := by
  cases stage with
  | lookup =>
    rw [finalizeSnapshot]
    split
    · exact ⟨rfl, rfl, .inr rfl⟩
    · exact ⟨rfl, rfl, .inr rfl⟩
  | saveMeta => exact ⟨rfl, rfl, .inr rfl⟩
  | renameSnapshot =>
    rw [finalizeSnapshot]
    split
    · exact ⟨rfl, rfl, .inr rfl⟩
    · exact ⟨rfl, rfl, .inr rfl⟩
  | renameMeta =>
    rw [finalizeSnapshot]
    split
    · exact ⟨rfl, rfl, .inr rfl⟩
    · exact ⟨rfl, rfl, .inl rfl⟩

/-- Steps that leave the table, the thread and the dedup files alone. -/
theorem RequestInv.quiet (h : RequestInv cfg s) (hcover : CoverInv cfg s') (hinstall : s'.install = none)
    (hdir : s'.dir = s.dir) (htask : s'.task = s.task) (hdedup : s'.dedup = s.dedup)
    (happlied : s'.appliedIndex = s.appliedIndex) : RequestInv cfg s' := by
  refine ⟨hcover, hinstall, ?_, ?_, ?_⟩
  · rw [hdedup, happlied]
    exact h.memory
  · rw [htask, hdir]
    exact h.file
  · rw [htask, hdir]
    exact h.task

theorem RequestInv.apply (h : RequestInv cfg s) (hcover : CoverInv cfg s') (hinstall : s'.install = none)
    (hs : s.apply cfg = some s') : RequestInv cfg s' := by
  unfold Storage.apply at hs
  split at hs
  swap
  · cases hs
  next hlt =>
  obtain ⟨e, hread, rfl⟩ := Option.map_eq_some_iff.mp hs
  have hentry := h.cover.entryAt_of_read hlt hread
  exact ⟨hcover, hinstall, h.memory.record hentry, h.file, h.task⟩

theorem RequestInv.launch (h : RequestInv cfg s) (hcover : CoverInv cfg s') (hinstall : s'.install = none)
    (hs : s.launch cfg = some s') : RequestInv cfg s' := by
  unfold Storage.launch at hs
  split at hs
  · cases hs
  next hguard =>
  cases hs
  refine ⟨hcover, hinstall, h.memory, fun _ => h.file fun t ht => ?_, fun t ht => ?_⟩
  · exact absurd (by rw [Option.mem_def.mp ht]; simp) hguard
  · cases ht
    trivial

/-- The thread goes on without touching the dedup files. -/
theorem RequestInv.advance (h : RequestInv cfg s) {t : Task} (ht : s.task = some t) (hcover : CoverInv cfg s')
    (hinstall : s'.install = none) (hdedup : s'.dedup = s.dedup) (happlied : s'.appliedIndex = s.appliedIndex)
    (hfile : s'.dir.dedup = s.dir.dedup) (hmeta : (∀ t' ∈ s'.task, unsaved t'.stage = false) →
      unsaved t.stage = false ∧ s'.dir.metaIndex = s.dir.metaIndex)
    (htask : ∀ t' ∈ s'.task, DedupStanding cfg s'.dir t'.snapshotIndex t'.stage) : RequestInv cfg s' := by
  refine ⟨hcover, hinstall, ?_, fun hsaved => ?_, htask⟩
  · rw [hdedup, happlied]
    exact h.memory
  · obtain ⟨hstage, hindex⟩ := hmeta hsaved
    rw [hfile, hindex]
    refine h.file fun t' ht' => ?_
    rw [ht] at ht'
    cases ht'
    exact hstage

theorem RequestInv.finalize (h : RequestInv cfg s) {t : Task} (ht : s.task = some t) {raftTerm : Nat}
    {stage : FinalizeStage} (hstage : t.stage = .finalize raftTerm stage) (saved : Bool) (keepFrom : Nat)
    (hcover : CoverInv cfg (s.stepTask t saved keepFrom)) : RequestInv cfg (s.stepTask t saved keepFrom) := by
  have htmp : s.dir.tmpDedup = none := by
    have hstanding := h.task t ht
    rw [hstage] at hstanding
    exact hstanding
  obtain ⟨hfile, hnone, hmeta⟩ := finalizeSnapshot_dedup ⟨raftTerm, t.snapshotIndex⟩ s.dir stage
  unfold stepTask at hcover ⊢
  simp only [hstage] at hcover ⊢
  split at hcover
  · next dir err heq =>
    rw [heq] at hfile hnone hmeta
    refine h.advance ht hcover h.install rfl rfl hfile (fun _ => ⟨by rw [hstage]; rfl, ?_⟩) fun t' ht' => by cases ht'
    exact hmeta.resolve_left (by simp)
  · next dir stage' heq =>
    rw [heq] at hfile hnone hmeta
    refine h.advance ht hcover h.install rfl rfl hfile (fun _ => ⟨by rw [hstage]; rfl, ?_⟩) fun t' ht' => ?_
    · exact hmeta.resolve_left (by simp)
    · cases ht'
      exact hnone.trans htmp
  · next dir heq =>
    rw [heq] at hfile hnone
    refine h.advance ht hcover h.install rfl rfl hfile (fun hsaved => ?_) fun t' ht' => ?_
    · cases hsaved _ rfl
    · cases ht'
      exact hnone.trans htmp

theorem RequestInv.stepTask (h : RequestInv cfg s) {t : Task} (ht : s.task = some t) {saved : Bool} {keepFrom : Nat}
    (hok : opensDedup t.stage = true → saved = true ∧ cfg.Retained s.dedup t.snapshotIndex)
    (hcover : CoverInv cfg (s.stepTask t saved keepFrom)) : RequestInv cfg (s.stepTask t saved keepFrom) := by
  have hstanding := h.task t ht
  cases hstage : t.stage with
  | finalize raftTerm stage => exact h.finalize ht hstage saved keepFrom hcover
  | cleanup =>
    simp only [Storage.stepTask, hstage] at hcover ⊢
    refine h.advance ht hcover h.install rfl rfl rfl (fun _ => ⟨by rw [hstage]; rfl, rfl⟩) fun t' ht' => ?_
    cases ht'
    rfl
  | clone =>
    rw [hstage] at hstanding
    simp only [Storage.stepTask, hstage] at hcover ⊢
    refine h.advance ht hcover h.install rfl rfl rfl (fun _ => ⟨by rw [hstage]; rfl, rfl⟩) fun t' ht' => ?_
    cases ht'
    exact hstanding
  | removeTmp index =>
    rw [hstage] at hstanding
    simp only [Storage.stepTask, hstage] at hcover ⊢
    refine h.advance ht hcover h.install rfl rfl rfl (fun _ => ⟨by rw [hstage]; rfl, rfl⟩) fun t' ht' => ?_
    cases ht'
    exact hstanding
  | openTmp index =>
    rw [hstage] at hstanding
    simp only [Storage.stepTask, hstage] at hcover ⊢
    refine h.advance ht hcover h.install rfl rfl rfl (fun _ => ⟨by rw [hstage]; rfl, rfl⟩) fun t' ht' => ?_
    cases ht'
    exact hstanding
  | closeTmp index =>
    have htorn : s.dir.tmpSnapshot = some (.torn .task) := by
      have hfiles := (h.cover.task t ht (by rw [hstage]; simp)).standing
      rw [hstage] at hfiles
      exact hfiles.2.2
    rw [hstage] at hstanding
    simp only [Storage.stepTask, hstage, SnapshotDir.closeSnapshot, htorn, if_true] at hcover ⊢
    refine h.advance ht hcover h.install rfl rfl rfl (fun _ => ⟨by rw [hstage]; rfl, rfl⟩) fun t' ht' => ?_
    cases ht'
    exact hstanding
  | termAt =>
    rw [hstage] at hstanding
    simp only [Storage.stepTask, hstage] at hcover ⊢
    split
    · next err herr =>
      rw [herr] at hcover
      exact h.advance ht hcover h.install rfl rfl rfl (fun _ => ⟨by rw [hstage]; rfl, rfl⟩) fun t' ht' => by cases ht'
    · next raftTerm hterm =>
      rw [hterm] at hcover
      refine h.advance ht hcover h.install rfl rfl rfl (fun _ => ⟨by rw [hstage]; rfl, rfl⟩) fun t' ht' => ?_
      cases ht'
      exact hstanding
  | openDedup raftTerm =>
    obtain ⟨rfl, hret⟩ := hok (by rw [hstage]; rfl)
    rw [hstage] at hstanding
    simp only [Storage.stepTask, hstage, if_true] at hcover ⊢
    have hnone : s.dir.tmpDedup = none := hstanding
    refine h.advance ht hcover h.install rfl rfl rfl (fun hsaved => ?_) fun t' ht' => ?_
    · cases hsaved _ rfl
    · cases ht'
      refine ⟨by rw [hnone]; rfl, s.dedup, rfl, h.memory.of_le (h.cover.task t ht (by rw [hstage]; simp)).applied, hret⟩
  | closeDedup raftTerm records =>
    rw [hstage] at hstanding
    obtain ⟨htorn, saved, rfl, hrec, hret⟩ := hstanding
    simp only [Storage.stepTask, hstage, SnapshotDir.closeDedup, htorn, if_true] at hcover ⊢
    refine h.advance ht hcover h.install rfl rfl rfl (fun hsaved => ?_) fun t' ht' => ?_
    · cases hsaved _ rfl
    · cases ht'
      exact ⟨saved, rfl, hrec, hret⟩
  | renameDedup raftTerm =>
    have hmeta : s.dir.metaIndex = t.snapshotIndex := by
      have hfiles := (h.cover.task t ht (by rw [hstage]; simp)).standing
      rw [hstage] at hfiles
      exact hfiles
    rw [hstage] at hstanding
    obtain ⟨saved, hwhole, hrec, hret⟩ := hstanding
    simp only [Storage.stepTask, hstage, hwhole] at hcover ⊢
    refine ⟨hcover, h.install, h.memory, fun _ => .inr ⟨saved, rfl, ?_, ?_⟩, fun t' ht' => ?_⟩
    · exact hmeta ▸ hrec
    · exact hmeta ▸ hret
    · cases ht'
      rfl
  | publish raftTerm =>
    rw [hstage] at hstanding
    simp only [Storage.stepTask, hstage] at hcover ⊢
    refine h.advance ht hcover h.install rfl rfl rfl (fun _ => ⟨by rw [hstage]; rfl, rfl⟩) fun t' ht' => ?_
    cases ht'
    exact hstanding
  | truncate =>
    simp only [Storage.stepTask, hstage] at hcover ⊢
    exact h.advance ht hcover h.install rfl rfl rfl (fun _ => ⟨by rw [hstage]; rfl, rfl⟩) fun t' ht' => by cases ht'

/-- The table that a crash finds loads, and has the window of the label. -/
theorem RequestInv.restored (h : RequestInv cfg s) (hsaved : ∀ t ∈ s.task, unsaved t.stage = false) :
    ∃ index snapMeta t, restoreVectorIndex s.dir.cleanupTemporaryFiles = some (index, snapMeta) ∧
      (snapMeta.map SnapshotMeta.raftIndex).getD 0 = s.dir.metaIndex ∧
      restoreDedupTable cfg s.dir.cleanupTemporaryFiles snapMeta.isSome = some t ∧
      cfg.Recorded t s.dir.metaIndex ∧ cfg.Retained t s.dir.metaIndex := by
  obtain ⟨index, snapMeta, hrestore, hlast, -⟩ := h.cover.restored
  have hfresh : s.dir.metaIndex = 0 → cfg.Retained { windowSize := cfg.dedupWindowSize } s.dir.metaIndex := by
    intro hzero r hr
    rw [hzero, StorageConfig.window, StorageConfig.requests_zero, List.take_nil] at hr
    cases hr
  cases snapMeta with
  | none => exact ⟨index, none, _, hrestore, hlast, rfl, .empty cfg _, hfresh hlast.symm⟩
  | some m =>
    rcases h.file hsaved with ⟨hnone, hzero⟩ | ⟨t, hwhole, hrec, hret⟩
    · refine ⟨index, some m, _, hrestore, hlast, ?_, .empty cfg _, hfresh hzero⟩
      simp [restoreDedupTable, SnapshotDir.cleanupTemporaryFiles, hnone]
    · obtain ⟨t', hload, hrec', hret'⟩ := hrec.loadFrom_saveTo hret
      refine ⟨index, some m, t', hrestore, hlast, ?_, hrec', hret'⟩
      simp [restoreDedupTable, SnapshotDir.cleanupTemporaryFiles, hwhole, hload, Except.toOption]

/-- A restart succeeds and finds the window of the label. -/
theorem RequestInv.restart (h : RequestInv cfg s) (hsaved : ∀ t ∈ s.task, unsaved t.stage = false) (log : IndexedLog) :
    ∃ s', s.restart cfg log = some s' ∧ s'.appliedIndex = s.dir.metaIndex ∧ s'.dir = s.dir.cleanupTemporaryFiles ∧
      s'.task = none ∧ cfg.Recorded s'.dedup s.dir.metaIndex ∧ cfg.Retained s'.dedup s.dir.metaIndex := by
  obtain ⟨index, snapMeta, t, hrestore, hlast, htable, hrec, hret⟩ := h.restored hsaved
  unfold Storage.restart
  simp only [hrestore, htable, Option.map_some]
  exact ⟨_, rfl, hlast, rfl, rfl, hrec, hret⟩

theorem RequestInv.crash (h : RequestInv cfg s) (hsaved : ∀ t ∈ s.task, unsaved t.stage = false) {log : IndexedLog}
    (hcover : CoverInv cfg s') (hinstall : s'.install = none) (hs : s.restart cfg log = some s') : RequestInv cfg s' := by
  obtain ⟨s₁, hs₁, happlied, hdir, htask, hrec, -⟩ := h.restart hsaved log
  rw [hs] at hs₁
  cases hs₁
  refine ⟨hcover, hinstall, ?_, fun _ => ?_, fun t ht => ?_⟩
  · rw [happlied]
    exact hrec
  · rw [hdir]
    exact h.file hsaved
  · rw [htask] at ht
    cases ht

theorem RequestInv.step (h : RequestInv cfg s) {a : Action} (hok : KeepsRequests cfg s a) (hs : step cfg s a = some s') :
    RequestInv cfg s' := by
  obtain ⟨hlocal, hkeeps⟩ := hok
  have hcover := h.cover.step (covering_of_local cfg h.install hlocal) hs
  have hinstall := install_of_local hlocal h.install hs
  cases a with
  | append e =>
    simp only [Storage.step, Storage.append] at hs
    split at hs
    · cases hs
    · obtain ⟨log, -, rfl⟩ := Option.map_eq_some_iff.mp hs
      exact h.quiet hcover hinstall rfl rfl rfl rfl
  | truncateSuffix index =>
    simp only [Storage.step, Storage.truncateSuffix] at hs
    split at hs
    · obtain ⟨log, -, rfl⟩ := Option.map_eq_some_iff.mp hs
      exact h.quiet hcover hinstall rfl rfl rfl rfl
    · cases hs
  | commit index =>
    simp only [Storage.step, Storage.commit] at hs
    split at hs
    · cases hs
      exact h.quiet hcover hinstall rfl rfl rfl rfl
    · cases hs
  | apply => exact h.apply hcover hinstall hs
  | trackPending requestId logIndex =>
    cases hs
    exact ⟨hcover, hinstall, h.memory.trackPending requestId logIndex, h.file, h.task⟩
  | launch => exact h.launch hcover hinstall hs
  | task saved keepFrom =>
    obtain ⟨t, ht, rfl⟩ := Option.map_eq_some_iff.mp hs
    exact h.stepTask ht (hkeeps t ht) hcover
  | beginInstall stream => exact hlocal.elim
  | install keepFrom =>
    rw [Storage.step, h.install] at hs
    cases hs
  | abortInstall =>
    rw [Storage.step, h.install] at hs
    cases hs
  | crash during start => exact h.crash hkeeps hcover hinstall hs

theorem RequestInv.init (cfg : StorageConfig) : RequestInv cfg (init cfg) where
  cover := .init cfg
  install := rfl
  memory := .empty cfg 0
  file := fun _ => .inl ⟨rfl, rfl⟩
  task := fun t ht => by cases ht

/-- Wherever such a run is cut, the node comes back at the label of its snapshot and answers
the last requests up to it. -/
theorem answers_of_keepsRequests (cfg : StorageConfig) (schedule : List Action) (s : Storage)
    (h : Transition.run (Transition.restrict (KeepsRequests cfg) (step cfg)) (init cfg) schedule = some s)
    (during : Interrupted) (start : Nat) (hcut : KeepsRequests cfg s (.crash during start)) :
    ∃ s', step cfg s (.crash during start) = some s' ∧ s'.appliedIndex = s.dir.metaIndex ∧
      cfg.Answers s'.dedup s'.appliedIndex := by
  have hinv : RequestInv cfg s := by
    refine Transition.run_invariant (RequestInv cfg) (fun s a t hi hst => ?_) (.init cfg) h
    obtain ⟨hok, hst⟩ := Transition.restrict_eq_some.mp hst
    exact hi.step hok hst
  obtain ⟨s', hs', happlied, -, -, hrec, hret⟩ := hinv.restart hcut.2 (reopen (s.survivors during) start)
  refine ⟨s', hs', happlied, ?_⟩
  rw [happlied]
  exact hrec.answers hret

/-- The third entry is applied, and its request recorded, before the thread saves the table. -/
def savedBehindLabel : List Action :=
  twoApplied ++ [.append (upsertEntry 3 3 99), .commit 3, .apply] ++ List.replicate 14 (.task true 0)

theorem answers_after_late_save :
    ∃ s s', Transition.run (Transition.restrict (KeepsRequests threeUpserts) (step threeUpserts)) (init threeUpserts)
      savedBehindLabel = some s ∧ step threeUpserts s (.crash .nothing 1) = some s' ∧ s'.appliedIndex = 2 ∧
        threeUpserts.Answers s'.dedup 2 := by
  have hrun : ∃ s, Transition.run (Transition.restrict (KeepsRequests threeUpserts) (step threeUpserts))
      (init threeUpserts) savedBehindLabel = some s ∧ KeepsRequests threeUpserts s (.crash .nothing 1) ∧
        s.dir.metaIndex = 2 := by
    decide +kernel
  obtain ⟨s, hs, hcut, hmeta⟩ := hrun
  obtain ⟨s', hs', happlied, hanswers⟩ := answers_of_keepsRequests threeUpserts savedBehindLabel s hs .nothing 1 hcut
  rw [happlied, hmeta] at hanswers
  exact ⟨s, s', hs, hs', happlied.trans hmeta, hanswers⟩

/-- The crash comes between the rename of `snapshot.meta` and that of `dedup.bin`. -/
def cutBeforeDedup : List Action := twoApplied ++ List.replicate 10 (.task true 0) ++ [.crash .nothing 1]

/-- Both requests are applied and forgotten. -/
theorem request_unknown_after_cut :
    ∃ s, run threeUpserts cutBeforeDedup = some s ∧ s.appliedIndex = 2 ∧
      threeUpserts.window 2 = [("b", true), ("a", true)] ∧ s.dedup.check "a" = .notFound ∧
      ¬ threeUpserts.Answers s.dedup s.appliedIndex := by
  have hrun : ∃ s, run threeUpserts cutBeforeDedup = some s ∧ s.appliedIndex = 2 ∧
      threeUpserts.window 2 = [("b", true), ("a", true)] ∧ s.dedup.check "a" = .notFound := by
    decide +kernel
  obtain ⟨s, hs, happlied, hwindow, hcheck⟩ := hrun
  refine ⟨s, hs, happlied, hwindow, hcheck, fun hanswers => ?_⟩
  obtain ⟨e, he, -⟩ := hanswers ("a", true) (by rw [happlied, hwindow]; simp)
  rw [hcheck] at he
  cases he

end Storage

end RaftVdb
