import RaftVdb.Machine
import RaftVdb.WellFormed

/-!
# Where the commands come from

A command gets into the system in one place, where `HandleClientWrite` builds an entry from a
request. From there it goes through the logs, through `AppendEntries`, `TruncateSuffix` and
compaction, into vector indexes and snapshots, and with these to other nodes and through
restarts. None of this makes up a command or changes one.
-/

namespace RaftVdb

open Lib

/-- The command that a client asks for. -/
def ClientWriteRequest.command (r : ClientWriteRequest) : Option Command :=
  if r.cmdType = 1 then
    (Node.parseFloatVectorBytes r.vector).toOption.map fun vector => .upsert { id := r.id, vector, requestId := r.requestId }
  else if r.cmdType = 2 then some (.delete { id := r.id, requestId := r.requestId })
  else none

/-- The payload that is built for a command parses back. -/
def CommandCodec.Faithful (codec : CommandCodec) : Command → Prop
  | .upsert cmd => (codec.deserializeUpsert (codec.serializeUpsert cmd)).toOption = some cmd
  | .delete cmd => (codec.deserializeDelete (codec.serializeDelete cmd)).toOption = some cmd

instance (codec : CommandCodec) : DecidablePred codec.Faithful
  | .upsert cmd => inferInstanceAs (Decidable ((codec.deserializeUpsert (codec.serializeUpsert cmd)).toOption = some cmd))
  | .delete cmd => inferInstanceAs (Decidable ((codec.deserializeDelete (codec.serializeDelete cmd)).toOption = some cmd))

theorem Node.command_of_propose {codec : CommandCodec} {n : Node} {r : ClientWriteRequest} {e : LogEntry}
    (h : n.checkClientWrite codec r = .propose e) (hcodec : ∀ cmd ∈ r.command, codec.Faithful cmd) :
    e.command codec = r.command := by
  unfold checkClientWrite at h
  split at h
  · cases h
  split at h
  · cases h
  split at h
  · cases h
  · cases h
  unfold ClientWriteRequest.command at hcodec ⊢
  split at h
  · next htype =>
    rw [if_pos htype] at hcodec ⊢
    split at h
    · cases h
    next vector hvector =>
    split at h
    · cases h
    cases h
    rw [hvector] at hcodec ⊢
    have hparse : (codec.deserializeUpsert (codec.serializeUpsert { id := r.id, vector, requestId := r.requestId })).toOption =
        some _ := hcodec _ rfl
    simp only [LogEntry.command, hparse]
    rfl
  next hother =>
  rw [if_neg hother] at hcodec ⊢
  split at h
  · next htype =>
    cases h
    rw [if_pos htype] at hcodec ⊢
    have hparse : (codec.deserializeDelete (codec.serializeDelete { id := r.id, requestId := r.requestId })).toOption =
        some _ := hcodec _ rfl
    simp only [LogEntry.command, hparse]
    rfl
  · cases h

/-- The command of the entry, if it has one, is among those allowed. -/
def LogEntry.Genuine (codec : CommandCodec) (R : Command → Prop) (e : LogEntry) : Prop := ∀ cmd, e.command codec = some cmd → R cmd

variable {codec : CommandCodec} {R : Command → Prop}

theorem LogEntry.Genuine.mono {R' : Command → Prop} {e : LogEntry} (hR : ∀ cmd, R cmd → R' cmd) (h : e.Genuine codec R) :
    e.Genuine codec R' := fun cmd hcmd => hR cmd (h cmd hcmd)

theorem LogEntry.Genuine.noop {e : LogEntry} (h : e.type = .noop) : e.Genuine codec R := by
  intro cmd hcmd
  unfold LogEntry.command at hcmd
  rw [h] at hcmd
  cases hcmd

/-- The fields that `Propose` sets are not those of the command. -/
theorem LogEntry.Genuine.stamped {e : LogEntry} (h : e.Genuine codec R) (index term : Nat) :
    LogEntry.Genuine codec R { e with index, term } := h

def Request.Genuine (codec : CommandCodec) (R : Command → Prop) : Request → Prop
  | .append _ r => ∀ e ∈ r.entries, e.Genuine codec R
  | .install r => ∀ cmd ∈ r.snapshot.executed, R cmd
  | _ => True

theorem Request.Genuine.mono {R' : Command → Prop} {r : Request} (h : r.Genuine codec R) (hR : ∀ cmd, R cmd → R' cmd) :
    r.Genuine codec R' := by
  cases r with
  | append _ r => exact fun e he => (h e he).mono hR
  | install r => exact fun cmd hcmd => hR cmd (h cmd hcmd)
  | vote | heartbeat => trivial

/-! ## Nodes -/

namespace IndexedLog

variable {l l' : IndexedLog}

theorem mem_of_mem_truncateSuffix {index : Nat} (h : l.truncateSuffix index = .ok l') {x : LogEntry} (hx : x ∈ l'.entries) :
    x ∈ l.entries := by
  unfold truncateSuffix at h
  split at h
  · cases h
  split at h
  · cases h
    exact hx
  · cases h
    exact List.mem_of_mem_filter hx

theorem mem_of_readFrom {next batch : Nat} {x : LogEntry} (hx : x ∈ (l.readFrom next batch).toOption.getD []) : x ∈ l.entries := by
  unfold readFrom at hx
  split at hx
  · cases hx
  split at hx
  · cases hx
  · exact List.mem_of_mem_filter (List.mem_of_mem_take hx)

end IndexedLog

namespace Node

variable {n n' m : Node}

theorem of_mem_spliceEntry {k : Nat} {log : IndexedLog} {e x : LogEntry} (hx : x ∈ (spliceEntry k log e).log.entries) :
    x ∈ log.entries ∨ x = e := by
  unfold spliceEntry at hx
  split at hx
  · exact .inl hx
  split at hx
  · split at hx
    · exact .inl hx
    · next happend => exact (IndexedLog.mem_append happend).mp hx
  split at hx
  · exact .inl hx
  split at hx
  · exact .inl hx
  next hcut =>
  dsimp only at hx
  split at hx
  · exact .inl (IndexedLog.mem_of_mem_truncateSuffix hcut hx)
  · next happend => exact ((IndexedLog.mem_append happend).mp hx).imp_left (IndexedLog.mem_of_mem_truncateSuffix hcut)

theorem of_mem_spliceEntries {k : Nat} {log : IndexedLog} {es : List LogEntry} {x : LogEntry}
    (hx : x ∈ (spliceEntries k log es).log.entries) : x ∈ log.entries ∨ x ∈ es := by
  induction es generalizing log with
  | nil => exact .inl hx
  | cons e rest ih =>
    rw [spliceEntries] at hx
    dsimp only at hx
    have hfirst : x ∈ (spliceEntry k log e).log.entries → x ∈ log.entries ∨ x ∈ e :: rest := fun h =>
      (of_mem_spliceEntry h).imp_right fun heq => List.mem_cons.mpr (.inl heq)
    split at hx
    · exact hfirst hx
    · rcases ih hx with h | h
      · exact hfirst h
      · exact .inr (List.mem_cons_of_mem e h)

/-- What a node has in its log, and in an index that is being saved, is genuine. -/
structure Stock (codec : CommandCodec) (R : Command → Prop) (n : Node) : Prop where
  log : ∀ e ∈ n.log.entries, e.Genuine codec R
  task : ∀ t ∈ n.snapshotTask, ∀ commands ∈ t.vectorIndex, ∀ cmd ∈ commands, R cmd

/-- What a node has executed, saved or still to propose is genuine. -/
structure Machine.Genuine (codec : CommandCodec) (R : Command → Prop) (x : Machine) : Prop where
  executed : ∀ cmd ∈ x.executed, R cmd
  saved : ∀ s ∈ x.snapshot, ∀ cmd ∈ s.executed, R cmd
  writes : ∀ e ∈ x.writes, e.Genuine codec R

theorem Stock.same (h : n.Stock codec R) (hs : SameLog n n') : n'.Stock codec R := by
  refine ⟨?_, ?_⟩
  · rw [hs.log]
    exact h.log
  · rw [hs.snapshotTask]
    exact h.task

theorem Stock.write (h : n.Stock codec R) {log : IndexedLog} (hlog : ∀ e ∈ log.entries, e.Genuine codec R) :
    Stock codec R { n with log } := ⟨hlog, h.task⟩

theorem Stock.append (h : n.Stock codec R) {e : LogEntry} (he : e.Genuine codec R) {log : IndexedLog}
    (hlog : n.log.append e = .ok log) : Stock codec R { n with log } := by
  refine h.write fun x hx => ?_
  rcases (IndexedLog.mem_append hlog).mp hx with hx | rfl
  · exact h.log x hx
  · exact he

/-- A new leader writes its first entry. -/
theorem Stock.lead (h : n.Stock codec R) {log : IndexedLog} (hlog : n.firstTerm.log.append
      { noopEntry with index := n.firstTerm.logicalLastIndex + 1, term := n.firstTerm.currentTerm } = .ok log)
    (hm : SameLog { n.firstTerm with log } m) : m.maybeCommit.Stock codec R :=
  (((h.same (sameLog_firstTerm n)).append (.noop rfl) hlog).same hm).same (sameLog_maybeCommit m)

theorem Stock.concludes (h : n.Stock codec R) {e : Election} (hc : n.Concludes e n') : n'.Stock codec R := by
  cases hc with
  | idle => exact h.same ⟨Nat.le_refl _, rfl, rfl, rfl, rfl, rfl⟩
  | newer hlt =>
    have hidle : SameLog n { n with election := none } := ⟨Nat.le_refl _, rfl, rfl, rfl, rfl, rfl⟩
    exact h.same (hidle.trans (sameLog_stepDown _ _))
  | failed hstate hcore =>
    exact (h.same (sameLog_firstTerm n)).same (.of_core hcore ⟨Nat.le_refl _, rfl, rfl, rfl, rfl, rfl⟩)
  | won hstate hterm hquorum hlog hcore hmatch =>
    exact h.lead hlog (.of_core hcore ⟨Nat.le_refl _, rfl, rfl, rfl, rfl, rfl⟩)

theorem Stock.handleAppendEntries (h : n.Stock codec R) {r : AppendEntriesRequest}
    (hr : ∀ e ∈ r.entries, e.Genuine codec R) : (n.handleAppendEntries r).1.Stock codec R := by
  rcases n.handleAppendEntries_cases r with ⟨-, heq, -⟩ | ⟨hge, m, hcore, ⟨heq, -⟩ | ⟨-, -, heq⟩⟩
  · rw [heq]
    exact h
  · rw [heq]
    exact h.same (.of_core hcore (sameLog_noted hge r.leaderId))
  rw [heq]
  have hm := h.same (.of_core hcore (sameLog_noted hge r.leaderId))
  have hspliced : Stock codec R { m with log := (spliceEntries m.lastSnapshotIndex m.log r.entries).log } := by
    refine hm.write fun x hx => ?_
    rcases of_mem_spliceEntries hx with hx | hx
    · exact hm.log x hx
    · exact hr x hx
  rcases m.finishAppend_cases r with ⟨err, -, hfinish⟩ | ⟨-, hfinish, -⟩
  · rw [hfinish]
    exact hspliced
  · rw [hfinish]
    exact (hspliced.same (sameLog_advanceCommit _ _)).same (sameLog_dispatchForward _ _)

theorem Stock.handleInstallSnapshot (h : n.Stock codec R) (hexecuted : ∀ cmd ∈ n.executed, R cmd) (r : InstallSnapshotRequest)
    (complete : Bool) (keepFrom : Nat) : (n.handleInstallSnapshot r complete keepFrom).1.Stock codec R := by
  rcases n.handleInstallSnapshot_cases r complete keepFrom with heq | ⟨m, hm, heq | heq⟩
  · rw [heq]
    exact h
  all_goals
    rw [heq]
    have hstock : m.Stock codec R := by
      rcases hm with rfl | ⟨term, hle, hcore⟩
      · exact h
      · exact h.same (.of_core hcore (sameLog_followed hle ""))
  · exact hstock
  have hexecuted : ∀ cmd ∈ m.executed, R cmd := by
    rcases hm with rfl | ⟨term, hle, hcore⟩
    · exact hexecuted
    · rw [eq_of_core Node.executed (fun _ => rfl) hcore]
      exact hexecuted
  -- a task that is under way holds on to the index that it saves
  have hinstalled : Stock codec R { m with
      log := m.log.truncateBefore (r.snapshot.raftIndex + 1) keepFrom
      snapshotTask := m.snapshotTask.map fun (task : SnapshotTask) =>
        { task with vectorIndex := task.vectorIndex.or (some m.executed) } } := by
    refine ⟨fun x hx => hstock.log x (IndexedLog.mem_of_mem_truncateBefore hx), fun t ht commands hcommands => ?_⟩
    obtain ⟨task, htask, rfl⟩ := Option.map_eq_some_iff.mp ht
    dsimp only at hcommands
    cases hindex : task.vectorIndex with
    | some old =>
      rw [hindex] at hcommands
      cases hcommands
      exact hstock.task task htask commands hindex
    | none =>
      rw [hindex] at hcommands
      cases hcommands
      exact hexecuted
  unfold applyInstalledSnapshot
  dsimp only
  split
  · exact ⟨hinstalled.log, hinstalled.task⟩
  · exact ⟨hinstalled.log, hinstalled.task⟩

theorem Stock.restart (h : n.Stock codec R) : n.restart.Stock codec R := ⟨h.log, fun t ht => by cases ht⟩

theorem Stock.maybeTriggerSnapshot (h : n.Stock codec R) (k : Nat) : (n.maybeTriggerSnapshot k).Stock codec R := by
  unfold Node.maybeTriggerSnapshot
  split
  · exact h
  · refine ⟨h.log, fun t ht commands hcommands => ?_⟩
    cases ht
    cases hcommands

theorem Stock.applyCommittedEntry (h : n.Stock codec R) {outcome : Except String Unit} {e : LogEntry}
    (hn' : n.applyCommittedEntry codec outcome = some (n', e)) : n'.Stock codec R := by
  unfold Node.applyCommittedEntry at hn'
  split at hn'
  swap
  · cases hn'
  split at hn'
  · cases hn'
  next x _ =>
  cases hn'
  refine Stock.maybeTriggerSnapshot ?_ _
  unfold execute
  split
  · exact ⟨h.log, h.task⟩
  · exact ⟨h.log, h.task⟩

theorem Stock.saveSnapshot (h : n.Stock codec R) {keepFrom : Nat} (hn' : n.saveSnapshot keepFrom = some n') : n'.Stock codec R := by
  unfold Node.saveSnapshot at hn'
  split at hn'
  · cases hn'
  split at hn'
  · cases hn'
    exact ⟨h.log, fun t ht => by cases ht⟩
  · cases hn'
    exact ⟨fun x hx => h.log x (IndexedLog.mem_of_mem_truncateBefore hx), fun t ht => by cases ht⟩

theorem Stock.carries (h : n.Stock codec R) {r : AppendEntriesRequest} (hr : n.Carries r) : ∀ e ∈ r.entries, e.Genuine codec R := by
  obtain ⟨next, batch, -, -, hentries, -⟩ := hr.piece
  intro e he
  rw [hentries] at he
  exact h.log e (IndexedLog.mem_of_readFrom he)

end Node

/-! ## The cluster -/

namespace Cluster

variable {c c' : Cluster}

/-- Whatever a node or a request of the cluster holds is genuine. -/
structure Genuine (codec : CommandCodec) (R : Command → Prop) (c : Cluster) : Prop where
  stock : ∀ p, (c.nodes p).Stock codec R
  machine : ∀ p, (c.nodes p).machine.Genuine codec R
  call : ∀ call ∈ c.calls, call.request.Genuine codec R

theorem genuine_init (codec : CommandCodec) (R : Command → Prop) (members : Members) (config : String → Config) :
    (init members config).Genuine codec R where
  stock p := ⟨(fun e he => by cases he), fun t ht => by cases ht⟩
  machine p := ⟨(fun cmd hcmd => by cases hcmd), (fun s hs => by cases hs), fun e he => by cases he⟩
  call call hcall := by cases hcall

theorem Genuine.mono {R' : Command → Prop} (h : c.Genuine codec R) (hR : ∀ cmd, R cmd → R' cmd) : c.Genuine codec R' where
  stock p := ⟨fun e he => ((h.stock p).log e he).mono hR,
    fun t ht commands hcommands cmd hcmd => hR cmd ((h.stock p).task t ht commands hcommands cmd hcmd)⟩
  machine p := ⟨fun cmd hcmd => hR cmd ((h.machine p).executed cmd hcmd),
    fun s hs cmd hcmd => hR cmd ((h.machine p).saved s hs cmd hcmd),
    fun e he => ((h.machine p).writes e he).mono hR⟩
  call call hcall := (h.call call hcall).mono hR

theorem Genuine.put (h : c.Genuine codec R) {p : String} {n' : Node} (hn' : n'.Stock codec R) (q : String) :
    ((c.put p n').nodes q).Stock codec R := by
  by_cases hq : q = p
  · rw [hq, put_self]
    exact hn'
  · rw [put_other c n' hq]
    exact h.stock q

theorem Genuine.stock_of_apply (h : c.Genuine codec R) {p : String} {outcome : Except String Unit}
    (hs : c.apply codec p outcome = some c') (q : String) : (c'.nodes q).Stock codec R := by
  unfold Cluster.apply at hs
  dsimp only at hs
  split at hs
  · cases hs
  next n' e hn' =>
  cases hs
  exact h.put ((h.stock p).applyCommittedEntry hn') q

theorem Genuine.stock_of_step (h : c.Genuine codec R) {a : Action} (hs : c.step codec a = some c') (q : String) :
    (c'.nodes q).Stock codec R := by
  cases moves_of_step hs with
  | work hcore => exact h.put ((h.stock _).same (.of_core hcore (.refl _))) q
  | forward hmem hcopy hcore =>
    exact h.put ((h.stock _).same (.of_core hcore ⟨Nat.le_refl _, rfl, rfl, rfl, rfl, rfl⟩)) q
  | fall hle hcore => exact h.put ((h.stock _).same (.of_core hcore (Node.sameLog_followed hle ""))) q
  | @stand p n' hmem hstate helection hn' =>
    have hsame : (c.nodes p).SameLog n' := by
      rw [hn']
      exact ⟨Nat.le_succ _, rfl, rfl, rfl, rfl, rfl⟩
    exact h.put ((h.stock p).same hsame) q
  | lose he hn' => exact h.put ((h.stock _).concludes hn') q
  | win he hstate hterm hquorum hlog hcore =>
    exact h.put ((h.stock _).lead hlog (.of_core hcore ⟨Nat.le_refl _, rfl, rfl, rfl, rfl, rfl⟩)) q
  | boot hmem hpeers hstate hlog hcore =>
    exact h.put ((h.stock _).lead hlog (.of_core hcore ⟨Nat.le_refl _, rfl, rfl, rfl, rfl, rfl⟩)) q
  | @crash p m hmem hpeers hcore =>
    have hm : m.Stock codec R := ((h.stock p).same (Node.sameLog_firstTerm _)).same
      (.of_core hcore ⟨Nat.le_refl _, rfl, rfl, rfl, rfl, rfl⟩)
    exact h.put hm.restart q
  | @deliver i complete keepFrom call hcall =>
    refine h.put ?_ q
    have hrequest := h.call call (List.mem_of_getElem? hcall)
    generalize call.request = request at hrequest
    cases request with
    | vote r => exact (h.stock _).same (Node.sameLog_handleRequestVote _ r)
    | heartbeat caller r => exact (h.stock _).same (Node.sameLog_handleHeartbeat _ r)
    | append caller r => exact (h.stock _).handleAppendEntries hrequest
    | install r => exact (h.stock _).handleInstallSnapshot (h.machine _).executed r complete keepFrom
  | answer hcall hwaiting ha hn' => exact h.put ((h.stock _).same (Node.sameLog_answers hn')) q
  | @propose p i e n' log hwrite hstate hlog hcore =>
    have he := (h.machine p).writes e (List.mem_of_getElem? hwrite)
    exact h.put (((h.stock p).append (he.stamped _ _) hlog).same (.of_core hcore ⟨Nat.le_refl _, rfl, rfl, rfl, rfl, rfl⟩)) q
  | apply => exact h.stock_of_apply hs q
  | saveSnapshot hn' => exact h.put ((h.stock _).saveSnapshot hn') q
  | restart hmem => exact h.put (h.stock _).restart q

theorem Genuine.machine_of_step (h : c.Genuine codec R) {a : Action} (ha : ∀ p r e, a = .clientWrite p r →
      (c.nodes p).checkClientWrite codec r = .propose e → e.Genuine codec R) (hs : c.step codec a = some c') (q : String) :
    (c'.nodes q).machine.Genuine codec R := by
  have hnode := h.machine q
  cases drives_of_step hs q with
  | idle hm =>
    rw [hm]
    exact hnode
  | asked hwrite hcheck hm =>
    rw [hm]
    refine ⟨hnode.executed, hnode.saved, fun x hx => ?_⟩
    rcases List.mem_append.mp hx with hx | hx
    · exact hnode.writes x hx
    · rw [List.mem_singleton.mp hx]
      exact ha q _ _ hwrite hcheck
  | noted hm =>
    rw [hm]
    exact ⟨hnode.executed, hnode.saved, fun x hx => hnode.writes x (List.mem_of_mem_eraseIdx hx)⟩
  | applied happly hlt hread hm =>
    rw [hm]
    refine ⟨fun cmd hcmd => ?_, hnode.saved, hnode.writes⟩
    rcases List.mem_append.mp hcmd with hcmd | hcmd
    · exact hnode.executed cmd hcmd
    · exact (h.stock q).log _ (IndexedLog.mem_of_read hread).1 cmd (Option.mem_toList.mp hcmd)
  | @saved t raftTerm keepFrom hsave ht hm =>
    rw [hm]
    refine ⟨hnode.executed, fun s hs cmd hcmd => ?_, hnode.writes⟩
    cases hs
    dsimp only at hcmd
    cases hindex : t.vectorIndex with
    | none =>
      rw [hindex] at hcmd
      exact hnode.executed cmd hcmd
    | some commands =>
      rw [hindex] at hcmd
      exact (h.stock q).task t ht commands hindex cmd hcmd
  | installed hcall hr hterm hm =>
    have hinstall := h.call _ hcall
    rw [hr] at hinstall
    refine ⟨fun cmd hcmd => ?_, fun s hs cmd hcmd => ?_, fun x hx => ?_⟩
    · have hcmd : cmd ∈ (c'.nodes q).executed := hcmd
      rw [hm.executed] at hcmd
      exact hinstall cmd hcmd
    · have hs : s ∈ (c'.nodes q).snapshot := hs
      rw [hm.snapshot] at hs
      cases hs
      exact hinstall cmd hcmd
    · have hx : x ∈ (c'.nodes q).writes := hx
      rw [hm.writes] at hx
      exact hnode.writes x hx
  | restarted hm =>
    rw [hm]
    refine ⟨fun cmd hcmd => ?_, hnode.saved, fun x hx => by cases hx⟩
    unfold Node.Machine.restore at hcmd
    dsimp only at hcmd
    cases hsnapshot : (c.nodes q).snapshot with
    | none =>
      rw [hsnapshot] at hcmd
      cases hcmd
    | some s =>
      rw [hsnapshot] at hcmd
      exact hnode.saved s hsnapshot cmd hcmd

theorem Genuine.call_of_step (h : c.Genuine codec R) (hcfg : c.Configured) {a : Action} (hs : c.step codec a = some c') :
    ∀ call ∈ c'.calls, call.request.Genuine codec R := by
  have hsent : ∀ {p : String} {messages : List (String × Request)}, (∀ m ∈ messages, m.2.Genuine codec R) →
      ∀ call ∈ (c.send p messages).calls, call.request.Genuine codec R := by
    intro p messages hmessages call hcall
    rcases List.mem_append.mp hcall with hcall | hcall
    · exact h.call call hcall
    · obtain ⟨m, hm, rfl⟩ := List.mem_map.mp hcall
      exact hmessages m hm
  have hset : ∀ {i : Nat} {old new : Call}, c.calls[i]? = some old → new.request = old.request →
      ∀ call ∈ (c.setCall i new).calls, call.request.Genuine codec R := by
    intro i old new hold hnew call hcall
    rcases List.mem_or_eq_of_mem_set hcall with hcall | rfl
    · exact h.call call hcall
    · rw [hnew]
      exact h.call old (List.mem_of_getElem? hold)
  have hdrop : ∀ {p : String}, ∀ call ∈ (c.dropCalls p).calls, call.request.Genuine codec R := by
    intro p call hcall
    obtain ⟨old, hold, rfl⟩ := List.mem_map.mp hcall
    split
    · exact h.call old hold
    · exact h.call old hold
  cases moves_of_step hs with
  | work hcore hmatch hsends =>
    refine hsent fun m hm => ?_
    cases (hsends m hm).2.2 (hcfg _).1 with
    | heartbeat => trivial
    | append _ _ hr => exact (h.stock _).carries hr
    | install hs => exact (h.machine _).saved _ hs
  | forward hmem hcopy hcore hmatch hsends =>
    refine hsent fun m hm => ?_
    cases (hsends m hm).1 with
    | append hr => exact (h.stock _).carries hr
    | install hs => exact (h.machine _).saved _ hs
  | stand =>
    refine hsent fun m hm => ?_
    obtain ⟨peer, -, rfl⟩ := List.mem_map.mp hm
    trivial
  | fall | lose | win | boot | propose | apply | saveSnapshot => exact h.call
  | crash => exact hdrop
  | deliver hcall => exact hset hcall rfl
  | answer hcall => exact hset hcall rfl
  | restart => exact hdrop

theorem Genuine.step (h : c.Genuine codec R) (hcfg : c.Configured) {a : Action} (ha : ∀ p r e, a = .clientWrite p r →
      (c.nodes p).checkClientWrite codec r = .propose e → e.Genuine codec R) (hs : c.step codec a = some c') :
    c'.Genuine codec R where
  stock := h.stock_of_step hs
  machine := h.machine_of_step ha hs
  call := h.call_of_step hcfg hs

/-- Validity: in every run, whatever gets lost, restarted or installed, a node executes only
commands that some client has asked some node for, as they were asked for. -/
theorem executed_commands_requested (codec : CommandCodec) (members : Members) (config : String → Config)
    (schedule : List Action) (c : Cluster) (h : Cluster.run codec members config schedule = some c)
    (hcodec : ∀ q r, .clientWrite q r ∈ schedule → ∀ cmd ∈ r.command, codec.Faithful cmd)
    (p : String) (cmd : Command) (hcmd : cmd ∈ (c.nodes p).executed) :
    ∃ q r, .clientWrite q r ∈ schedule ∧ r.command = some cmd := by
  have hgenuine : c.Genuine codec fun cmd => ∃ q r, .clientWrite q r ∈ schedule ∧ r.command = some cmd := by
    refine (Transition.run_invariant_of_mem (fun c => c.Configured ∧ c.Genuine codec fun cmd =>
      ∃ q r, .clientWrite q r ∈ schedule ∧ r.command = some cmd) ?_
      ⟨configured_init members config, genuine_init codec _ members config⟩ h).2
    rintro a ha c c' ⟨hcfg, hc⟩ hs
    refine ⟨hcfg.frame (frame_of_moves (moves_of_step hs)), hc.step hcfg ?_ hs⟩
    rintro q r e rfl hcheck cmd hcmd
    rw [Node.command_of_propose hcheck (hcodec q r ha)] at hcmd
    exact ⟨q, r, ha, hcmd⟩
  exact (hgenuine.machine p).executed cmd hcmd

/-- `C` gets what `A` has executed with a snapshot, and starts again from it. -/
def handedOn : List Action :=
  mentorServed ++ [.receive 3 false, .clientWrite "A" { requestId := "x", cmdType := 2, id := 1 }, .propose "A" 0,
    .replicate "A" "B", .deliver 4 true 0, .receive 4 false, .apply "A" (.ok ()), .apply "A" (.ok ()),
    .beginBroadcast "A", .deliver 5 true 0, .saveSnapshot "A" 0, .replicate "A" "C", .deliver 7 true 0, .restart "C"]

theorem executed_commands_requested_handedOn : ∃ c, Cluster.run sampleCodec threeNodes frequentConfig handedOn = some c ∧
    ∃ cmd ∈ (c.nodes "C").executed, ∃ q r, .clientWrite q r ∈ handedOn ∧ r.command = some cmd := by
  obtain ⟨c, hc, hcmd⟩ := Transition.exists_of_run (o := Cluster.run sampleCodec threeNodes frequentConfig handedOn)
    (P := fun c => .delete { id := 1, requestId := "x" } ∈ (c.nodes "C").executed) (by decide +kernel)
  refine ⟨c, hc, _, hcmd, executed_commands_requested sampleCodec threeNodes frequentConfig handedOn c hc ?_ "C" _ hcmd⟩
  intro q r hr
  simp only [handedOn, mentorServed, List.mem_append, List.mem_cons, List.not_mem_nil, reduceCtorEq, false_or, or_false,
    Action.clientWrite.injEq] at hr
  obtain ⟨rfl, rfl⟩ := hr
  intro cmd hcmd
  cases hcmd
  rfl

end Cluster

end RaftVdb
