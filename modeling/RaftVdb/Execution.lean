import RaftVdb.Machine
import RaftVdb.Safety

/-!
# What the nodes execute

The vector index of a node is the list of the commands that it has executed, and a
snapshot is such a list under an index. Entries that two nodes apply at one index are the
same, so the lists of two nodes are prefixes of one another: the node that has applied more
has executed what the other one has, and then some more. A snapshot must be saved before
its node applies the next entry, which `LaunchSnapshotTask` does not see to.
-/

namespace RaftVdb

open Lib

/-- The request that an entry carries out. -/
def LogEntry.request (codec : CommandCodec) (e : LogEntry) : Option String := (e.command codec).map Command.requestId

theorem LogEntry.request_eq_none {codec : CommandCodec} {e : LogEntry} (h : e.type = .noop) : e.request codec = none := by
  unfold request command
  rw [h]
  rfl

/-- The commands are those of the entries up to the index, as some node has applied them. -/
def Replayed (codec : CommandCodec) (applied : List Applied) (index : Nat) (executed : List Command) : Prop :=
  ∃ es : List LogEntry, es.length = index ∧
    (∀ i e, es[i]? = some e → ∃ x ∈ applied, x.index = i + 1 ∧ x.entry = e) ∧
    executed = es.flatMap fun e => (e.command codec).toList

section

variable {codec : CommandCodec} {applied applied' : List Applied} {k k' : Nat} {executed executed' : List Command}

theorem Replayed.zero : Replayed codec applied 0 [] := ⟨[], rfl, fun i e he => (by cases he), rfl⟩

theorem Replayed.mono (h : Replayed codec applied k executed) (hsub : applied ⊆ applied') :
    Replayed codec applied' k executed := by
  obtain ⟨es, hlen, hes, hexecuted⟩ := h
  refine ⟨es, hlen, fun i e he => ?_, hexecuted⟩
  obtain ⟨x, hx, hentry⟩ := hes i e he
  exact ⟨x, hsub hx, hentry⟩

theorem Replayed.next (h : Replayed codec applied k executed) {x : Applied} (hx : x ∈ applied) (hindex : x.index = k + 1) :
    Replayed codec applied (k + 1) (executed ++ (x.entry.command codec).toList) := by
  obtain ⟨es, rfl, hes, rfl⟩ := h
  refine ⟨es ++ [x.entry], by simp, fun i e he => ?_, by simp⟩
  rcases Nat.lt_or_ge i es.length with hlt | hge
  · rw [List.getElem?_append_left hlt] at he
    exact hes i e he
  · rw [List.getElem?_append_right hge, List.getElem?_singleton] at he
    split at he
    · cases he
      exact ⟨x, hx, by omega, rfl⟩
    · cases he

/-- Where one entry belongs to each index, the shorter list is the front of the longer one. -/
theorem Replayed.le (hagree : ∀ x ∈ applied, ∀ y ∈ applied, x.index = y.index → x.entry = y.entry)
    (h : Replayed codec applied k executed) (h' : Replayed codec applied k' executed') (hle : k ≤ k') :
    executed <+: executed' := by
  obtain ⟨es, rfl, hes, rfl⟩ := h
  obtain ⟨es', rfl, hes', rfl⟩ := h'
  have htake : es = es'.take es.length := by
    refine List.ext_getElem? fun i => ?_
    rcases Nat.lt_or_ge i es.length with hlt | hge
    · obtain ⟨x, hx, hxi, hxe⟩ := hes i _ (List.getElem?_eq_getElem hlt)
      obtain ⟨y, hy, hyi, hye⟩ := hes' i _ (List.getElem?_eq_getElem (hlt.trans_le hle))
      rw [List.getElem?_take_of_lt hlt, List.getElem?_eq_getElem hlt, List.getElem?_eq_getElem (hlt.trans_le hle), ← hxe, ← hye,
        hagree x hx y hy (hxi.trans hyi.symm)]
    · rw [List.getElem?_eq_none hge, List.getElem?_eq_none]
      rw [List.length_take]
      omega
  obtain ⟨rest, hrest⟩ := List.take_prefix es.length es'
  rw [← htake] at hrest
  exact ⟨rest.flatMap fun e => (e.command codec).toList, by rw [← hrest, List.flatMap_append]⟩

end

namespace Node.Machine

variable {codec : CommandCodec} {applied applied' : List Applied} {x : Machine}

/-- It has executed what has been applied up to its index, and so has its snapshot. -/
structure Replays (codec : CommandCodec) (applied : List Applied) (x : Machine) : Prop where
  executed : Replayed codec applied x.appliedIndex x.executed
  saved : ∀ s ∈ x.snapshot, Replayed codec applied s.raftIndex s.executed
  snapshot_le : x.lastSnapshotIndex ≤ x.appliedIndex

theorem Replays.mono (h : x.Replays codec applied) (hsub : applied ⊆ applied') : x.Replays codec applied' :=
  ⟨h.executed.mono hsub, fun s hs => (h.saved s hs).mono hsub, h.snapshot_le⟩

theorem Replays.restore (windowSize : Nat) {snapshot : Option Snapshot}
    (h : ∀ s ∈ snapshot, Replayed codec applied s.raftIndex s.executed) : (restore windowSize snapshot).Replays codec applied := by
  refine ⟨?_, h, le_refl _⟩
  cases snapshot with
  | none => exact .zero
  | some s => exact h s rfl

theorem Replays.apply (h : x.Replays codec applied) {y : Applied} (hy : y ∈ applied) (hindex : y.index = x.appliedIndex + 1)
    (outcome : Except String Unit) : (x.apply codec y.entry outcome).Replays codec applied :=
  ⟨h.executed.next hy hindex, h.saved, Nat.le_succ_of_le h.snapshot_le⟩

end Node.Machine

namespace Cluster

variable {codec : CommandCodec} {c c' : Cluster}

/-- Every node, and every snapshot on its way, has executed what has been applied. -/
structure Executes (codec : CommandCodec) (c : Cluster) : Prop where
  node : ∀ p, (c.nodes p).machine.Replays codec c.history.applied
  install : ∀ call ∈ c.calls, ∀ r, call.request = .install r →
    Replayed codec c.history.applied r.snapshot.raftIndex r.snapshot.executed

theorem Executes.replayed (h : c.Executes codec) (p : String) :
    Replayed codec c.history.applied (c.nodes p).appliedIndex (c.nodes p).executed := (h.node p).executed

/-- A snapshot is saved while its node has applied what the snapshot stands for, and no more. -/
def SavesInTime (c : Cluster) : Action → Prop
  | .saveSnapshot p _ => ∀ t ∈ (c.nodes p).snapshotTask, t.vectorIndex = none ∧ t.snapshotIndex = (c.nodes p).appliedIndex
  | _ => True

instance (c : Cluster) : (a : Action) → Decidable (c.SavesInTime a)
  | .saveSnapshot p _ => inferInstanceAs (Decidable
      (∀ t ∈ (c.nodes p).snapshotTask, t.vectorIndex = none ∧ t.snapshotIndex = (c.nodes p).appliedIndex))
  | .start _ | .startElection _ | .finishElection _ | .beginBroadcast _ | .finishBroadcast _ _ |
    .replicate _ _ | .forward _ _ | .checkMentor _ _ | .checkFollower _ _ _ | .deliver _ _ _ | .receive _ _ | .fail _ _ |
    .rebalance _ | .recoverWindows _ _ | .clientWrite _ _ | .propose _ _ | .apply _ _ | .restart _ => isTrue trivial

theorem Executes.drives (h : c.Executes codec) {a : Action} (htime : c.SavesInTime a) (hs : c.step codec a = some c') (p : String) :
    (c'.nodes p).machine.Replays codec c'.history.applied := by
  have hsub := applied_subset_of_step hs
  have hnode := (h.node p).mono hsub
  cases drives_of_step hs p with
  | idle hm =>
    rw [hm]
    exact hnode
  | asked ha hcheck hm =>
    rw [hm]
    exact ⟨hnode.executed, hnode.saved, hnode.snapshot_le⟩
  | noted hm =>
    rw [hm]
    exact ⟨hnode.executed, hnode.saved, hnode.snapshot_le⟩
  | applied ha hlt hread hm =>
    subst ha
    rw [hm]
    exact hnode.apply (mem_applied_of_step hs hread) rfl _
  | saved ha ht hm =>
    subst ha
    obtain ⟨hnone, hindex⟩ := htime _ ht
    rw [hm]
    refine ⟨hnode.executed, fun s hs => ?_, hindex.le⟩
    cases hs
    dsimp only
    rw [hnone, hindex]
    exact hnode.executed
  | @installed call r hcall hr hterm hm =>
    have hinstall := (h.install call hcall r hr).mono hsub
    refine ⟨?_, fun s hs => ?_, (hm.lastSnapshotIndex.trans hm.appliedIndex.symm).le⟩
    · show Replayed codec _ (c'.nodes p).appliedIndex (c'.nodes p).executed
      rw [hm.appliedIndex, hm.executed]
      exact hinstall
    · have hs : s ∈ (c'.nodes p).snapshot := hs
      rw [hm.snapshot] at hs
      cases hs
      exact hinstall
  | restarted hm =>
    rw [hm]
    exact .restore _ hnode.saved

theorem Executes.step (h : c.Executes codec) (hcfg : c.Configured) {a : Action} (htime : c.SavesInTime a)
    (hs : c.step codec a = some c') : c'.Executes codec where
  node := h.drives htime hs
  install call hcall r hr := by
    refine Replayed.mono ?_ (applied_subset_of_step hs)
    rcases install_of_step hcfg hs hcall hr with ⟨old, hold, hrequest⟩ | ⟨p, hsnapshot, -⟩
    · exact h.install old hold r hrequest
    · exact (h.node p).saved _ hsnapshot

/-- Where an entry is committed at an index, every node that has got that far has executed it. -/
theorem Executes.executed_of_sealed (hE : c.Executes codec) {w : Ledger} (hS : Secure w c) {p : String} {T k : Nat}
    {l : List LogEntry} {e : LogEntry} {cmd : Command} (hl : c.members.Sealed w T l) (hpos : 0 < k) (hat : l[k - 1]? = some e) (hcmd : e.command codec = some cmd)
    (hle : k ≤ (c.nodes p).appliedIndex) : cmd ∈ (c.nodes p).executed := by
  obtain ⟨es, hlen, hes, hexecuted⟩ := hE.replayed p
  have hin : k - 1 < es.length := by omega
  obtain ⟨x, hx, hindex, hentry⟩ := hes _ _ (List.getElem?_eq_getElem hin)
  obtain ⟨T', l', hl', hat'⟩ := hS.attested.applied x hx
  rw [hindex, Nat.add_sub_cancel] at hat'
  obtain rfl := hl.agree hS.inv hl' hat hat'
  rw [hexecuted, List.mem_flatMap]
  exact ⟨x.entry, by rw [hentry]; exact List.getElem_mem hin, by rw [hcmd]; simp⟩

/-- The steps that keep the nodes alike. -/
def InStep (c : Cluster) (a : Action) : Prop := c.Guarded a ∧ c.SavesInTime a

instance (c : Cluster) (a : Action) : Decidable (c.InStep a) := inferInstanceAs (Decidable (c.Guarded a ∧ c.SavesInTime a))

end Cluster

end RaftVdb
