import RaftVdb.AtMostOnce
import RaftVdb.DurableWrites
import RaftVdb.VectorIndex

/-!
# One answer to a request

`ApplyCommittedEntries` records how the vector index took a command, and a retry is answered
from that record, at whatever node and however late. A vector index goes by the commands
that were executed on it, and these are the same for every node that gets to the entry. So
all nodes record the same, and what a client has once been told it is told again.
-/

namespace RaftVdb

open Lib Leaders

/-- The request was executed at the index, after what had been executed by then, and this is
how the vector index took it. -/
def Settled (codec : CommandCodec) (index : List Command → Command → Except String Unit) (applied : List Applied) :
    RecordProperty := fun id k answer =>
  ∃ j before x cmd, k = j + 1 ∧ Replayed codec applied j before ∧ x ∈ applied ∧ x.index = j + 1 ∧
    x.entry.command codec = some cmd ∧ cmd.requestId = id ∧ answer = recorded (index before cmd)

section

variable {codec : CommandCodec} {index : List Command → Command → Except String Unit} {applied applied' : List Applied}
  {id : String} {k k' : Nat} {answer answer' : Bool × String}

theorem Settled.mono (h : Settled codec index applied id k answer) (hsub : applied ⊆ applied') :
    Settled codec index applied' id k answer := by
  obtain ⟨j, before, x, cmd, hk, hbefore, hx, hrest⟩ := h
  exact ⟨j, before, x, cmd, hk, hbefore.mono hsub, hsub hx, hrest⟩

/-- Where no request is executed twice, it is settled at one index. -/
theorem Settled.not_lt (hagree : ∀ x ∈ applied, ∀ y ∈ applied, x.index = y.index → x.entry = y.entry)
    (hnodup : ∀ k executed, Replayed codec applied k executed → (executed.map Command.requestId).Nodup)
    (h : Settled codec index applied id k answer) (h' : Settled codec index applied id k' answer') : ¬ k < k' := by
  obtain ⟨j, before, x, cmd, rfl, hbefore, hx, hindex, hcmd, hid, -⟩ := h
  obtain ⟨j', before', x', cmd', rfl, hbefore', hx', hindex', hcmd', hid', -⟩ := h'
  intro hlt
  have hnext := hbefore.next hx hindex
  have hnext' := hbefore'.next hx' hindex'
  rw [hcmd, Option.toList_some] at hnext
  rw [hcmd', Option.toList_some] at hnext'
  -- the first execution is among those before the second one
  have hin : cmd ∈ before' := (hnext.le hagree hbefore' (Nat.lt_succ_iff.mp hlt)).subset (by simp)
  have honce := hnodup _ _ hnext'
  rw [List.map_append, List.nodup_append_comm] at honce
  refine (List.nodup_cons.mp honce).1 ?_
  rw [hid', ← hid]
  exact List.mem_map_of_mem hin

theorem Settled.agree (hagree : ∀ x ∈ applied, ∀ y ∈ applied, x.index = y.index → x.entry = y.entry)
    (hnodup : ∀ k executed, Replayed codec applied k executed → (executed.map Command.requestId).Nodup)
    (h : Settled codec index applied id k answer) (h' : Settled codec index applied id k' answer') :
    k = k' ∧ answer = answer' := by
  have hlt := Settled.not_lt hagree hnodup h h'
  have hgt := Settled.not_lt hagree hnodup h' h
  obtain ⟨j, before, x, cmd, rfl, hbefore, hx, hindex, hcmd, -, rfl⟩ := h
  obtain ⟨j', before', x', cmd', rfl, hbefore', hx', hindex', hcmd', -, rfl⟩ := h'
  obtain rfl : j = j' := by omega
  have hsame : before = before' :=
    List.IsPrefix.eq_of_length_le (hbefore.le hagree hbefore' (le_refl _)) (hbefore'.le hagree hbefore (le_refl _)).length_le
  rw [hagree x hx x' hx' (hindex.trans hindex'.symm), hcmd'] at hcmd
  cases hcmd
  rw [hsame]
  exact ⟨rfl, rfl⟩

end

namespace Cluster

variable {codec : CommandCodec} {index : List Command → Command → Except String Unit} {w w' : Ledger} {c c' : Cluster}

/-- The vector index takes a command as it does after those executed on it. -/
def Indexed (codec : CommandCodec) (index : List Command → Command → Except String Unit) (c : Cluster) : Action → Prop
  | .apply p outcome => ∀ e ∈ ((c.nodes p).log.read ((c.nodes p).appliedIndex + 1)).toOption, ∀ cmd ∈ e.command codec,
      outcome = index (c.nodes p).executed cmd
  | _ => True

instance (codec : CommandCodec) (index : List Command → Command → Except String Unit) (c : Cluster) :
    (a : Action) → Decidable (c.Indexed codec index a)
  | .apply p outcome => inferInstanceAs (Decidable (∀ e ∈ ((c.nodes p).log.read ((c.nodes p).appliedIndex + 1)).toOption,
      ∀ cmd ∈ e.command codec, outcome = index (c.nodes p).executed cmd))
  | .start _ | .startElection _ | .finishElection _ | .beginBroadcast _ | .finishBroadcast _ _ |
    .replicate _ _ | .forward _ _ | .checkMentor _ _ | .checkFollower _ _ _ | .deliver _ _ _ | .receive _ _ | .fail _ _ |
    .rebalance _ | .recoverWindows _ _ | .clientWrite _ _ | .propose _ _ | .saveSnapshot _ _ | .restart _ => isTrue trivial

/-- The steps that settle each request once. -/
def Settling (codec : CommandCodec) (index : List Command → Command → Except String Unit) (c : Cluster) (a : Action) : Prop :=
  c.Once codec a ∧ c.Indexed codec index a

instance (codec : CommandCodec) (index : List Command → Command → Except String Unit) (c : Cluster) (a : Action) :
    Decidable (c.Settling codec index a) := inferInstanceAs (Decidable (c.Once codec a ∧ c.Indexed codec index a))

/-- Every committed record, also of a snapshot on its way, is of a request that was settled so. -/
structure Settles (codec : CommandCodec) (index : List Command → Command → Except String Unit) (w : Ledger) (c : Cluster) :
    Prop where
  executes : c.Executes codec
  distinct : w.toLeaders.Distinct (LogEntry.request codec)
  answered : c.Answered
  vouched : c.Vouched fun _ => Settled codec index c.history.applied

theorem Settles.step (h : c.Settles codec index w) (hc : Reached w c) {a : Action} (ha : c.Settling codec index a)
    (hw : c.Follows a w w') (hs : c.step codec a = some c') : c'.Settles codec index w' where
  executes := h.executes.step hc.configured ha.1.1.2 hs
  distinct := distinct_of_follows hc.secure h.executes ha.1.2 hw h.distinct
  answered := (onward_of_moves h.answered (moves_of_step hs)).answered
  vouched := by
    have hsub := applied_subset_of_step hs
    refine h.vouched.step hc.configured h.answered hs (fun _ _ _ _ _ _ hsettled => hsettled.mono hsub)
      fun p outcome e cmd happly _ hread hcmd => ?_
    subst happly
    have houtcome := ha.2 e (by rw [hread]; rfl) cmd hcmd
    rw [houtcome]
    exact ⟨_, _, _, cmd, rfl, (h.executes.replayed p).mono hsub, mem_applied_of_step hs hread, rfl, hcmd, rfl, rfl⟩

theorem Settles.agree (h : c.Settles codec index w) (hS : Secure w c) {id : String} {k k' : Nat} {answer answer' : Bool × String}
    (hsettled : Settled codec index c.history.applied id k answer)
    (hsettled' : Settled codec index c.history.applied id k' answer') : k = k' ∧ answer = answer' :=
  hsettled.agree (fun _ hx _ hy => hS.applied_agree hx hy) (fun _ _ => hS.requests_nodup h.distinct) hsettled'

end Cluster

end RaftVdb
