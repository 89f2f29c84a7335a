import RaftVdb.Execution

/-!
# A request is executed once

`HandleClientWrite` asks the dedup table of the leader for a request id some time before
`Propose` appends the entry, so two attempts of one request can both get through, and the
table of a new leader knows nothing of entries that it has yet to apply. A leader that
appends a write only if it neither holds nor has executed its request keeps every leader
log free of duplicates, and with it what the nodes execute.
-/

namespace RaftVdb

open Lib Leaders

namespace Cluster

variable {codec : CommandCodec} {w : Ledger} {c : Cluster} {p : String} {k : Nat} {executed : List Command}

/-- What the snapshot covers has been executed, and the rest is in the WAL. -/
theorem Executes.known (hE : c.Executes codec) (hS : Secure w c) {e : LogEntry} (he : e ∈ w.log p) :
    e ∈ (c.nodes p).log.entries ∨ ∀ cmd, e.command codec = some cmd → cmd ∈ (c.nodes p).executed := by
  obtain ⟨i, hi⟩ := List.mem_iff_getElem?.mp he
  have hnode := hS.node p
  rcases Nat.lt_or_ge i (c.nodes p).lastSnapshotIndex with hlt | hge
  · refine .inr fun cmd hcmd => hE.executed_of_sealed hS hnode.base.2 (Nat.succ_pos i) ?_ hcmd
      (hlt.trans_le (hE.node p).snapshot_le)
    rw [List.getElem?_take_of_lt (by omega), Nat.succ_sub_one]
    exact hi
  · rcases hnode.backed.holds.read_cases hge with ⟨x, hx, hread⟩ | ⟨hnone, -⟩
    · rw [hi] at hx
      cases hx
      exact .inl (IndexedLog.mem_of_read hread).1
    · rw [hi] at hnone
      cases hnone

/-- What has been executed is a front of what is committed. -/
theorem Secure.replayed (hS : Secure w c) (h : Replayed codec c.history.applied k executed) :
    ∃ es, Matches LogEntry.term w.toLeaders es ∧ executed = es.flatMap fun e => (e.command codec).toList := by
  obtain ⟨es, -, hes, hexecuted⟩ := h
  refine ⟨es, ?_, hexecuted⟩
  rcases List.eq_nil_or_concat' es with rfl | ⟨front, e, rfl⟩
  · exact .nil _
  obtain ⟨x, hx, hindex, hentry⟩ := hes front.length e (by simp)
  obtain ⟨T, l, hl, hat⟩ := hS.attested.applied x hx
  rw [hindex, Nat.add_sub_cancel] at hat
  have hfront : front ++ [e] = l.take (front.length + 1) := by
    refine List.ext_getElem? fun i => ?_
    rcases Nat.lt_or_ge i (front.length + 1) with hlt | hge
    · rw [List.getElem?_take_of_lt hlt]
      have hin : i < (front ++ [e]).length := by simpa using hlt
      have hinl : i < l.length := by
        have := (List.getElem?_eq_some_iff.mp hat).1
        omega
      obtain ⟨y, hy, hyi, hye⟩ := hes i _ (List.getElem?_eq_getElem hin)
      obtain ⟨T', l', hl', hat'⟩ := hS.attested.applied y hy
      rw [hyi, Nat.add_sub_cancel] at hat'
      rw [List.getElem?_eq_getElem hin, List.getElem?_eq_getElem hinl, ← hye]
      exact congrArg some (hl'.agree hS.inv hl hat' (List.getElem?_eq_getElem hinl))
    · rw [List.getElem?_eq_none (by simpa using hge), List.getElem?_eq_none (by rw [List.length_take]; omega)]
  rw [hfront]
  exact (hl.matches_log hS.inv).of_le (List.take_prefix _ _)

theorem Secure.requests_nodup (hS : Secure w c) (hD : w.toLeaders.Distinct (LogEntry.request codec))
    (h : Replayed codec c.history.applied k executed) : (executed.map Command.requestId).Nodup := by
  obtain ⟨es, hes, rfl⟩ := hS.replayed h
  have hkeys : (es.flatMap fun e => (e.command codec).toList).map Command.requestId = es.filterMap (LogEntry.request codec) := by
    rw [List.filterMap_eq_flatMap_toList, List.map_flatMap]
    congr 1
    funext e
    unfold LogEntry.request
    cases e.command codec <;> rfl
  rw [hkeys]
  exact hD.of_matches hes

/-- A leader appends no write whose request it holds or has executed. -/
def ProposesNew (codec : CommandCodec) (c : Cluster) : Action → Prop
  | .propose p i => ∀ e ∈ (c.nodes p).writes[i]?, ∀ id ∈ e.request codec,
      (∀ x ∈ (c.nodes p).log.entries, x.request codec ≠ some id) ∧ ∀ cmd ∈ (c.nodes p).executed, cmd.requestId ≠ id
  | _ => True

instance (codec : CommandCodec) (c : Cluster) : (a : Action) → Decidable (c.ProposesNew codec a)
  | .propose p i => inferInstanceAs (Decidable (∀ e ∈ (c.nodes p).writes[i]?, ∀ id ∈ e.request codec,
      (∀ x ∈ (c.nodes p).log.entries, x.request codec ≠ some id) ∧ ∀ cmd ∈ (c.nodes p).executed, cmd.requestId ≠ id))
  | .start _ | .startElection _ | .finishElection _ | .beginBroadcast _ | .finishBroadcast _ _ |
    .replicate _ _ | .forward _ _ | .checkMentor _ _ | .checkFollower _ _ _ | .deliver _ _ _ | .receive _ _ | .fail _ _ |
    .rebalance _ | .recoverWindows _ _ | .clientWrite _ _ | .apply _ _ | .saveSnapshot _ _ | .restart _ => isTrue trivial

/-- What a leader writes brings no request that its log has already. -/
theorem distinct_of_follows {w' : Ledger} (hS : Secure w c) (hE : c.Executes codec) {a : Action} (ha : c.ProposesNew codec a)
    (hw : c.Follows a w w') (hD : w.toLeaders.Distinct (LogEntry.request codec)) :
    w'.toLeaders.Distinct (LogEntry.request codec) := by
  refine hD.written hw.written fun l e hl hnew id hid hin => ?_
  rcases hnew with hnoop | ⟨p, i, x, index, term, rfl, hx, rfl, rfl⟩
  · rw [LogEntry.request_eq_none hnoop] at hid
    cases hid
  obtain ⟨y, hy, hyid⟩ := List.mem_filterMap.mp hin
  obtain ⟨hlog, hexecuted⟩ := ha x hx id hid
  rcases hE.known hS hy with hwal | hdone
  · exact hlog y hwal hyid
  · obtain ⟨cmd, hcmd, hcmdid⟩ := Option.map_eq_some_iff.mp hyid
    exact hexecuted cmd (hdone cmd hcmd) hcmdid

/-- The steps that execute no request twice. -/
def Once (codec : CommandCodec) (c : Cluster) (a : Action) : Prop := c.InStep a ∧ c.ProposesNew codec a

instance (codec : CommandCodec) (c : Cluster) (a : Action) : Decidable (c.Once codec a) :=
  inferInstanceAs (Decidable (c.InStep a ∧ c.ProposesNew codec a))

/-- `B` has replaced the write of `A` that was not committed. The client tries again at `B`,
and once more when the command has been executed. -/
def retried : List Action :=
  takenOver ++ [.clientWrite "B" { requestId := "x", cmdType := 2, id := 1 }, .propose "B" 0, .replicate "B" "A",
    .deliver 10 true 0, .receive 10 false, .apply "B" (.ok ()),
    .clientWrite "B" { requestId := "x", cmdType := 2, id := 1 }, .beginBroadcast "B", .deliver 11 true 0, .apply "A" (.ok ())]

end Cluster

end RaftVdb
