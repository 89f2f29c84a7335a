import RaftVdb.Answers
import RaftVdb.Service

/-!
# A logical write is carried out once

A client that is told of a success has been told by a record, behind which stands a committed
entry of its request id. The id belongs to one logical write, all attempts of which ask for
the same command. So the command is executed once on every node that gets that far, however
many of the attempts have arrived. A client that is told of a failure knows less: its write
is executed once or not at all.
-/

namespace RaftVdb

open Lib Leaders

namespace Cluster

variable {codec : CommandCodec} {w w' : Ledger} {c c' : Cluster} {a : Action} {id : String}

/-- What runs that execute no request twice keep. -/
structure Kept (codec : CommandCodec) (w : Ledger) (c : Cluster) : Prop where
  reached : Reached w c
  executes : c.Executes codec
  distinct : w.toLeaders.Distinct (LogEntry.request codec)
  answered : c.Answered
  remembers : c.Remembers codec w

theorem Kept.step (h : Kept codec w c) (ha : c.Once codec a) (hs : c.step codec a = some c') :
    ∃ w', c.Follows a w w' ∧ Kept codec w' c' := by
  have hc := h.reached
  obtain ⟨w', hw, hc'⟩ := hc.step ha.1.1 hs
  exact ⟨w', hw, hc', h.executes.step hc.configured ha.1.2 hs, distinct_of_follows hc.secure h.executes ha.2 hw h.distinct,
    (onward_of_moves h.answered (moves_of_step hs)).answered, h.remembers.step hc.secure hc.configured h.answered hw hs⟩

/-- The leaders write what is genuine. -/
theorem Genuine.ledger {R : Command → Prop} (h : c.Genuine codec R) (hw : c.Follows a w w')
    (hledger : w.toLeaders.Everywhere (LogEntry.Genuine codec R)) : w'.toLeaders.Everywhere (LogEntry.Genuine codec R) := by
  refine hledger.written hw.written fun l e hnew => ?_
  rcases hnew with hnoop | ⟨p, i, x, index, term, -, hx, -, rfl⟩
  · exact .noop hnoop
  · exact ((h.machine p).writes x (List.mem_of_getElem? hx)).stamped index term

/-- An entry of the request is committed. -/
def Assured (codec : CommandCodec) (w : Ledger) (c : Cluster) (id : String) : Prop := ∃ T k, Granted codec c.members w T id k

theorem Assured.follows (h : Assured codec w c id) (hw : c.Follows a w w') (hs : c.step codec a = some c') :
    Assured codec w' c' id := by
  obtain ⟨T, k, hgranted⟩ := h
  have hmembers : c'.members = c.members := (frame_of_moves (moves_of_step hs)).members
  unfold Assured
  rw [hmembers]
  exact ⟨T, k, granted_of_follows hw (le_refl T) hgranted⟩

theorem Kept.assured_of_check (h : Kept codec w c) {p : String} {entry : DedupEntry}
    (hcheck : (c.nodes p).dedup.check id = .alreadyCommitted entry) : Assured codec w c id := by
  unfold DedupTable.check at hcheck
  split at hcheck
  · cases hcheck
  split at hcheck
  · next hfind hcommitted => exact ⟨_, _, (h.remembers.node p).table id _ hfind hcommitted⟩
  · cases hcheck

theorem Kept.assured_of_reply (h : Kept codec w c) {p : String} {r : ClientWriteRequest} {response : ClientWriteResponse}
    (hreply : (c.nodes p).checkClientWrite codec r = .reply response) (hsuccess : response.success = true) :
    Assured codec w c r.requestId := by
  obtain ⟨entry, hfind, hcommitted⟩ := committed_of_reply hreply hsuccess
  exact ⟨_, _, (h.remembers.node p).table r.requestId entry hfind hcommitted⟩

end Cluster

namespace Service

variable {codec : CommandCodec} {w : Ledger} {s s' : Service}

/-- The steps of the cluster execute no request twice. -/
def Orderly (codec : CommandCodec) (s : Service) : ServiceAction → Prop
  | .cluster a => s.cluster.Once codec a
  | _ => True

instance (codec : CommandCodec) (s : Service) : (a : ServiceAction) → Decidable (s.Orderly codec a)
  | .cluster a => inferInstanceAs (Decidable (s.cluster.Once codec a))
  | .call _ _ _ | .handle _ | .wake _ | .refuse _ _ | .receive _ _ | .lose _ _ => isTrue trivial

/-- Some client has asked for the command. -/
def Asked (s : Service) (cmd : Command) : Prop := ∃ issue ∈ s.issues, issue.command = cmd

theorem Asked.mono (h : s.issues <+: s'.issues) (cmd : Command) (hcmd : s.Asked cmd) : s'.Asked cmd := by
  obtain ⟨issue, hissue, heq⟩ := hcmd
  exact ⟨issue, h.subset hissue, heq⟩

/-- A success that a handler or a client knows of is assured. -/
structure Tells (codec : CommandCodec) (w : Ledger) (s : Service) : Prop where
  stage : ∀ i rpc response, s.rpcs[i]? = some rpc → s.stages i = .answered response → response.success = true →
    s.cluster.Assured codec w rpc.request.requestId
  result : ∀ op, (s.retries op).result = some (.ok ()) →
    ∃ issue, s.issues[op]? = some issue ∧ s.cluster.Assured codec w issue.requestId

theorem Tells.cluster {w' : Ledger} {c' : Cluster} {a : Action} (h : s.Tells codec w) (hw : s.cluster.Follows a w w')
    (hs : s.cluster.step codec a = some c') : Tells codec w' { s with cluster := c' } where
  stage i rpc response hrpc hstage hsuccess := (h.stage i rpc response hrpc hstage hsuccess).follows hw hs
  result op hresult := by
    obtain ⟨issue, hissue, hassured⟩ := h.result op hresult
    exact ⟨issue, hissue, hassured.follows hw hs⟩

theorem Tells.stages (h : s.Tells codec w) {stages : Nat → RpcStage}
    (hstages : ∀ i response, stages i = .answered response → response.success = true →
      s.stages i = .answered response ∨ ∀ rpc ∈ s.rpcs[i]?, s.cluster.Assured codec w rpc.request.requestId) :
    Tells codec w { s with stages } where
  stage i rpc response hrpc hstage hsuccess := by
    rcases hstages i response hstage hsuccess with hold | hnew
    · exact h.stage i rpc response hrpc hold hsuccess
    · exact hnew rpc hrpc
  result := h.result

theorem Tells.setStage (h : s.Tells codec w) {i : Nat} {rpc : WriteRpc} (hrpc : s.rpcs[i]? = some rpc) {stage : RpcStage}
    (hnew : ∀ response, stage = .answered response → response.success = true → s.cluster.Assured codec w rpc.request.requestId) :
    (s.setStage i stage).Tells codec w := by
  refine h.stages fun j response hstage hsuccess => ?_
  by_cases hj : j = i
  · subst hj
    rw [Function.update_self] at hstage
    refine .inr fun x hx => ?_
    cases hrpc.symm.trans hx
    exact hnew response hstage hsuccess
  · rw [Function.update_of_ne hj] at hstage
    exact .inl hstage

theorem Tells.enter (h : s.Tells codec w) (issue : Issue) : (s.enter issue).Tells codec w where
  stage := h.stage
  result op hresult := by
    obtain ⟨x, hx, hassured⟩ := h.result op hresult
    exact ⟨x, List.getElem?_append_left (List.getElem?_eq_some_iff.mp hx).1 ▸ hx, hassured⟩

theorem Tells.retry (h : s.Tells codec w) {op : Nat} {r : RetryState} (hnew : r.result = some (.ok ()) →
      ∃ issue, s.issues[op]? = some issue ∧ s.cluster.Assured codec w issue.requestId) :
    Tells codec w { s with retries := Function.update s.retries op r } where
  stage := h.stage
  result i hresult := by
    dsimp only at hresult
    by_cases hi : i = op
    · subst hi
      rw [Function.update_self] at hresult
      exact hnew hresult
    · rw [Function.update_of_ne hi] at hresult
      exact h.result i hresult

/-- A new RPC has no answer yet. -/
theorem Tells.send (h : s.Tells codec w) {op : Nat} {issue : Issue} {r : RetryState} (hnew : r.result = some (.ok ()) →
      ∃ issue, s.issues[op]? = some issue ∧ s.cluster.Assured codec w issue.requestId) :
    (s.send op issue r).Tells codec w where
  stage i rpc response hrpc hstage hsuccess := by
    have hi : i ≠ s.rpcs.length := by
      rintro rfl
      have hstage : Function.update s.stages s.rpcs.length .sent s.rpcs.length = _ := hstage
      rw [Function.update_self] at hstage
      cases hstage
    have hstage : Function.update s.stages s.rpcs.length .sent i = _ := hstage
    rw [Function.update_of_ne hi] at hstage
    have hrpc : (s.rpcs ++ [_])[i]? = some rpc := hrpc
    have hlt := (List.getElem?_eq_some_iff.mp hrpc).1
    rw [List.length_append, List.length_singleton] at hlt
    rw [List.getElem?_append_left (by omega)] at hrpc
    exact h.stage i rpc response hrpc hstage hsuccess
  result := (h.retry hnew).result

/-- What orderly runs of the service keep. -/
structure Carried (codec : CommandCodec) (w : Ledger) (s : Service) : Prop where
  kept : s.cluster.Kept codec w
  genuine : s.cluster.Genuine codec s.Asked
  ledger : w.toLeaders.Everywhere (LogEntry.Genuine codec s.Asked)
  tells : s.Tells codec w

theorem Carried.step (h : s.Carried codec w) (hN : s.Numbered) (hcodec : ∀ issue ∈ s.issues, codec.Faithful issue.command)
    {a : ServiceAction} (ha : s.Orderly codec a) (hs : s.step codec a = some s') :
    ∃ w', s'.Carried codec w' ∧ ∀ T l, s.cluster.members.Sealed w T l → s'.cluster.members.Sealed w' T l := by
  have hmore := Asked.mono (issues_le_of_step hs)
  have hcfg := h.kept.reached.configured
  cases moves_of_step hs with
  | @cluster a c' stages hclient hc hstages =>
    obtain ⟨w', hw, hkept⟩ := h.kept.step ha hc
    refine ⟨w', ⟨hkept, h.genuine.step hcfg (fun p r e ha _ => absurd ha (hclient p r)) hc, h.genuine.ledger hw h.ledger,
      (h.tells.cluster hw hc).stages fun i response hstage _ => .inl (hstages i response hstage)⟩, fun T l hl => ?_⟩
    rw [show c'.members = s.cluster.members from (Cluster.frame_of_moves (Cluster.moves_of_step hc)).members]
    exact hw.sealed T l hl
  | rejected => exact ⟨w, h, fun _ _ => id⟩
  | failed err =>
    exact ⟨w, ⟨h.kept, h.genuine.mono hmore, h.ledger.mono fun _ => .mono hmore, (h.tells.enter _).retry fun herr => by cases herr⟩,
      fun _ _ => id⟩
  | begun target =>
    exact ⟨w, ⟨h.kept, h.genuine.mono hmore, h.ledger.mono fun _ => .mono hmore, (h.tells.enter _).send fun hnone => by cases hnone⟩,
      fun _ _ => id⟩
  | @handled i rpc c' stage hrpc hc hstage =>
    have honce : s.cluster.Once codec (.clientWrite rpc.target rpc.request) := ⟨⟨⟨trivial, trivial⟩, trivial⟩, trivial⟩
    obtain ⟨w', hw, hkept⟩ := h.kept.step honce hc
    refine ⟨w', ⟨hkept, h.genuine.step hcfg (fun p r e heq hcheck cmd hcmd => ?_) hc, h.genuine.ledger hw h.ledger,
      (h.tells.cluster hw hc).setStage hrpc fun response heq hsuccess =>
        (h.kept.assured_of_reply (hstage response heq) hsuccess).follows hw hc⟩, fun T l hl => ?_⟩
    · -- the request is that of a logical write
      cases heq
      obtain ⟨issue, hissue, hrequest⟩ := hN.rpc rpc (List.mem_of_getElem? hrpc)
      have hissue := List.mem_of_getElem? hissue
      have hcommand := issue.request_command
      rw [← hrequest] at hcommand
      rw [Node.command_of_propose hcheck (fun x hx => by cases hcommand.symm.trans hx; exact hcodec issue hissue), hcommand] at hcmd
      exact ⟨issue, hissue, Option.some.inj hcmd⟩
    · show c'.members.Sealed w' T l
      rw [show c'.members = s.cluster.members from (Cluster.frame_of_moves (Cluster.moves_of_step hc)).members]
      exact hw.sealed T l hl
  | answered hrpc hresponse =>
    refine ⟨w, ⟨h.kept, h.genuine, h.ledger, h.tells.setStage hrpc fun response heq hsuccess => ?_⟩, fun _ _ => id⟩
    cases heq
    obtain ⟨entry, hcheck⟩ := hresponse hsuccess
    exact h.kept.assured_of_check hcheck
  | @settled a op issue answer pick hissue hanswer =>
    rcases s.settle_cases op issue answer pick with ⟨response, hok, hsuccess, heq⟩ | ⟨err, heq⟩ | ⟨target, -, heq⟩
    · have hassured : s.cluster.Assured codec w issue.requestId := by
        obtain ⟨i, rpc, hrpc, rfl, hstage⟩ := hanswer response hok
        obtain ⟨x, hx, hrequest⟩ := hN.rpc rpc (List.mem_of_getElem? hrpc)
        cases hx.symm.trans hissue
        have := h.tells.stage i rpc response hrpc hstage hsuccess
        rwa [hrequest, Issue.request_requestId] at this
      have htells : Tells codec w { s with
          retries := Function.update s.retries op { s.retries op with result := some (.ok ()) } } :=
        h.tells.retry fun _ => ⟨issue, hissue, hassured⟩
      rw [heq]
      exact ⟨w, ⟨h.kept, h.genuine, h.ledger, htells.stage, htells.result⟩, fun _ _ => id⟩
    · rw [heq]
      exact ⟨w, ⟨h.kept, h.genuine, h.ledger, h.tells.retry fun herr => by cases herr⟩, fun _ _ => id⟩
    · rw [heq]
      exact ⟨w, ⟨h.kept, h.genuine, h.ledger, h.tells.send (h.tells.result op)⟩, fun _ _ => id⟩

/-- What is carried is carried on by an orderly run, and what is committed stays so. -/
theorem Carried.run {s₀ : Service} {w₀ : Ledger} (hN₀ : s₀.Numbered) (h₀ : s₀.Carried codec w₀) {schedule : List ServiceAction}
    (h : Transition.run (Transition.restrict (Orderly codec) (Service.step codec)) s₀ schedule = some s)
    (hlen : s.issues.length < 2 ^ 64) (hcodec : ∀ issue ∈ s.issues, codec.Faithful issue.command) :
    s.Numbered ∧ ∃ w, s.Carried codec w ∧ ∀ T l, s₀.cluster.members.Sealed w₀ T l → s.cluster.members.Sealed w T l := by
  refine Transition.run_invariant (fun s => s.issues.length < 2 ^ 64 → (∀ issue ∈ s.issues, codec.Faithful issue.command) →
      s.Numbered ∧ ∃ w, s.Carried codec w ∧ ∀ T l, s₀.cluster.members.Sealed w₀ T l → s.cluster.members.Sealed w T l)
    (fun s a s' hs hstep hlen hcodec => ?_) (fun _ _ => ⟨hN₀, w₀, h₀, fun _ _ => id⟩) h hlen hcodec
  obtain ⟨ha, hstep⟩ := Transition.restrict_eq_some.mp hstep
  have hissues := issues_le_of_step hstep
  have hcodec := fun issue hissue => hcodec issue (hissues.subset hissue)
  obtain ⟨hN, w, hC, hold⟩ := hs (lt_of_le_of_lt hissues.length_le hlen) hcodec
  obtain ⟨w', hC', hsealed⟩ := hC.step hN hcodec ha hstep
  exact ⟨hN.step hstep hlen, w', hC', fun T l hl => hsealed T l (hold T l hl)⟩

theorem Carried.nodup (h : s.Carried codec w) (p : String) : ((s.cluster.nodes p).executed.map Command.requestId).Nodup :=
  h.kept.reached.secure.requests_nodup h.kept.distinct (h.kept.executes.replayed p)

end Service

end RaftVdb
