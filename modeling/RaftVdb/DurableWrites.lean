import RaftVdb.Records

/-!
# An acknowledged write is durable

`HandleClientWrite` answers with success only what the dedup table has as committed. Behind
each such record stands an entry that was committed by the term of the node. Later leaders
have it, and every node that gets that far executes it.
-/

namespace RaftVdb

open Lib

/-- An entry of the request was committed at the index by the term. -/
def Granted (codec : CommandCodec) (m : Members) (w : Ledger) (T : Nat) (id : String) (k : Nat) : Prop :=
  ∃ l e, m.Sealed w T l ∧ 0 < k ∧ l[k - 1]? = some e ∧ e.request codec = some id

namespace Cluster

variable {codec : CommandCodec} {w w' : Ledger} {c c' : Cluster} {p : String}

theorem granted_of_follows {a : Action} (hw : c.Follows a w w') {T T' : Nat} (hle : T ≤ T') {id : String} {k : Nat}
    (h : Granted codec c.members w T id k) : Granted codec c.members w' T' id k := by
  obtain ⟨l, e, hl, hpos, hat, hid⟩ := h
  exact ⟨l, e, (hw.sealed T l hl).mono hle, hpos, hat, hid⟩

/-- Behind every committed record, also of a snapshot on its way, stands a committed entry. -/
def Remembers (codec : CommandCodec) (w : Ledger) (c : Cluster) : Prop :=
  c.Vouched fun T id k _ => Granted codec c.members w T id k

theorem Remembers.step (h : c.Remembers codec w) (hS : Secure w c) (hcfg : c.Configured) (hanswered : c.Answered) {a : Action}
    (hw : c.Follows a w w') (hs : c.step codec a = some c') : c'.Remembers codec w' := by
  have hmembers : c'.members = c.members := (frame_of_moves (moves_of_step hs)).members
  have hterm := (onward_of_moves hanswered (moves_of_step hs)).term
  unfold Remembers
  rw [hmembers]
  refine Vouched.step h hcfg hanswered hs (fun T T' hle id k _ => granted_of_follows hw hle)
    fun p outcome e cmd _ hlt hread hcmd => granted_of_follows hw (hterm p) ?_
  obtain ⟨l, hl, hat⟩ := hS.sealed_read hread hlt
  exact ⟨l, e, hl, Nat.succ_pos _, hat, by rw [LogEntry.request, hcmd]; rfl⟩

/-- A write is answered with success only from the table. -/
theorem committed_of_reply {n : Node} {r : ClientWriteRequest} {resp : ClientWriteResponse}
    (h : n.checkClientWrite codec r = .reply resp) (hok : resp.success = true) :
    ∃ entry, n.dedup.table.find? r.requestId = some entry ∧ entry.committed = true := by
  unfold Node.checkClientWrite at h
  split at h
  · cases h
    cases hok
  split at h
  · cases h
    cases hok
  split at h
  · next entry hcheck =>
    unfold DedupTable.check at hcheck
    split at hcheck
    · cases hcheck
    split at hcheck
    · next hfind hcommitted => exact ⟨_, hfind, hcommitted⟩
    · cases hcheck
  · cases h
  split at h
  · split at h
    · cases h
      cases hok
    split at h
    · cases h
      cases hok
    · cases h
  split at h
  · cases h
  · cases h
    cases hok

/-- `A` has acknowledged a write that `B` holds, but has yet to commit. -/
def acknowledged : List Action :=
  mentorServed ++ [.receive 3 false, .clientWrite "A" { requestId := "x", cmdType := 2, id := 1 }, .propose "A" 0,
    .replicate "A" "B", .deliver 4 true 0, .receive 4 false, .apply "A" (.ok ()), .apply "A" (.ok ())]

end Cluster

end RaftVdb
