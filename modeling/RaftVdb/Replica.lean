import RaftVdb.FullLog
import RaftVdb.MatchIndex

/-!
# A node in the ledger

A ledger keeps the whole log of every node beside the votes and acknowledgements of the
cluster. `Replica` says what the fields of a node stand for in it: its WAL and its snapshot
are a piece of its log, its commit index and its snapshots end in what is committed, a
leader has the log of its term, and the match indexes of a leader are acknowledgements of
that log. Each operation of a node is a few steps of the ledger.
-/

namespace RaftVdb

open Lib LogRepair Leaders

abbrev Ledger := World String LogEntry

/-- A node has taken over a log. -/
def Ledger.accept (w : Ledger) (p : String) (l : List LogEntry) : Ledger := { w with log := Function.update w.log p l }

/-- A node has learnt of a term. -/
def Ledger.adopt (w : Ledger) (p : String) (t : Nat) : Ledger := { w with term := Function.update w.term p t }

/-- A node has acknowledged its log. -/
def Ledger.acknowledge (w : Ledger) (p : String) : Ledger :=
  { w with acked := fun q T f => (q = p ∧ T = w.term p ∧ f <+: w.log p) ∨ w.acked q T f }

/-- A node stands in a term. -/
def Ledger.stand (w : Ledger) (p : String) (t : Nat) : Ledger :=
  { w with
    term := Function.update w.term p t
    stood := fun q T l => (q = p ∧ T = t ∧ l = w.log p) ∨ w.stood q T l
    voted := fun q T c l => (q = p ∧ T = t ∧ c = p ∧ l = w.log p) ∨ w.voted q T c l }

/-- A node has won its term. -/
def Ledger.elect (w : Ledger) (p : String) : Ledger := { w with toLeaders := w.toLeaders.elect (w.term p) (w.log p) }

/-- A leader has written an entry. -/
def Ledger.extend (w : Ledger) (p : String) (e : LogEntry) : Ledger :=
  { w with
    toLeaders := w.toLeaders.extend (w.term p) e
    log := Function.update w.log p (w.log p ++ [e]) }

namespace Members

variable (m : Members)

abbrev Inv (w : Ledger) : Prop := World.Inv LogEntry.term (majority m.ids) w
abbrev Steps (p : String) (w w' : Ledger) : Prop := World.Steps LogEntry.term (majority m.ids) p w w'
abbrev Sealed (w : Ledger) (T : Nat) (l : List LogEntry) : Prop := World.Sealed LogEntry.term (majority m.ids) w T l
abbrev Upheld (w : Ledger) (T : Nat) (l : List LogEntry) : Prop := World.Upheld LogEntry.term (majority m.ids) w T l
abbrev SealedTo (w : Ledger) (T : Nat) (l : List LogEntry) (k : Nat) : Prop :=
  World.SealedTo LogEntry.term (majority m.ids) w T l k

/-- The only member is in every quorum. -/
theorem self_of_majority {m : Members} {p : String} (hsolo : normalizePeers p m.ids = [])
    {A : String → Prop} (h : IsMajority m.ids A) : A p := by
  obtain ⟨voters, -, hsub, hlen, hA⟩ := h
  obtain ⟨v, hv⟩ := List.exists_mem_of_length_pos (show 0 < voters.length by omega)
  by_cases hvp : v = p
  · exact hvp ▸ hA v hv
  · have hin : v ∈ normalizePeers p m.ids :=
      mem_normalizePeers.mpr ⟨hsub hv, fun he => m.named (he ▸ hsub hv), hvp⟩
    rw [hsolo] at hin
    cases hin

/-- The only member is a quorum. -/
theorem majority_self {m : Members} {p : String} (hp : p ∈ m.ids) (hsolo : normalizePeers p m.ids = [])
    {A : String → Prop} (h : A p) : IsMajority m.ids A := by
  have hlen := length_normalizePeers hp
  rw [hsolo, List.length_nil] at hlen
  refine ⟨[p], List.nodup_singleton p, List.cons_subset.mpr ⟨hp, List.nil_subset _⟩, ?_, ?_⟩
  · rw [← hlen]
    exact Nat.le_refl 1
  · exact List.forall_mem_singleton.mpr h

end Members

namespace Ledger

variable {m : Members} (w : Ledger) (p : String)

theorem steps_adopt {p : String} {t : Nat} (hle : w.term p ≤ t) : m.Steps p w (w.adopt p t) := .single (.adopt t hle)

theorem term_adopt (t : Nat) : (w.adopt p t).term p = t := Function.update_self ..

theorem log_accept (l : List LogEntry) : (w.accept p l).log p = l := Function.update_self ..

theorem adopt_self : w.adopt p (w.term p) = w := by
  unfold adopt
  rw [Function.update_eq_self]

end Ledger

namespace Node

/-- The entries up to the match index of a peer are committed, or the peer has acknowledged
them to this leader. -/
def Confirmed (m : Members) (w : Ledger) (p : String) (T : Nat) (l : List LogEntry) (q : String) (k : Nat) : Prop :=
  m.SealedTo w T l k ∨ (q ∈ m.ids ∧ q ≠ p ∧ k ≤ l.length ∧ w.acked q T (l.take k))

/-- The log, the snapshot and the commit index. -/
structure Stored (m : Members) (w : Ledger) (p : String) (n : Node) : Prop where
  term : w.term p = n.currentTerm
  backed : n.Retains (w.log p)
  snapshotIndex : n.lastSnapshotIndex = (n.snapshot.map Snapshot.raftIndex).getD 0
  snapshotTerm : n.lastSnapshotTerm = (n.snapshot.map Snapshot.raftTerm).getD 0
  saved : ∀ s ∈ n.snapshot, 0 < s.raftIndex
  commit : m.SealedTo w n.currentTerm (w.log p) n.commitIndex
  base : m.SealedTo w n.currentTerm (w.log p) n.lastSnapshotIndex
  task : ∀ t ∈ n.snapshotTask, 0 < t.snapshotIndex ∧ m.SealedTo w n.currentTerm (w.log p) t.snapshotIndex

/-- The part in the elections; `led` are the nodes that have led a term. -/
structure Ranked (m : Members) (w : Ledger) (led : List (String × Nat)) (p : String) (n : Node) : Prop where
  leads : n.state = .leader → (p, n.currentTerm) ∈ led ∧ w.log p = w.leaderLog n.currentTerm ∧
    w.acked p n.currentTerm (w.log p)
  rows : n.state = .leader → ∀ q, Confirmed m w p n.currentTerm (w.log p) q (matchIndexOf n.progress q)
  led_le : ∀ T, (p, T) ∈ led → T ≤ n.currentTerm
  led_state : (p, n.currentTerm) ∈ led → n.state ≠ .candidate
  stands : n.state = .candidate → n.currentTerm ≠ 0 ∧ w.stood p n.currentTerm (w.log p)
  forwards : n.config.peers = [] → n.forwards = []
  soloLed : n.config.peers = [] → (p, n.currentTerm) ∈ led → w.log p = w.leaderLog n.currentTerm
  soloStood : n.config.peers = [] → (p, n.currentTerm) ∉ led → ∀ l, w.stood p n.currentTerm l → l = w.log p

structure Replica (m : Members) (w : Ledger) (led : List (String × Nat)) (p : String) (n : Node) : Prop
    extends Stored m w p n, Ranked m w led p n

variable {m : Members} {w w' : Ledger} {led led' : List (String × Nat)} {p : String} {n n' : Node}

/-- A node over an empty directory. -/
theorem Replica.create (m : Members) (p : String) (config : Config) :
    Replica m (World.initial String LogEntry) [] p (Node.create config {} {} none) where
  term := rfl
  backed := {
    holds := {
      ordered := ⟨List.Pairwise.nil, fun e he => by cases he⟩
      anchored := fun e he => by cases he
      last := rfl
      indexed := fun i e he => by cases he
      covered := fun h => absurd h (Nat.lt_irrefl 0)
      behind := fun i _ => rfl }
    excerpt := fun e he => by cases he
    dense := fun e he => by cases he }
  snapshotIndex := rfl
  snapshotTerm := rfl
  saved s hs := by cases hs
  commit := .zero _ _
  base := .zero _ _
  task t ht := by cases ht
  leads hs := by cases hs
  rows hs := by cases hs
  led_le T hT := by cases hT
  led_state hT := by cases hT
  stands hs := by cases hs
  forwards _ := rfl
  soloLed _ hT := by cases hT
  soloStood _ _ l hl := hl.elim

/-! ## Frames -/

theorem Confirmed.onward {T k : Nat} {l : List LogEntry} {q r : String} (h : Confirmed m w p T l q k)
    (ho : World.Onward LogEntry.term r w w') : Confirmed m w' p T l q k :=
  h.imp (fun hs => hs.onward ho) fun ⟨hq, hne, hk, hack⟩ => ⟨hq, hne, hk, ho.acked q T _ hack⟩

theorem Stored.onward (h : Stored m w p n) {q : String} (ho : World.Onward LogEntry.term q w w')
    (hterm : w'.term p = w.term p) (hlog : w'.log p = w.log p) : Stored m w' p n where
  term := hterm.trans h.term
  backed := by rw [hlog]; exact h.backed
  snapshotIndex := h.snapshotIndex
  snapshotTerm := h.snapshotTerm
  saved := h.saved
  commit := by rw [hlog]; exact h.commit.onward ho
  base := by rw [hlog]; exact h.base.onward ho
  task := by
    rw [hlog]
    exact fun t ht => ⟨(h.task t ht).1, (h.task t ht).2.onward ho⟩

/-- The ledger has moved on, and nothing of it concerns the node. -/
theorem Replica.onward (h : Replica m w led p n) {q : String} (ho : World.Onward LogEntry.term q w w')
    (hterm : w'.term p = w.term p) (hlog : w'.log p = w.log p) (hstood : ∀ T l, w'.stood p T l → w.stood p T l)
    (hled : ∀ T, (p, T) ∈ led' ↔ (p, T) ∈ led) (hsame : ∀ T, (p, T) ∈ led → w'.leaderLog T = w.leaderLog T) :
    Replica m w' led' p n where
  toStored := h.toStored.onward ho hterm hlog
  leads hs := by
    obtain ⟨hin, hown, hack⟩ := h.leads hs
    rw [hlog, hsame _ hin]
    exact ⟨(hled _).mpr hin, hown, ho.acked _ _ _ hack⟩
  rows hs q := by
    rw [hlog]
    exact (h.rows hs q).onward ho
  led_le T hT := h.led_le T ((hled T).mp hT)
  led_state hT := h.led_state ((hled _).mp hT)
  stands hs := by
    rw [hlog]
    exact ⟨(h.stands hs).1, ho.stood _ _ _ (h.stands hs).2⟩
  forwards := h.forwards
  soloLed hp hT := by
    have hin := (hled _).mp hT
    rw [hlog, hsame _ hin]
    exact h.soloLed hp hin
  soloStood hp hT l hl := by
    rw [hlog]
    exact h.soloStood hp (fun hin => hT ((hled _).mpr hin)) l (hstood _ l hl)

/-- Another node has done something. -/
theorem Replica.others (h : Replica m w led p n) {q : String} (hq : p ≠ q) (ho : World.Onward LogEntry.term q w w')
    (hled : ∀ T, (p, T) ∈ led' ↔ (p, T) ∈ led) (hsame : ∀ T, (p, T) ∈ led → w'.leaderLog T = w.leaderLog T) :
    Replica m w' led' p n :=
  h.onward ho (ho.others p hq).1 (ho.others p hq).2 (fun T l => ho.stood_others p T l hq) hled hsame

theorem Stored.congr (h : Stored m w p n) (hterm : n'.currentTerm = n.currentTerm) (hlog : n'.log = n.log)
    (hindex : n'.lastSnapshotIndex = n.lastSnapshotIndex) (hsnapTerm : n'.lastSnapshotTerm = n.lastSnapshotTerm)
    (hsnapshot : n'.snapshot = n.snapshot) (hcommit : m.SealedTo w n.currentTerm (w.log p) n'.commitIndex)
    (htask : ∀ t ∈ n'.snapshotTask, 0 < t.snapshotIndex ∧ m.SealedTo w n.currentTerm (w.log p) t.snapshotIndex) :
    Stored m w p n' where
  term := h.term.trans hterm.symm
  backed := h.backed.congr hlog hindex hsnapTerm
  snapshotIndex := by rw [hindex, hsnapshot]; exact h.snapshotIndex
  snapshotTerm := by rw [hsnapTerm, hsnapshot]; exact h.snapshotTerm
  saved := by rw [hsnapshot]; exact h.saved
  commit := by rw [hterm]; exact hcommit
  base := by rw [hterm, hindex]; exact h.base
  task := by rw [hterm]; exact htask

/-- Only these fields matter. -/
theorem Replica.congr (h : Replica m w led p n) (hterm : n'.currentTerm = n.currentTerm) (hlog : n'.log = n.log)
    (hindex : n'.lastSnapshotIndex = n.lastSnapshotIndex) (hsnapTerm : n'.lastSnapshotTerm = n.lastSnapshotTerm)
    (hsnapshot : n'.snapshot = n.snapshot) (hcommit : m.SealedTo w n.currentTerm (w.log p) n'.commitIndex)
    (htask : ∀ t ∈ n'.snapshotTask, 0 < t.snapshotIndex ∧ m.SealedTo w n.currentTerm (w.log p) t.snapshotIndex)
    (hstate : n'.state = n.state)
    (hrows : n.state = .leader → ∀ q, Confirmed m w p n.currentTerm (w.log p) q (matchIndexOf n'.progress q))
    (hpeers : n'.config.peers = n.config.peers) (hforwards : n.config.peers = [] → n.forwards = [] → n'.forwards = []) :
    Replica m w led p n' where
  toStored := h.toStored.congr hterm hlog hindex hsnapTerm hsnapshot hcommit htask
  leads := by rw [hstate, hterm]; exact h.leads
  rows := by rw [hstate, hterm]; exact hrows
  led_le := by rw [hterm]; exact h.led_le
  led_state := by rw [hterm, hstate]; exact h.led_state
  stands := by rw [hstate, hterm]; exact h.stands
  forwards := by
    rw [hpeers]
    exact fun hp => hforwards hp (h.forwards hp)
  soloLed := by rw [hpeers, hterm]; exact h.soloLed
  soloStood := by rw [hpeers, hterm]; exact h.soloStood

/-- Bookkeeping. The match indexes may change on a node that does not lead. -/
theorem Replica.of_core (h : Replica m w led p n) (hcore : n'.core = n.core)
    (hrows : n.state = .leader → ∀ q, Confirmed m w p n.currentTerm (w.log p) q (matchIndexOf n'.progress q)) :
    Replica m w led p n' := by
  refine h.congr (eq_of_core Node.currentTerm (fun _ => rfl) hcore) (eq_of_core Node.log (fun _ => rfl) hcore)
    (eq_of_core Node.lastSnapshotIndex (fun _ => rfl) hcore) (eq_of_core Node.lastSnapshotTerm (fun _ => rfl) hcore)
    (eq_of_core Node.snapshot (fun _ => rfl) hcore) ?_ ?_ (eq_of_core Node.state (fun _ => rfl) hcore) hrows ?_ ?_
  · rw [eq_of_core Node.commitIndex (fun _ => rfl) hcore]
    exact h.commit
  · rw [eq_of_core Node.snapshotTask (fun _ => rfl) hcore]
    exact h.task
  · rw [eq_of_core Node.config (fun _ => rfl) hcore]
  · rw [eq_of_core Node.forwards (fun _ => rfl) hcore]
    exact fun _ => id

theorem Replica.of_core_follower (h : Replica m w led p n) (hstate : n.state = .follower) (hcore : n'.core = n.core) :
    Replica m w led p n' :=
  h.of_core hcore fun hs => by
    rw [hstate] at hs
    cases hs

theorem Replica.of_core_matched (h : Replica m w led p n) (hcore : n'.core = n.core)
    (hmatch : ∀ q, matchIndexOf n'.progress q = matchIndexOf n.progress q) : Replica m w led p n' :=
  h.of_core hcore fun hs q => by
    rw [hmatch q]
    exact h.rows hs q

/-- A commit index that ends in what is committed. -/
theorem Replica.withCommit (h : Replica m w led p n) {k : Nat} (hk : m.SealedTo w n.currentTerm (w.log p) k) :
    Replica m w led p { n with commitIndex := k } :=
  h.congr rfl rfl rfl rfl rfl hk h.task rfl h.rows rfl fun _ => id

theorem Replica.advanceCommit (h : Replica m w led p n) {k : Nat}
    (hk : n.commitIndex < min k n.logicalLastIndex → m.SealedTo w n.currentTerm (w.log p) (min k n.logicalLastIndex)) :
    Replica m w led p (n.advanceCommit k) := by
  rcases n.advanceCommit_cases k with ⟨heq, -⟩ | ⟨hlt, heq⟩
  · rw [heq]
    exact h
  · rw [heq]
    exact h.withCommit (hk hlt)

theorem Replica.dispatchForward (h : Replica m w led p n) {r : AppendEntriesRequest} (hpeers : n.config.peers ≠ []) :
    Replica m w led p (n.dispatchForward r) := by
  rcases n.dispatchForward_cases r with heq | heq
  · rw [heq]
    exact h
  · rw [heq]
    exact h.congr rfl rfl rfl rfl rfl h.commit h.task rfl h.rows rfl fun hp => absurd hp hpeers

theorem Replica.idle (h : Replica m w led p n) : Replica m w led p { n with election := none } :=
  h.congr rfl rfl rfl rfl rfl h.commit h.task rfl h.rows rfl fun _ => id

/-! ## Terms -/

/-- A node that follows a term that is not smaller. -/
theorem Replica.followed (hI : m.Inv w) (h : Replica m w led p n) {t : Nat} (leaderId : String) (hle : n.currentTerm ≤ t) :
    Replica m (w.adopt p t) led p (n.followed t leaderId) := by
  have ho := (w.steps_adopt (m := m) (p := p) (h.term.trans_le hle)).onward
  exact {
    term := w.term_adopt p t
    backed := h.backed.congr rfl rfl rfl
    snapshotIndex := h.snapshotIndex
    snapshotTerm := h.snapshotTerm
    saved := h.saved
    commit := (h.commit.mono hle).onward ho
    base := (h.base.mono hle).onward ho
    task := fun x hx => ⟨(h.task x hx).1, ((h.task x hx).2.mono hle).onward ho⟩
    leads := fun hs => by cases hs
    rows := fun hs => by cases hs
    led_le := fun T hT => (h.led_le T hT).trans hle
    led_state := fun _ hs => by cases hs
    stands := fun hs => by cases hs
    forwards := h.forwards
    soloLed := fun hp hT => by
      have heq : n.currentTerm = t := Nat.le_antisymm hle (h.led_le t hT)
      exact (h.soloLed hp (heq ▸ hT)).trans (by rw [heq]; rfl)
    soloStood := fun hp hT l hl => by
      have heq : n.currentTerm = t := Nat.le_antisymm hle (h.term ▸ hI.stood_le p t l hl)
      exact h.soloStood hp (fun hin => hT (heq ▸ hin)) l (heq ▸ hl) }

theorem Replica.noted (hI : m.Inv w) (h : Replica m w led p n) {t : Nat} (leaderId : String) (hle : n.currentTerm ≤ t) :
    Replica m (w.adopt p t) led p (n.noted t leaderId) := by
  unfold Node.noted
  split
  · exact h.followed hI leaderId hle
  · next hsame =>
    have heq : n.currentTerm = t := Nat.le_antisymm hle (Nat.le_of_not_lt fun hlt => hsame (.inl hlt))
    have hadopt : w.adopt p t = w := by
      rw [← heq, ← h.term]
      exact w.adopt_self p
    rw [hadopt]
    exact h.congr rfl rfl rfl rfl rfl h.commit h.task rfl h.rows rfl fun _ => id

theorem Replica.stepDown (hI : m.Inv w) (h : Replica m w led p n) (t : Nat) :
    ∃ w', m.Steps p w w' ∧ w'.toLeaders = w.toLeaders ∧ Replica m w' led p (n.stepDown t) := by
  rcases n.stepDown_cases t with ⟨-, heq⟩ | ⟨hle, hcore, -⟩
  · rw [heq]
    exact ⟨w, .refl w, rfl, h⟩
  · exact ⟨_, w.steps_adopt (h.term.trans_le hle), rfl, (h.followed hI "" hle).of_core_follower rfl hcore⟩

/-! ## The commit of a leader -/

theorem mem_rows_confirmed (h : Replica m w led p n) (hstate : n.state = .leader) {q : String} {row : PeerProgress}
    (hrow : (q, row) ∈ n.progress.rows) : Confirmed m w p n.currentTerm (w.log p) q row.matchIndex := by
  have hmatch : matchIndexOf n.progress q = row.matchIndex := by
    unfold matchIndexOf
    rw [(n.progress.find?_eq_some q row).mpr hrow]
    rfl
  rw [← hmatch]
  exact h.rows hstate q

/-- What `MaybeCommit` counts is a majority that has acknowledged the log of the leader, or
some of it is committed already. -/
theorem Replica.sealed_of_matched (hI : m.Inv w) (h : Replica m w led p n) (hp : p ∈ m.ids)
    (hpeers : n.config.peers = normalizePeers p m.ids) (hled : w.led n.currentTerm) (hstate : n.state = .leader) {k : Nat}
    (hpos : 0 < k) (hle : k ≤ n.logicalLastIndex) (hterm : n.termAtLogicalIndex k = .ok n.currentTerm)
    (hquorum : quorumSize n.config.peers ≤ n.matched k) : m.SealedTo w n.currentTerm (w.log p) k := by
  obtain ⟨-, hown, hself⟩ := h.leads hstate
  rw [h.backed.holds.last] at hle
  by_cases hdone : ∃ r ∈ n.progress.rows, k ≤ r.2.matchIndex ∧ m.SealedTo w n.currentTerm (w.log p) r.2.matchIndex
  · obtain ⟨r, -, hkr, hsealed⟩ := hdone
    exact hsealed.of_le hkr
  have htake : (w.log p).take k = w.upTo n.currentTerm k := by rw [upTo, ← hown]
  refine ⟨hle, .inr ⟨n.currentTerm, k, le_refl _, ⟨hled, ?_, ?_⟩, by rw [htake]⟩⟩
  · have hat := h.backed.term_of_ok hpos hterm
    unfold LogRepair.termAt at hat
    obtain ⟨e, he, heterm⟩ := Option.map_eq_some_iff.mp hat
    exact ⟨k - 1, e, (Nat.succ_pred_eq_of_pos hpos).symm, hown ▸ he, heterm⟩
  -- the leader itself and the peers whose match index has got that far
  have hvoter : ∀ r ∈ n.progress.rows.filter fun r => r.2.matchIndex ≥ k, r.1 ∈ m.ids ∧ r.1 ≠ p ∧
      w.acked r.1 n.currentTerm (w.upTo n.currentTerm k) := by
    intro r hr
    obtain ⟨hrow, hge⟩ := List.mem_filter.mp hr
    have hge := of_decide_eq_true hge
    rcases mem_rows_confirmed h hstate (show (r.1, r.2) ∈ n.progress.rows from hrow) with hsealed | ⟨hq, hne, -, hack⟩
    · exact absurd ⟨r, hrow, hge, hsealed⟩ hdone
    · refine ⟨hq, hne, hI.acked_of_le _ _ _ _ hack ?_⟩
      rw [← htake]
      exact List.take_prefix_take_left hge
  refine ⟨p :: (n.progress.rows.filter fun r => r.2.matchIndex ≥ k).map Prod.fst, ?_, ?_, ?_, ?_⟩
  · refine List.nodup_cons.mpr ⟨fun hin => ?_, n.progress.nodup.sublist (List.filter_sublist.map _)⟩
    obtain ⟨r, hr, hrp⟩ := List.mem_map.mp hin
    exact (hvoter r hr).2.1 hrp
  · refine List.cons_subset.mpr ⟨hp, fun q hq => ?_⟩
    obtain ⟨r, hr, rfl⟩ := List.mem_map.mp hq
    exact (hvoter r hr).1
  · have hlen := length_normalizePeers hp
    have hown : (if n.flushedIndex ≥ k then 1 else 0) ≤ 1 := by split <;> omega
    unfold quorumSize matched at hquorum
    rw [hpeers, hlen] at hquorum
    rw [List.length_cons, List.length_map]
    omega
  · refine List.forall_mem_cons.mpr ⟨?_, fun q hq => ?_⟩
    · rw [← htake]
      exact hI.acked_of_le _ _ _ _ hself (List.take_prefix _ _)
    · obtain ⟨r, hr, rfl⟩ := List.mem_map.mp hq
      exact (hvoter r hr).2.2

theorem Replica.maybeCommit (hI : m.Inv w) (h : Replica m w led p n) (hp : p ∈ m.ids)
    (hpeers : n.config.peers = normalizePeers p m.ids) (hled : n.state = .leader → w.led n.currentTerm) :
    Replica m w led p n.maybeCommit := by
  rcases n.maybeCommit_cases with heq | ⟨k, hstate, hlt, hle, hterm, hquorum, heq⟩
  · rw [heq]
    exact h
  · rw [heq]
    exact h.withCommit (h.sealed_of_matched hI hp hpeers (hled hstate) hstate (by omega) hle hterm hquorum)

/-- What a leader has committed, as far as its WAL goes back. -/
theorem Stored.committed (h : Stored m w p n) : ∃ l, m.Sealed w n.currentTerm l ∧ l.length = n.commitIndex ∧
    Excerpt l (n.log.entries.filter fun e => e.index ≤ n.commitIndex) := by
  refine ⟨(w.log p).take n.commitIndex, h.commit.2, List.length_take_of_le h.commit.1, fun e he => ?_⟩
  obtain ⟨he, hle⟩ := List.mem_filter.mp he
  have hle := of_decide_eq_true hle
  have hpos := h.backed.pos he
  rw [List.getElem?_take_of_lt (by omega)]
  exact h.backed.excerpt e he

/-! ## Callbacks -/

theorem Replica.answers (hI : m.Inv w) (h : Replica m w led p n) (hp : p ∈ m.ids)
    (hpeers : n.config.peers = normalizePeers p m.ids) (hled : n.state = .leader → w.led n.currentTerm) {peer : String}
    {request : Request} {reply : Option Response}
    (hacks : ∀ k, Acks request reply k → n.state = .leader → Confirmed m w p n.currentTerm (w.log p) peer k)
    (hn' : n.Answers peer request reply n') :
    ∃ w', m.Steps p w w' ∧ w'.toLeaders = w.toLeaders ∧ Replica m w' led p n' := by
  have hmerged : ∀ {k : Nat} {x : Node}, Acks request reply k → x.core = n.core →
      (∀ q, matchIndexOf x.progress q =
        if q = peer then max (matchIndexOf n.progress q) k else matchIndexOf n.progress q) → Replica m w led p x := by
    intro k x hk hcore hmatch
    refine h.of_core hcore fun hs q => ?_
    rw [hmatch q]
    split
    · next hq =>
      rcases Nat.le_total (matchIndexOf n.progress q) k with hle | hle
      · rw [Nat.max_eq_right hle, hq]
        exact hacks k hk hs
      · rw [Nat.max_eq_left hle]
        exact h.rows hs q
    · exact h.rows hs q
  cases hn' with
  | noted hcore hmatch => exact ⟨w, .refl w, rfl, h.of_core_matched hcore hmatch⟩
  | merged hk hcore hmatch => exact ⟨w, .refl w, rfl, hmerged hk hcore hmatch⟩
  | committed hk hstate hcore hmatch =>
    refine ⟨w, .refl w, rfl, (hmerged hk hcore hmatch).maybeCommit hI hp ?_ fun _ => ?_⟩
    · rw [eq_of_core Node.config (fun _ => rfl) hcore]
      exact hpeers
    · rw [eq_of_core Node.currentTerm (fun _ => rfl) hcore]
      exact hled hstate
  | newer => exact h.stepDown hI _
  | counted => exact ⟨w, .refl w, rfl, h.congr rfl rfl rfl rfl rfl h.commit h.task rfl h.rows rfl fun _ => id⟩

/-! ## Handlers -/

theorem Replica.handleRequestVote (hI : m.Inv w) (h : Replica m w led p n) {r : RequestVoteRequest} {l : List LogEntry}
    (hstood : w.stood r.candidateId r.term l) (hindex : r.lastLogIndex = l.length)
    (hlast : r.lastLogTerm = World.lastTerm LogEntry.term l) :
    ∃ w', m.Steps p w w' ∧ w'.toLeaders = w.toLeaders ∧ Replica m w' led p (n.handleRequestVote r).1 ∧
      ∀ resp, (n.handleRequestVote r).2 = .ok resp → resp.voteGranted = true → ∃ l, w'.voted p r.term r.candidateId l := by
  unfold Node.handleRequestVote
  split
  · exact ⟨w, .refl w, rfl, h, fun resp hresp hgrant => by cases hresp; cases hgrant⟩
  next hge =>
  split
  · exact ⟨w, .refl w, rfl, h, fun resp hresp => by cases hresp⟩
  next k hk =>
  obtain ⟨w₁, hsteps, hleaders, hreplica, hstood₁, hterm⟩ : ∃ w₁, m.Steps p w w₁ ∧ w₁.toLeaders = w.toLeaders ∧
      Replica m w₁ led p k ∧ w₁.stood r.candidateId r.term l ∧ k.currentTerm = r.term := by
    split at hk
    · obtain ⟨hle, hcore, -⟩ := becomeFollower_eq_ok hk
      exact ⟨_, w.steps_adopt (h.term.trans_le hle), rfl, (h.followed hI "" hle).of_core_follower rfl hcore, hstood,
        eq_of_core Node.currentTerm (fun _ => rfl) hcore⟩
    · cases hk
      exact ⟨w, .refl w, rfl, h, hstood, by omega⟩
  have hsame : w₁.term p = r.term := hreplica.term.trans hterm
  split
  swap
  · exact ⟨w₁, hsteps, hleaders, hreplica, fun resp hresp hgrant => by cases hresp; cases hgrant⟩
  next hvote =>
  have hup : World.UpToDate LogEntry.term (w₁.log p) l := hreplica.backed.upToDate (by rw [← hindex, ← hlast]; exact hvote.2)
  have hstep := World.Step.vote (Q := majority m.ids) (p := p) r.candidateId l (hsame ▸ hstood₁) hup
  refine ⟨_, hsteps.next hstep, hleaders, ?_, fun resp hresp hgrant => ⟨w₁.log p, .inl ⟨rfl, hsame.symm, rfl, rfl⟩⟩⟩
  have hrecord := hreplica.onward hstep.onward rfl rfl (fun _ _ => id) (fun _ => Iff.rfl) fun _ _ => rfl
  exact { hrecord with
    leads := fun hs => by cases hs
    rows := fun hs => by cases hs
    led_state := fun _ hs => by cases hs
    stands := fun hs => by cases hs
    backed := hrecord.backed.congr rfl rfl rfl }

/-- A heartbeat may move the commit index only to what is committed. -/
theorem Replica.handleHeartbeat (hI : m.Inv w) (h : Replica m w led p n) {r : HeartbeatRequest}
    (hcommit : n.currentTerm ≤ r.term → n.commitIndex < min r.commitIndex n.logicalLastIndex →
      m.SealedTo w r.term (w.log p) (min r.commitIndex n.logicalLastIndex)) :
    ∃ w', m.Steps p w w' ∧ w'.toLeaders = w.toLeaders ∧ Replica m w' led p (n.handleHeartbeat r).1 := by
  rcases n.handleHeartbeat_cases r with ⟨-, heq⟩ | ⟨hge, k, hcore, hres⟩
  · rw [heq]
    exact ⟨w, .refl w, rfl, h⟩
  have hsteps := w.steps_adopt (m := m) (h.term.trans_le hge)
  have hk := (h.noted hI r.leaderId hge).of_core_follower (noted_state ..) hcore
  refine ⟨_, hsteps, rfl, ?_⟩
  rcases hres with ⟨err, heq⟩ | heq
  · rw [heq]
    exact hk
  rw [heq]
  refine hk.advanceCommit fun hlt => ?_
  have hterm : k.currentTerm = r.term :=
    (eq_of_core Node.currentTerm (fun _ => rfl) hcore).trans (noted_currentTerm n r.leaderId hge)
  have hlast : k.logicalLastIndex = n.logicalLastIndex := by
    rw [h.backed.holds.last, hk.backed.holds.last]
    rfl
  have hold : k.commitIndex = n.commitIndex :=
    (eq_of_core Node.commitIndex (fun _ => rfl) hcore).trans (noted_commitIndex n r.leaderId)
  rw [hlast, hold] at hlt
  rw [hterm, hlast]
  exact (hcommit hge hlt).onward hsteps.onward

/-! ## `AppendEntries` -/

/-- The request carries a piece of the log `l`, whose front up to the commit index of the
sender is committed. -/
structure Batch (m : Members) (w : Ledger) (r : AppendEntriesRequest) (l : List LogEntry) : Prop where
  log : Matches LogEntry.term w.toLeaders l
  log_le : ∀ e ∈ l, e.term ≤ r.term
  carried : Carried l r ∨ (0 < r.prevLogIndex ∧ r.prevLogTerm = 0)
  commit : m.SealedTo w r.term l r.leaderCommit

theorem Batch.onward {r : AppendEntriesRequest} {l : List LogEntry} {q : String} (h : Batch m w r l)
    (ho : World.Onward LogEntry.term q w w') : Batch m w' r l :=
  ⟨ho.grows.matches_log h.log, h.log_le, h.carried, h.commit.onward ho⟩

section

variable {r : AppendEntriesRequest} {l : List LogEntry} {c : Nat}

/-- The log of a node that goes on to the entry loop parts from that of the sender behind the
previous entry. -/
theorem Batch.fork (hI : m.Inv w) (hpos : ∀ T, w.led T → 0 < T) (hr : Batch m w r l) (hback : n.Retains (w.log p))
    (hprev : n.rejectPrev r = none) : Carried l r ∧ n.lastSnapshotIndex ≤ r.prevLogIndex ∧
      ∃ c, Fork LogEntry.term l (w.log p) c ∧ r.prevLogIndex ≤ c := by
  obtain ⟨hsnap, hle, hsame⟩ := hback.accepts hprev
  have hcarried : Carried l r := by
    refine hr.carried.resolve_right fun ⟨hlt, hzero⟩ => ?_
    have hat := hsame.resolve_left (by omega)
    obtain ⟨e, he, hterm⟩ := Option.map_eq_some_iff.mp hat
    have := hpos _ ((hI.logs p).led (List.mem_of_getElem? he))
    omega
  have hfork : Fork LogEntry.term l (w.log p) (common LogEntry.term l (w.log p)) :=
    Matching.fork fun i x y hx hy hterm => hr.log.take_eq (hI.logs p) hx hy hterm
  refine ⟨hcarried, hsnap, _, hfork, ?_⟩
  rcases Nat.eq_zero_or_pos r.prevLogIndex with hzero | hlt
  · omega
  refine (hfork.termAt_eq_iff hlt hcarried.prev_le hle).mp ?_
  rw [hsame.resolve_left (by omega)]
  unfold LogRepair.termAt
  have hbound : r.prevLogIndex - 1 < l.length := by
    have := hcarried.prev_le
    omega
  have hx : l[r.prevLogIndex - 1]? = some l[r.prevLogIndex - 1] := List.getElem?_eq_getElem hbound
  rw [hx, hcarried.prevTerm (r.prevLogIndex - 1) _ (by omega) hx]
  rfl

theorem Carried.stands (h : Carried l r) : Stands l r.prevLogIndex r.entries := by
  intro j e he
  obtain ⟨rest, hrest⟩ := h.entries
  rw [← List.getElem?_drop, ← hrest, List.getElem?_append_left (List.getElem?_eq_some_iff.mp he).1]
  exact he

/-- A conflict with the entries of the request is one with the log they come from. -/
theorem clashes_iff (hback : n.Retains (w.log p)) (hfork : Fork LogEntry.term l (w.log p) c) (hcarried : Carried l r)
    (hsnap : n.lastSnapshotIndex ≤ r.prevLogIndex) (hprev : r.prevLogIndex ≤ c) :
    n.Clashes r ↔ c < r.prevLogIndex + r.entries.length ∧ c < (w.log p).length := by
  constructor
  · rintro ⟨e, he, x, hx, hindex, hterm⟩
    obtain ⟨i, hi⟩ := List.mem_iff_getElem?.mp he
    have hilt := (List.getElem?_eq_some_iff.mp hi).1
    have heindex := hcarried.numbered i e hi
    have hl := hcarried.stands i e hi
    have hfull := hback.excerpt x hx
    rw [hindex, heindex, Nat.add_sub_cancel] at hfull
    have hlt := (List.getElem?_eq_some_iff.mp hfull).1
    by_contra hcase
    rw [hfork.getElem? (by omega), hfull] at hl
    cases hl
    exact hterm rfl
  · rintro ⟨hnew, hold⟩
    have hj : c - r.prevLogIndex < r.entries.length := by omega
    have he := List.getElem?_eq_getElem hj
    have hl := hcarried.stands _ _ he
    rw [Nat.add_sub_cancel' hprev] at hl
    have hy := List.getElem?_eq_getElem hold
    have heindex := hcarried.numbered _ _ he
    obtain ⟨x, hx, hread⟩ := (hback.holds.read_cases (show n.lastSnapshotIndex ≤ c by omega)).resolve_right
      fun hnone => by rw [hnone.1] at hy; cases hy
    obtain ⟨hmem, hxindex⟩ := IndexedLog.mem_of_read hread
    refine ⟨_, List.mem_of_getElem? he, x, hmem, by omega, fun hterm => ?_⟩
    exact hfork.differ c _ x (le_refl c) hl hx hterm.symm

/-- What a merge makes of a log: nothing, a longer log, or the log of the sender up to the
end of the request. -/
inductive Merged (n : Node) (r : AppendEntriesRequest) (l full : List LogEntry) (c : Nat) : List LogEntry → Prop
  | kept (hclash : ¬ n.Clashes r) (hle : r.prevLogIndex + r.entries.length ≤ c) : Merged n r l full c full
  | extended (hclash : ¬ n.Clashes r) (hle : full <+: l.take (r.prevLogIndex + r.entries.length)) :
      Merged n r l full c (l.take (r.prevLogIndex + r.entries.length))
  | replaced (hclash : n.Clashes r) (hnew : c < r.prevLogIndex + r.entries.length) (hold : c < full.length) :
      Merged n r l full c (l.take (r.prevLogIndex + r.entries.length))

theorem merged_of_fork (hback : n.Retains (w.log p)) (hfork : Fork LogEntry.term l (w.log p) c) (hcarried : Carried l r)
    (hsnap : n.lastSnapshotIndex ≤ r.prevLogIndex) (hprev : r.prevLogIndex ≤ c) :
    Merged n r l (w.log p) c (merge LogEntry.term (w.log p) r.prevLogIndex r.entries) := by
  have hclash := clashes_iff hback hfork hcarried hsnap hprev
  rw [hfork.merge_eq hcarried.stands hprev]
  split
  · next hle => exact .kept (fun h => by have := (hclash.mp h).1; omega) hle
  next hnew =>
  rcases Nat.lt_or_ge c (w.log p).length with hold | hall
  · exact .replaced (hclash.mpr ⟨by omega, hold⟩) (by omega) hold
  · refine .extended (fun h => by have := (hclash.mp h).2; omega) ?_
    rw [← List.take_of_length_le hall, ← hfork.agree]
    exact List.take_prefix_take_left (by omega)

variable {l' : List LogEntry}

theorem Merged.matches_log (h : Merged n r l (w.log p) c l') (hI : m.Inv w) (hr : Batch m w r l) :
    Matches LogEntry.term w.toLeaders l' := by
  cases h with
  | kept => exact hI.logs p
  | extended => exact hr.log.of_le (List.take_prefix _ _)
  | replaced => exact hr.log.of_le (List.take_prefix _ _)

theorem Merged.term_le (h : Merged n r l (w.log p) c l') (hI : m.Inv w) (hr : Batch m w r l) (hterm : w.term p = r.term) :
    ∀ e ∈ l', e.term ≤ w.term p := by
  cases h with
  | kept => exact hI.log_le p
  | extended => exact fun e he => hterm ▸ hr.log_le e (List.mem_of_mem_take he)
  | replaced => exact fun e he => hterm ▸ hr.log_le e (List.mem_of_mem_take he)

/-- What the merge drops, no leader has acknowledged by this node. -/
theorem Merged.keeps (h : Merged n r l (w.log p) c l') (hI : m.Inv w) (hfork : Fork LogEntry.term l (w.log p) c)
    (hcarried : Carried l r) (hup : n.Clashes r → m.Upheld w (w.term p) (l.take (r.prevLogIndex + r.entries.length)))
    (T : Nat) (f : List LogEntry) (hend : World.EndsIn LogEntry.term T f) (hack : w.acked p T f) (hf : f <+: w.log p) :
    w.CarriedTo T f (w.term p) l' := by
  cases h with
  | kept => exact World.keeps_of_le (List.prefix_refl _) T f hf
  | extended hclash hle => exact World.keeps_of_le hle T f hf
  | replaced hclash hnew hold =>
    refine (hup hclash).keeps hI (fun g V hg hgV hlV => ?_) T f hend hack hf
    exact (hfork.le_of_comparable hnew hcarried.length_le hold hg (List.prefix_or_prefix_of_prefix hgV hlV)).1

/-- What is committed survives the merge. -/
theorem Merged.sealed (h : Merged n r l (w.log p) c l') (hI : m.Inv w) (hfork : Fork LogEntry.term l (w.log p) c)
    (hcarried : Carried l r) (hup : n.Clashes r → m.Upheld w r.term (l.take (r.prevLogIndex + r.entries.length)))
    {s : List LogEntry} (hs : m.Sealed w r.term s) (hle : s <+: w.log p) : s <+: l' := by
  cases h with
  | kept => exact hle
  | extended hclash hfull => exact hle.trans hfull
  | replaced hclash hnew hold =>
    exact (hfork.le_of_comparable hnew hcarried.length_le hold hle ((hup hclash).le_total hI hs (le_refl _)).symm).1

/-- The commit index of the request ends in what is committed, unless the node has kept
entries behind those of the request. -/
theorem Merged.commit (h : Merged n r l (w.log p) c l') (hr : Batch m w r l) (hfork : Fork LogEntry.term l (w.log p) c)
    (hcommit : ¬ n.Clashes r → r.prevLogIndex + r.entries.length < min r.leaderCommit (w.log p).length →
      m.SealedTo w r.term (w.log p) (min r.leaderCommit (w.log p).length)) :
    m.SealedTo w r.term l' (min r.leaderCommit l'.length) := by
  have hshort : ∀ {k : Nat}, k ≤ r.prevLogIndex + r.entries.length → k ≤ r.leaderCommit →
      m.SealedTo w r.term (l.take (r.prevLogIndex + r.entries.length)) k := fun hk hle =>
    (hr.commit.of_le hle).keep (List.take_prefix_take_left hk)
  cases h with
  | kept hclash hle =>
    rcases Nat.lt_or_ge (r.prevLogIndex + r.entries.length) (min r.leaderCommit (w.log p).length) with hlt | hge
    · exact hcommit hclash hlt
    · refine (hr.commit.of_le (Nat.min_le_left _ _)).keep ?_
      have htake : l.take (min r.leaderCommit (w.log p).length) <+: l.take c := List.take_prefix_take_left (by omega)
      rw [hfork.agree] at htake
      exact htake.trans (List.take_prefix _ _)
  | extended =>
    refine hshort ((Nat.min_le_right _ _).trans ?_) (Nat.min_le_left _ _)
    rw [List.length_take]
    exact Nat.min_le_left _ _
  | replaced =>
    refine hshort ((Nat.min_le_right _ _).trans ?_) (Nat.min_le_left _ _)
    rw [List.length_take]
    exact Nat.min_le_left _ _

/-- The entry stands in a log that a leader up to the term disagrees with there. -/
def Dropped (m : Members) (w : Ledger) (T : Nat) (x : LogEntry) : Prop :=
  ∃ l, Matches LogEntry.term w.toLeaders l ∧ 0 < x.index ∧ l[x.index - 1]? = some x ∧
    World.Overruled LogEntry.term (majority m.ids) w T (l.take x.index)

theorem Dropped.onward {T : Nat} {x : LogEntry} {q : String} (h : Dropped m w T x)
    (ho : World.Onward LogEntry.term q w w') : Dropped m w' T x := by
  obtain ⟨l, hl, hpos, hx, hover⟩ := h
  exact ⟨l, ho.grows.matches_log hl, hpos, hx, hover.onward ho⟩

/-- What the merge truncates is not committed. -/
theorem truncated_of_fork (hI : m.Inv w) (hback : n.Retains (w.log p))
    (hfork : Fork LogEntry.term l (w.log p) c) (hcarried : Carried l r) (hsnap : n.lastSnapshotIndex ≤ r.prevLogIndex)
    (hprev : r.prevLogIndex ≤ c) (hcommit : m.SealedTo w r.term (w.log p) n.commitIndex)
    (hup : n.Clashes r → m.Upheld w r.term (l.take (r.prevLogIndex + r.entries.length))) {t : Nat × List LogEntry}
    (ht : t ∈ (Node.spliceEntries n.lastSnapshotIndex n.log r.entries).truncations) :
    n.commitIndex < t.1 ∧ ∀ x ∈ t.2, Dropped m w r.term x := by
  obtain ⟨hindex, hold, hnew, hremoved⟩ := hback.truncations hfork hsnap hprev hcarried.numbered hcarried.stands ht
  have hclash := (clashes_iff hback hfork hcarried hsnap hprev).mpr ⟨hnew, hold⟩
  have hshort : ∀ {g : List LogEntry}, g <+: w.log p →
      (g <+: l.take (r.prevLogIndex + r.entries.length) ∨ l.take (r.prevLogIndex + r.entries.length) <+: g) →
      g.length ≤ c := fun hg hcompare => (hfork.le_of_comparable hnew hcarried.length_le hold hg hcompare).2
  constructor
  · have hle := hshort (List.take_prefix n.commitIndex (w.log p)) ((hup hclash).le_total hI hcommit.2 (le_refl _)).symm
    rw [List.length_take_of_le hcommit.1] at hle
    omega
  · intro x hx
    obtain ⟨hlt, hfull⟩ := hremoved x hx
    have hpos : 0 < x.index := by omega
    have hbound := (List.getElem?_eq_some_iff.mp hfull).1
    have hlong : ¬ ((w.log p).take x.index).length ≤ c := by
      rw [List.length_take]
      omega
    refine ⟨_, hI.logs p, hpos, hfull, _, hup hclash, fun hle => hlong ?_, fun hle => hlong ?_⟩
    · exact hshort (List.take_prefix _ _) (.inl hle)
    · exact hshort (List.take_prefix _ _) (.inr hle)

/-- A follower takes over another log. -/
theorem Replica.accepted (h : Replica m w led p n) (hstate : n.state = .follower) (hpeers : n.config.peers ≠ [])
    {log : IndexedLog} (hback : { n with log }.Retains l')
    (hstep : World.Step LogEntry.term (majority m.ids) p w (w.accept p l'))
    (hsealed : ∀ s, m.Sealed w n.currentTerm s → s <+: w.log p → s <+: l') :
    Replica m (w.accept p l') led p { n with log } := by
  have hkeep : ∀ {k : Nat}, m.SealedTo w n.currentTerm (w.log p) k →
      m.SealedTo (w.accept p l') n.currentTerm l' k := fun hk =>
    (hk.keep (hsealed _ hk.2 (List.take_prefix _ _))).onward hstep.onward
  have hleader : n.state ≠ .leader := by
    rw [hstate]
    decide
  have hcandidate : n.state ≠ .candidate := by
    rw [hstate]
    decide
  have hlog := w.log_accept p l'
  exact {
    term := h.term
    backed := by rw [hlog]; exact hback
    snapshotIndex := h.snapshotIndex
    snapshotTerm := h.snapshotTerm
    saved := h.saved
    commit := by rw [hlog]; exact hkeep h.commit
    base := by rw [hlog]; exact hkeep h.base
    task := by
      rw [hlog]
      exact fun t ht => ⟨(h.task t ht).1, hkeep (h.task t ht).2⟩
    leads := fun hs => absurd hs hleader
    rows := fun hs => absurd hs hleader
    led_le := h.led_le
    led_state := h.led_state
    stands := fun hs => absurd hs hcandidate
    forwards := h.forwards
    soloLed := fun hp => absurd hp hpeers
    soloStood := fun hp => absurd hp hpeers }

/-- What an accepted request leaves behind. -/
structure Appended (m : Members) (w w' : Ledger) (led : List (String × Nat)) (p : String) (n n' : Node)
    (r : AppendEntriesRequest) (answer : Except String AppendEntriesResponse)
    (truncations : List (Nat × List LogEntry)) : Prop where
  steps : m.Steps p w w'
  leaders : w'.toLeaders = w.toLeaders
  replica : Replica m w' led p n'
  acked : ∀ a, answer = .ok a → a.success = true →
    n'.currentTerm = r.term ∧ w'.acked p r.term (w'.log p) ∧ a.matchIndex = (w'.log p).length
  truncated : ∀ t ∈ truncations, n.commitIndex < t.1 ∧ ∀ x ∈ t.2, Dropped m w' r.term x

theorem Replica.finishAppend (hI : m.Inv w) (hpos : ∀ T, w.led T → 0 < T) (h : Replica m w led p n)
    (hstate : n.state = .follower) (hterm : n.currentTerm = r.term) (hpeers : n.config.peers ≠ [])
    (hprev : n.rejectPrev r = none) (hr : Batch m w r l)
    (hup : n.Clashes r → m.Upheld w r.term (l.take (r.prevLogIndex + r.entries.length)))
    (hcommit : ¬ n.Clashes r → r.prevLogIndex + r.entries.length < min r.leaderCommit n.logicalLastIndex →
      m.SealedTo w r.term (w.log p) (min r.leaderCommit n.logicalLastIndex)) :
    ∃ w', Appended m w w' led p n (n.finishAppend r).1 r (n.finishAppend r).2
      (spliceEntries n.lastSnapshotIndex n.log r.entries).truncations := by
  obtain ⟨hcarried, hsnap, c, hfork, hle⟩ := hr.fork hI hpos h.backed hprev
  obtain ⟨hok, hback⟩ := h.backed.spliceEntries hsnap (hle.trans hfork.right) hcarried.numbered
  have hmerged := merged_of_fork h.backed hfork hcarried hsnap hle
  generalize merge LogEntry.term (w.log p) r.prevLogIndex r.entries = l' at hback hmerged
  have hwterm : w.term p = r.term := h.term.trans hterm
  have hsealed := fun s (hs : m.Sealed w r.term s) hsp => hmerged.sealed hI hfork hcarried hup hs hsp
  have haccept : World.Step LogEntry.term (majority m.ids) p w (w.accept p l') :=
    .accept l' (hmerged.matches_log hI hr) (hmerged.term_le hI hr hwterm)
      (hmerged.keeps hI hfork hcarried (by rw [hwterm]; exact hup))
  have haccepted := h.accepted hstate hpeers hback haccept (by rw [hterm]; exact hsealed)
  have hack : World.Step LogEntry.term (majority m.ids) p (w.accept p l') ((w.accept p l').acknowledge p) := .ack
  have hreplica := haccepted.onward hack.onward rfl rfl (fun _ _ => id) (fun _ => Iff.rfl) fun _ _ => rfl
  have hlog : (w.accept p l').log p = l' := w.log_accept p l'
  have hsteps := (World.Steps.single haccept).next hack
  rcases n.finishAppend_cases r with ⟨err, herr, -⟩ | ⟨-, hfin, a, ha, -, -, hmatch⟩
  · rw [hok] at herr
    cases herr
  rw [hfin, ha]
  refine ⟨_, hsteps, rfl, ?_, fun b hb _ => ?_, fun t ht => ?_⟩
  · refine (hreplica.advanceCommit fun _ => ?_).dispatchForward (by rw [config_advanceCommit]; exact hpeers)
    rw [hreplica.backed.holds.last]
    show m.SealedTo _ n.currentTerm ((w.accept p l').log p) (min _ ((w.accept p l').log p).length)
    rw [hlog, hterm]
    refine (hmerged.commit hr hfork ?_).onward hsteps.onward
    rw [← h.backed.holds.last]
    exact hcommit
  · cases hb
    refine ⟨?_, .inl ⟨rfl, hwterm.symm, List.prefix_refl _⟩, ?_⟩
    · rw [eq_of_advance Node.currentTerm (fun _ _ => rfl) (fun _ _ => rfl)]
      exact hterm
    · rw [hmatch]
      exact hreplica.backed.holds.last
  · have hcommitted : m.SealedTo w r.term (w.log p) n.commitIndex := hterm ▸ h.commit
    obtain ⟨hlt, hdropped⟩ := truncated_of_fork hI h.backed hfork hcarried hsnap hle hcommitted hup ht
    exact ⟨hlt, fun x hx => (hdropped x hx).onward hsteps.onward⟩

/-- A request that replaces entries must bring what the leader of its term upholds, and one
that moves the commit index behind its own entries must find committed entries there. -/
theorem Replica.handleAppendEntries (hI : m.Inv w) (hpos : ∀ T, w.led T → 0 < T) (h : Replica m w led p n)
    (hpeers : n.config.peers ≠ []) (hr : Batch m w r l)
    (hup : (n.prepareAppend r).2 = none → n.Clashes r → m.Upheld w r.term (l.take (r.prevLogIndex + r.entries.length)))
    (hcommit : (n.prepareAppend r).2 = none → ¬ n.Clashes r →
      r.prevLogIndex + r.entries.length < min r.leaderCommit n.logicalLastIndex →
      m.SealedTo w r.term (w.log p) (min r.leaderCommit n.logicalLastIndex)) :
    ∃ w', Appended m w w' led p n (n.handleAppendEntries r).1 r (n.handleAppendEntries r).2 (n.appendTruncations r) := by
  unfold Node.handleAppendEntries appendTruncations
  rcases n.prepareAppend_cases r with ⟨hstale, a, heq, ha⟩ | ⟨hge, k, hcore, hres⟩
  · rw [heq]
    refine ⟨w, .refl w, rfl, h, fun b hb hok => ?_, fun t ht => by cases ht⟩
    cases hb
    rw [ha] at hok
    cases hok
  have hsteps := w.steps_adopt (m := m) (h.term.trans_le hge)
  have hk := (h.noted hI r.leaderId hge).of_core_follower (noted_state ..) hcore
  have hkstate : k.state = .follower := (eq_of_core Node.state (fun _ => rfl) hcore).trans (noted_state n r.leaderId)
  have hkterm : k.currentTerm = r.term :=
    (eq_of_core Node.currentTerm (fun _ => rfl) hcore).trans (noted_currentTerm n r.leaderId hge)
  have hkconfig : k.config = n.config := (eq_of_core Node.config (fun _ => rfl) hcore).trans (noted_config n r.leaderId)
  have hklog : k.log = n.log := (eq_of_core Node.log (fun _ => rfl) hcore).trans (noted_log n r.leaderId)
  have hkcommit : k.commitIndex = n.commitIndex :=
    (eq_of_core Node.commitIndex (fun _ => rfl) hcore).trans (noted_commitIndex n r.leaderId)
  have hklast : k.logicalLastIndex = n.logicalLastIndex := by
    rw [h.backed.holds.last, hk.backed.holds.last]
    rfl
  rcases hres with ⟨err, heq⟩ | ⟨a, heq, ha⟩ | ⟨hprev, heq⟩
  · rw [heq]
    exact ⟨w.adopt p r.term, hsteps, rfl, hk, fun b hb => (by cases hb), fun t ht => (by cases ht)⟩
  · rw [heq]
    refine ⟨w.adopt p r.term, hsteps, rfl, hk, fun b hb hok => ?_, fun t ht => (by cases ht)⟩
    cases hb
    rw [ha] at hok
    cases hok
  rw [heq] at hup hcommit ⊢
  have hclash : k.Clashes r ↔ n.Clashes r := by
    unfold Clashes
    rw [hklog]
  obtain ⟨w', happended⟩ := hk.finishAppend (hsteps.inv hI) hpos hkstate hkterm (by rw [hkconfig]; exact hpeers) hprev
    (hr.onward hsteps.onward) (fun hc => (hup rfl (hclash.mp hc)).onward hsteps.onward) fun hc hlt =>
      hklast ▸ (hcommit rfl (fun hn => hc (hclash.mpr hn)) (hklast ▸ hlt)).onward hsteps.onward
  refine ⟨w', hsteps.trans happended.steps, happended.leaders, happended.replica, happended.acked, fun t ht => ?_⟩
  rw [← hkcommit]
  exact happended.truncated t ht

end

/-! ## Snapshots -/

/-- The snapshot stands for the log `l`, which is committed. -/
structure Covers (m : Members) (w : Ledger) (T : Nat) (s : Snapshot) (l : List LogEntry) : Prop where
  committed : m.Sealed w T l
  index : s.raftIndex = l.length
  pos : 0 < s.raftIndex
  term : s.raftTerm ≠ 0 ∧ LogRepair.termAt LogEntry.term l s.raftIndex = some s.raftTerm
  indexed : ∀ i e, l[i]? = some e → e.index = i + 1

theorem Covers.onward {T : Nat} {s : Snapshot} {l : List LogEntry} {q : String} (h : Covers m w T s l)
    (ho : World.Onward LogEntry.term q w w') : Covers m w' T s l :=
  ⟨h.committed.onward ho, h.index, h.pos, h.term, h.indexed⟩

/-- A node that has a snapshot may send it. -/
theorem Stored.covers (h : Stored m w p n) {s : Snapshot} (hs : n.snapshot = some s) :
    Covers m w n.currentTerm s ((w.log p).take s.raftIndex) := by
  have hindex := h.snapshotIndex
  have hterm := h.snapshotTerm
  have hpos := h.saved s hs
  rw [hs] at hindex hterm
  have hindex : n.lastSnapshotIndex = s.raftIndex := hindex
  have hterm : n.lastSnapshotTerm = s.raftTerm := hterm
  obtain ⟨hne, hat⟩ := h.backed.holds.covered (by omega)
  rw [hindex, hterm] at hat
  rw [hterm] at hne
  have hbase := h.base
  rw [hindex] at hbase
  refine ⟨hbase.2, (List.length_take_of_le hbase.1).symm, hpos, ⟨hne, ?_⟩, fun i e he => ?_⟩
  · rw [← hat]
    unfold LogRepair.termAt
    rw [List.getElem?_take_of_lt (by omega)]
  · rw [List.getElem?_take] at he
    split at he
    · exact h.backed.holds.indexed i e he
    · cases he

section

variable {s : Snapshot} {l : List LogEntry}

/-- What the node takes for its log when it installs the snapshot. -/
def installedLog (l full : List LogEntry) (b : Nat) : List LogEntry := if full.length ≤ b then l else full

/-- The snapshot does not go back behind the last one, and it goes with the log of the node,
or reaches beyond it. -/
def Fits (n : Node) (s : Snapshot) : Prop :=
  n.lastSnapshotIndex ≤ s.raftIndex ∧
    (n.logicalLastIndex ≤ s.raftIndex ∨ n.termAtLogicalIndex s.raftIndex = .ok s.raftTerm)

instance (n : Node) (s : Snapshot) : Decidable (n.Fits s) :=
  inferInstanceAs (Decidable (n.lastSnapshotIndex ≤ s.raftIndex ∧
    (n.logicalLastIndex ≤ s.raftIndex ∨ n.termAtLogicalIndex s.raftIndex = .ok s.raftTerm)))

theorem Fits.le_log (hI : m.Inv w) (hback : n.Retains (w.log p)) {T : Nat} (hs : Covers m w T s l) (hfits : n.Fits s)
    (hlt : s.raftIndex < (w.log p).length) : l <+: w.log p := by
  have hok := hfits.2.resolve_left (by rw [hback.holds.last]; omega)
  have hat := hback.term_of_ok hs.pos hok
  obtain ⟨x, hx, hxterm⟩ := Option.map_eq_some_iff.mp hs.term.2
  obtain ⟨y, hy, hyterm⟩ := Option.map_eq_some_iff.mp hat
  have htake := (hs.committed.matches_log hI).take_eq (hI.logs p) hx hy (hxterm.trans hyterm.symm)
  rw [Nat.sub_add_cancel hs.pos, List.take_of_length_le hs.index.ge] at htake
  rw [htake]
  exact List.take_prefix _ _

theorem le_installedLog (hI : m.Inv w) (hback : n.Retains (w.log p)) {T : Nat} (hs : Covers m w T s l) (hfits : n.Fits s) :
    l <+: installedLog l (w.log p) s.raftIndex := by
  unfold installedLog
  split
  · exact List.prefix_refl _
  · exact hfits.le_log hI hback hs (by omega)

/-- What is committed survives the snapshot. -/
theorem Covers.sealed (hI : m.Inv w) {T T' : Nat} (hs : Covers m w T s l) {f full : List LogEntry}
    (hf : m.Sealed w T' f) (hle : f <+: full) : f <+: installedLog l full s.raftIndex := by
  unfold installedLog
  split
  · next hshort =>
    have hlen := hle.length_le
    rcases hf.le_total hI hs.committed with hfl | hlf
    · exact hfl
    · rw [hlf.eq_of_length (by have := hlf.length_le; have := hs.index; omega)]
  · exact hle

/-- A node that has installed the snapshot, up to the part outside the core. -/
def afterInstall (n : Node) (s : Snapshot) (keepFrom : Nat) : Node :=
  { n with
    snapshot := some s
    snapshotTask := n.snapshotTask.map fun (task : SnapshotTask) =>
      { task with vectorIndex := task.vectorIndex.or (some n.executed) }
    executed := s.executed
    log := n.log.truncateBefore (s.raftIndex + 1) keepFrom
    appliedIndex := s.raftIndex
    commitIndex := s.raftIndex
    lastSnapshotIndex := s.raftIndex
    lastSnapshotTerm := s.raftTerm }

theorem core_applyInstalledSnapshot (n : Node) (s : Snapshot) (keepFrom : Nat) :
    (n.applyInstalledSnapshot s keepFrom).1.core = (n.afterInstall s keepFrom).core := by
  unfold applyInstalledSnapshot
  dsimp only
  split <;> rfl

/-- A follower installs a snapshot of its term. -/
theorem Replica.applyInstalledSnapshot (hI : m.Inv w) (h : Replica m w led p n) (keepFrom : Nat) (hstate : n.state = .follower)
    (hsolo : n.config.peers = [] → ∀ A, IsMajority m.ids A → A p) (hs : Covers m w n.currentTerm s l) (hfits : n.Fits s) :
    m.Steps p w (w.accept p (installedLog l (w.log p) s.raftIndex)) ∧
      Replica m (w.accept p (installedLog l (w.log p) s.raftIndex)) led p (n.applyInstalledSnapshot s keepFrom).1 := by
  have hle := le_installedLog hI h.backed hs hfits
  have hsealed := fun f (hf : m.Sealed w n.currentTerm f) (hfull : f <+: w.log p) => hs.sealed hI hf hfull
  have hback : (n.afterInstall s keepFrom).Retains (installedLog l (w.log p) s.raftIndex) :=
    h.backed.install hfits.1 hs.index.symm hs.indexed hs.term (hfits.le_log hI h.backed hs) rfl rfl
  have hstep : World.Step LogEntry.term (majority m.ids) p w (w.accept p (installedLog l (w.log p) s.raftIndex)) := by
    refine .accept _ ?_ (fun e he => ?_) fun T f hend hack hf => ?_
    · unfold installedLog
      split
      · exact hs.committed.matches_log hI
      · exact hI.logs p
    · unfold installedLog at he
      split at he
      · exact h.term.ge.trans' (hs.committed.term_le hI he)
      · exact hI.log_le p e he
    · unfold installedLog
      split
      · next hshort =>
        have hup : m.Upheld w (w.term p) l := .inr (h.term ▸ hs.committed)
        refine hup.keeps hI (fun g V hg hgV hlV => ?_) T f hend hack hf
        refine List.prefix_of_prefix_length_le hgV hlV ?_
        have := hg.length_le
        have := hs.index
        omega
      · exact World.keeps_of_le (List.prefix_refl _) T f hf
  refine ⟨.single hstep, Replica.of_core_follower (n := n.afterInstall s keepFrom) ?_ hstate
    (n.core_applyInstalledSnapshot s keepFrom)⟩
  have hlog := w.log_accept p (installedLog l (w.log p) s.raftIndex)
  have hkeep : ∀ {k : Nat}, m.SealedTo w n.currentTerm (w.log p) k →
      m.SealedTo (w.accept p (installedLog l (w.log p) s.raftIndex)) n.currentTerm
        (installedLog l (w.log p) s.raftIndex) k := fun hk =>
    (hk.keep (hsealed _ hk.2 (List.take_prefix _ _))).onward hstep.onward
  have hto : m.SealedTo (w.accept p (installedLog l (w.log p) s.raftIndex)) n.currentTerm
      (installedLog l (w.log p) s.raftIndex) s.raftIndex := by
    have hcommitted := hs.committed.sealedTo hle
    rw [← hs.index] at hcommitted
    exact hcommitted.onward hstep.onward
  have hleader : n.state ≠ .leader := by
    rw [hstate]
    decide
  have hcandidate : n.state ≠ .candidate := by
    rw [hstate]
    decide
  have hsame : n.config.peers = [] → installedLog l (w.log p) s.raftIndex = w.log p := by
    intro hpeers
    unfold installedLog
    split
    · next hshort => exact (hs.committed.le_log hI (hsolo hpeers)).eq_of_length_le (hshort.trans hs.index.le)
    · rfl
  exact {
    term := h.term
    backed := by rw [hlog]; exact hback
    snapshotIndex := rfl
    snapshotTerm := rfl
    saved := fun x hx => by cases hx; exact hs.pos
    commit := by rw [hlog]; exact hto
    base := by rw [hlog]; exact hto
    task := by
      rw [hlog]
      intro t ht
      obtain ⟨t₀, ht₀, rfl⟩ := Option.map_eq_some_iff.mp ht
      exact ⟨(h.task t₀ ht₀).1, hkeep (h.task t₀ ht₀).2⟩
    leads := fun hs => absurd hs hleader
    rows := fun hs => absurd hs hleader
    led_le := h.led_le
    led_state := h.led_state
    stands := fun hs => absurd hs hcandidate
    forwards := h.forwards
    soloLed := fun hp hT => by
      rw [hlog, hsame hp]
      exact h.soloLed hp hT
    soloStood := fun hp hT l hl => by
      rw [hlog, hsame hp]
      exact h.soloStood hp hT l hl }

theorem Replica.handleInstallSnapshot (hI : m.Inv w) (h : Replica m w led p n) {r : InstallSnapshotRequest} (complete : Bool)
    (keepFrom : Nat) (hsolo : n.config.peers = [] → ∀ A, IsMajority m.ids A → A p) (hpos : 0 < r.leaderTerm)
    (hs : Covers m w r.leaderTerm r.snapshot l) (hfits : complete = true → n.currentTerm ≤ r.leaderTerm → n.Fits r.snapshot) :
    ∃ w', m.Steps p w w' ∧ w'.toLeaders = w.toLeaders ∧
      Replica m w' led p (n.handleInstallSnapshot r complete keepFrom).1 := by
  unfold Node.handleInstallSnapshot
  rw [if_neg (Nat.ne_of_gt hpos)]
  dsimp only
  split
  · exact ⟨w, .refl w, rfl, h⟩
  next hge =>
  split
  · exact ⟨w, .refl w, rfl, h⟩
  next k hk =>
  obtain ⟨w₁, hsteps, hleaders, hreplica, hstate, hterm, hconfig, hlast⟩ : ∃ w₁, m.Steps p w w₁ ∧
      w₁.toLeaders = w.toLeaders ∧ Replica m w₁ led p k ∧ k.state = .follower ∧ k.currentTerm = r.leaderTerm ∧
      k.config = n.config ∧ (n.Fits r.snapshot → k.Fits r.snapshot) := by
    split at hk
    · obtain ⟨hle, hcore, -⟩ := becomeFollower_eq_ok hk
      have hfollowed := (h.followed hI "" hle).of_core_follower rfl hcore
      refine ⟨_, w.steps_adopt (h.term.trans_le hle), rfl, hfollowed, eq_of_core Node.state (fun _ => rfl) hcore,
        eq_of_core Node.currentTerm (fun _ => rfl) hcore, ?_, ?_⟩
      · exact (eq_of_core Node.config (fun _ => rfl) hcore).trans rfl
      · unfold Fits
        rw [eq_of_core Node.lastSnapshotIndex (fun _ => rfl) hcore, eq_of_core Node.logicalLastIndex (fun _ => rfl) hcore,
          eq_of_core (Node.termAtLogicalIndex · r.snapshot.raftIndex) (fun _ => rfl) hcore]
        exact id
    · next hsame =>
      cases hk
      simp only [not_or, not_lt, ne_eq, not_not] at hsame
      exact ⟨w, .refl w, rfl, h, hsame.2, by omega, rfl, id⟩
  split
  · exact ⟨w₁, hsteps, hleaders, hreplica⟩
  next hcomplete =>
  have hcomplete : complete = true := Bool.eq_true_of_not_eq_false hcomplete
  obtain ⟨hinstall, hinstalled⟩ := hreplica.applyInstalledSnapshot (hsteps.inv hI) keepFrom hstate
    (by rw [hconfig]; exact hsolo) (hterm ▸ hs.onward hsteps.onward) (hlast (hfits hcomplete (Nat.le_of_not_lt hge)))
  refine ⟨_, hsteps.trans hinstall, hleaders, ?_⟩
  split <;> (next heq => rw [heq] at hinstalled; exact hinstalled)

end

/-- The thread of `LaunchSnapshotTask` saves what is committed. -/
theorem Replica.saveSnapshot (hI : m.Inv w) (hpos : ∀ T, w.led T → 0 < T) (h : Replica m w led p n) {keepFrom : Nat}
    (hn' : n.saveSnapshot keepFrom = some n') : Replica m w led p n' := by
  unfold Node.saveSnapshot at hn'
  split at hn'
  · cases hn'
  next t ht =>
  obtain ⟨htask, hsealed⟩ := h.task t ht
  split at hn'
  · cases hn'
    exact h.congr rfl rfl rfl rfl rfl h.commit (fun x hx => by cases hx) rfl h.rows rfl fun _ => id
  next raftTerm hterm =>
  cases hn'
  have hne : raftTerm ≠ 0 := by
    obtain ⟨x, hread, rfl⟩ := IndexedLog.read_of_termAt (by omega) hterm
    have := hpos _ ((hI.logs p).led (List.mem_of_getElem? (h.backed.read hread).2))
    omega
  exact { h with
    backed := h.backed.save htask hterm hne rfl rfl rfl
    snapshotIndex := rfl
    snapshotTerm := rfl
    saved := fun s hs => by cases hs; exact htask
    base := hsealed
    task := fun x hx => by cases hx }

/-! ## Elections -/

/-- The node stands in a later term. -/
theorem Replica.stand (hI : m.Inv w) (h : Replica m w led p n) (hlt : n.currentTerm < n'.currentTerm)
    (hlog : n'.log = n.log) (hindex : n'.lastSnapshotIndex = n.lastSnapshotIndex)
    (hsnapTerm : n'.lastSnapshotTerm = n.lastSnapshotTerm) (hsnapshot : n'.snapshot = n.snapshot)
    (hcommit : n'.commitIndex = n.commitIndex) (htask : n'.snapshotTask = n.snapshotTask) (hstate : n'.state ≠ .leader)
    (hconfig : n'.config = n.config) (hforwards : n'.forwards = n.forwards) :
    m.Steps p w (w.stand p n'.currentTerm) ∧ Replica m (w.stand p n'.currentTerm) led p n' := by
  have hfresh : ∀ l, ¬ w.stood p n'.currentTerm l := fun l hl => by
    have := hI.stood_le p _ l hl
    rw [h.term] at this
    omega
  have hstep : World.Step LogEntry.term (majority m.ids) p w (w.stand p n'.currentTerm) := by
    refine .stand _ (h.term.trans_le hlt.le) hfresh fun e he => ?_
    have := hI.log_le p e he
    rw [h.term] at this
    omega
  have hunled : (p, n'.currentTerm) ∉ led := fun hin => by
    have := h.led_le _ hin
    omega
  exact ⟨.single hstep, {
    term := Function.update_self ..
    backed := h.backed.congr hlog hindex hsnapTerm
    snapshotIndex := by rw [hindex, hsnapshot]; exact h.snapshotIndex
    snapshotTerm := by rw [hsnapTerm, hsnapshot]; exact h.snapshotTerm
    saved := by rw [hsnapshot]; exact h.saved
    commit := by rw [hcommit]; exact (h.commit.mono hlt.le).onward hstep.onward
    base := by rw [hindex]; exact (h.base.mono hlt.le).onward hstep.onward
    task := by
      rw [htask]
      exact fun x hx => ⟨(h.task x hx).1, ((h.task x hx).2.mono hlt.le).onward hstep.onward⟩
    leads := fun hs => absurd hs hstate
    rows := fun hs => absurd hs hstate
    led_le := fun T hT => (h.led_le T hT).trans hlt.le
    led_state := fun hT => absurd hT hunled
    stands := fun _ => ⟨by omega, .inl ⟨rfl, rfl, rfl⟩⟩
    forwards := by
      rw [hconfig, hforwards]
      exact h.forwards
    soloLed := fun _ hT => absurd hT hunled
    soloStood := fun _ _ l hl => by
      rcases hl with ⟨-, -, hl⟩ | hl
      · exact hl
      · exact absurd hl (hfresh l) }⟩

theorem Replica.firstTerm (hI : m.Inv w) (h : Replica m w led p n) (hstate : n.state ≠ .leader) :
    ∃ w', m.Steps p w w' ∧ w'.toLeaders = w.toLeaders ∧ Replica m w' led p n.firstTerm ∧ n.firstTerm.currentTerm ≠ 0 ∧
      (n.currentTerm = 0 → w'.voted p n.firstTerm.currentTerm p (w'.log p)) := by
  unfold Node.firstTerm
  split
  · next hzero =>
    obtain ⟨hsteps, hreplica⟩ := h.stand hI
      (show n.currentTerm < Node.currentTerm { n with currentTerm := 1, votedFor := n.selfId } by dsimp only; omega) rfl rfl rfl rfl rfl rfl hstate rfl rfl
    exact ⟨_, hsteps, rfl, hreplica, Nat.one_ne_zero, fun _ => .inl ⟨rfl, rfl, rfl, rfl⟩⟩
  · next hpos => exact ⟨w, .refl w, rfl, h, hpos, fun hzero => absurd hzero hpos⟩

/-- The entry that a leader appends is acknowledged by itself at once. -/
theorem Stored.write (h : Stored m w p n) (hp : p ∈ m.ids) (hled : w.led n.currentTerm)
    (hown : w.log p = w.leaderLog n.currentTerm) {e : LogEntry} {log : IndexedLog} (hlog : n.log.append e = .ok log)
    (hindex : e.index = n.logicalLastIndex + 1) (hterm : e.term = n.currentTerm) {k : Nat}
    (hk : k = n.commitIndex ∨ (k = n.logicalLastIndex + 1 ∧ normalizePeers p m.ids = [])) :
    m.Steps p w ((w.extend p e).acknowledge p) ∧ ((w.extend p e).acknowledge p).log p = w.log p ++ [e] ∧
      Stored m ((w.extend p e).acknowledge p) p { n with log, commitIndex := k } := by
  have hextend : World.Step LogEntry.term (majority m.ids) p w (w.extend p e) :=
    .extend e (h.term ▸ hled) (h.term ▸ hown) (h.term ▸ hterm)
  have hsteps : m.Steps p w ((w.extend p e).acknowledge p) := (World.Steps.single hextend).next .ack
  have hnew : ((w.extend p e).acknowledge p).log p = w.log p ++ [e] := Function.update_self ..
  obtain ⟨log', hlog', hback⟩ := h.backed.append (e := e) (by rw [hindex, h.backed.holds.last])
  rw [hlog] at hlog'
  cases hlog'
  have hkeep : ∀ {i : Nat}, m.SealedTo w n.currentTerm (w.log p) i →
      m.SealedTo ((w.extend p e).acknowledge p) n.currentTerm (w.log p ++ [e]) i := fun hi =>
    (hi.keep ((List.take_prefix _ _).trans (List.prefix_append _ _))).onward hsteps.onward
  refine ⟨hsteps, hnew, {
    term := h.term
    backed := by rw [hnew]; exact hback.congr rfl rfl rfl
    snapshotIndex := h.snapshotIndex
    snapshotTerm := h.snapshotTerm
    saved := h.saved
    commit := ?_
    base := by rw [hnew]; exact hkeep h.base
    task := by
      rw [hnew]
      exact fun t ht => ⟨(h.task t ht).1, hkeep (h.task t ht).2⟩ }⟩
  rw [hnew]
  rcases hk with rfl | ⟨rfl, hsolo⟩
  · exact hkeep h.commit
  -- the only member has acknowledged the entry, and that is a quorum
  have hleaderLog : ((w.extend p e).acknowledge p).leaderLog n.currentTerm = w.log p ++ [e] := by
    rw [hown, ← h.term]
    exact leaderLog_extend_self
  have hlen : n.logicalLastIndex + 1 = (w.log p ++ [e]).length := by
    rw [h.backed.holds.last, List.length_append, List.length_singleton]
  have hall : ((w.extend p e).acknowledge p).upTo n.currentTerm (w.log p ++ [e]).length = w.log p ++ [e] := by
    rw [upTo, hleaderLog, List.take_length]
  rw [hlen]
  refine World.Sealed.sealedTo (.inr ⟨n.currentTerm, (w.log p ++ [e]).length, le_refl n.currentTerm, ⟨hled, ?_, ?_⟩, ?_⟩)
    (List.prefix_refl _)
  · refine ⟨(w.log p).length, e, ?_, ?_, hterm⟩
    · rw [List.length_append, List.length_singleton]
    · rw [hleaderLog, List.getElem?_append_right (le_refl _), Nat.sub_self]
      rfl
  · refine Members.majority_self hp hsolo (.inl ⟨rfl, h.term.symm, ?_⟩)
    rw [hall]
    exact hnew ▸ List.prefix_refl _
  · rw [hall]

/-- A leader, seen from the log that it has written. -/
theorem Replica.of_stored (h : Stored m w p n) (hstate : n.state = .leader) (hin : (p, n.currentTerm) ∈ led)
    (hled : ∀ T, (p, T) ∈ led → T ≤ n.currentTerm) (hown : w.log p = w.leaderLog n.currentTerm)
    (hack : w.acked p n.currentTerm (w.log p)) (hforwards : n.config.peers = [] → n.forwards = [])
    (hrows : ∀ q, Confirmed m w p n.currentTerm (w.log p) q (matchIndexOf n.progress q)) : Replica m w led p n :=
  { h with
    leads := fun _ => ⟨hin, hown, hack⟩
    rows := fun _ => hrows
    led_le := hled
    led_state := fun _ => by
      rw [hstate]
      decide
    stands := fun hs => by
      rw [hstate] at hs
      cases hs
    forwards := hforwards
    soloLed := fun _ _ => hown
    soloStood := fun _ hT => absurd hin hT }

/-- What a leader leaves behind that has written an entry. -/
structure Wrote (m : Members) (w w' : Ledger) (led : List (String × Nat)) (p : String) (n' : Node) : Prop where
  steps : m.Steps p w w'
  replica : Replica m w' led p n'
  led : ∀ T, w'.led T ↔ T = n'.currentTerm ∨ w.led T
  leaderLog : w'.leaderLog n'.currentTerm = w'.log p
  others : ∀ T, T ≠ n'.currentTerm → w'.leaderLog T = w.leaderLog T

/-- The leader of the term writes an entry. -/
theorem Stored.leads (h : Stored m w p n) (hp : p ∈ m.ids) (hled : w.led n.currentTerm)
    (hown : w.log p = w.leaderLog n.currentTerm) {e : LogEntry} {log : IndexedLog} (hlog : n.log.append e = .ok log)
    (hindex : e.index = n.logicalLastIndex + 1) (hterm : e.term = n.currentTerm) {k : Nat}
    (hk : k = n.commitIndex ∨ (k = n.logicalLastIndex + 1 ∧ normalizePeers p m.ids = []))
    (hcore : n'.core = { n with log, commitIndex := k, leaderId := n'.leaderId, election := n'.election, state := .leader }.core)
    (hin : (p, n.currentTerm) ∈ led) (hledLe : ∀ T, (p, T) ∈ led → T ≤ n.currentTerm)
    (hforwards : n.config.peers = [] → n.forwards = [])
    (hrows : ∀ q, Confirmed m w p n.currentTerm (w.log p) q (matchIndexOf n'.progress q)) :
    ∃ w', Wrote m w w' led p n' ∧ w'.leaderLog n'.currentTerm = w.log p ++ [e] := by
  obtain ⟨hsteps, hnew, hstored⟩ := h.write hp hled hown hlog hindex hterm hk
  have hsame : n'.currentTerm = n.currentTerm := (eq_of_core Node.currentTerm (fun _ => rfl) hcore :)
  have hleaderLog : ((w.extend p e).acknowledge p).leaderLog n.currentTerm = w.log p ++ [e] := by
    rw [hown, ← h.term]
    exact leaderLog_extend_self
  refine ⟨_, ⟨hsteps, ?_, fun T => ?_, ?_, fun T hT => ?_⟩, by rw [hsame, hleaderLog]⟩
  · have hstored' : Stored m ((w.extend p e).acknowledge p) p n' := by
      refine hstored.congr hsame (eq_of_core Node.log (fun _ => rfl) hcore :)
        (eq_of_core Node.lastSnapshotIndex (fun _ => rfl) hcore :) (eq_of_core Node.lastSnapshotTerm (fun _ => rfl) hcore :)
        (eq_of_core Node.snapshot (fun _ => rfl) hcore :) ?_ ?_
      · rw [show n'.commitIndex = k from (eq_of_core Node.commitIndex (fun _ => rfl) hcore :)]
        exact hstored.commit
      · rw [show n'.snapshotTask = n.snapshotTask from (eq_of_core Node.snapshotTask (fun _ => rfl) hcore :)]
        exact hstored.task
    refine .of_stored hstored' (eq_of_core Node.state (fun _ => rfl) hcore :) (by rw [hsame]; exact hin) (by rw [hsame]; exact hledLe)
      ?_ ?_ ?_ fun q => ?_
    · rw [hsame, hleaderLog, hnew]
    · rw [hsame, hnew]
      exact .inl ⟨rfl, h.term.symm, by rw [← hnew]; exact List.prefix_refl _⟩
    · rw [show n'.config = n.config from (eq_of_core Node.config (fun _ => rfl) hcore :),
        show n'.forwards = n.forwards from (eq_of_core Node.forwards (fun _ => rfl) hcore :)]
      exact hforwards
    · rw [hsame, hnew]
      rcases hrows q with hsealed | ⟨hq, hne, hle, hack⟩
      · exact .inl ((hsealed.keep ((List.take_prefix _ _).trans (List.prefix_append _ _))).onward hsteps.onward)
      · refine .inr ⟨hq, hne, ?_, .inr ?_⟩
        · rw [List.length_append]
          omega
        · rw [List.take_append_of_le_length hle]
          exact hack
  · rw [hsame]
    exact ⟨.inr, fun hT => hT.elim (fun heq => heq ▸ hled) id⟩
  · rw [hsame, hleaderLog, hnew]
  · refine leaderLog_extend_of_ne ?_
    rw [h.term, ← hsame]
    exact hT

/-- A node that a majority has voted for takes its log for that of the term. -/
theorem Stored.elect (h : Stored m w p n) (hfresh : ¬ w.led n.currentTerm) (hstood : w.stood p n.currentTerm (w.log p))
    (hquorum : IsMajority m.ids fun v => ∃ l, w.voted v n.currentTerm p l) :
    m.Steps p w (w.elect p) ∧ Stored m (w.elect p) p n ∧ (w.elect p).led n.currentTerm ∧
      (w.elect p).log p = (w.elect p).leaderLog n.currentTerm := by
  have hstep : World.Step LogEntry.term (majority m.ids) p w (w.elect p) :=
    .elect (h.term ▸ hfresh) (h.term ▸ hstood) (h.term ▸ hquorum)
  refine ⟨.single hstep, h.onward hstep.onward rfl rfl, .inl h.term.symm, ?_⟩
  rw [← h.term]
  exact leaderLog_elect_self.symm

/-- A node that is started again over its directory. -/
theorem Replica.restart (h : Replica m w led p n) : Replica m w led p n.restart where
  term := h.term
  backed := h.backed.congr rfl h.snapshotIndex.symm h.snapshotTerm.symm
  snapshotIndex := rfl
  snapshotTerm := rfl
  saved := h.saved
  commit := by
    have hbase := h.base
    rw [h.snapshotIndex] at hbase
    exact hbase
  base := by
    have hbase := h.base
    rw [h.snapshotIndex] at hbase
    exact hbase
  task := fun t ht => by cases ht
  leads := fun hs => by cases hs
  rows := fun hs => by cases hs
  led_le := h.led_le
  led_state := fun _ hs => by cases hs
  stands := fun hs => by cases hs
  forwards := fun _ => rfl
  soloLed := h.soloLed
  soloStood := h.soloStood

end Node

end RaftVdb
