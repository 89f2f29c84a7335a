import RaftVdb.Polls
import RaftVdb.Replica
import RaftVdb.WellFormed

/-!
# Safety of a cluster

A run keeps a ledger: the whole log of every node, the votes and the acknowledgements.
`Secure` says that every node is a replica in it, that every call rests on it and that
what has been committed, applied and truncated agrees with it. The handlers miss a few
checks that this needs. `Safe` names them, as a condition on the steps of a run.
-/

namespace RaftVdb

open Lib Leaders

/-- What has happened agrees with the ledger. -/
structure Attested (m : Members) (w : Ledger) (h : History) : Prop where
  led : ∀ T, w.led T ↔ ∃ p, (p, T) ∈ h.led
  pos : ∀ T, w.led T → 0 < T
  leaderLog : ∀ T, ∀ e ∈ h.leaderLog T, w.led T ∧ (w.leaderLog T)[e.index - 1]? = some e
  votes : ∀ x ∈ h.votes, ∃ l, w.voted x.voter x.term x.candidate l
  commits : ∀ x ∈ h.commits, ∃ l, m.Sealed w x.term l ∧ l.length = x.commitIndex ∧ Excerpt l x.entries
  applied : ∀ x ∈ h.applied, ∃ T l, m.Sealed w T l ∧ l[x.index - 1]? = some x.entry
  truncations : ∀ t ∈ h.truncations, t.commitIndex < t.index ∧ ∀ e ∈ t.removed, Node.Dropped m w t.term e

/-- What a request rests on. -/
def Founded (m : Members) (w : Ledger) (src dst : String) : Request → Prop
  | .vote r => ∃ l, w.stood r.candidateId r.term l ∧ r.lastLogIndex = l.length ∧
      r.lastLogTerm = World.lastTerm LogEntry.term l
  | .heartbeat _ r => ∃ l, m.Sealed w r.term l ∧ l.length = r.commitIndex
  | .append caller r => (dst ∈ m.ids → normalizePeers dst m.ids ≠ []) ∧ ∃ l, Node.Batch m w r l ∧
      (caller ≠ .forward → w.led r.term ∧ l <+: w.leaderLog r.term)
  | .install r => r.leaderTerm ≤ w.term src ∧ ∃ l, Node.Covers m w r.leaderTerm r.snapshot l

/-- The log that a follower acknowledges. -/
structure Acknowledges (m : Members) (w : Ledger) (dst : String) (term matchIndex : Nat) (wal : IndexedLog)
    (l : List LogEntry) : Prop where
  acked : w.acked dst term l
  length : matchIndex = l.length
  excerpt : Excerpt l wal.entries
  /-- What the WAL no longer has is committed. -/
  sealed : ∀ err, wal.read matchIndex = .error err → m.Sealed w term l

/-- What a response rests on. -/
structure Vouched (m : Members) (w : Ledger) (call : Call) : Prop where
  member : call.reply ≠ none → call.dst ∈ m.ids
  append : ∀ caller r a, call.request = .append caller r → call.reply = some (.append a) → a.success = true →
    ∃ l, Acknowledges m w call.dst r.term a.matchIndex call.wal l

variable {m : Members} {w w' : Ledger} {h : History} {p q : String} {n n' : Node}

/-! ## What is on record stays -/

theorem Attested.onward (hA : Attested m w h) (ho : World.Onward LogEntry.term q w w')
    (hsame : w'.toLeaders = w.toLeaders) : Attested m w' h where
  led T := by rw [hsame]; exact hA.led T
  pos := by rw [hsame]; exact hA.pos
  leaderLog := by rw [hsame]; exact hA.leaderLog
  votes x hx := (hA.votes x hx).imp fun l hl => ho.voted _ _ _ l hl
  commits x hx := (hA.commits x hx).imp fun l hl => ⟨hl.1.onward ho, hl.2⟩
  applied x hx := (hA.applied x hx).imp fun T ⟨l, hl, hx⟩ => ⟨l, hl.onward ho, hx⟩
  truncations t ht := ⟨(hA.truncations t ht).1, fun e he => ((hA.truncations t ht).2 e he).onward ho⟩

theorem Founded.onward {src dst : String} {request : Request} (hf : Founded m w src dst request)
    (ho : World.Onward LogEntry.term q w w') : Founded m w' src dst request := by
  cases request with
  | vote r => exact hf.imp fun l hl => ⟨ho.stood _ _ l hl.1, hl.2⟩
  | heartbeat caller r => exact hf.imp fun l hl => ⟨hl.1.onward ho, hl.2⟩
  | append caller r =>
    obtain ⟨hdst, l, hl, hleader⟩ := hf
    refine ⟨hdst, l, hl.onward ho, fun hc => ?_⟩
    obtain ⟨hled, hle⟩ := hleader hc
    exact ⟨(ho.grows _ hled).1, hle.trans (ho.grows.leaderLog_le hled)⟩
  | install r => exact ⟨hf.1.trans (ho.term_le _), hf.2.imp fun l hl => hl.onward ho⟩

theorem Vouched.onward {call : Call} (hv : Vouched m w call) (ho : World.Onward LogEntry.term q w w') :
    Vouched m w' call where
  member := hv.member
  append caller r a hr ha hok := (hv.append caller r a hr ha hok).imp fun l hl =>
    ⟨ho.acked _ _ l hl.acked, hl.length, hl.excerpt, fun err herr => (hl.sealed err herr).onward ho⟩

/-! ## What is put on record -/

theorem Attested.commit (hA : Attested m w h) (hn' : Node.Stored m w p n') : Attested m w (h.commit p n n') := by
  unfold History.commit
  split
  · exact { hA with
      commits := fun x hx => by
        rcases List.mem_cons.mp hx with rfl | hx
        · exact hn'.committed
        · exact hA.commits x hx }
  · exact hA

theorem Attested.stand (hA : Attested m w h) (hvoted : w.voted p n.currentTerm p (w.log p)) : Attested m w (h.stand p n) :=
  { hA with
    votes := fun x hx => by
      rcases List.mem_cons.mp hx with rfl | hx
      · exact ⟨_, hvoted⟩
      · exact hA.votes x hx }

theorem Attested.handled (hA : Attested m w h) (request : Request) (reply : Option Response)
    (hvote : ∀ r resp, request = .vote r → reply = some (.vote resp) → resp.voteGranted = true →
      ∃ l, w.voted p r.term r.candidateId l)
    (happend : ∀ caller r, request = .append caller r → ∀ t ∈ n.appendTruncations r,
      n.commitIndex < t.1 ∧ ∀ x ∈ t.2, Node.Dropped m w r.term x) : Attested m w (h.handled p n request reply) := by
  unfold History.handled
  split
  · split
    · next hgrant =>
      exact { hA with
        votes := fun x hx => by
          rcases List.mem_cons.mp hx with rfl | hx
          · exact hvote _ _ rfl rfl hgrant
          · exact hA.votes x hx }
    · exact hA
  · exact { hA with
      truncations := fun t ht => by
        rcases List.mem_append.mp ht with ht | ht
        · obtain ⟨x, hx, rfl⟩ := List.mem_map.mp ht
          exact happend _ _ rfl x hx
        · exact hA.truncations t ht }
  · exact hA

/-- A leader writes its log. -/
theorem Attested.wrote (hA : Attested m w h) {led : List (String × Nat)} (hW : Node.Wrote m w w' led p n')
    (hpos : 0 < n'.currentTerm) (hled : ∀ T, (∃ q, (q, T) ∈ led) ↔ T = n'.currentTerm ∨ ∃ q, (q, T) ∈ h.led) :
    Attested m w' { h.write n' with led } where
  led T := by rw [hW.led, hled, hA.led]
  pos T hT := by
    rcases (hW.led T).mp hT with rfl | hT
    · exact hpos
    · exact hA.pos T hT
  leaderLog T e he := by
    have he : e ∈ Function.update h.leaderLog n'.currentTerm n'.log.entries T := he
    by_cases hT : T = n'.currentTerm
    · rw [hT, Function.update_self] at he
      rw [hT, hW.leaderLog]
      exact ⟨(hW.led _).mpr (.inl rfl), hW.replica.backed.excerpt e he⟩
    · rw [Function.update_of_ne hT] at he
      rw [hW.others T hT]
      exact ⟨(hW.led T).mpr (.inr (hA.leaderLog T e he).1), (hA.leaderLog T e he).2⟩
  votes x hx := (hA.votes x hx).imp fun l hl => hW.steps.onward.voted _ _ _ l hl
  commits x hx := (hA.commits x hx).imp fun l hl => ⟨hl.1.onward hW.steps.onward, hl.2⟩
  applied x hx := (hA.applied x hx).imp fun T ⟨l, hl, hx⟩ => ⟨l, hl.onward hW.steps.onward, hx⟩
  truncations t ht := ⟨(hA.truncations t ht).1, fun e he => ((hA.truncations t ht).2 e he).onward hW.steps.onward⟩

/-! ## What a step makes of the ledger -/

/-- The logs of the leaders are as they were. -/
def Undisturbed (m : Members) (w w' : Ledger) : Prop := ∃ p, m.Steps p w w' ∧ w'.toLeaders = w.toLeaders

/-- A leader has put an entry behind a log. -/
structure Appends (m : Members) (w w' : Ledger) (l : List LogEntry) (e : LogEntry) : Prop where
  matches_log : Matches LogEntry.term w.toLeaders l
  written : ∃ p led n', Node.Wrote m w w' led p n' ∧ w'.leaderLog n'.currentTerm = l ++ [e]

theorem Undisturbed.refl (m : Members) (w : Ledger) : Undisturbed m w w := ⟨"", .refl w, rfl⟩

theorem Undisturbed.sealed {m : Members} {w w' : Ledger} (h : Undisturbed m w w') {T : Nat} {l : List LogEntry}
    (hl : m.Sealed w T l) : m.Sealed w' T l := by
  obtain ⟨p, hsteps, -⟩ := h
  exact hl.onward hsteps.onward

namespace Cluster

variable {codec : CommandCodec} {c c' : Cluster}

/-- What is committed stays committed, and what a leader writes is its first entry or a client
write. -/
structure Follows (c : Cluster) (a : Action) (w w' : Ledger) : Prop where
  sealed : ∀ T l, c.members.Sealed w T l → c.members.Sealed w' T l
  written : Written LogEntry.term w.toLeaders w'.toLeaders fun l e => e.type = .noop ∨
    ∃ p i x index term, a = .propose p i ∧ (c.nodes p).writes[i]? = some x ∧ l = w.log p ∧ e = { x with index, term }

theorem follows_of_undisturbed (h : Undisturbed c.members w w') (a : Action) : Follows c a w w' where
  sealed T l := h.sealed
  written T hT := by
    obtain ⟨p, -, hsame⟩ := h
    rw [hsame] at hT ⊢
    exact .inl ⟨hT, rfl⟩

theorem follows_of_appends {w₁ : Ledger} (h : Undisturbed c.members w w₁) {l : List LogEntry} {e : LogEntry}
    (hw : Appends c.members w₁ w' l e) {a : Action} (hnew : e.type = .noop ∨ ∃ p i x index term, a = .propose p i ∧
      (c.nodes p).writes[i]? = some x ∧ l = w.log p ∧ e = { x with index, term }) : Follows c a w w' where
  sealed T l hl := by
    obtain ⟨p, led, n', hW, -⟩ := hw.written
    exact (h.sealed hl).onward hW.steps.onward
  written T hT := by
    obtain ⟨p, led, n', hW, hlog⟩ := hw.written
    obtain ⟨q, -, hsame⟩ := h
    rw [← hsame]
    by_cases hterm : T = n'.currentTerm
    · rw [hterm]
      exact .inr ⟨l, e, hw.matches_log, hlog, hnew⟩
    · exact .inl ⟨((hW.led T).mp hT).resolve_left hterm, hW.others T hterm⟩

/-- The cluster agrees with the ledger. -/
structure Secure (w : Ledger) (c : Cluster) : Prop where
  inv : c.members.Inv w
  attested : Attested c.members w c.history
  node : ∀ p, Node.Replica c.members w c.history.led p (c.nodes p)
  sender : ∀ call ∈ c.calls, call.src ∈ c.members.ids
  founded : ∀ call ∈ c.calls, Founded c.members w call.src call.dst call.request
  vouched : ∀ call ∈ c.calls, Vouched c.members w call

theorem Secure.led_of_leader (hS : Secure w c) (hstate : (c.nodes p).state = .leader) : w.led (c.nodes p).currentTerm :=
  (hS.attested.led _).mpr ⟨p, ((hS.node p).leads hstate).1⟩

/-- One node changes, and no leader writes. -/
theorem Secure.put (hS : Secure w c) (hsteps : c.members.Steps p w w') (hsame : w'.toLeaders = w.toLeaders)
    (hn' : Node.Replica c.members w' c.history.led p n') : Secure w' (c.put p n') where
  inv := hsteps.inv hS.inv
  attested := hS.attested.onward hsteps.onward hsame
  node q := by
    by_cases hq : q = p
    · rw [hq, put_self]
      exact hn'
    · rw [put_other c n' hq]
      exact (hS.node q).others hq hsteps.onward (fun _ => Iff.rfl) fun T _ => by rw [hsame]
  sender := hS.sender
  founded call hcall := (hS.founded call hcall).onward hsteps.onward
  vouched call hcall := (hS.vouched call hcall).onward hsteps.onward

theorem Secure.keep (hS : Secure w c) (hn' : Node.Replica c.members w c.history.led p n') : Secure w (c.put p n') :=
  hS.put (.refl w) rfl hn'

/-- New calls take the place of the old ones. -/
theorem Secure.recall (hS : Secure w c) {calls : List Call}
    (hfounded : ∀ call ∈ calls, call.src ∈ c.members.ids ∧ Founded c.members w call.src call.dst call.request)
    (hvouched : ∀ call ∈ calls, Vouched c.members w call) : Secure w { c with calls } :=
  ⟨hS.inv, hS.attested, hS.node, fun call hcall => (hfounded call hcall).1, fun call hcall => (hfounded call hcall).2,
    hvouched⟩

theorem Secure.send (hS : Secure w c) {messages : List (String × Request)}
    (hmessages : ∀ m ∈ messages, p ∈ c.members.ids ∧ Founded c.members w p m.1 m.2) : Secure w (c.send p messages) := by
  refine hS.recall (fun call hcall => ?_) fun call hcall => ?_
  all_goals
    rcases List.mem_append.mp hcall with hcall | hcall
  · exact ⟨hS.sender call hcall, hS.founded call hcall⟩
  · obtain ⟨m, hm, rfl⟩ := List.mem_map.mp hcall
    exact hmessages m hm
  · exact hS.vouched call hcall
  · obtain ⟨m, hm, rfl⟩ := List.mem_map.mp hcall
    exact ⟨fun hno => absurd rfl hno, fun caller r a _ ha => by cases ha⟩

theorem Secure.setCall (hS : Secure w c) {i : Nat} {call call' : Call} (hcall : c.calls[i]? = some call)
    (hsrc : call'.src = call.src) (hdst : call'.dst = call.dst) (hrequest : call'.request = call.request)
    (hvouched : Vouched c.members w call') : Secure w (c.setCall i call') := by
  refine hS.recall (fun x hx => ?_) fun x hx => ?_
  all_goals
    rcases List.mem_or_eq_of_mem_set hx with hx | rfl
  · exact ⟨hS.sender x hx, hS.founded x hx⟩
  · rw [hsrc, hdst, hrequest]
    exact ⟨hS.sender call (List.mem_of_getElem? hcall), hS.founded call (List.mem_of_getElem? hcall)⟩
  · exact hS.vouched x hx
  · exact hvouched

theorem Secure.dropCalls (hS : Secure w c) (p : String) : Secure w (c.dropCalls p) := by
  refine hS.recall (fun x hx => ?_) fun x hx => ?_
  all_goals
    obtain ⟨call, hcall, rfl⟩ := List.mem_map.mp hx
  · split
    · exact ⟨hS.sender call hcall, hS.founded call hcall⟩
    · exact ⟨hS.sender call hcall, hS.founded call hcall⟩
  · split
    · exact ⟨(hS.vouched call hcall).member, (hS.vouched call hcall).append⟩
    · exact hS.vouched call hcall

theorem Secure.record (hS : Secure w c) {h : History} (hA : Attested c.members w h) (hled : h.led = c.history.led) :
    Secure w (c.record h) :=
  ⟨hS.inv, hA, fun p => by rw [record_history, hled]; exact hS.node p, hS.sender, hS.founded, hS.vouched⟩

/-- A node writes its log as leader, and may go on from there. -/
theorem Secure.wrote (hS : Secure w c) {led : List (String × Nat)} (hW : Node.Wrote c.members w w' led p n')
    (hpos : 0 < n'.currentTerm)
    (hled : ∀ q T, (q, T) ∈ led ↔ (q = p ∧ T = n'.currentTerm) ∨ (q, T) ∈ c.history.led)
    (honce : ∀ q, (q, n'.currentTerm) ∈ c.history.led → q = p) {k : Node} (hk : Node.Replica c.members w' led p k) :
    Secure w' ((c.put p k).record { c.history.write n' with led }) where
  inv := hW.steps.inv hS.inv
  attested := by
    refine hS.attested.wrote hW hpos fun T => ?_
    constructor
    · rintro ⟨q, hq⟩
      exact ((hled q T).mp hq).imp And.right fun hin => ⟨q, hin⟩
    · rintro (rfl | ⟨q, hq⟩)
      · exact ⟨p, (hled _ _).mpr (.inl ⟨rfl, rfl⟩)⟩
      · exact ⟨q, (hled _ _).mpr (.inr hq)⟩
  node q := by
    by_cases hq : q = p
    · rw [record_nodes, hq, put_self]
      exact hk
    · rw [record_nodes, put_other c k hq]
      refine (hS.node q).others hq hW.steps.onward (fun T => ?_) fun T hT => hW.others T fun heq => hq (honce q (heq ▸ hT))
      rw [record_history, hled]
      exact ⟨fun hT => hT.resolve_left fun hp => hq hp.1, .inr⟩
  sender := hS.sender
  founded call hcall := (hS.founded call hcall).onward hW.steps.onward
  vouched call hcall := (hS.vouched call hcall).onward hW.steps.onward

/-! ## Requests -/

theorem normalizePeers_ne_nil (hp : p ∈ m.ids) (hne : p ≠ q) : normalizePeers q m.ids ≠ [] :=
  List.ne_nil_of_mem (mem_normalizePeers.mpr ⟨hp, fun he => m.named (he ▸ hp), hne⟩)

/-- A cluster in which one member has peers gives every member peers. -/
theorem normalizePeers_ne_nil_of (hp : p ∈ m.ids) (h : normalizePeers p m.ids ≠ []) :
    normalizePeers q m.ids ≠ [] := by
  by_cases hne : p = q
  · exact hne ▸ h
  · exact normalizePeers_ne_nil hp hne

theorem Secure.batch (hS : Secure w c) {r : AppendEntriesRequest} (hr : (c.nodes p).Carries r) :
    Node.Batch c.members w r (w.log p) where
  log := hS.inv.logs p
  log_le := by
    rw [hr.term, ← (hS.node p).term]
    exact hS.inv.log_le p
  carried := (hS.node p).backed.carried hr
  commit := by
    rw [hr.term, hr.leaderCommit]
    exact (hS.node p).commit

theorem Secure.covers (hS : Secure w c) {s : Snapshot} (hs : (c.nodes p).snapshot = some s) (dst : String) :
    Founded c.members w p dst (.install ⟨(c.nodes p).currentTerm, s⟩) :=
  ⟨(hS.node p).term.ge, _, (hS.node p).covers hs⟩

theorem Secure.founded_of_sends (hS : Secure w c) (hp : p ∈ c.members.ids) (hself : (c.nodes p).selfId = p)
    (hstate : (c.nodes p).state = .leader) {m : String × Request} (hm : (c.nodes p).Sends m) :
    Founded c.members w p m.1 m.2 := by
  cases hm with
  | heartbeat peer caller info =>
    exact ⟨_, (hS.node p).commit.2, List.length_take_of_le (hS.node p).commit.1⟩
  | append hpeer _ hr =>
    rw [hself] at hpeer
    refine ⟨fun _ => normalizePeers_ne_nil hp (Ne.symm hpeer), w.log p, hS.batch hr, fun _ => ?_⟩
    rw [hr.term]
    exact ⟨hS.led_of_leader hstate, ((hS.node p).leads hstate).2.1 ▸ List.prefix_refl _⟩
  | install hs => exact hS.covers hs _

theorem Secure.founded_of_forwards (hS : Secure w c) (hp : p ∈ c.members.ids) (hpeers : normalizePeers p c.members.ids ≠ [])
    {m : String × Request} (hm : (c.nodes p).Forwards m) : Founded c.members w p m.1 m.2 := by
  cases hm with
  | append hr =>
    exact ⟨fun _ => normalizePeers_ne_nil_of hp hpeers, w.log p, hS.batch hr, fun hno => absurd rfl hno⟩
  | install hs => exact hS.covers hs _

/-! ## What the handlers do not check -/

/-- The leader of the term has written the entry that the node has at the index. -/
def LeaderHas (c : Cluster) (term : Nat) (p : String) (k : Nat) : Prop :=
  ∀ e ∈ ((c.nodes p).log.read k).toOption, e ∈ c.history.leaderLog term

instance (c : Cluster) (term : Nat) (p : String) (k : Nat) : Decidable (c.LeaderHas term p k) :=
  inferInstanceAs (Decidable (∀ e ∈ ((c.nodes p).log.read k).toOption, e ∈ c.history.leaderLog term))

/-- The leader of the term has the last entry of the request, or some leader up to this term
has committed it. -/
def Approved (c : Cluster) (r : AppendEntriesRequest) : Prop :=
  ∀ e ∈ r.entries.getLast?, e ∈ c.history.leaderLog r.term ∨ ∃ x ∈ c.history.commits, x.term ≤ r.term ∧ e ∈ x.entries

instance (c : Cluster) (r : AppendEntriesRequest) : Decidable (c.Approved r) :=
  inferInstanceAs (Decidable (∀ e ∈ r.entries.getLast?,
    e ∈ c.history.leaderLog r.term ∨ ∃ x ∈ c.history.commits, x.term ≤ r.term ∧ e ∈ x.entries))

/-- A heartbeat or a batch moves the commit index behind the entries that it brings only to an
entry of the leader, what a mentor makes a node replace the leader has, and a snapshot fits
the log. -/
def SafeRequest (c : Cluster) (p : String) (complete : Bool) : Request → Prop
  | .vote _ => True
  | .heartbeat _ r => (c.nodes p).currentTerm ≤ r.term →
      (c.nodes p).commitIndex < min r.commitIndex (c.nodes p).logicalLastIndex →
        c.LeaderHas r.term p (min r.commitIndex (c.nodes p).logicalLastIndex)
  | .append caller r => ((c.nodes p).prepareAppend r).2 = none →
      (caller = .forward → (c.nodes p).Clashes r → c.Approved r) ∧
      (¬ (c.nodes p).Clashes r → r.prevLogIndex + r.entries.length < min r.leaderCommit (c.nodes p).logicalLastIndex →
        c.LeaderHas r.term p (min r.leaderCommit (c.nodes p).logicalLastIndex))
  | .install r => complete = true → (c.nodes p).currentTerm ≤ r.leaderTerm → (c.nodes p).Fits r.snapshot

instance (c : Cluster) (p : String) (complete : Bool) (request : Request) : Decidable (c.SafeRequest p complete request) :=
  match request with
  | .vote _ => isTrue trivial
  | .heartbeat _ r => inferInstanceAs (Decidable ((c.nodes p).currentTerm ≤ r.term →
      (c.nodes p).commitIndex < min r.commitIndex (c.nodes p).logicalLastIndex →
        c.LeaderHas r.term p (min r.commitIndex (c.nodes p).logicalLastIndex)))
  | .append caller r => inferInstanceAs (Decidable (((c.nodes p).prepareAppend r).2 = none →
      (caller = .forward → (c.nodes p).Clashes r → c.Approved r) ∧
      (¬ (c.nodes p).Clashes r → r.prevLogIndex + r.entries.length < min r.leaderCommit (c.nodes p).logicalLastIndex →
        c.LeaderHas r.term p (min r.leaderCommit (c.nodes p).logicalLastIndex))))
  | .install r => inferInstanceAs (Decidable
      (complete = true → (c.nodes p).currentTerm ≤ r.leaderTerm → (c.nodes p).Fits r.snapshot))

/-- A leader merges an acknowledgement of another node, from the term that it still leads and
of a log that ends as its own does there, or it learns nothing from it. -/
def SafeResponse (c : Cluster) (src dst : String) (wal : IndexedLog) : Request → Option Response → Prop
  | .append _ r, some (.append a) => a.success = true → (c.nodes src).state = .leader →
      dst ≠ src ∧ (a.matchIndex ≤ (c.nodes src).commitIndex ∨ (r.term = (c.nodes src).currentTerm ∧
        ∀ e ∈ (wal.read a.matchIndex).toOption, (c.nodes src).termAtLogicalIndex a.matchIndex = .ok e.term))
  | _, _ => True

instance (c : Cluster) (src dst : String) (wal : IndexedLog) (request : Request) (reply : Option Response) :
    Decidable (c.SafeResponse src dst wal request reply) :=
  match request, reply with
  | .append _ r, some (.append a) => inferInstanceAs (Decidable (a.success = true → (c.nodes src).state = .leader →
      dst ≠ src ∧ (a.matchIndex ≤ (c.nodes src).commitIndex ∨ (r.term = (c.nodes src).currentTerm ∧
        ∀ e ∈ (wal.read a.matchIndex).toOption, (c.nodes src).termAtLogicalIndex a.matchIndex = .ok e.term))))
  | .append _ _, none => isTrue trivial
  | .append _ _, some (.vote _) => isTrue trivial
  | .append _ _, some (.heartbeat _) => isTrue trivial
  | .append _ _, some (.install _) => isTrue trivial
  | .vote _, _ => isTrue trivial
  | .heartbeat _ _, _ => isTrue trivial
  | .install _, _ => isTrue trivial

/-- What the sender says is committed is committed for a node that has the entry of the leader there. -/
theorem Secure.sealedTo (hS : Secure w c) {T k : Nat} (hterm : (c.nodes p).currentTerm ≤ T)
    (hk : k ≤ (c.nodes p).logicalLastIndex) (hleader : c.LeaderHas T p k) {s : List LogEntry}
    (hs : c.members.Sealed w T s) (hle : k ≤ s.length) : c.members.SealedTo w T (w.log p) k := by
  have hreplica := hS.node p
  rw [hreplica.backed.holds.last] at hk
  rcases Nat.lt_or_ge (c.nodes p).lastSnapshotIndex k with hlt | hge
  swap
  · exact (hreplica.base.of_le hge).mono hterm
  rcases hreplica.backed.holds.read_cases (show (c.nodes p).lastSnapshotIndex ≤ k - 1 by omega) with
    ⟨e, he, hread⟩ | ⟨hnone, -⟩
  swap
  · rw [List.getElem?_eq_none_iff] at hnone
    omega
  rw [Nat.sub_add_cancel (by omega)] at hread
  obtain ⟨hled, hat⟩ := hS.attested.leaderLog T e (hleader e (by rw [hread]; rfl))
  rw [(IndexedLog.mem_of_read hread).2] at hat
  have htake := (hS.inv.leaderLogs T hled).take_eq (hS.inv.logs p) hat he rfl
  rw [Nat.sub_add_cancel (by omega)] at htake
  refine ⟨hk, hs.of_le ?_⟩
  rw [← htake]
  exact List.prefix_of_prefix_length_le (List.take_prefix _ _) (hs.le_leaderLog hS.inv hled (le_refl _))
    ((List.length_take_le _ _).trans hle)

/-- What a request replaces, the leader of its term upholds. -/
theorem Secure.upheld (hS : Secure w c) {r : AppendEntriesRequest} {l : List LogEntry}
    (hr : Node.Batch c.members w r l) (hcarried : Node.Carried l r) (hclash : (c.nodes p).Clashes r)
    (happroved : (w.led r.term ∧ l <+: w.leaderLog r.term) ∨ c.Approved r) :
    c.members.Upheld w r.term (l.take (r.prevLogIndex + r.entries.length)) := by
  rcases happroved with ⟨hled, hle⟩ | happroved
  · exact .inl ⟨hled, (List.take_prefix _ _).trans hle⟩
  obtain ⟨e₀, he₀, -⟩ := hclash
  have hlen := List.length_pos_of_mem he₀
  have hlast : r.entries.getLast? = some r.entries[r.entries.length - 1] := by
    rw [List.getLast?_eq_getElem?]
    exact List.getElem?_eq_getElem (by omega)
  generalize r.entries[r.entries.length - 1] = e at hlast
  have he : r.entries[r.entries.length - 1]? = some e := List.getLast?_eq_getElem? ▸ hlast
  have hat := hcarried.stands _ e he
  have hindex := hcarried.numbered _ e he
  have htake : ∀ {l' : List LogEntry}, Matches LogEntry.term w.toLeaders l' → l'[e.index - 1]? = some e →
      l.take (r.prevLogIndex + r.entries.length) = l'.take (r.prevLogIndex + r.entries.length) := by
    intro l' hl' hat'
    rw [hindex, show r.prevLogIndex + (r.entries.length - 1) + 1 - 1 = r.prevLogIndex + (r.entries.length - 1) by omega] at hat'
    have heq := hr.log.take_eq hl' hat hat' rfl
    rwa [show r.prevLogIndex + (r.entries.length - 1) + 1 = r.prevLogIndex + r.entries.length by omega] at heq
  rcases happroved e hlast with hleader | ⟨x, hx, hle, hex⟩
  · obtain ⟨hled, hat'⟩ := hS.attested.leaderLog r.term e hleader
    rw [htake (hS.inv.leaderLogs r.term hled) hat']
    exact .inl ⟨hled, List.take_prefix _ _⟩
  · obtain ⟨lx, hlx, -, hexcerpt⟩ := hS.attested.commits x hx
    rw [htake (hlx.matches_log hS.inv) (hexcerpt e hex)]
    exact .inr ((hlx.of_le (List.take_prefix _ _)).mono hle)

/-- What a handler leaves behind. -/
structure Handled (m : Members) (w w' : Ledger) (led : List (String × Nat)) (p : String) (n n' : Node) (request : Request)
    (reply : Option Response) : Prop where
  steps : m.Steps p w w'
  leaders : w'.toLeaders = w.toLeaders
  replica : Node.Replica m w' led p n'
  vote : ∀ r resp, request = .vote r → reply = some (.vote resp) → resp.voteGranted = true →
    ∃ l, w'.voted p r.term r.candidateId l
  truncated : ∀ caller r, request = .append caller r → ∀ t ∈ n.appendTruncations r,
    n.commitIndex < t.1 ∧ ∀ x ∈ t.2, Node.Dropped m w' r.term x
  acked : ∀ caller r a, request = .append caller r → reply = some (.append a) → a.success = true →
    ∃ l, Acknowledges m w' p r.term a.matchIndex n'.log l

/-- The WAL of a node that has acknowledged its log. -/
theorem acknowledges_of_replica {led : List (String × Nat)} {T k : Nat} (hn : Node.Replica m w led p n)
    (hterm : n.currentTerm = T) (hack : w.acked p T (w.log p)) (hk : k = (w.log p).length) :
    Acknowledges m w p T k n.log (w.log p) where
  acked := hack
  length := hk
  excerpt := hn.backed.excerpt
  sealed err herr := by
    have hcut : k ≤ n.lastSnapshotIndex := by
      by_contra hlt
      rcases hn.backed.holds.read_cases (show n.lastSnapshotIndex ≤ k - 1 by omega) with ⟨e, -, hread⟩ | ⟨hnone, -⟩
      · rw [Nat.sub_add_cancel (by omega), herr] at hread
        cases hread
      · rw [List.getElem?_eq_none_iff] at hnone
        omega
    have hbase := (hn.base.of_le hcut).2
    rwa [hk, List.take_length, hterm] at hbase

theorem Secure.handleVote (hS : Secure w c) {src : String} {r : RequestVoteRequest} (hf : Founded c.members w src p (.vote r))
    (complete : Bool) (keepFrom : Nat) :
    ∃ w', Handled c.members w w' c.history.led p (c.nodes p) ((c.nodes p).handle complete keepFrom (.vote r)).1 (.vote r)
      ((c.nodes p).handle complete keepFrom (.vote r)).2 := by
  obtain ⟨l, hstood, hindex, hlast⟩ := hf
  obtain ⟨w', hsteps, hleaders, hreplica, hvote⟩ := (hS.node p).handleRequestVote hS.inv hstood hindex hlast
  refine ⟨w', hsteps, hleaders, hreplica, fun r' resp hr hreply hgrant => ?_, fun caller r hr => (by cases hr),
    fun caller r a hr => (by cases hr)⟩
  cases hr
  obtain ⟨resp', hok, heq⟩ := Option.map_eq_some_iff.mp hreply
  cases heq
  exact hvote resp (Transition.ok_of_toOption hok) hgrant

theorem Secure.handleHeartbeat (hS : Secure w c) {src : String} {caller : HeartbeatCaller} {r : HeartbeatRequest}
    (hf : Founded c.members w src p (.heartbeat caller r)) (complete : Bool) (keepFrom : Nat)
    (hsafe : c.SafeRequest p complete (.heartbeat caller r)) :
    ∃ w', Handled c.members w w' c.history.led p (c.nodes p)
      ((c.nodes p).handle complete keepFrom (.heartbeat caller r)).1 (.heartbeat caller r)
      ((c.nodes p).handle complete keepFrom (.heartbeat caller r)).2 := by
  obtain ⟨l, hl, hlen⟩ := hf
  obtain ⟨w', hsteps, hleaders, hreplica⟩ := (hS.node p).handleHeartbeat hS.inv (r := r) fun hge hlt =>
    hS.sealedTo hge (Nat.min_le_right _ _) (hsafe hge hlt) hl (hlen ▸ Nat.min_le_left _ _)
  exact ⟨w', hsteps, hleaders, hreplica, fun r resp hr => (by cases hr), fun caller r hr => (by cases hr),
    fun caller r a hr => (by cases hr)⟩

theorem Secure.handleAppend (hS : Secure w c) (hcfg : c.Configured) (hp : p ∈ c.members.ids) {src : String}
    {caller : AppendCaller} {r : AppendEntriesRequest} (hf : Founded c.members w src p (.append caller r)) (complete : Bool)
    (keepFrom : Nat) (hsafe : c.SafeRequest p complete (.append caller r)) :
    ∃ w', Handled c.members w w' c.history.led p (c.nodes p)
      ((c.nodes p).handle complete keepFrom (.append caller r)).1 (.append caller r)
      ((c.nodes p).handle complete keepFrom (.append caller r)).2 := by
  obtain ⟨hpeers, l, hl, hleader⟩ := hf
  have hreplica := hS.node p
  -- a request that gets as far as the entries fits the log at its previous entry
  have hgo : ((c.nodes p).prepareAppend r).2 = none → (c.nodes p).currentTerm ≤ r.term ∧ Node.Carried l r := by
    intro hnone
    rcases (c.nodes p).prepareAppend_cases r with ⟨-, a, heq, -⟩ | ⟨hge, k, hcore, hres⟩
    · rw [heq] at hnone
      cases hnone
    rcases hres with ⟨err, heq⟩ | ⟨a, heq, -⟩ | ⟨hprev, -⟩
    · rw [heq] at hnone
      cases hnone
    · rw [heq] at hnone
      cases hnone
    have hback : k.Retains (w.log p) := (hreplica.noted hS.inv r.leaderId hge).backed.of_core hcore
    exact ⟨hge, (hl.fork hS.inv hS.attested.pos hback hprev).1⟩
  have hup : ((c.nodes p).prepareAppend r).2 = none → (c.nodes p).Clashes r →
      c.members.Upheld w r.term (l.take (r.prevLogIndex + r.entries.length)) := by
    intro hnone hclash
    refine hS.upheld hl (hgo hnone).2 hclash ?_
    by_cases hcaller : caller = .forward
    · exact .inr ((hsafe hnone).1 hcaller hclash)
    · exact .inl (hleader hcaller)
  have hcommit : ((c.nodes p).prepareAppend r).2 = none → ¬ (c.nodes p).Clashes r →
      r.prevLogIndex + r.entries.length < min r.leaderCommit (c.nodes p).logicalLastIndex →
      c.members.SealedTo w r.term (w.log p) (min r.leaderCommit (c.nodes p).logicalLastIndex) := by
    intro hnone hclash hlt
    refine hS.sealedTo (hgo hnone).1 (Nat.min_le_right _ _) ((hsafe hnone).2 hclash hlt) hl.commit.2 ?_
    rw [List.length_take_of_le hl.commit.1]
    exact Nat.min_le_left _ _
  obtain ⟨w', happended⟩ := hreplica.handleAppendEntries hS.inv hS.attested.pos
    (by rw [(hcfg p).2]; exact hpeers hp) hl hup hcommit
  refine ⟨w', happended.steps, happended.leaders, happended.replica, fun r resp hr => (by cases hr),
    fun caller r hr => ?_, fun caller' r' a hr ha hok => ?_⟩
  · cases hr
    exact happended.truncated
  · cases hr
    obtain ⟨a', hres, heq⟩ := Option.map_eq_some_iff.mp ha
    cases heq
    obtain ⟨hterm, hack, hmatch⟩ := happended.acked a (Transition.ok_of_toOption hres) hok
    exact ⟨_, acknowledges_of_replica happended.replica hterm hack hmatch⟩

theorem Secure.handleInstall (hS : Secure w c) (hcfg : c.Configured) {src : String} {r : InstallSnapshotRequest}
    (hf : Founded c.members w src p (.install r)) (complete : Bool) (keepFrom : Nat)
    (hsafe : c.SafeRequest p complete (.install r)) :
    ∃ w', Handled c.members w w' c.history.led p (c.nodes p) ((c.nodes p).handle complete keepFrom (.install r)).1
      (.install r) ((c.nodes p).handle complete keepFrom (.install r)).2 := by
  obtain ⟨-, l, hl⟩ := hf
  have hpos : 0 < r.leaderTerm := by
    obtain ⟨e, he⟩ := List.exists_mem_of_length_pos (show 0 < l.length by rw [← hl.index]; exact hl.pos)
    have := hS.attested.pos _ ((hl.committed.matches_log hS.inv).led he)
    have := hl.committed.term_le hS.inv he
    omega
  obtain ⟨w', hsteps, hleaders, hreplica⟩ := (hS.node p).handleInstallSnapshot hS.inv complete keepFrom
    (fun hpeers A hA => Members.self_of_majority ((hcfg p).2.symm.trans hpeers) hA) hpos hl hsafe
  exact ⟨w', hsteps, hleaders, hreplica, fun r resp hr => (by cases hr), fun caller r hr => (by cases hr),
    fun caller r a hr => (by cases hr)⟩

theorem Secure.handled (hS : Secure w c) (hcfg : c.Configured) (hp : p ∈ c.members.ids) {src : String} {request : Request}
    (hf : Founded c.members w src p request) (complete : Bool) (keepFrom : Nat) (hsafe : c.SafeRequest p complete request) :
    ∃ w', Handled c.members w w' c.history.led p (c.nodes p) ((c.nodes p).handle complete keepFrom request).1 request
      ((c.nodes p).handle complete keepFrom request).2 := by
  cases request with
  | vote r => exact hS.handleVote hf complete keepFrom
  | heartbeat caller r => exact hS.handleHeartbeat hf complete keepFrom hsafe
  | append caller r => exact hS.handleAppend hcfg hp hf complete keepFrom hsafe
  | install r => exact hS.handleInstall hcfg hf complete keepFrom hsafe

theorem Secure.deliver (hS : Secure w c) (hcfg : c.Configured) {i : Nat} {call : Call} (hcall : c.calls[i]? = some call)
    (hdst : call.dst ∈ c.members.ids) (complete : Bool) (keepFrom : Nat)
    (hsafe : c.SafeRequest call.dst complete call.request) :
    ∃ w', Undisturbed c.members w w' ∧ Secure w' (((c.put call.dst ((c.nodes call.dst).handle complete keepFrom call.request).1).setCall i
        { call with
          delivered := true
          reply := ((c.nodes call.dst).handle complete keepFrom call.request).2
          wal := ((c.nodes call.dst).handle complete keepFrom call.request).1.log }).record
      (c.history.handled call.dst (c.nodes call.dst) call.request
        ((c.nodes call.dst).handle complete keepFrom call.request).2)) := by
  obtain ⟨w', hH⟩ := hS.handled hcfg hdst (hS.founded call (List.mem_of_getElem? hcall)) complete keepFrom hsafe
  refine ⟨w', ⟨_, hH.steps, hH.leaders⟩, Secure.record ?_ ?_ ?_⟩
  · refine Secure.setCall (hS.put hH.steps hH.leaders hH.replica) hcall rfl rfl rfl ?_
    exact ⟨fun _ => hdst, hH.acked⟩
  · exact (hS.attested.onward hH.steps.onward hH.leaders).handled _ _ hH.vote hH.truncated
  · exact History.led_handled ..

/-! ## Responses -/

/-- What a leader merges is committed, or acknowledges its log. -/
theorem Secure.acknowledged (hS : Secure w c) {call : Call} (hcall : call ∈ c.calls)
    (hstate : (c.nodes call.src).state = .leader)
    (hsafe : c.SafeResponse call.src call.dst call.wal call.request call.reply) {k : Nat}
    (hacks : Node.Acks call.request call.reply k) :
    Node.Confirmed c.members w call.src (c.nodes call.src).currentTerm (w.log call.src) call.dst k := by
  have hreplica := hS.node call.src
  obtain ⟨-, hown, -⟩ := hreplica.leads hstate
  have hled := hS.led_of_leader hstate
  have hfounded := hS.founded call hcall
  have hvouched := hS.vouched call hcall
  generalize hrequest : call.request = request at hacks hsafe hfounded
  generalize hreply : call.reply = reply at hacks hsafe
  cases hacks with
  | @install r a hok =>
    obtain ⟨hle, l, hl⟩ := hfounded
    rw [hreplica.term] at hle
    have hfront := hl.committed.le_leaderLog hS.inv hled hle
    rw [← hown] at hfront
    rw [hl.index]
    exact .inl ((hl.committed.mono hle).sealedTo hfront)
  | @append caller r a hok =>
    obtain ⟨hne, hsafe⟩ := hsafe hok hstate
    rcases hsafe with hle | ⟨hterm, hsame⟩
    · exact .inl (hreplica.commit.of_le hle)
    obtain ⟨l, hl⟩ := hvouched.append caller r a hrequest hreply hok
    rcases Nat.eq_zero_or_pos a.matchIndex with hzero | hpos
    · rw [hzero]
      exact .inl (.zero _ _)
    cases hread : call.wal.read a.matchIndex with
    | error err =>
      have hsealed := hl.sealed err hread
      rw [hterm] at hsealed
      have hfront := hsealed.le_leaderLog hS.inv hled (le_refl _)
      rw [← hown] at hfront
      rw [hl.length]
      exact .inl (hsealed.sealedTo hfront)
    | ok e =>
      -- the logs have the same entry there, so they are the same up to it
      obtain ⟨hmem, hindex⟩ := IndexedLog.mem_of_read hread
      have hat := hl.excerpt e hmem
      rw [hindex] at hat
      have hagree := hreplica.backed.term_of_ok hpos (hsame e (by rw [hread]; rfl))
      obtain ⟨x, hx, hxterm⟩ := Option.map_eq_some_iff.mp hagree
      have htake := (hS.inv.acked_matches _ _ _ hl.acked).take_eq (hS.inv.logs call.src) hat hx hxterm.symm
      rw [Nat.sub_add_cancel hpos, hl.length, List.take_length] at htake
      refine .inr ⟨hvouched.member (by rw [hreply]; simp), hne, ?_, ?_⟩
      · have := (List.getElem?_eq_some_iff.mp hx).1
        omega
      · rw [hl.length, ← htake, ← hterm]
        exact hl.acked

theorem Secure.answer (hS : Secure w c) (hcfg : c.Configured) {i : Nat} {call : Call} (hcall : c.calls[i]? = some call)
    {n' : Node} {reply : Option Response}
    (hacks : ∀ k, Node.Acks call.request reply k → (c.nodes call.src).state = .leader →
      Node.Confirmed c.members w call.src (c.nodes call.src).currentTerm (w.log call.src) call.dst k)
    (hn' : (c.nodes call.src).Answers call.dst call.request reply n') :
    ∃ w', Undisturbed c.members w w' ∧ Secure w' (((c.put call.src n').setCall i { call with waiting := false }).record
      (c.history.commit call.src (c.nodes call.src) n')) := by
  have hmem := List.mem_of_getElem? hcall
  obtain ⟨w', hsteps, hleaders, hreplica⟩ := (hS.node call.src).answers hS.inv (hS.sender call hmem) (hcfg _).2
    hS.led_of_leader hacks hn'
  have hput := hS.put hsteps hleaders hreplica
  refine ⟨w', ⟨_, hsteps, hleaders⟩, Secure.record ?_ (hput.attested.commit hreplica.toStored) (History.led_commit ..)⟩
  refine hput.setCall hcall rfl rfl rfl ?_
  exact ⟨(hput.vouched call hmem).member, (hput.vouched call hmem).append⟩

/-! ## Elections -/

theorem Secure.stand (hS : Secure w c) (hcfg : c.Configured) (hmem : p ∈ c.members.ids)
    (hn' : n' = { (c.nodes p).becomeCandidate with
      election := some { term := (c.nodes p).currentTerm + 1, highestTerm := (c.nodes p).currentTerm + 1 } }) :
    ∃ w', Undisturbed c.members w w' ∧ Secure w' (((c.put p n').send p (n'.config.peers.map fun peer => (peer, .vote n'.requestVote))).record
      (c.history.stand p n')) := by
  have hlt : (c.nodes p).currentTerm < n'.currentTerm := by
    rw [hn']
    exact Nat.lt_succ_self _
  subst hn'
  obtain ⟨hsteps, hreplica⟩ := (hS.node p).stand hS.inv hlt rfl rfl rfl rfl rfl rfl (by intro h; cases h) rfl rfl
  have hput := hS.put hsteps rfl hreplica
  refine ⟨_, ⟨_, hsteps, rfl⟩, Secure.record (hput.send fun m hm => ?_) (hput.attested.stand (.inl ⟨rfl, rfl, rfl, rfl⟩)) rfl⟩
  obtain ⟨peer, -, rfl⟩ := List.mem_map.mp hm
  refine ⟨hmem, _, .inl ⟨(hcfg p).1, rfl, rfl⟩, ?_, ?_⟩
  · exact hreplica.backed.holds.last
  · exact hreplica.backed.lastLogTerm

/-- A node that ends its election without a win. -/
theorem Secure.lose (hS : Secure w c) {e : Election} (hn' : (c.nodes p).Concludes e n')
    (hlost : ¬ ((c.nodes p).state = .candidate ∧ n'.state = .leader)) :
    ∃ w', Undisturbed c.members w w' ∧ Secure w' (c.put p n') := by
  have hreplica := hS.node p
  cases hn' with
  | idle => exact ⟨w, Undisturbed.refl c.members w, hS.keep hreplica.idle⟩
  | newer hlt =>
    obtain ⟨w', hsteps, hleaders, hdown⟩ := hreplica.idle.stepDown hS.inv e.highestTerm
    exact ⟨w', ⟨_, hsteps, hleaders⟩, hS.put hsteps hleaders hdown⟩
  | failed hstate hcore =>
    rw [Node.firstTerm_of_ne_zero (hreplica.stands hstate).1] at hcore
    have hnamed : Node.Replica c.members w c.history.led p
        { c.nodes p with election := none, leaderId := (c.nodes p).selfId } :=
      hreplica.congr rfl rfl rfl rfl rfl hreplica.commit hreplica.task rfl hreplica.rows rfl fun _ => id
    exact ⟨w, Undisturbed.refl c.members w, hS.keep (hnamed.of_core hcore fun hs => absurd (hs.symm.trans hstate) (by decide))⟩
  | won hstate _ _ _ hcore =>
    refine absurd ⟨hstate, ?_⟩ hlost
    rw [Node.eq_of_maybeCommit Node.state fun _ _ => rfl]
    exact Node.eq_of_core Node.state (fun _ => rfl) hcore

theorem put_put (c : Cluster) (p : String) (n n' : Node) : (c.put p n).put p n' = c.put p n' := by
  simp [put]

/-- A node in term 0 takes the first term by itself when it becomes leader. -/
theorem Secure.firstTerm (hS : Secure w c) (p : String) :
    (c.nodes p).firstTerm.currentTerm ≠ 0 ∧ ∃ w', Undisturbed c.members w w' ∧ Secure w' ((c.put p (c.nodes p).firstTerm).record
      (if (c.nodes p).currentTerm = 0 then c.history.stand p (c.nodes p).firstTerm else c.history)) := by
  have hreplica := hS.node p
  split
  · next hzero =>
    have hstate : (c.nodes p).state ≠ .leader := fun hs => by
      have := hS.attested.pos _ (hS.led_of_leader hs)
      omega
    obtain ⟨w', hsteps, hleaders, hfirst, hpos, hvoted⟩ := hreplica.firstTerm hS.inv hstate
    have hput := hS.put hsteps hleaders hfirst
    exact ⟨hpos, w', ⟨_, hsteps, hleaders⟩, hput.record (hput.attested.stand (hvoted hzero)) rfl⟩
  · next hpos =>
    rw [Node.firstTerm_of_ne_zero hpos, put_same]
    exact ⟨hpos, w, Undisturbed.refl c.members w, hS⟩

/-- The node may write as leader of its term: its log is that of the term, or a majority has
voted for it. -/
def Ready (m : Members) (w : Ledger) (p : String) (n : Node) : Prop :=
  (w.led n.currentTerm ∧ w.log p = w.leaderLog n.currentTerm) ∨
    (¬ w.led n.currentTerm ∧ ∃ w', m.Steps p w w' ∧ w'.toLeaders = w.toLeaders ∧ n.Stored m w' p ∧
      w'.stood p n.currentTerm (w'.log p) ∧ IsMajority m.ids fun v => ∃ l, w'.voted v n.currentTerm p l)

/-- A node becomes leader and writes its first entry. -/
theorem Secure.lead (hS : Secure w c) (hcfg : c.Configured) (hp : p ∈ c.members.ids)
    (hready : Ready c.members w p (c.nodes p)) (hpos : (c.nodes p).currentTerm ≠ 0)
    (honce : ∀ q, (q, (c.nodes p).currentTerm) ∈ c.history.led → q = p) {log : IndexedLog} {e : LogEntry}
    (hlog : (c.nodes p).log.append e = .ok log) (hindex : e.index = (c.nodes p).logicalLastIndex + 1)
    (hterm : e.term = (c.nodes p).currentTerm)
    (hcore : n.core = { c.nodes p with log, leaderId := n.leaderId, election := n.election, state := .leader }.core)
    (hmatch : ∀ q, matchIndexOf n.progress q = 0) :
    ∃ w' l, Appends c.members w w' l e ∧
      Secure w' ((c.put p n.maybeCommit).record ((c.history.lead p n).commit p n n.maybeCommit)) := by
  have hreplica := hS.node p
  have hsame : n.currentTerm = (c.nodes p).currentTerm := (Node.eq_of_core Node.currentTerm (fun _ => rfl) hcore :)
  have hconfig : n.config = (c.nodes p).config := (Node.eq_of_core Node.config (fun _ => rfl) hcore :)
  have hledLe : ∀ T, (p, T) ∈ (p, (c.nodes p).currentTerm) :: c.history.led → T ≤ (c.nodes p).currentTerm := by
    intro T hT
    rcases List.mem_cons.mp hT with heq | hT
    · cases heq
      exact le_refl _
    · exact hreplica.led_le T hT
  have hwrite : ∀ {x : Ledger}, (c.nodes p).Stored c.members x p → x.led (c.nodes p).currentTerm →
      x.log p = x.leaderLog (c.nodes p).currentTerm →
      ∃ w', Node.Wrote c.members x w' ((p, (c.nodes p).currentTerm) :: c.history.led) p n ∧
        w'.leaderLog n.currentTerm = x.log p ++ [e] := fun hx hled hown =>
    hx.leads hp hled hown hlog hindex hterm (.inl rfl) hcore List.mem_cons_self hledLe hreplica.forwards fun q => by
      rw [hmatch q]
      exact .inl (.zero _ _)
  obtain ⟨w', l, hl, hW, hleaderLog⟩ : ∃ w' l, Matches LogEntry.term w.toLeaders l ∧
      Node.Wrote c.members w w' ((p, (c.nodes p).currentTerm) :: c.history.led) p n ∧
      w'.leaderLog n.currentTerm = l ++ [e] := by
    rcases hready with ⟨hled, hown⟩ | ⟨hfresh, x, hsteps, hleaders, hstored, hstood, hquorum⟩
    · obtain ⟨w', hW, hlog⟩ := hwrite hreplica.toStored hled hown
      exact ⟨w', _, hS.inv.logs p, hW, hlog⟩
    · obtain ⟨helect, hstored', hled, hown⟩ := hstored.elect (by rw [hleaders]; exact hfresh) hstood hquorum
      obtain ⟨w', hW, hlog⟩ := hwrite hstored' hled hown
      have hxterm : n.currentTerm = x.term p := hsame.trans hstored.term.symm
      refine ⟨w', _, hleaders ▸ (hsteps.inv hS.inv).logs p,
        ⟨(hsteps.trans helect).trans hW.steps, hW.replica, fun T => ?_, hW.leaderLog, fun T hT => ?_⟩, hlog⟩
      · rw [hW.led, ← hleaders]
        show _ ∨ T = x.term p ∨ x.led T ↔ _
        rw [← hxterm, ← or_assoc, or_self]
      · rw [hW.others T hT, ← hleaders]
        exact leaderLog_elect_of_ne (hxterm ▸ hT)
  have hk := hW.replica.maybeCommit (hW.steps.inv hS.inv) hp (by rw [hconfig]; exact (hcfg p).2) fun _ =>
    (hW.led _).mpr (.inl rfl)
  rw [← hsame] at hW hk honce
  have hwrote := hS.wrote hW (by omega) (fun q T => by simp) honce hk
  exact ⟨w', l, ⟨hl, p, _, n, hW, hleaderLog⟩, hwrote.record (hwrote.attested.commit hk.toStored) (History.led_commit ..)⟩

/-- The only member leads its term at once. -/
theorem Secure.ready_solo (hS : Secure w c) (hcfg : c.Configured) (hp : p ∈ c.members.ids)
    (hpeers : (c.nodes p).config.peers = []) (honce : ∀ q, (q, (c.nodes p).currentTerm) ∈ c.history.led → q = p) :
    Ready c.members w p (c.nodes p) := by
  have hreplica := hS.node p
  have hsolo : normalizePeers p c.members.ids = [] := (hcfg p).2.symm.trans hpeers
  by_cases hin : (p, (c.nodes p).currentTerm) ∈ c.history.led
  · exact .inl ⟨(hS.attested.led _).mpr ⟨p, hin⟩, hreplica.soloLed hpeers hin⟩
  have hfresh : ¬ w.led (c.nodes p).currentTerm := fun hled => by
    obtain ⟨q, hq⟩ := (hS.attested.led _).mp hled
    exact hin (honce q hq ▸ hq)
  by_cases hstood : ∃ l, w.stood p (c.nodes p).currentTerm l
  · obtain ⟨l, hl⟩ := hstood
    obtain rfl := hreplica.soloStood hpeers hin l hl
    exact .inr ⟨hfresh, w, .refl w, rfl, hreplica.toStored, hl,
      Members.majority_self hp hsolo ⟨_, hS.inv.stood_voted p _ _ hl⟩⟩
  -- it has never stood in this term, so the ledger lets it stand now
  have hstep : World.Step LogEntry.term (majority c.members.ids) p w (w.stand p (c.nodes p).currentTerm) := by
    refine .stand _ hreplica.term.le (fun l hl => hstood ⟨l, hl⟩) fun e he => ?_
    have hle := hS.inv.log_le p e he
    have hled := (hS.inv.logs p).led he
    rw [hreplica.term] at hle
    exact Nat.lt_of_le_of_ne hle fun heq => hfresh (heq ▸ hled)
  have hterm : (w.stand p (c.nodes p).currentTerm).term p = w.term p := (Function.update_self ..).trans hreplica.term.symm
  exact .inr ⟨hfresh, _, .single hstep, rfl, hreplica.toStored.onward hstep.onward hterm rfl, .inl ⟨rfl, rfl, rfl⟩,
    Members.majority_self hp hsolo ⟨_, .inl ⟨rfl, rfl, rfl, rfl⟩⟩⟩

/-- A candidate that a majority has voted for may lead. -/
theorem Secure.ready_voted (hS : Secure w c) (hstate : (c.nodes p).state = .candidate)
    (honce : ∀ q, (q, (c.nodes p).currentTerm) ∈ c.history.led → q = p)
    (hquorum : IsMajority c.members.ids fun v => c.history.Voted v (c.nodes p).currentTerm p) :
    Ready c.members w p (c.nodes p) := by
  have hreplica := hS.node p
  refine .inr ⟨fun hled => ?_, w, .refl w, rfl, hreplica.toStored, (hreplica.stands hstate).2, hquorum.mono ?_⟩
  · obtain ⟨q, hq⟩ := (hS.attested.led _).mp hled
    exact hreplica.led_state (honce q hq ▸ hq) hstate
  · rintro v ⟨x, hx, rfl, hT, hp⟩
    rw [← hT, ← hp]
    exact hS.attested.votes x hx

/-- The only member makes itself leader. -/
theorem Secure.boot (hS : Secure w c) (hcfg : c.Configured) (hmem : p ∈ c.members.ids) (hn : c.nodes p = n)
    (hpeers : n.config.peers = []) (hpos : n.currentTerm ≠ 0)
    (honce : ∀ q, (q, n.currentTerm) ∈ c.history.led → q = p) {m : Node} {log : IndexedLog}
    (hlog : n.log.append { Node.noopEntry with index := n.logicalLastIndex + 1, term := n.currentTerm } = .ok log)
    (hcore : m.core = { n with leaderId := n.selfId, log, state := .leader }.core) (hmatch : ∀ q, matchIndexOf m.progress q = 0) :
    ∃ w' l, Appends c.members w w' l { Node.noopEntry with index := n.logicalLastIndex + 1, term := n.currentTerm } ∧
      Secure w' ((c.put p m.maybeCommit).record ((c.history.lead p m).commit p m m.maybeCommit)) := by
  subst hn
  have hid : m.leaderId = (c.nodes p).selfId := (Node.eq_of_core Node.leaderId (fun _ => rfl) hcore :)
  have hold : m.election = (c.nodes p).election := (Node.eq_of_core Node.election (fun _ => rfl) hcore :)
  exact hS.lead hcfg hmem (hS.ready_solo hcfg hmem hpeers honce) hpos honce hlog rfl rfl (by rw [hid, hold]; exact hcore) hmatch

/-! ## Entries -/

/-- A snapshot is taken of what has been applied. -/
theorem applyCommittedEntry_task {outcome : Except String Unit} {e : LogEntry}
    (h : n.applyCommittedEntry codec outcome = some (n', e)) {t : SnapshotTask} (ht : t ∈ n'.snapshotTask) :
    t ∈ n.snapshotTask ∨ t.snapshotIndex = n.appliedIndex + 1 := by
  unfold Node.applyCommittedEntry at h
  split at h
  swap
  · cases h
  split at h
  · cases h
  cases h
  have hexecute : ∀ x o, (n.execute codec (n.appliedIndex + 1) x o).snapshotTask = n.snapshotTask := by
    intro x o
    unfold Node.execute
    split <;> rfl
  unfold Node.maybeTriggerSnapshot at ht
  split at ht
  · rw [hexecute] at ht
    exact .inl ht
  · cases ht
    exact .inr rfl

theorem Secure.applied (hS : Secure w c) {e : LogEntry} {task : Option SnapshotTask}
    (hlt : (c.nodes p).appliedIndex < (c.nodes p).commitIndex)
    (hread : (c.nodes p).log.read ((c.nodes p).appliedIndex + 1) = .ok e)
    (htask : ∀ t ∈ n'.snapshotTask, t ∈ (c.nodes p).snapshotTask ∨ t.snapshotIndex = (c.nodes p).appliedIndex + 1)
    (hcore : n'.core = { c.nodes p with
      executed := (c.nodes p).executed ++ (e.command codec).toList
      appliedIndex := (c.nodes p).appliedIndex + 1
      snapshotTask := task }.core)
    (hprogress : n'.progress = (c.nodes p).progress) :
    Secure w ((c.put p n').record
      { c.history with applied := ⟨p, (c.nodes p).appliedIndex + 1, e⟩ :: c.history.applied }) := by
  have hreplica := hS.node p
  have hreach := hreplica.commit.of_le hlt
  have hsame : task = n'.snapshotTask := (Node.eq_of_core Node.snapshotTask (fun _ => rfl) hcore).symm
  have hnext : Node.Replica c.members w c.history.led p { c.nodes p with
      executed := (c.nodes p).executed ++ (e.command codec).toList
      appliedIndex := (c.nodes p).appliedIndex + 1
      snapshotTask := task } := by
    refine hreplica.congr rfl rfl rfl rfl rfl hreplica.commit (fun t ht => ?_) rfl hreplica.rows rfl fun _ => id
    rw [hsame] at ht
    rcases htask t ht with hold | hindex
    · exact hreplica.task t hold
    · rw [hindex]
      exact ⟨Nat.succ_pos _, hreach⟩
  refine Secure.record (hS.keep (hnext.of_core_matched hcore fun q => by rw [hprogress])) ?_ rfl
  exact { hS.attested with
    applied := fun x hx => by
      rcases List.mem_cons.mp hx with rfl | hx
      · refine ⟨_, _, hreach.2, ?_⟩
        rw [List.getElem?_take_of_lt (by simp)]
        exact (hreplica.backed.read hread).2
      · exact hS.attested.applied x hx }

theorem Secure.proposed (hS : Secure w c) (hcfg : c.Configured) (hp : p ∈ c.members.ids)
    (honce : ∀ q, (q, (c.nodes p).currentTerm) ∈ c.history.led → q = p) (hstate : (c.nodes p).state = .leader) {e : LogEntry}
    {log : IndexedLog} (hlog : (c.nodes p).log.append
      { e with index := (c.nodes p).logicalLastIndex + 1, term := (c.nodes p).currentTerm } = .ok log)
    (hcore : n'.core = { c.nodes p with
      log
      commitIndex := if quorumSize (c.nodes p).config.peers = 1 then (c.nodes p).logicalLastIndex + 1
        else (c.nodes p).commitIndex }.core)
    (hprogress : n'.progress = (c.nodes p).progress) :
    ∃ w', Appends c.members w w' (w.log p) { e with index := (c.nodes p).logicalLastIndex + 1, term := (c.nodes p).currentTerm } ∧
      Secure w' ((c.put p n').record ((c.history.write n').commit p (c.nodes p) n')) := by
  have hreplica := hS.node p
  obtain ⟨hin, hown, -⟩ := hreplica.leads hstate
  have hsame : n'.currentTerm = (c.nodes p).currentTerm := (Node.eq_of_core Node.currentTerm (fun _ => rfl) hcore :)
  have hid : n'.leaderId = (c.nodes p).leaderId := (Node.eq_of_core Node.leaderId (fun _ => rfl) hcore :)
  have helection : n'.election = (c.nodes p).election := (Node.eq_of_core Node.election (fun _ => rfl) hcore :)
  have hk : ∀ k, k = (if quorumSize (c.nodes p).config.peers = 1 then (c.nodes p).logicalLastIndex + 1
      else (c.nodes p).commitIndex) →
      k = (c.nodes p).commitIndex ∨ (k = (c.nodes p).logicalLastIndex + 1 ∧ normalizePeers p c.members.ids = []) := by
    rintro k rfl
    split
    · next hone =>
      refine .inr ⟨rfl, ?_⟩
      rw [← (hcfg p).2, ← List.length_eq_zero_iff]
      unfold quorumSize at hone
      omega
    · exact .inl rfl
  have hrows : ∀ q, Node.Confirmed c.members w p (c.nodes p).currentTerm (w.log p) q (matchIndexOf n'.progress q) := by
    rw [hprogress]
    exact hreplica.rows hstate
  obtain ⟨w', hW, hleaderLog⟩ := hreplica.toStored.leads hp (hS.led_of_leader hstate) hown hlog rfl rfl (hk _ rfl)
    (by rw [hid, helection, ← hstate]; exact hcore) hin hreplica.led_le hreplica.forwards hrows
  have hpos := hS.attested.pos _ (hS.led_of_leader hstate)
  rw [← hsame] at honce hpos hin
  have hwrote := hS.wrote hW hpos (fun q T => ⟨.inr, fun h => h.elim (fun ⟨hq, hT⟩ => by rw [hq, hT]; exact hin) id⟩)
    honce hW.replica
  exact ⟨w', ⟨hS.inv.logs p, p, _, n', hW, hleaderLog⟩, hwrote.record (hwrote.attested.commit hW.replica.toStored) (History.led_commit ..)⟩

/-! ## Runs -/

/-- The conditions on one step. -/
def Safe (c : Cluster) : Action → Prop
  | .deliver i complete _ => ∀ call ∈ c.calls[i]?, c.SafeRequest call.dst complete call.request
  | .receive i _ => ∀ call ∈ c.calls[i]?, c.SafeResponse call.src call.dst call.wal call.request call.reply
  | _ => True

instance (c : Cluster) : (a : Action) → Decidable (c.Safe a)
  | .deliver i complete _ =>
    inferInstanceAs (Decidable (∀ call ∈ c.calls[i]?, c.SafeRequest call.dst complete call.request))
  | .receive i _ =>
    inferInstanceAs (Decidable (∀ call ∈ c.calls[i]?,
      c.SafeResponse call.src call.dst call.wal call.request call.reply))
  | .start _ | .startElection _ | .finishElection _ | .beginBroadcast _ | .finishBroadcast _ _ |
    .replicate _ _ | .forward _ _ | .checkMentor _ _ | .checkFollower _ _ _ | .fail _ _ | .rebalance _ |
    .recoverWindows _ _ | .clientWrite _ _ | .propose _ _ | .apply _ _ | .saveSnapshot _ _ | .restart _ => isTrue trivial

/-- The step keeps the votes and runs into none of the missing checks. -/
def Guarded (c : Cluster) (a : Action) : Prop := c.KeepsVotes a ∧ c.Safe a

instance (c : Cluster) (a : Action) : Decidable (c.Guarded a) := inferInstanceAs (Decidable (c.KeepsVotes a ∧ c.Safe a))

theorem Secure.step (hS : Secure w c) (hB : BallotInv c) (hcfg : c.Configured) (honce : c'.LedOnce) {a : Action}
    (hsafe : c.Safe a) (h : c.step codec a = some c') : ∃ w', c.Follows a w w' ∧ Secure w' c' := by
  have hmoves := moves_of_step h
  have hframe := frame_of_moves hmoves
  have honly : ∀ {p q : String} {T : Nat}, (p, T) ∈ c'.history.led → (q, T) ∈ c.history.led → q = p := fun hp hq =>
    honce _ _ _ (hframe.led hq) hp
  have hquiet : c.Follows a w w := follows_of_undisturbed (.refl c.members w) a
  cases hmoves with
  | @work _ p n' messages hcore hmatch hsends =>
    refine ⟨w, hquiet, (hS.keep ((hS.node p).of_core_matched hcore hmatch)).send fun m hm => ?_⟩
    obtain ⟨hmem, hstate, hsend⟩ := hsends m hm
    exact ⟨hmem, hS.founded_of_sends hmem (hcfg p).1 hstate (hsend (hcfg p).1)⟩
  | @forward p i copy n' messages hmem hcopy hcore hmatch hsends =>
    have hpeers : (c.nodes p).config.peers ≠ [] := fun hnil => by
      rw [(hS.node p).forwards hnil] at hcopy
      cases hcopy
    have hnext : Node.Replica c.members w c.history.led p
        { c.nodes p with forwards := (c.nodes p).forwards.eraseIdx i } :=
      (hS.node p).congr rfl rfl rfl rfl rfl (hS.node p).commit (hS.node p).task rfl (hS.node p).rows rfl
        fun hnil => absurd hnil hpeers
    refine ⟨w, hquiet, (hS.keep (hnext.of_core_matched hcore hmatch)).send fun m hm => ?_⟩
    exact ⟨hmem, hS.founded_of_forwards hmem (by rw [← (hcfg p).2]; exact hpeers) (hsends m hm).1⟩
  | @fall _ p n' term hle hcore hmatch =>
    have hsteps : c.members.Steps p w (w.adopt p term) := w.steps_adopt ((hS.node p).term.trans_le hle)
    refine ⟨_, follows_of_undisturbed ⟨p, hsteps, rfl⟩ a, hS.put hsteps rfl ?_⟩
    exact ((hS.node p).followed hS.inv "" hle).of_core_follower rfl hcore
  | stand hmem hstate helection hn' =>
    obtain ⟨w', hw, hS'⟩ := hS.stand hcfg hmem hn'
    exact ⟨w', follows_of_undisturbed hw _, hS'⟩
  | lose he hn' hlost =>
    obtain ⟨w', hw, hS'⟩ := hS.lose hn' hlost
    exact ⟨w', follows_of_undisturbed hw _, hS'⟩
  | @win p e m log he hstate hterm hquorum hlog hcore hmatch =>
    rw [Node.firstTerm_of_ne_zero ((hS.node p).stands hstate).1] at hlog hcore
    have hid : m.leaderId = (c.nodes p).selfId := (Node.eq_of_core Node.leaderId (fun _ => rfl) hcore :)
    have hnone : m.election = none := (Node.eq_of_core Node.election (fun _ => rfl) hcore :)
    have hsame : m.currentTerm = (c.nodes p).currentTerm := (Node.eq_of_core Node.currentTerm (fun _ => rfl) hcore :)
    have hother : ∀ q, (q, (c.nodes p).currentTerm) ∈ c.history.led → q = p := fun q hq =>
      honly (by simp [History.lead, hsame]) hq
    rw [(hcfg p).2] at hquorum
    have hvotes := hB.elected he hquorum
    rw [← hterm] at hvotes
    obtain ⟨w', l, hw, hS'⟩ := hS.lead hcfg (hB.election p e he).1 (hS.ready_voted hstate hother hvotes)
      ((hS.node p).stands hstate).1 hother hlog rfl rfl (by rw [hid, hnone]; exact hcore) hmatch
    exact ⟨w', follows_of_appends (.refl _ _) hw (.inl rfl), hS'⟩
  | @boot p m log hmem hpeers hstate hlog hcore hmatch =>
    obtain ⟨hpos, w₁, hfirst, hS₁⟩ := hS.firstTerm p
    have hsame : m.currentTerm = (c.nodes p).firstTerm.currentTerm := (Node.eq_of_core Node.currentTerm (fun _ => rfl) hcore :)
    have hled : (if (c.nodes p).currentTerm = 0 then c.history.stand p (c.nodes p).firstTerm else c.history).led =
        c.history.led := by
      split <;> rfl
    have hcfg₁ : ((c.put p (c.nodes p).firstTerm).record
        (if (c.nodes p).currentTerm = 0 then c.history.stand p (c.nodes p).firstTerm else c.history)).Configured := fun q => by
      rw [record_nodes, config_put (Node.config_firstTerm _)]
      exact hcfg q
    obtain ⟨w', l, hw, hS'⟩ := hS₁.boot hcfg₁ hmem (put_self ..) (by rw [Node.config_firstTerm]; exact hpeers) hpos
      (fun q hq => honly (by simp [History.lead, hsame]) (hled ▸ hq)) hlog hcore hmatch
    refine ⟨w', follows_of_appends hfirst hw (.inl rfl), ?_⟩
    rw [← put_put c p (c.nodes p).firstTerm]
    exact hS'
  | @crash p m hmem hpeers hcore =>
    obtain ⟨-, w₁, hfirst, hS₁⟩ := hS.firstTerm p
    have hself := put_self c p (c.nodes p).firstTerm
    have hrestart : m.restart.core = ((c.put p (c.nodes p).firstTerm).nodes p).restart.core := by
      rw [hself]
      exact (Node.eq_of_core (fun n => n.restart.core) (fun _ => rfl) hcore :)
    have hreplica := (hS₁.node p).restart.of_core_follower rfl hrestart
    refine ⟨w₁, follows_of_undisturbed hfirst _, ?_⟩
    rw [← put_put c p (c.nodes p).firstTerm]
    exact (hS₁.keep hreplica).dropCalls p
  | deliver hcall hnew hdst =>
    obtain ⟨w', hw, hS'⟩ := hS.deliver hcfg hcall hdst _ _ (hsafe _ hcall)
    exact ⟨w', follows_of_undisturbed hw _, hS'⟩
  | @answer _ i call _ reply n' hcall hwaiting ha hn' =>
    obtain ⟨w', hw, hS'⟩ := hS.answer hcfg hcall (fun k hacks hstate => by
      rcases ha with ⟨rfl, rfl⟩ | ⟨rfl, rfl⟩
      · exact hS.acknowledged (List.mem_of_getElem? hcall) hstate (hsafe _ hcall) hacks
      · generalize call.request = request at hacks
        cases hacks) hn'
    exact ⟨w', follows_of_undisturbed hw _, hS'⟩
  | @propose p i e n' log hwrite hstate hlog hcore hprogress =>
    have hin := ((hS.node p).leads hstate).1
    obtain ⟨w', hw, hS'⟩ := hS.proposed hcfg (hB.led p _ hin).1 (fun q hq => honly (hframe.led hin) hq) hstate hlog hcore
      hprogress
    exact ⟨w', follows_of_appends (.refl _ _) hw (.inr ⟨p, i, e, _, _, rfl, hwrite, rfl, rfl⟩), hS'⟩
  | @apply p outcome n' e task hlt hread htask hcore hprogress =>
    simp only [Cluster.step, Cluster.apply] at h
    split at h
    · cases h
    next n₁ e₁ happly =>
    have hnode : n₁ = n' := by
      have hput := congrArg (fun c => c.nodes p) (Option.some.inj h)
      simpa using hput
    rw [hnode] at happly
    exact ⟨w, hquiet, hS.applied hlt hread (fun t ht => applyCommittedEntry_task happly ht) hcore hprogress⟩
  | @saveSnapshot p keepFrom n' hn' =>
    exact ⟨w, hquiet, hS.keep ((hS.node p).saveSnapshot hS.inv hS.attested.pos hn')⟩
  | @restart p hmem => exact ⟨w, hquiet, (hS.keep (hS.node p).restart).dropCalls p⟩

theorem secure_init (members : Members) (config : String → Config) :
    Secure (World.initial String LogEntry) (init members config) where
  inv := World.inv_initial LogEntry.term (majority members.ids)
  attested := {
    led := fun T => ⟨fun hT => hT.elim, fun ⟨p, hp⟩ => by cases hp⟩
    pos := fun T hT => hT.elim
    leaderLog := fun T e he => by cases he
    votes := fun x hx => by cases hx
    commits := fun x hx => by cases hx
    applied := fun x hx => by cases hx
    truncations := fun t ht => by cases ht }
  node p := .create _ _ _
  sender call hcall := by cases hcall
  founded call hcall := by cases hcall
  vouched call hcall := by cases hcall

/-- What a run of guarded steps keeps. -/
structure Reached (w : Ledger) (c : Cluster) : Prop where
  configured : c.Configured
  election : ElectionInv c
  ballot : BallotInv c
  secure : Secure w c

theorem Reached.step (h : Reached w c) {a : Action} (ha : c.Guarded a) (hs : c.step codec a = some c') :
    ∃ w', c.Follows a w w' ∧ Reached w' c' := by
  have hE := h.election.step ha.1 hs
  obtain ⟨w', hw, hS⟩ := h.secure.step h.ballot h.configured (fun p q T hp hq => hE.led_unique hp hq) ha.2 hs
  exact ⟨w', hw, h.configured.frame (frame_of_moves (moves_of_step hs)), hE, h.ballot.step h.configured hs, hS⟩

/-- What guarded steps keep of the cluster and its ledger, a run keeps. -/
theorem Reached.run {G : Cluster → Action → Prop} [∀ c a, Decidable (G c a)] (hG : ∀ c a, G c a → c.Guarded a)
    (P : Ledger → Cluster → Prop)
    (hstep : ∀ w w' c a c', Reached w c → P w c → G c a → Cluster.step codec c a = some c' → c.Follows a w w' → Reached w' c' → P w' c')
    (h : Reached w c) (hP : P w c) {schedule : List Action}
    (hrun : Transition.run (Transition.restrict G (Cluster.step codec)) c schedule = some c') : ∃ w', Reached w' c' ∧ P w' c' := by
  refine Transition.run_invariant (fun c => ∃ w, Reached w c ∧ P w c) ?_ ⟨w, h, hP⟩ hrun
  rintro c a c' ⟨w, hc, hP⟩ hs
  obtain ⟨ha, hs⟩ := Transition.restrict_eq_some.mp hs
  obtain ⟨w', hw, hc'⟩ := hc.step (hG c a ha) hs
  exact ⟨w', hc', hstep w w' c a c' hc hP ha hs hw hc'⟩

/-- What a node reads up to its commit index is committed. -/
theorem Secure.sealed_read (hS : Secure w c) {i : Nat} {e : LogEntry} (hread : (c.nodes p).log.read i = .ok e)
    (hi : i ≤ (c.nodes p).commitIndex) :
    ∃ l, c.members.Sealed w (c.nodes p).currentTerm l ∧ l[i - 1]? = some e := by
  obtain ⟨hpos, hat⟩ := (hS.node p).backed.read hread
  exact ⟨_, ((hS.node p).commit.of_le hi).2, by rw [List.getElem?_take_of_lt (by omega)]; exact hat⟩

/-- One entry belongs to each index. -/
theorem Secure.applied_agree (hS : Secure w c) {x y : Applied} (hx : x ∈ c.history.applied) (hy : y ∈ c.history.applied)
    (hindex : x.index = y.index) : x.entry = y.entry := by
  obtain ⟨T, l, hl, hat⟩ := hS.attested.applied x hx
  obtain ⟨T', l', hl', hat'⟩ := hS.attested.applied y hy
  exact hl.agree hS.inv hl' hat (hindex ▸ hat')

/-- The log of a leader goes on from everything that has been committed up to its term. -/
theorem Secure.commit_le (hS : Secure w c) (hstate : (c.nodes p).state = .leader) {x : Commit} (hx : x ∈ c.history.commits)
    (hterm : x.term ≤ (c.nodes p).currentTerm) :
    ∃ l, c.members.Sealed w x.term l ∧ l.length = x.commitIndex ∧ Excerpt l x.entries ∧ l <+: w.log p := by
  obtain ⟨l, hl, hlen, hexcerpt⟩ := hS.attested.commits x hx
  refine ⟨l, hl, hlen, hexcerpt, ?_⟩
  rw [((hS.node p).leads hstate).2.1]
  exact hl.le_leaderLog hS.inv (hS.led_of_leader hstate) hterm

/-- An entry of its own term lies behind everything that earlier leaders have committed. -/
theorem Secure.commit_lt (hS : Secure w c) (hstate : (c.nodes p).state = .leader) {k : Nat}
    (hown : (c.nodes p).termAtLogicalIndex k = .ok (c.nodes p).currentTerm) {x : Commit} (hx : x ∈ c.history.commits)
    (hterm : x.term < (c.nodes p).currentTerm) : x.commitIndex < k := by
  obtain ⟨l, hl, hlen, -, rest, hle⟩ := hS.commit_le hstate hx hterm.le
  have hpos : 0 < k := by
    refine Nat.pos_of_ne_zero fun hzero => ?_
    have := hS.attested.pos _ (hS.led_of_leader hstate)
    rw [hzero, Node.termAtLogicalIndex, if_pos rfl] at hown
    have := Except.ok.inj hown
    omega
  obtain ⟨e, he, heterm⟩ := Option.map_eq_some_iff.mp ((hS.node p).backed.term_of_ok hpos hown)
  by_contra hge
  -- its own entry would be among what the earlier leader had committed
  rw [← hle, List.getElem?_append_left (by omega)] at he
  have := hl.term_le hS.inv (List.mem_of_getElem? he)
  omega

end Cluster

end RaftVdb
