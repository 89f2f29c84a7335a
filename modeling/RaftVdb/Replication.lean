import RaftVdb.Moves
import RaftVdb.Splice

/-!
# Log matching

Without snapshots, and with one leader for each term, every log of a node and every piece
of a log on the wire is made of leader logs. That is so whoever sends the piece and
whatever term the sender puts on it: a mentor that forwards in a term it has no part in
may spread old entries, but each of them still stands behind the same entries as in the
log of the leader that wrote it.
-/

namespace RaftVdb

open Lib Leaders

namespace Node

/-- A node that has never seen a snapshot. -/
structure Plain (n : Node) : Prop where
  threshold : n.config.snapshotThreshold = 0
  snapshot : n.snapshot = none
  index : n.lastSnapshotIndex = 0
  task : n.snapshotTask = none
  log : n.log.FromOne

/-- The log of a node is made of the logs of leaders: `led` are the nodes that have led a
term, and `w` has what they have written. -/
structure Logged (w : Leaders LogEntry) (led : List (String × Nat)) (p : String) (n : Node) : Prop where
  plain : n.Plain
  log : Matches LogEntry.term w n.log.entries
  log_le : ∀ e ∈ n.log.entries, e.term ≤ n.currentTerm
  leads : n.state = .leader → (p, n.currentTerm) ∈ led ∧ n.log.entries = w.leaderLog n.currentTerm
  led_le : ∀ T, (p, T) ∈ led → T ≤ n.currentTerm
  led_state : (p, n.currentTerm) ∈ led → n.state ≠ .candidate
  positive : n.state = .candidate → n.currentTerm ≠ 0
  solo : n.config.peers = [] →
    n.forwards = [] ∧ ((p, n.currentTerm) ∈ led → n.log.entries = w.leaderLog n.currentTerm)

theorem Plain.congr {n n' : Node} (h : n.Plain) (hconfig : n'.config = n.config) (hsnapshot : n'.snapshot = n.snapshot)
    (hindex : n'.lastSnapshotIndex = n.lastSnapshotIndex) (htask : n'.snapshotTask = n.snapshotTask)
    (hlog : n'.log = n.log) : n'.Plain where
  threshold := by rw [hconfig]; exact h.threshold
  snapshot := hsnapshot.trans h.snapshot
  index := hindex.trans h.index
  task := htask.trans h.task
  log := by rw [hlog]; exact h.log

variable {w w' : Leaders LogEntry} {led led' : List (String × Nat)} {p : String} {n n' : Node}

/-- Another node has written its log or won its term. -/
theorem Logged.mono (h : Logged w led p n) (hg : Grows LogEntry.term w w')
    (hled : ∀ T, (p, T) ∈ led' ↔ (p, T) ∈ led) (hsame : ∀ T, (p, T) ∈ led → w'.leaderLog T = w.leaderLog T) :
    Logged w' led' p n where
  plain := h.plain
  log := hg.matches_log h.log
  log_le := h.log_le
  leads hs := by
    obtain ⟨hin, hlog⟩ := h.leads hs
    exact ⟨(hled _).mpr hin, by rw [hsame _ hin, hlog]⟩
  led_le T hT := h.led_le T ((hled T).mp hT)
  led_state hT := h.led_state ((hled _).mp hT)
  positive := h.positive
  solo hpeers := by
    obtain ⟨hforwards, hlog⟩ := h.solo hpeers
    refine ⟨hforwards, fun hT => ?_⟩
    have hin := (hled _).mp hT
    rw [hsame _ hin, hlog hin]

/-- Only these fields matter. -/
theorem Logged.congr (h : Logged w led p n) (hplain : n'.Plain) (hlog : n'.log = n.log)
    (hterm : n'.currentTerm = n.currentTerm) (hstate : n'.state = n.state) (hpeers : n'.config.peers = n.config.peers)
    (hforwards : n.config.peers = [] → n.forwards = [] → n'.forwards = []) : Logged w led p n' where
  plain := hplain
  log := by rw [hlog]; exact h.log
  log_le := by rw [hlog, hterm]; exact h.log_le
  leads := by rw [hstate, hlog, hterm]; exact h.leads
  led_le := by rw [hterm]; exact h.led_le
  led_state := by rw [hterm, hstate]; exact h.led_state
  positive := by rw [hterm, hstate]; exact h.positive
  solo := by
    rw [hpeers, hlog, hterm]
    exact fun hp => ⟨hforwards hp (h.solo hp).1, (h.solo hp).2⟩

theorem Plain.of_core (h : n.Plain) (hcore : n'.core = n.core) : n'.Plain :=
  h.congr (eq_of_core Node.config (fun _ => rfl) hcore) (eq_of_core Node.snapshot (fun _ => rfl) hcore)
    (eq_of_core Node.lastSnapshotIndex (fun _ => rfl) hcore) (eq_of_core Node.snapshotTask (fun _ => rfl) hcore)
    (eq_of_core Node.log (fun _ => rfl) hcore)

theorem Logged.of_core (h : Logged w led p n) (hcore : n'.core = n.core) : Logged w led p n' := by
  refine h.congr (h.plain.of_core hcore) (eq_of_core Node.log (fun _ => rfl) hcore)
    (eq_of_core Node.currentTerm (fun _ => rfl) hcore) (eq_of_core Node.state (fun _ => rfl) hcore) ?_ ?_
  · rw [eq_of_core Node.config (fun _ => rfl) hcore]
  · rw [eq_of_core Node.forwards (fun _ => rfl) hcore]
    exact fun _ => id

theorem Logged.followed (h : Logged w led p n) {term : Nat} (leaderId : String) (hle : n.currentTerm ≤ term) :
    Logged w led p (n.followed term leaderId) where
  plain := h.plain.congr rfl rfl rfl rfl rfl
  log := h.log
  log_le := fun e he => (h.log_le e he).trans hle
  leads := fun hs => by cases hs
  led_le := fun T hT => (h.led_le T hT).trans hle
  led_state := fun _ hs => by cases hs
  positive := fun hs => by cases hs
  solo := fun hpeers => by
    refine ⟨(h.solo hpeers).1, fun hT => ?_⟩
    have heq : n.currentTerm = term := Nat.le_antisymm hle (h.led_le _ hT)
    have hT' : (p, n.currentTerm) ∈ led := heq ▸ hT
    exact ((h.solo hpeers).2 hT').trans (by rw [heq]; rfl)

theorem Logged.stepDown (h : Logged w led p n) (term : Nat) : Logged w led p (n.stepDown term) := by
  rcases n.stepDown_cases term with ⟨-, heq⟩ | ⟨hle, hcore, -⟩
  · rw [heq]
    exact h
  · exact (h.followed "" hle).of_core hcore

theorem Logged.commit (h : Logged w led p n) (k : Nat) : Logged w led p { n with commitIndex := k } :=
  h.congr (h.plain.congr rfl rfl rfl rfl rfl) rfl rfl rfl rfl fun _ => id

theorem Logged.maybeCommit (h : Logged w led p n) : Logged w led p n.maybeCommit := by
  rcases n.maybeCommit_cases with heq | ⟨k, -, -, -, -, -, heq⟩
  · rw [heq]
    exact h
  · rw [heq]
    exact h.commit k

theorem Logged.advanceCommit (h : Logged w led p n) (k : Nat) : Logged w led p (n.advanceCommit k) := by
  rcases n.advanceCommit_cases k with ⟨heq, -⟩ | ⟨-, heq⟩
  · rw [heq]
    exact h
  · rw [heq]
    exact h.commit _

theorem Logged.dispatchForward (h : Logged w led p n) {r : AppendEntriesRequest} (hpeers : n.config.peers ≠ []) :
    Logged w led p (n.dispatchForward r) := by
  rcases n.dispatchForward_cases r with heq | heq
  · rw [heq]
    exact h
  · rw [heq]
    exact h.congr (h.plain.congr rfl rfl rfl rfl rfl) rfl rfl rfl rfl fun hp => absurd hp hpeers

theorem Logged.noted (h : Logged w led p n) {term : Nat} (leaderId : String) (hle : n.currentTerm ≤ term) :
    Logged w led p (n.noted term leaderId) := by
  unfold Node.noted
  split
  · exact h.followed leaderId hle
  · exact h.congr (h.plain.congr rfl rfl rfl rfl rfl) rfl rfl rfl rfl fun _ => id

theorem Logged.answers (h : Logged w led p n) {peer : String} {request : Request} {reply : Option Response}
    (hn' : n.Answers peer request reply n') : Logged w led p n' := by
  cases hn' with
  | noted hcore => exact h.of_core hcore
  | merged _ hcore => exact h.of_core hcore
  | committed _ _ hcore => exact (h.of_core hcore).maybeCommit
  | newer => exact h.stepDown _
  | counted =>
    exact h.congr (h.plain.congr rfl rfl rfl rfl rfl) rfl rfl rfl rfl fun _ => id

theorem Logged.idle (h : Logged w led p n) : Logged w led p { n with election := none } :=
  h.congr (h.plain.congr rfl rfl rfl rfl rfl) rfl rfl rfl rfl fun _ => id

theorem Logged.becomeCandidate (h : Logged w led p n) (e : Option Election) :
    Logged w led p { n.becomeCandidate with election := e } where
  plain := h.plain.congr rfl rfl rfl rfl rfl
  log := h.log
  log_le := fun x hx => (h.log_le x hx).trans (Nat.le_succ _)
  leads := fun hs => by cases hs
  led_le := fun T hT => (h.led_le T hT).trans (Nat.le_succ _)
  led_state := fun hT => absurd (h.led_le _ hT) (Nat.not_succ_le_self _)
  positive := fun _ => Nat.succ_ne_zero _
  solo := fun hpeers => ⟨(h.solo hpeers).1, fun hT => absurd (h.led_le _ hT) (Nat.not_succ_le_self _)⟩

theorem Logged.handleRequestVote (h : Logged w led p n) (r : RequestVoteRequest) :
    Logged w led p (n.handleRequestVote r).1 := by
  unfold Node.handleRequestVote
  split
  · exact h
  split
  · exact h
  next m hm =>
  have hlog : Logged w led p m := by
    split at hm
    · obtain ⟨hle, hcore, -⟩ := becomeFollower_eq_ok hm
      exact (h.followed "" hle).of_core hcore
    · cases hm
      exact h
  split
  · exact {
      plain := hlog.plain.congr rfl rfl rfl rfl rfl
      log := hlog.log
      log_le := hlog.log_le
      leads := fun hs => by cases hs
      led_le := hlog.led_le
      led_state := fun _ hs => by cases hs
      positive := fun hs => by cases hs
      solo := hlog.solo }
  · exact hlog

theorem Logged.handleHeartbeat (h : Logged w led p n) (r : HeartbeatRequest) :
    Logged w led p (n.handleHeartbeat r).1 := by
  rcases n.handleHeartbeat_cases r with ⟨-, heq⟩ | ⟨hge, m, hcore, ⟨err, heq⟩ | heq⟩
  · rw [heq]
    exact h
  · rw [heq]
    exact (h.noted r.leaderId hge).of_core hcore
  · rw [heq]
    exact ((h.noted r.leaderId hge).of_core hcore).advanceCommit _

/-- The request carries a piece of a log that is made of leader logs. -/
def Slice (w : Leaders LogEntry) (r : AppendEntriesRequest) : Prop :=
  ∃ l, Matches LogEntry.term w l ∧ (∀ e ∈ l, e.term ≤ r.term) ∧ Carried l r

theorem Slice.mono {r : AppendEntriesRequest} (h : Slice w r) (hg : Grows LogEntry.term w w') : Slice w' r := by
  obtain ⟨l, hl, hle, hr⟩ := h
  exact ⟨l, hg.matches_log hl, hle, hr⟩

theorem Outcome.matches_log {log l : List LogEntry} {prev count : Nat} {s : Splice} (h : Outcome log l prev count s)
    (hlog : Matches LogEntry.term w log) (hl : Matches LogEntry.term w l) : Matches LogEntry.term w s.log.entries := by
  cases h with
  | extended hle htrunc hs =>
    rw [hs]
    exact hl.of_le (List.take_prefix _ _)
  | kept hlt hle htrunc hs =>
    rw [hs]
    exact hlog
  | replaced hj hlt htake hx he hterm htrunc hs =>
    rw [hs]
    exact hl.of_le (List.take_prefix _ _)

theorem Outcome.mem {log l : List LogEntry} {prev count : Nat} {s : Splice} (h : Outcome log l prev count s)
    {e : LogEntry} (he : e ∈ s.log.entries) : e ∈ log ∨ e ∈ l := by
  cases h with
  | extended hle htrunc hs =>
    rw [hs] at he
    exact .inr (List.mem_of_mem_take he)
  | kept hlt hle htrunc hs =>
    rw [hs] at he
    exact .inl he
  | replaced hj hlt htake hx he' hterm htrunc hs =>
    rw [hs] at he
    exact .inr (List.mem_of_mem_take he)

theorem Logged.handleAppendEntries (h : Logged w led p n) {r : AppendEntriesRequest} (hr : Slice w r)
    (hpeers : n.config.peers ≠ []) : Logged w led p (n.handleAppendEntries r).1 := by
  rcases n.handleAppendEntries_cases r with ⟨-, heq, -⟩ | ⟨hge, m, hcore, ⟨heq, -⟩ | ⟨hprev, -, heq⟩⟩
  · rw [heq]
    exact h
  · rw [heq]
    exact (h.noted r.leaderId hge).of_core hcore
  have hm := (h.noted r.leaderId hge).of_core hcore
  have hterm : m.currentTerm = r.term :=
    (eq_of_core Node.currentTerm (fun _ => rfl) hcore).trans (noted_currentTerm n r.leaderId hge)
  have hstate : m.state = .follower := (eq_of_core Node.state (fun _ => rfl) hcore).trans (noted_state n r.leaderId)
  have hconfig : m.config = n.config := (eq_of_core Node.config (fun _ => rfl) hcore).trans (noted_config n r.leaderId)
  obtain ⟨l, hl, hle, hcarried⟩ := hr
  obtain ⟨herr, hfrom, hout⟩ := spliceEntries_outcome hm.plain.index hm.plain.log hm.log hl hcarried hprev
  generalize hs : spliceEntries m.lastSnapshotIndex m.log r.entries = s at herr hfrom hout
  have hspliced : Logged w led p { m with log := s.log } :=
    { plain := ⟨hm.plain.threshold, hm.plain.snapshot, hm.plain.index, hm.plain.task, hfrom⟩
      log := hout.matches_log hm.log hl
      log_le := fun e he => by
        rcases hout.mem he with he | he
        · exact hm.log_le e he
        · exact (hle e he).trans hterm.ge
      leads := fun hs => by
        rw [hstate] at hs
        cases hs
      led_le := hm.led_le
      led_state := hm.led_state
      positive := hm.positive
      solo := fun hp => absurd (hconfig ▸ hp) hpeers }
  rw [heq]
  rcases m.finishAppend_cases r with ⟨err, herr', -⟩ | ⟨-, hfin, -⟩
  · rw [hs, herr] at herr'
    cases herr'
  · rw [hfin, hs]
    exact (hspliced.advanceCommit r.leaderCommit).dispatchForward (by
      rw [config_advanceCommit]
      exact hconfig ▸ hpeers)

/-- A leader that has written its log. -/
theorem Logged.wrote (hplain : n.Plain) (hmatch : Matches LogEntry.term w n.log.entries)
    (hle : ∀ e ∈ n.log.entries, e.term ≤ n.currentTerm) (hlog : n.log.entries = w.leaderLog n.currentTerm)
    (hstate : n.state = .leader) (hin : (p, n.currentTerm) ∈ led) (hled : ∀ T, (p, T) ∈ led → T ≤ n.currentTerm)
    (hforwards : n.config.peers = [] → n.forwards = []) : Logged w led p n where
  plain := hplain
  log := hmatch
  log_le := hle
  leads := fun _ => ⟨hin, hlog⟩
  led_le := hled
  led_state := fun _ => by
    rw [hstate]
    decide
  positive := fun hs => by
    rw [hstate] at hs
    cases hs
  solo := fun hpeers => ⟨hforwards hpeers, fun _ => hlog⟩

/-- A node that is started again over its directory. -/
theorem Logged.restart_of (h : Logged w led p n) {m : Node} (hplain : m.Plain) (hlog : m.log = n.log)
    (hle : n.currentTerm ≤ m.currentTerm) (hpeers : m.config.peers = n.config.peers) : Logged w led p m.restart where
  plain :=
    { threshold := hplain.threshold
      snapshot := hplain.snapshot
      index := by
        show ((m.snapshot.map Snapshot.raftIndex).getD 0) = 0
        rw [hplain.snapshot]
        rfl
      task := rfl
      log := hplain.log }
  log := by
    show Matches LogEntry.term w m.log.entries
    rw [hlog]
    exact h.log
  log_le := by
    show ∀ e ∈ m.log.entries, e.term ≤ m.currentTerm
    rw [hlog]
    exact fun e he => (h.log_le e he).trans hle
  leads := fun hs => by cases hs
  led_le := fun T hT => (h.led_le T hT).trans hle
  led_state := fun _ hs => by cases hs
  positive := fun hs => by cases hs
  solo := fun hp => by
    refine ⟨rfl, fun hT => ?_⟩
    have hsolo := h.solo (hpeers ▸ hp)
    have heq : m.currentTerm = n.currentTerm := Nat.le_antisymm (h.led_le _ hT) hle
    show m.log.entries = w.leaderLog m.currentTerm
    rw [hlog, heq]
    exact hsolo.2 (heq ▸ hT)

theorem Plain.firstTerm (h : n.Plain) : n.firstTerm.Plain := by
  obtain ⟨h₁, h₂, -, -, h₃, h₄, h₅, -⟩ := n.firstTerm_spec
  exact h.congr h₁ h₃ h₄ h₅ h₂

/-- An election that is not won. -/
theorem Logged.concludes (h : Logged w led p n) {e : Election} (hn' : n.Concludes e n')
    (hlost : ¬ (n.state = .candidate ∧ n'.state = .leader)) : Logged w led p n' := by
  cases hn' with
  | idle => exact h.idle
  | newer => exact h.idle.stepDown _
  | failed hstate hcore =>
    have hfirst : n.firstTerm = n := if_neg (h.positive hstate)
    rw [hfirst] at hcore
    refine Logged.of_core ?_ hcore
    exact h.congr (h.plain.congr rfl rfl rfl rfl rfl) rfl rfl rfl rfl fun _ => id
  | @won m _ hstate _ _ _ hcore =>
    refine absurd ⟨hstate, ?_⟩ hlost
    have hm : m.state = .leader := eq_of_core Node.state (fun _ => rfl) hcore
    rcases m.maybeCommit_cases with heq | ⟨k, -, -, -, -, -, heq⟩
    · rw [heq]
      exact hm
    · rw [heq]
      exact hm

end Node

/-- The leaders on record. -/
def History.leaders (h : History) : Leaders LogEntry where
  led T := ∃ p, (p, T) ∈ h.led
  leaderLog := h.leaderLog

@[simp] theorem History.leaders_commit (h : History) (p : String) (n n' : Node) :
    (h.commit p n n').leaders = h.leaders := by
  unfold History.commit
  split <;> rfl

@[simp] theorem History.leaders_handled (h : History) (p : String) (n : Node) (request : Request)
    (reply : Option Response) : (h.handled p n request reply).leaders = h.leaders := by
  unfold History.handled
  split
  · split <;> rfl
  · rfl
  · rfl

/-- A leader that writes one entry behind its log. -/
theorem History.leaders_write {h : History} {n : Node} {e : LogEntry}
    (hlog : n.log.entries = h.leaderLog n.currentTerm ++ [e]) :
    (h.write n).leaders = h.leaders.extend n.currentTerm e := by
  unfold History.write History.leaders Leaders.extend
  rw [hlog]

/-- A new leader, with the entry it writes first. -/
theorem History.leaders_lead {h : History} {p : String} {n : Node} {l : List LogEntry} {e : LogEntry}
    (hlog : n.log.entries = l ++ [e]) :
    (h.lead p n).leaders = (h.leaders.elect n.currentTerm l).extend n.currentTerm e := by
  unfold History.lead History.write History.leaders Leaders.extend Leaders.elect
  rw [hlog]
  congr 1
  · funext T
    simp only [List.mem_cons, Prod.mk.injEq, eq_iff_iff]
    constructor
    · rintro ⟨q, ⟨-, hT⟩ | hq⟩
      · exact .inl hT
      · exact .inr ⟨q, hq⟩
    · rintro (hT | ⟨q, hq⟩)
      · exact ⟨p, .inl ⟨rfl, hT⟩⟩
      · exact ⟨q, .inr hq⟩
  · simp

namespace Cluster

structure ReplicationInv (c : Cluster) : Prop where
  node : ∀ p, (c.nodes p).Logged c.history.leaders c.history.led p
  leaderLogs : ∀ T, c.history.leaders.led T → Matches LogEntry.term c.history.leaders (c.history.leaders.leaderLog T)
  slice : ∀ call ∈ c.calls, ∀ caller r, call.request = .append caller r → Node.Slice c.history.leaders r
  peers : ∀ call ∈ c.calls, ∀ caller r, call.request = .append caller r → call.dst ∈ c.members.ids →
    normalizePeers call.dst c.members.ids ≠ []
  install : ∀ call ∈ c.calls, ∀ r, call.request ≠ .install r

variable {codec : CommandCodec} {c c' : Cluster}

/-- One node changes and has perhaps written its log as leader. -/
theorem ReplicationInv.wrote (hI : ReplicationInv c) {p : String} {n' : Node} {h : History}
    (hn' : n'.Logged h.leaders h.led p) (hg : Grows LogEntry.term c.history.leaders h.leaders)
    (hled : ∀ q T, q ≠ p → ((q, T) ∈ h.led ↔ (q, T) ∈ c.history.led))
    (hsame : ∀ q T, q ≠ p → (q, T) ∈ c.history.led → h.leaders.leaderLog T = c.history.leaders.leaderLog T)
    (hlogs : ∀ T, h.leaders.led T → Matches LogEntry.term h.leaders (h.leaders.leaderLog T)) :
    ReplicationInv ((c.put p n').record h) where
  node q := by
    by_cases hq : q = p
    · rw [hq, record_nodes, put_self]
      exact hn'
    · rw [record_nodes, put_other c n' hq]
      exact (hI.node q).mono hg (fun T => hled q T hq) fun T => hsame q T hq
  leaderLogs := hlogs
  slice call hcall caller r hr := (hI.slice call hcall caller r hr).mono hg
  peers := hI.peers
  install := hI.install

theorem ReplicationInv.record (hI : ReplicationInv c) {h : History} (hl : h.leaders = c.history.leaders)
    (hled : h.led = c.history.led) : ReplicationInv (c.record h) where
  node q := by
    rw [record_history, hl, hled]
    exact hI.node q
  leaderLogs := by
    rw [record_history, hl]
    exact hI.leaderLogs
  slice := by
    rw [record_history, hl]
    exact hI.slice
  peers := hI.peers
  install := hI.install

theorem ReplicationInv.put (hI : ReplicationInv c) {p : String} {n' : Node}
    (hn' : n'.Logged c.history.leaders c.history.led p) : ReplicationInv (c.put p n') :=
  hI.wrote (h := c.history) hn' (Grows.refl _) (fun _ _ _ => Iff.rfl) (fun _ _ _ _ => rfl) hI.leaderLogs

/-- Calls that go where old calls go, with the same request. -/
theorem ReplicationInv.recall (hI : ReplicationInv c) {calls : List Call}
    (h : ∀ x ∈ calls, ∃ y ∈ c.calls, x.dst = y.dst ∧ x.request = y.request) :
    ReplicationInv { c with calls } where
  node := hI.node
  leaderLogs := hI.leaderLogs
  slice x hx caller r hr := by
    obtain ⟨y, hy, -, hreq⟩ := h x hx
    exact hI.slice y hy caller r (hreq ▸ hr)
  peers x hx caller r hr := by
    obtain ⟨y, hy, hdst, hreq⟩ := h x hx
    rw [hdst]
    exact hI.peers y hy caller r (hreq ▸ hr)
  install x hx r hr := by
    obtain ⟨y, hy, -, hreq⟩ := h x hx
    exact hI.install y hy r (hreq ▸ hr)

theorem ReplicationInv.setCall (hI : ReplicationInv c) {i : Nat} {call : Call} (call' : Call)
    (hcall : c.calls[i]? = some call) (hdst : call'.dst = call.dst) (hrequest : call'.request = call.request) : ReplicationInv (c.setCall i call') := by
  refine hI.recall fun x hx => ?_
  rcases List.mem_or_eq_of_mem_set hx with hx | rfl
  · exact ⟨x, hx, rfl, rfl⟩
  · exact ⟨call, List.mem_of_getElem? hcall, hdst, hrequest⟩

theorem ReplicationInv.dropCalls (hI : ReplicationInv c) (p : String) : ReplicationInv (c.dropCalls p) := by
  refine hI.recall fun x hx => ?_
  obtain ⟨y, hy, rfl⟩ := List.mem_map.mp hx
  refine ⟨y, hy, ?_⟩
  split <;> exact ⟨rfl, rfl⟩

/-- What the requests that a step sends must satisfy. -/
def Sound (c : Cluster) (m : String × Request) : Prop :=
  match m.2 with
  | .append _ r => Node.Slice c.history.leaders r ∧ (m.1 ∈ c.members.ids → normalizePeers m.1 c.members.ids ≠ [])
  | .install _ => False
  | _ => True

theorem ReplicationInv.send (hI : ReplicationInv c) {p : String} {messages : List (String × Request)}
    (h : ∀ m ∈ messages, c.Sound m) : ReplicationInv (c.send p messages) where
  node := hI.node
  leaderLogs := hI.leaderLogs
  slice x hx caller r hr := by
    rcases List.mem_append.mp hx with hx | hx
    · exact hI.slice x hx caller r hr
    · obtain ⟨⟨peer, request⟩, hm, rfl⟩ := List.mem_map.mp hx
      have hsound := h _ hm
      simp only at hr
      subst hr
      exact hsound.1
  peers x hx caller r hr := by
    rcases List.mem_append.mp hx with hx | hx
    · exact hI.peers x hx caller r hr
    · obtain ⟨⟨peer, request⟩, hm, rfl⟩ := List.mem_map.mp hx
      have hsound := h _ hm
      simp only at hr
      subst hr
      exact hsound.2
  install x hx r hr := by
    rcases List.mem_append.mp hx with hx | hx
    · exact hI.install x hx r hr
    · obtain ⟨⟨peer, request⟩, hm, rfl⟩ := List.mem_map.mp hx
      have hsound := h _ hm
      simp only at hr
      subst hr
      exact hsound

/-- A piece of a node's log. -/
theorem ReplicationInv.slice_of_carries (hI : ReplicationInv c) {p : String} {r : AppendEntriesRequest}
    (hr : (c.nodes p).Carries r) : Node.Slice c.history.leaders r := by
  have hlog := hI.node p
  refine ⟨_, hlog.log, fun e he => ?_, hr.carried hlog.plain.index hlog.plain.log⟩
  rw [hr.term]
  exact hlog.log_le e he

theorem ReplicationInv.sends (hI : ReplicationInv c) (hcfg : c.Configured) {p : String} {m : String × Request}
    (hmem : p ∈ c.members.ids) (h : (c.nodes p).Sends m) : c.Sound m := by
  cases h with
  | heartbeat => trivial
  | @append peer caller r hpeer hcaller hr =>
    refine ⟨hI.slice_of_carries hr, fun _ => ?_⟩
    have hne : peer ≠ p := fun heq => hpeer (heq.trans (hcfg p).1.symm)
    have hp : p ≠ "" := fun he => c.members.named (he ▸ hmem)
    exact List.ne_nil_of_mem (mem_normalizePeers.mpr ⟨hmem, hp, Ne.symm hne⟩)
  | install hs =>
    rw [(hI.node p).plain.snapshot] at hs
    cases hs

theorem ReplicationInv.forwards (hI : ReplicationInv c) (hcfg : c.Configured) {p : String} {m : String × Request}
    (hmem : p ∈ c.members.ids) (hforwards : (c.nodes p).forwards ≠ []) (h : (c.nodes p).Forwards m) : c.Sound m := by
  cases h with
  | @append peer r hr =>
    refine ⟨hI.slice_of_carries hr, fun _ => ?_⟩
    by_cases heq : peer = p
    · intro hnil
      rw [heq, ← (hcfg p).2] at hnil
      exact hforwards ((hI.node p).solo hnil).1
    · have hp : p ≠ "" := fun he => c.members.named (he ▸ hmem)
      exact List.ne_nil_of_mem (mem_normalizePeers.mpr ⟨hmem, hp, Ne.symm heq⟩)
  | install hs =>
    rw [(hI.node p).plain.snapshot] at hs
    cases hs

/-- A node becomes leader and writes its first entry. `m₀` is the leader up to what the core
forgets, and `h` the history up to the leaders. -/
theorem ReplicationInv.lead (hI : ReplicationInv c) {p : String} {m m₀ : Node} {h : History} {e : LogEntry}
    (hl : h.leaders = c.history.leaders) (hled : h.led = c.history.led) (hcore : m.core = m₀.core)
    (hplain : m₀.Plain) (hlog : m₀.log.entries = (c.nodes p).log.entries ++ [e]) (hterm : e.term = m₀.currentTerm)
    (hle : (c.nodes p).currentTerm ≤ m₀.currentTerm) (hstate : m₀.state = .leader)
    (hpeers : m₀.config.peers = (c.nodes p).config.peers) (hforwards : m₀.forwards = (c.nodes p).forwards)
    (honce : ∀ q, (q, m₀.currentTerm) ∈ c.history.led → q = p)
    (hsame : (p, m₀.currentTerm) ∈ c.history.led → (c.nodes p).log.entries = c.history.leaderLog m₀.currentTerm) :
    ReplicationInv ((c.put p m.maybeCommit).record ((h.lead p m).commit p m m.maybeCommit)) := by
  have hnode := hI.node p
  have hm := Node.eq_of_core Node.log (fun _ => rfl) hcore
  have hmterm := Node.eq_of_core Node.currentTerm (fun _ => rfl) hcore
  have hleaders : ((h.lead p m).commit p m m.maybeCommit).leaders =
      (c.history.leaders.elect m₀.currentTerm (c.nodes p).log.entries).extend m₀.currentTerm e := by
    rw [History.leaders_commit, History.leaders_lead (by rw [hm]; exact hlog), hl, hmterm]
  have hrecord : ((h.lead p m).commit p m m.maybeCommit).led = (p, m₀.currentTerm) :: c.history.led := by
    rw [History.led_commit, ← hled, ← hmterm]
    rfl
  have hfresh : c.history.leaders.led m₀.currentTerm →
      (c.nodes p).log.entries = c.history.leaders.leaderLog m₀.currentTerm := by
    rintro ⟨q, hq⟩
    exact hsame (honce q hq ▸ hq)
  have helect : Grows LogEntry.term c.history.leaders
      (c.history.leaders.elect m₀.currentTerm (c.nodes p).log.entries) := grows_elect hfresh
  have hgrows := helect.trans (grows_extend hterm)
  have hlogs := matches_leaderLog_extend (matches_leaderLog_elect hI.leaderLogs hfresh hnode.log) (.inl rfl) hterm
  have hself : ((c.history.leaders.elect m₀.currentTerm (c.nodes p).log.entries).extend m₀.currentTerm e).leaderLog
      m₀.currentTerm = (c.nodes p).log.entries ++ [e] := by
    rw [leaderLog_extend_self, leaderLog_elect_self]
  refine hI.wrote ?_ (hleaders ▸ hgrows) ?_ ?_ (hleaders ▸ hlogs)
  · rw [hleaders, hrecord]
    refine Node.Logged.maybeCommit (Node.Logged.of_core ?_ hcore)
    refine .wrote hplain ?_ ?_ (hlog.trans hself.symm) hstate List.mem_cons_self ?_ ?_
    · rw [hlog, ← hself]
      exact hlogs _ (.inl rfl)
    · intro x hx
      rw [hlog] at hx
      rcases List.mem_append.mp hx with hx | hx
      · exact (hnode.log_le x hx).trans hle
      · rw [List.mem_singleton.mp hx, hterm]
    · intro T hT
      rcases List.mem_cons.mp hT with hT | hT
      · rw [(Prod.mk.inj hT).2]
      · exact (hnode.led_le T hT).trans hle
    · rw [hpeers, hforwards]
      exact fun hp => (hnode.solo hp).1
  · intro q T hq
    rw [hrecord, List.mem_cons, Prod.mk.injEq]
    exact or_iff_right fun hx => hq hx.1
  · intro q T hq hT
    have hne : T ≠ m₀.currentTerm := fun heq => hq (honce q (heq ▸ hT))
    rw [hleaders, leaderLog_extend_of_ne hne, leaderLog_elect_of_ne hne]

theorem ReplicationInv.propose (hI : ReplicationInv c) (honce : c.LedOnce) {p : String} {n' m₀ : Node} {e : LogEntry}
    (hstate : (c.nodes p).state = .leader) (hcore : n'.core = m₀.core) (hplain : m₀.Plain)
    (hlog : m₀.log.entries = (c.nodes p).log.entries ++ [e]) (hterm : e.term = (c.nodes p).currentTerm)
    (hsame : m₀.currentTerm = (c.nodes p).currentTerm) (hstate' : m₀.state = .leader)
    (hpeers : m₀.config.peers = (c.nodes p).config.peers) (hforwards : m₀.forwards = (c.nodes p).forwards) :
    ReplicationInv ((c.put p n').record ((c.history.write n').commit p (c.nodes p) n')) := by
  have hnode := hI.node p
  obtain ⟨hin, hown⟩ := hnode.leads hstate
  have hm := Node.eq_of_core Node.log (fun _ => rfl) hcore
  have hmterm := (Node.eq_of_core Node.currentTerm (fun _ => rfl) hcore).trans hsame
  have hleaders : ((c.history.write n').commit p (c.nodes p) n').leaders =
      c.history.leaders.extend (c.nodes p).currentTerm e := by
    rw [History.leaders_commit, History.leaders_write (e := e), hmterm]
    rw [hm, hmterm, hlog, hown]
    rfl
  have hrecord : ((c.history.write n').commit p (c.nodes p) n').led = c.history.led := by
    rw [History.led_commit]
    rfl
  have hlogs := matches_leaderLog_extend hI.leaderLogs ⟨p, hin⟩ hterm
  have hself : (c.history.leaders.extend (c.nodes p).currentTerm e).leaderLog (c.nodes p).currentTerm =
      (c.nodes p).log.entries ++ [e] := by
    rw [leaderLog_extend_self, hown]
  refine hI.wrote ?_ (hleaders ▸ grows_extend hterm) (fun q T _ => by rw [hrecord]) ?_ (hleaders ▸ hlogs)
  · rw [hleaders, hrecord]
    refine Node.Logged.of_core ?_ hcore
    refine .wrote hplain ?_ ?_ ?_ hstate' (hsame ▸ hin) ?_ ?_
    · rw [hlog, ← hself]
      exact hlogs _ ⟨p, hin⟩
    · intro x hx
      rw [hlog] at hx
      rw [hsame]
      rcases List.mem_append.mp hx with hx | hx
      · exact hnode.log_le x hx
      · rw [List.mem_singleton.mp hx, hterm]
    · rw [hsame, hself, hlog]
    · rw [hsame]
      exact hnode.led_le
    · rw [hpeers, hforwards]
      exact fun hp => (hnode.solo hp).1
  · intro q T hq hT
    have hne : T ≠ (c.nodes p).currentTerm := fun heq => hq (honce q p T hT (heq ▸ hin))
    rw [hleaders, leaderLog_extend_of_ne hne]

theorem ReplicationInv.deliver (hI : ReplicationInv c) (hcfg : c.Configured) {i : Nat} {complete : Bool} {keepFrom : Nat}
    {call : Call} (call' : Call) {h : History} (hcall : c.calls[i]? = some call) (hdst : call.dst ∈ c.members.ids)
    (hdst' : call'.dst = call.dst) (hrequest' : call'.request = call.request)
    (hl : h.leaders = c.history.leaders) (hled : h.led = c.history.led) :
    ReplicationInv (((c.put call.dst ((c.nodes call.dst).handle complete keepFrom call.request).1).setCall i call').record
      h) := by
  have hmem := List.mem_of_getElem? hcall
  have hnode := hI.node call.dst
  refine ReplicationInv.record ((hI.put ?_).setCall call' hcall hdst' hrequest') hl hled
  cases hreq : call.request with
  | vote r => exact hnode.handleRequestVote r
  | heartbeat caller r => exact hnode.handleHeartbeat r
  | append caller r =>
    refine hnode.handleAppendEntries (hI.slice call hmem caller r hreq) ?_
    rw [(hcfg call.dst).2]
    exact hI.peers call hmem caller r hreq hdst
  | install r => exact absurd hreq (hI.install call hmem r)

/-- The log that `AppendEntryLocked` leaves behind. -/
theorem Node.Logged.append {w : Leaders LogEntry} {led : List (String × Nat)} {p : String} {n : Node} {log : IndexedLog}
    {e : LogEntry} (h : n.Logged w led p) (hlog : n.log.append e = .ok log) (he : e.index = n.logicalLastIndex + 1) :
    log.FromOne ∧ log.entries = n.log.entries ++ [e] := by
  rw [Node.lastIndex_of_noSnapshot h.plain.index h.plain.log] at he
  rw [IndexedLog.append_eq_ok hlog]
  exact ⟨h.plain.log.concat he, rfl⟩

/-- Every step preserves the invariant. -/
theorem ReplicationInv.step (hI : ReplicationInv c) (hcfg : c.Configured) (honce : c'.LedOnce) {a : Action}
    (h : c.step codec a = some c') : ReplicationInv c' := by
  have hmoves := moves_of_step h
  have hframe := frame_of_moves hmoves
  have honce₀ := honce.frame hframe
  cases hmoves with
  | work hcore hmatch hsends =>
    refine ReplicationInv.send (hI.put ((hI.node _).of_core hcore)) fun m hm => ?_
    obtain ⟨hmem, -, hm⟩ := hsends m hm
    exact hI.sends hcfg hmem (hm (hcfg _).1)
  | @forward p i copy n' messages hmem hcopy hcore hmatch hsends =>
    have hne : (c.nodes p).forwards ≠ [] := by
      intro hnil
      rw [hnil] at hcopy
      cases hcopy
    refine ReplicationInv.send (hI.put (Node.Logged.of_core ?_ hcore)) fun m hm => ?_
    · refine (hI.node p).congr ((hI.node p).plain.congr rfl rfl rfl rfl rfl) rfl rfl rfl rfl fun _ hnil => ?_
      exact absurd hnil hne
    · exact hI.forwards hcfg hmem hne (hsends m hm).1
  | fall hle hcore hmatch => exact hI.put (((hI.node _).followed "" hle).of_core hcore)
  | @stand p n' hmem hstate helection hn' =>
    refine ReplicationInv.record (ReplicationInv.send (hI.put ?_) fun m hm => ?_) rfl rfl
    · rw [hn']
      exact (hI.node p).becomeCandidate _
    · obtain ⟨peer, hpeer, rfl⟩ := List.mem_map.mp hm
      trivial
  | lose he hn' hlost => exact hI.put ((hI.node _).concludes hn' hlost)
  | @win p e m log he hstate hterm hquorum hlog hcore hmatch =>
    have hfirst : (c.nodes p).firstTerm = c.nodes p := if_neg ((hI.node p).positive hstate)
    rw [hfirst] at hlog hcore
    obtain ⟨hfrom, hentries⟩ := Node.Logged.append (hI.node p) hlog rfl
    have hmterm : m.currentTerm = (c.nodes p).currentTerm :=
      (Node.eq_of_core Node.currentTerm (fun _ => rfl) hcore).trans rfl
    have hcandidate : ∀ q, (q, (c.nodes p).currentTerm) ∈ c.history.led → q = p := by
      intro q hq
      refine honce q p _ (hframe.led hq) ?_
      simp [History.lead, hmterm]
    refine hI.lead rfl rfl hcore ?_ hentries rfl (le_refl _) rfl rfl rfl hcandidate fun hin => ?_
    · exact ⟨(hI.node p).plain.threshold, (hI.node p).plain.snapshot, (hI.node p).plain.index, (hI.node p).plain.task, hfrom⟩
    · exact absurd hstate ((hI.node p).led_state hin)
  | @boot p m log hmem hpeers hstate hlog hcore hmatch =>
    have hplain := (hI.node p).plain.firstTerm
    obtain ⟨hconfig, hlog₀, hforwards, hle, -, -, -, -⟩ := (c.nodes p).firstTerm_spec
    have hfrom := IndexedLog.append_eq_ok hlog
    have hindex := Node.lastIndex_of_noSnapshot hplain.index hplain.log
    have hmterm : m.currentTerm = (c.nodes p).firstTerm.currentTerm :=
      (Node.eq_of_core Node.currentTerm (fun _ => rfl) hcore).trans rfl
    have hcandidate : ∀ q, (q, (c.nodes p).firstTerm.currentTerm) ∈ c.history.led → q = p := by
      intro q hq
      refine honce q p _ (hframe.led hq) ?_
      simp [History.lead, hmterm]
    have hentries : log.entries = (c.nodes p).log.entries ++ [{ Node.noopEntry with
        index := (c.nodes p).firstTerm.logicalLastIndex + 1
        term := (c.nodes p).firstTerm.currentTerm }] := by
      rw [hfrom, hlog₀]
    refine hI.lead ?_ ?_ hcore ?_ hentries rfl hle rfl (by rw [← hconfig]) hforwards hcandidate fun hin => ?_
    · split <;> rfl
    · split <;> rfl
    · refine ⟨hplain.threshold, hplain.snapshot, hplain.index, hplain.task, ?_⟩
      show log.FromOne
      rw [hfrom]
      exact hplain.log.concat (by rw [← hindex])
    · have heq : (c.nodes p).firstTerm.currentTerm = (c.nodes p).currentTerm :=
        Nat.le_antisymm ((hI.node p).led_le _ hin) hle
      have hown := ((hI.node p).solo hpeers).2 (heq ▸ hin)
      exact heq ▸ hown
  | @crash p m hmem hpeers hcore =>
    obtain ⟨hconfig, hlog₀, -, hle, -, -, -, -⟩ := (c.nodes p).firstTerm_spec
    refine ReplicationInv.record ((hI.put ?_).dropCalls p) (by split <;> rfl) (by split <;> rfl)
    refine (hI.node p).restart_of ?_ ?_ ?_ ?_
    · refine Node.Plain.of_core ?_ hcore
      exact (hI.node p).plain.firstTerm.congr rfl rfl rfl rfl rfl
    · exact (Node.eq_of_core Node.log (fun _ => rfl) hcore).trans hlog₀
    · rw [Node.eq_of_core Node.currentTerm (fun _ => rfl) hcore]
      exact hle
    · rw [Node.eq_of_core Node.config (fun _ => rfl) hcore, ← hconfig]
  | deliver hcall hnew hdst => exact hI.deliver hcfg _ hcall hdst rfl rfl (by simp) (History.led_handled ..)
  | @answer _ i call _ _ n' hcall hwaiting ha hn' =>
    have hput := (hI.put ((hI.node _).answers hn')).setCall { call with waiting := false } hcall rfl rfl
    exact hput.record (History.leaders_commit ..) (History.led_commit ..)
  | @propose p i e n' log hwrite hstate hlog hcore hprogress =>
    obtain ⟨hfrom, hentries⟩ := Node.Logged.append (hI.node p) hlog rfl
    refine hI.propose honce₀ hstate hcore ?_ hentries rfl rfl hstate rfl rfl
    exact ⟨(hI.node p).plain.threshold, (hI.node p).plain.snapshot, (hI.node p).plain.index, (hI.node p).plain.task, hfrom⟩
  | @apply p outcome n' e task hlt hread htask hcore hprogress =>
    refine ReplicationInv.record (hI.put (Node.Logged.of_core ?_ hcore)) rfl rfl
    exact (hI.node p).congr ((hI.node p).plain.congr rfl rfl rfl (htask (hI.node p).plain.threshold) rfl) rfl rfl rfl rfl
      fun _ => id
  | @saveSnapshot p keepFrom n' hn' =>
    unfold Node.saveSnapshot at hn'
    rw [(hI.node p).plain.task] at hn'
    cases hn'
  | restart hmem =>
    exact (hI.put ((hI.node _).restart_of (hI.node _).plain rfl (le_refl _) rfl)).dropCalls _

theorem ReplicationInv.init {members : Members} {config : String → Config}
    (hthreshold : ∀ p, (config p).snapshotThreshold = 0) : ReplicationInv (init members config) where
  node p :=
    { plain := ⟨hthreshold p, rfl, rfl, rfl, .empty⟩
      log := .nil _
      log_le := fun e he => by cases he
      leads := fun hs => by cases hs
      led_le := fun T hT => by cases hT
      led_state := fun hT => by cases hT
      positive := fun hs => by cases hs
      solo := fun _ => ⟨rfl, fun hT => by cases hT⟩ }
  leaderLogs T hT := by
    obtain ⟨p, hp⟩ := hT
    cases hp
  slice call hcall := by cases hcall
  peers call hcall := by cases hcall
  install call hcall := by cases hcall

/-- The invariant holds after every run in which nobody led a term beside another. -/
theorem replicationInv_of_run {members : Members} {config : String → Config} {schedule : List Action}
    (hthreshold : ∀ p, (config p).snapshotThreshold = 0) (h : run codec members config schedule = some c)
    (honce : c.LedOnce) : ReplicationInv c := by
  have hboth : c.Configured ∧ (c.LedOnce → ReplicationInv c) := by
    refine Transition.run_invariant (fun c => c.Configured ∧ (c.LedOnce → ReplicationInv c)) ?_
      ⟨configured_init members config, fun _ => .init hthreshold⟩ h
    rintro s a t ⟨hcfg, hinv⟩ hstep
    have hframe := frame_of_moves (moves_of_step hstep)
    exact ⟨hcfg.frame hframe, fun ht => (hinv (ht.frame hframe)).step hcfg ht hstep⟩
  exact hboth.2 honce

/-- Log matching: logs that have an entry of one index and term in common are the same up to
that index. -/
theorem log_matching (codec : CommandCodec) (members : Members) (config : String → Config) (schedule : List Action)
    (c : Cluster) (hthreshold : ∀ p, (config p).snapshotThreshold = 0)
    (h : run codec members config schedule = some c) (honce : c.LedOnce) (p q : String) (e e' : LogEntry)
    (he : e ∈ (c.nodes p).log.entries) (he' : e' ∈ (c.nodes q).log.entries) (hindex : e.index = e'.index)
    (hterm : e.term = e'.term) (i : Nat) (hi : 1 ≤ i) (hle : i ≤ e.index) :
    ∃ x, (c.nodes p).log.read i = .ok x ∧ (c.nodes q).log.read i = .ok x := by
  have hI := replicationInv_of_run hthreshold h honce
  obtain ⟨k, hk⟩ := List.mem_iff_getElem?.mp he
  obtain ⟨k', hk'⟩ := List.mem_iff_getElem?.mp he'
  have hfrom := (hI.node p).plain.log
  have hfrom' := (hI.node q).plain.log
  have hindex₁ := hfrom.index k e hk
  have hindex₂ := hfrom'.index k' e' hk'
  obtain rfl : k = k' := by omega
  have htake := (hI.node p).log.take_eq (hI.node q).log hk hk' hterm
  obtain ⟨j, rfl⟩ : ∃ j, i = j + 1 := ⟨i - 1, by omega⟩
  have hj : j < k + 1 := by omega
  have hlt : j < (c.nodes p).log.entries.length := by
    have := (List.getElem?_eq_some_iff.mp hk).1
    omega
  have hsame : (c.nodes p).log.entries[j]? = (c.nodes q).log.entries[j]? := by
    rw [← List.getElem?_take_of_lt hj, htake, List.getElem?_take_of_lt hj]
  have hx : (c.nodes p).log.entries[j]? = some (c.nodes p).log.entries[j] := List.getElem?_eq_getElem hlt
  exact ⟨_, hfrom.read_eq_ok.mpr hx, hfrom'.read_eq_ok.mpr (hsame ▸ hx)⟩

/-- The entries of `B` at index 2 belong together, so those of `A` at index 1 do. -/
theorem log_matching_after_replication : ∃ c, run sampleCodec threeNodes (plainConfig 64) takenOver = some c ∧
    ∃ e, e.index = 2 ∧ e.term = 2 ∧ e ∈ (c.nodes "A").log.entries ∧ e ∈ (c.nodes "B").log.entries ∧
      ∃ x, (c.nodes "A").log.read 1 = .ok x ∧ (c.nodes "B").log.read 1 = .ok x := by
  obtain ⟨c, hc, honce, e, heA, heB, hindex, hterm⟩ := Transition.exists_of_run
    (o := run sampleCodec threeNodes (plainConfig 64) takenOver)
    (P := fun c => c.LedOnce ∧
      ∃ e ∈ (c.nodes "A").log.entries, e ∈ (c.nodes "B").log.entries ∧ e.index = 2 ∧ e.term = 2) (by decide +kernel)
  refine ⟨c, hc, e, hindex, hterm, heA, heB, ?_⟩
  exact log_matching sampleCodec threeNodes (plainConfig 64) takenOver c (fun _ => rfl) hc honce "A" "B" e e heA heB rfl rfl 1
    (le_refl _) (hindex ▸ by decide)

end Cluster

end RaftVdb
