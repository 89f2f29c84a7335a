import RaftVdb.Lease
import RaftVdb.MatchIndex
import RaftVdb.Safety

/-!
# Lease reads

`EnsureLeaseReadable` asks whether the node is the leader, whether its lease is valid and
whether it has applied what it has committed. A new leader knows what its predecessors
have committed only when it has committed an entry of its own term, and it may hold a
lease before that. The lease is a flag here, which may go out at any moment.
-/

namespace RaftVdb

open Lib Leaders

namespace Node

/-- Whoever leads afterwards has led before, in the same term, and has kept its commit index. -/
def Stays (n n' : Node) : Prop :=
  n'.state = .leader → n.state = .leader ∧ n'.currentTerm = n.currentTerm ∧ n.commitIndex ≤ n'.commitIndex

variable {n n' m : Node}

theorem Stays.congr (hstate : n'.state = n.state) (hterm : n'.currentTerm = n.currentTerm)
    (hcommit : n.commitIndex ≤ n'.commitIndex) : Stays n n' := fun hs => ⟨hstate.symm.trans hs, hterm, hcommit⟩

theorem Stays.refl (n : Node) : Stays n n := .congr rfl rfl (le_refl _)

theorem Stays.of_core (hcore : n'.core = m.core) (h : Stays n m) : Stays n n' := fun hs => by
  rw [eq_of_core Node.currentTerm (fun _ => rfl) hcore, eq_of_core Node.commitIndex (fun _ => rfl) hcore]
  exact h ((eq_of_core Node.state (fun _ => rfl) hcore).symm.trans hs)

theorem Stays.of_ne (h : n'.state ≠ .leader) : Stays n n' := fun hs => absurd hs h

theorem Stays.maybeCommit (h : Stays n m) : Stays n m.maybeCommit := by
  rcases m.maybeCommit_cases with heq | ⟨k, -, hlt, -, -, -, heq⟩
  · rw [heq]
    exact h
  · rw [heq]
    exact fun hs => ⟨(h hs).1, (h hs).2.1, (h hs).2.2.trans hlt.le⟩

theorem stays_stepDown (n : Node) (term : Nat) : Stays n (n.stepDown term) := by
  rcases n.stepDown_cases term with ⟨-, heq⟩ | ⟨-, hcore, -⟩
  · rw [heq]
    exact .refl n
  · exact .of_core hcore (.of_ne fun hs => by cases hs)

theorem Answers.stays {peer : String} {request : Request} {reply : Option Response}
    (h : n.Answers peer request reply n') : Stays n n' := by
  cases h with
  | noted hcore => exact .of_core hcore (.refl n)
  | merged _ hcore => exact .of_core hcore (.refl n)
  | committed _ _ hcore => exact (Stays.of_core hcore (.refl n)).maybeCommit
  | newer => exact stays_stepDown n _
  | counted => exact .congr rfl rfl (le_refl _)

/-- Only a leader moves its commit index when a call ends. -/
theorem Answers.leader_of_commit {peer : String} {request : Request} {reply : Option Response}
    (h : n.Answers peer request reply n') (hlt : n.commitIndex < n'.commitIndex) :
    n.state = .leader ∧ n'.currentTerm = n.currentTerm := by
  cases h with
  | noted hcore => exact absurd (eq_of_core Node.commitIndex (fun _ => rfl) hcore) hlt.ne'
  | merged _ hcore => exact absurd (eq_of_core Node.commitIndex (fun _ => rfl) hcore) hlt.ne'
  | committed _ hstate hcore =>
    refine ⟨hstate, ?_⟩
    rw [eq_of_maybeCommit Node.currentTerm fun _ _ => rfl]
    exact eq_of_core Node.currentTerm (fun _ => rfl) hcore
  | @newer term =>
    rcases n.stepDown_cases term with ⟨-, heq⟩ | ⟨-, hcore, -⟩
    · rw [heq] at hlt
      exact absurd hlt (Nat.lt_irrefl _)
    · exact absurd (eq_of_core Node.commitIndex (fun _ => rfl) hcore) hlt.ne'
  | counted => exact absurd hlt (Nat.lt_irrefl _)

theorem Concludes.stays {e : Election} (h : n.Concludes e n') (hlost : ¬ (n.state = .candidate ∧ n'.state = .leader)) :
    Stays n n' := by
  cases h with
  | idle => exact .congr rfl rfl (le_refl _)
  | newer =>
    intro hs
    exact stays_stepDown { n with election := none } e.highestTerm hs
  | failed hstate => exact .of_ne fun hs => hlost ⟨hstate, hs⟩
  | won hstate => exact .of_ne fun hs => hlost ⟨hstate, hs⟩

/-- A node that installs a snapshot is a follower. -/
theorem handleInstallSnapshot_of_state {r : InstallSnapshotRequest} {complete : Bool} {keepFrom : Nat}
    (h : (n.handleInstallSnapshot r complete keepFrom).1.state ≠ .follower) :
    (n.handleInstallSnapshot r complete keepFrom).1 = n := by
  unfold handleInstallSnapshot at h ⊢
  dsimp only at h ⊢
  generalize (if r.leaderTerm = 0 then r.snapshot.raftTerm else r.leaderTerm) = term at h ⊢
  split
  · rfl
  next hge =>
  rw [if_neg hge] at h
  split
  · rfl
  next k hk =>
  have hfollower : k.state = .follower := by
    split at hk
    · exact eq_of_core Node.state (fun _ => rfl) (becomeFollower_eq_ok hk).2.1
    · next hcase =>
      cases hk
      by_contra hstate
      exact hcase (.inr hstate)
  have happly : (k.applyInstalledSnapshot r.snapshot keepFrom).1.state = .follower := by
    rw [← hfollower]
    unfold applyInstalledSnapshot
    dsimp only
    split <;> rfl
  rw [hk] at h
  dsimp only at h
  split at h
  · exact absurd hfollower h
  · split at h
    · next heq =>
      rw [heq] at happly
      exact absurd happly h
    · next heq =>
      rw [heq] at happly
      exact absurd happly h

theorem stays_handle (n : Node) (complete : Bool) (keepFrom : Nat) (request : Request) :
    Stays n (n.handle complete keepFrom request).1 := by
  intro hs
  have hne : (n.handle complete keepFrom request).1.state ≠ .follower := by rw [hs]; decide
  have hsame : (n.handle complete keepFrom request).1 = n := by
    cases request with
    | install r => exact handleInstallSnapshot_of_state hne
    | vote r => exact handle_eq_of_state (fun r hr => by cases hr) hne
    | heartbeat caller r => exact handle_eq_of_state (fun r hr => by cases hr) hne
    | append caller r => exact handle_eq_of_state (fun r hr => by cases hr) hne
  rw [hsame] at hs ⊢
  exact ⟨hs, rfl, le_refl _⟩

theorem stays_saveSnapshot {keepFrom : Nat} (h : n.saveSnapshot keepFrom = some n') : Stays n n' := by
  unfold saveSnapshot at h
  split at h
  · cases h
  · split at h <;> cases h <;> exact .congr rfl rfl (le_refl _)

/-- The last entry of a leader is of its term and has its quorum. -/
theorem le_maybeCommit {k : Nat} (hstate : n.state = .leader) (hlast : n.logicalLastIndex = k + 1)
    (hterm : n.termAtLogicalIndex (k + 1) = .ok n.currentTerm) (hquorum : quorumSize n.config.peers ≤ n.matched (k + 1)) :
    k + 1 ≤ n.maybeCommit.commitIndex := by
  have hfound : n.findCommit (k + 1) = if k + 1 ≤ n.commitIndex then .ok none else .ok (some (k + 1)) := by
    rw [findCommit]
    split
    · rfl
    · simp only [hterm, ne_eq, not_true_eq_false, if_false]
  unfold maybeCommit
  rw [if_neg (by simp [hstate]), hlast, hfound]
  by_cases hle : k + 1 ≤ n.commitIndex
  · rw [if_pos hle]
    exact hle
  · rw [if_neg hle]

theorem one_le_matched {i : Nat} (h : i ≤ n.flushedIndex) : 1 ≤ n.matched i := by
  unfold matched
  rw [if_pos h]
  exact Nat.le_add_right 1 _

/-- A node without peers commits its log when it becomes the leader. -/
theorem becomeLeader_alone {full : List LogEntry} (h : n.Holds full) (hpeers : n.config.peers = [])
    (hok : n.becomeLeader = (n', .ok ())) : n'.logicalLastIndex ≤ n'.maybeCommit.commitIndex := by
  have hfirst : n.firstTerm.Holds full := by
    unfold firstTerm
    split
    · exact h.congr rfl rfl rfl
    · exact h
  have hconfig : n.firstTerm.config.peers = [] := by rw [config_firstTerm, hpeers]
  unfold becomeLeader at hok
  generalize n.firstTerm = k at hok hfirst hconfig
  dsimp only at hok
  split at hok
  · cases hok
  next topology _ =>
  rcases appendEntry_cases { k with leaderId := k.selfId, topology } noopEntry with ⟨err, heq⟩ | ⟨log, hlog, heq⟩
  · rw [heq] at hok
    cases hok
  rw [heq] at hok
  cases hok
  obtain ⟨log', hlog', hholds⟩ := hfirst.append (e := { noopEntry with index := k.logicalLastIndex + 1, term := k.currentTerm })
    (by rw [← hfirst.last])
  obtain rfl : log = log' := Except.ok.inj (hlog.symm.trans hlog')
  have hlast : ({ k with log } : Node).logicalLastIndex = k.logicalLastIndex + 1 := by
    rw [hholds.last, hfirst.last, List.length_append, List.length_singleton]
  have hterm : ({ k with log } : Node).termAtLogicalIndex (k.logicalLastIndex + 1) = .ok k.currentTerm := by
    refine hholds.termAtLogicalIndex (Nat.succ_pos _) (hlast ▸ le_max_left _ _) ?_
    rw [hfirst.last]
    simp [LogRepair.termAt]
  have hquorum : quorumSize k.config.peers = 1 := by rw [hconfig]; rfl
  exact hlast.le.trans (le_maybeCommit rfl hlast hterm (hquorum.trans_le (one_le_matched (le_refl _))))

end Node

/-! ## What a leader has committed -/

namespace Cluster

variable {codec : CommandCodec} {c c' : Cluster} {w w' : Ledger} {p : String} {n' : Node}

/-- Who has committed has led, and still has committed what it has committed as leader of its term. -/
structure Tallied (c : Cluster) : Prop where
  led : ∀ x ∈ c.history.commits, (x.leader, x.term) ∈ c.history.led
  own : ∀ x ∈ c.history.commits, (c.nodes x.leader).state = .leader → (c.nodes x.leader).currentTerm = x.term →
    x.commitIndex ≤ (c.nodes x.leader).commitIndex

theorem Tallied.put (h : c.Tallied) (hstays : (c.nodes p).Stays n') : (c.put p n').Tallied where
  led := h.led
  own x hx := by
    by_cases hp : x.leader = p
    · rw [hp, put_self]
      intro hstate hterm
      obtain ⟨hleader, hsame, hle⟩ := hstays hstate
      have hown := h.own x hx
      rw [hp] at hown
      exact (hown hleader (hsame.symm.trans hterm)).trans hle
    · rw [put_other c n' hp]
      exact h.own x hx

/-- The commits of the step are put on record. -/
theorem Tallied.record (h : c.Tallied) {h' : History} (hled : c.history.led ⊆ h'.led)
    (hcommits : ∀ x ∈ h'.commits, x ∈ c.history.commits ∨
      ((x.leader, x.term) ∈ h'.led ∧ x.commitIndex ≤ (c.nodes x.leader).commitIndex)) : (c.record h').Tallied where
  led x hx := by
    rcases hcommits x hx with hold | hnew
    · exact hled (h.led x hold)
    · exact hnew.1
  own x hx hstate hterm := by
    rcases hcommits x hx with hold | hnew
    · exact h.own x hold hstate hterm
    · exact hnew.2

theorem mem_commits_commit {h : History} {n : Node} {x : Commit} (hx : x ∈ (h.commit p n n').commits) :
    x ∈ h.commits ∨ (n.commitIndex < n'.commitIndex ∧ x.leader = p ∧ x.term = n'.currentTerm ∧ x.commitIndex = n'.commitIndex) := by
  unfold History.commit at hx
  split at hx
  · next hlt =>
    rcases List.mem_cons.mp hx with rfl | hx
    · exact .inr ⟨hlt, rfl, rfl, rfl⟩
    · exact .inl hx
  · exact .inl hx

theorem mem_commits_of_mem {h : History} {n : Node} {x : Commit} (hx : x ∈ h.commits) : x ∈ (h.commit p n n').commits := by
  unfold History.commit
  split
  · exact List.mem_cons_of_mem _ hx
  · exact hx

/-- A leader puts a commit on record. -/
theorem Tallied.commit (h : (c.put p n').Tallied) {h₀ : History} {n : Node} (hled : c.history.led ⊆ h₀.led)
    (hsame : h₀.commits = c.history.commits)
    (hleads : n.commitIndex < n'.commitIndex → (p, n'.currentTerm) ∈ h₀.led) :
    ((c.put p n').record (h₀.commit p n n')).Tallied := by
  refine h.record (by rw [History.led_commit]; exact hled) fun x hx => ?_
  rcases mem_commits_commit hx with hold | ⟨hlt, hleader, hterm, hindex⟩
  · rw [hsame] at hold
    exact .inl hold
  · refine .inr ⟨?_, ?_⟩
    · rw [History.led_commit, hleader, hterm]
      exact hleads hlt
    · rw [hleader, put_self, hindex]

/-- A node becomes leader of a term in which only it can have committed anything. -/
theorem Tallied.lead (h : c.Tallied) {n : Node} {h₀ : History} (hled : c.history.led ⊆ h₀.led)
    (hsame : h₀.commits = c.history.commits) (hleads : (p, n'.currentTerm) ∈ h₀.led)
    (hown : ∀ x ∈ c.history.commits, x.leader = p → x.term = n'.currentTerm → x.commitIndex ≤ n'.commitIndex) :
    ((c.put p n').record (h₀.commit p n n')).Tallied := by
  refine Tallied.commit ?_ hled hsame fun _ => hleads
  exact {
    led := h.led
    own := fun x hx => by
      by_cases hp : x.leader = p
      · rw [hp, put_self]
        exact fun _ hterm => hown x hx hp hterm.symm
      · rw [put_other c n' hp]
        exact h.own x hx }

theorem commits_handled (h : History) (p : String) (n : Node) (request : Request) (reply : Option Response) :
    (h.handled p n request reply).commits = h.commits := by
  unfold History.handled
  split
  · split <;> rfl
  · rfl
  · rfl

/-- The only member has committed no more than it commits when it becomes the leader again. -/
theorem Tallied.boot (hS : Secure w c) (hS' : Secure w' c') (hpeers : (c.nodes p).config.peers = [])
    (h : c.step codec (.start p) = some c') (hstate : (c'.nodes p).state = .leader) {x : Commit} (hx : x ∈ c'.history.commits)
    (hterm : x.term = (c'.nodes p).currentTerm) : x.commitIndex ≤ (c'.nodes p).commitIndex := by
  obtain ⟨l, -, hlen, -, hle⟩ := hS'.commit_le hstate hx hterm.le
  rw [← hlen]
  refine hle.length_le.trans ?_
  rw [← (hS'.node p).backed.holds.last]
  simp only [Cluster.step, Cluster.start] at h
  split at h
  swap
  · cases h
  split at h
  · next n₁ err hlead =>
    cases h
    simp only [record_nodes, dropCalls_nodes, put_self] at hstate
    cases hstate
  · next n₁ _ hlead =>
    cases h
    simp only [record_nodes, put_self]
    rw [Node.eq_of_maybeCommit Node.logicalLastIndex fun _ _ => rfl]
    exact Node.becomeLeader_alone (hS.node p).backed.holds hpeers hlead

theorem Tallied.step (hT : c.Tallied) (hS : Secure w c) (hS' : Secure w' c') {a : Action}
    (h : c.step codec a = some c') : c'.Tallied := by
  have hquiet : ∀ {c : Cluster} {h' : History}, c.Tallied → h'.led = c.history.led → h'.commits = c.history.commits →
      (c.record h').Tallied := fun ht hled hsame =>
    ht.record (by rw [hled]; exact List.Subset.refl _) fun x hx => .inl (hsame ▸ hx)
  have hmoves := moves_of_step h
  cases hmoves with
  | work hcore => exact ⟨(hT.put (.of_core hcore (.refl _))).led, (hT.put (.of_core hcore (.refl _))).own⟩
  | forward _ _ hcore =>
    have hput := hT.put (.of_core hcore (.congr rfl rfl (le_refl _)))
    exact ⟨hput.led, hput.own⟩
  | fall _ hcore => exact hT.put (.of_core hcore (.of_ne fun hs => by cases hs))
  | @stand p n' _ _ _ hn' =>
    have hcandidate : n'.state = .candidate := by rw [hn']; rfl
    have hput := hT.put (p := p) (.of_ne (by rw [hcandidate]; decide))
    exact hquiet ⟨hput.led, hput.own⟩ rfl rfl
  | lose _ hn' hlost => exact hT.put (hn'.stays hlost)
  | @win p e m log he hstate hterm hquorum hlog hcore hmatch =>
    rw [Node.firstTerm_of_ne_zero ((hS.node p).stands hstate).1] at hcore
    have hsame : m.maybeCommit.currentTerm = (c.nodes p).currentTerm := by
      rw [Node.eq_of_maybeCommit Node.currentTerm fun _ _ => rfl]
      exact (Node.eq_of_core Node.currentTerm (fun _ => rfl) hcore :)
    refine hT.lead (List.subset_cons_of_subset _ (List.Subset.refl _)) rfl ?_ fun x hx hleader hxterm => ?_
    · rw [Node.eq_of_maybeCommit Node.currentTerm fun _ _ => rfl]
      exact List.mem_cons_self
    · have hled := hT.led x hx
      rw [hleader, hxterm, hsame] at hled
      exact absurd hstate ((hS.node p).led_state hled)
  | @boot p m log hmem hpeers hstate hlog hcore hmatch =>
    have hled : (if (c.nodes p).currentTerm = 0 then c.history.stand p (c.nodes p).firstTerm else c.history).led =
        c.history.led := by
      split <;> rfl
    have hcommits : (if (c.nodes p).currentTerm = 0 then c.history.stand p (c.nodes p).firstTerm else c.history).commits =
        c.history.commits := by
      split <;> rfl
    have hleads : m.maybeCommit.state = .leader := by
      rw [Node.eq_of_maybeCommit Node.state fun _ _ => rfl]
      exact Node.eq_of_core Node.state (fun _ => rfl) hcore
    refine hT.lead ?_ hcommits ?_ fun x hx hleader hxterm => ?_
    · simp only [History.lead, hled]
      exact List.subset_cons_of_subset _ (List.Subset.refl _)
    · rw [Node.eq_of_maybeCommit Node.currentTerm fun _ _ => rfl]
      exact List.mem_cons_self
    · have hboot := Tallied.boot (x := x) hS hS' hpeers h
      simp only [record_nodes, put_self, record_history] at hboot
      exact hboot hleads (mem_commits_of_mem (hcommits.symm ▸ hx)) hxterm
  | @crash p m hmem hpeers hcore =>
    have hput : (c.put p m.restart).Tallied := hT.put (.of_ne fun hs => by cases hs)
    refine hquiet (c := (c.put p m.restart).dropCalls p) ⟨hput.led, hput.own⟩ ?_ ?_ <;> split <;> rfl
  | @deliver i complete keepFrom call hcall =>
    have hput := hT.put ((c.nodes call.dst).stays_handle complete keepFrom call.request)
    refine hquiet (c := (c.put call.dst _).setCall i _) ⟨hput.led, hput.own⟩ ?_ ?_
    · exact History.led_handled ..
    · exact commits_handled ..
  | @answer _ i call _ reply n' hcall hwaiting ha hn' =>
    have hput : ((c.put call.src n').record (c.history.commit call.src (c.nodes call.src) n')).Tallied := by
      refine (hT.put hn'.stays).commit (List.Subset.refl _) rfl fun hlt => ?_
      obtain ⟨hstate, hsame⟩ := hn'.leader_of_commit hlt
      rw [hsame]
      exact ((hS.node call.src).leads hstate).1
    exact ⟨hput.led, hput.own⟩
  | @propose p i e n' log hwrite hstate hlog hcore hprogress =>
    have hsame : n'.currentTerm = (c.nodes p).currentTerm := (Node.eq_of_core Node.currentTerm (fun _ => rfl) hcore :)
    have hput : (c.put p n').Tallied := by
      refine hT.put (.of_core hcore (.congr rfl rfl ?_))
      have hle := (hS.node p).commit.1
      rw [← (hS.node p).backed.holds.last] at hle
      dsimp only
      split
      · exact hle.trans (Nat.le_succ _)
      · exact le_refl _
    refine hput.commit (List.Subset.refl _) rfl fun _ => ?_
    rw [hsame]
    exact ((hS.node p).leads hstate).1
  | apply _ _ _ hcore => exact hquiet (hT.put (.of_core hcore (.congr rfl rfl (le_refl _)))) rfl rfl
  | saveSnapshot hn' => exact hT.put (Node.stays_saveSnapshot hn')
  | @restart p hmem =>
    have hput : (c.put p (c.nodes p).restart).Tallied := hT.put (.of_ne fun hs => by cases hs)
    exact ⟨hput.led, hput.own⟩

theorem tallied_init (members : Members) (config : String → Config) : (init members config).Tallied :=
  ⟨fun x hx => (by cases hx), fun x hx => (by cases hx)⟩

theorem commits_subset_of_step {a : Action} (h : c.step codec a = some c') : c.history.commits ⊆ c'.history.commits := by
  have hmoves := moves_of_step h
  cases hmoves with
  | win => exact fun x hx => mem_commits_of_mem hx
  | boot =>
    refine fun x hx => mem_commits_of_mem (h := History.lead _ _ _) ?_
    simp only [History.lead, History.write]
    split <;> exact hx
  | crash =>
    intro x hx
    simp only [record_history]
    split <;> exact hx
  | deliver => exact fun x hx => (commits_handled ..).symm ▸ hx
  | answer => exact fun x hx => mem_commits_of_mem hx
  | propose => exact fun x hx => mem_commits_of_mem hx
  | _ => exact List.Subset.refl _

end Cluster

/-! ## Reads -/

/-- A call of `EnsureLeaseReadable` that has passed `IsLeader`, with what had been committed
when it started. -/
structure ReadCall where
  node : String
  before : List Commit
  /-- `IsValid` has returned true. -/
  leased : Bool := false

/-- A call that has returned `Ok`. -/
structure ReadOk where
  node : String
  before : List Commit
  appliedIndex : Nat
  /-- The node is the leader of the highest term that any node has led. -/
  latest : Bool

/-- The cluster with a lease on every node, and the calls of `EnsureLeaseReadable`. -/
structure Leased where
  cluster : Cluster
  valid : String → Bool := fun _ => false
  reads : List ReadCall := []
  oks : List ReadOk := []

/-- The node leads the highest term that any node has led. -/
def Cluster.LeadsLatest (c : Cluster) (p : String) : Prop :=
  (c.nodes p).state = .leader ∧ ∀ x ∈ c.history.led, x.2 ≤ (c.nodes p).currentTerm

instance (c : Cluster) (p : String) : Decidable (c.LeadsLatest p) := inferInstanceAs (Decidable (_ ∧ _))

namespace Leased

inductive Event where
  | act (a : Action)
  /-- The time of the lease is over. -/
  | expire (p : String)
  | beginRead (p : String)
  /-- `IsValid`, before the heartbeat round of the call or after it. The round itself is a
  `beginBroadcast` and a `finishBroadcast` of the cluster. -/
  | checkLease (i : Nat)
  /-- The last comparison of the call, and its return. -/
  | finishRead (i : Nat)

def init (members : Members) (config : String → Config) : Leased := { cluster := Cluster.init members config }

def validAfter (s : Leased) (a : Action) : String → Bool :=
  match s.cluster.effect a with
  | some (p, ⟨_, some .renew⟩) => Function.update s.valid p true
  | some (p, ⟨_, some .invalidate⟩) => Function.update s.valid p false
  | _ => s.valid

/-- A process dies with its calls. -/
def readsAfter (s : Leased) : Action → List ReadCall
  | .restart p => s.reads.filter fun r => r.node ≠ p
  | _ => s.reads

def beginRead (s : Leased) (p : String) : Leased :=
  if (s.cluster.nodes p).state = .leader then
    { s with reads := s.reads ++ [{ node := p, before := s.cluster.history.commits }] }
  else s

def checkLease (s : Leased) (i : Nat) : Option Leased :=
  s.reads[i]?.map fun r => { s with reads := s.reads.set i { r with leased := r.leased || s.valid r.node } }

/-- `Ok` if the lease was valid and everything committed is applied. -/
def finishRead (s : Leased) (i : Nat) : Option Leased :=
  s.reads[i]?.map fun r =>
    if r.leased = true ∧ (s.cluster.nodes r.node).commitIndex ≤ (s.cluster.nodes r.node).appliedIndex then
      { s with
        reads := s.reads.eraseIdx i
        oks := ⟨r.node, r.before, (s.cluster.nodes r.node).appliedIndex, s.cluster.LeadsLatest r.node⟩ :: s.oks }
    else { s with reads := s.reads.eraseIdx i }

def step (codec : CommandCodec) (s : Leased) : Event → Option Leased
  | .act a => (s.cluster.step codec a).map fun cluster =>
      { s with cluster, valid := s.validAfter a, reads := s.readsAfter a }
  | .expire p => some { s with valid := Function.update s.valid p false }
  | .beginRead p => some (s.beginRead p)
  | .checkLease i => s.checkLease i
  | .finishRead i => s.finishRead i

/-- The steps of the cluster are safe, and a leader answers a read only when it has committed an
entry of its own term. -/
def Current (s : Leased) : Event → Prop
  | .act a => s.cluster.Safe a
  | .finishRead i => ∀ r ∈ s.reads[i]?, (s.cluster.nodes r.node).state = .leader →
      (s.cluster.nodes r.node).termAtLogicalIndex (s.cluster.nodes r.node).commitIndex =
        .ok (s.cluster.nodes r.node).currentTerm
  | _ => True

instance (s : Leased) : (e : Event) → Decidable (s.Current e)
  | .act a => inferInstanceAs (Decidable (s.cluster.Safe a))
  | .finishRead i => inferInstanceAs (Decidable (∀ r ∈ s.reads[i]?, (s.cluster.nodes r.node).state = .leader →
      (s.cluster.nodes r.node).termAtLogicalIndex (s.cluster.nodes r.node).commitIndex =
        .ok (s.cluster.nodes r.node).currentTerm))
  | .expire _ | .beginRead _ | .checkLease _ => isTrue trivial

/-- Calls know of commits only, and a call that has returned `Ok` has seen all that it knows. -/
structure Seen (s : Leased) : Prop where
  before : ∀ r ∈ s.reads, r.before ⊆ s.cluster.history.commits
  oks : ∀ r ∈ s.oks, r.latest = true → ∀ x ∈ r.before, x.commitIndex ≤ r.appliedIndex

variable {codec : CommandCodec} {w : Ledger} {s s' : Leased}

/-- What anyone has committed, the leader of the highest term has committed once it has
committed an entry of its own. -/
theorem committed_of_latest (hS : Cluster.Secure w s.cluster) (hT : s.cluster.Tallied) (honce : s.cluster.LedOnce) {p : String}
    (hlatest : s.cluster.LeadsLatest p)
    (hown : (s.cluster.nodes p).termAtLogicalIndex (s.cluster.nodes p).commitIndex = .ok (s.cluster.nodes p).currentTerm)
    {x : Commit} (hx : x ∈ s.cluster.history.commits) : x.commitIndex ≤ (s.cluster.nodes p).commitIndex := by
  have hled := hT.led x hx
  rcases Nat.lt_or_eq_of_le (hlatest.2 _ hled) with hlt | heq
  · exact (hS.commit_lt hlatest.1 hown hx hlt).le
  · have hleads := ((hS.node p).leads hlatest.1).1
    rw [← heq] at hleads
    have hleader : x.leader = p := honce _ _ _ hled hleads
    have hle := hT.own x hx
    rw [hleader] at hle
    exact hle hlatest.1 heq.symm

theorem Seen.step (h : s.Seen) (hS : Cluster.Secure w s.cluster) (hT : s.cluster.Tallied) (honce : s.cluster.LedOnce)
    {e : Event} (hok : s.Current e) (hs : step codec s e = some s') : s'.Seen := by
  cases e with
  | act a =>
    obtain ⟨cluster, hcluster, rfl⟩ := Option.map_eq_some_iff.mp hs
    refine ⟨fun r hr => ?_, h.oks⟩
    have hold : r ∈ s.reads := by
      simp only [readsAfter] at hr
      split at hr
      · exact List.mem_of_mem_filter hr
      · exact hr
    exact List.Subset.trans (h.before r hold) (Cluster.commits_subset_of_step hcluster)
  | expire p =>
    cases hs
    exact ⟨h.before, h.oks⟩
  | beginRead p =>
    cases hs
    unfold beginRead
    split
    · refine ⟨fun r hr => ?_, h.oks⟩
      rcases List.mem_append.mp hr with hr | hr
      · exact h.before r hr
      · rw [List.mem_singleton.mp hr]
        exact List.Subset.refl _
    · exact h
  | checkLease i =>
    obtain ⟨r, hr, rfl⟩ := Option.map_eq_some_iff.mp hs
    refine ⟨fun x hx => ?_, h.oks⟩
    rcases List.mem_or_eq_of_mem_set hx with hx | rfl
    · exact h.before x hx
    · exact h.before r (List.mem_of_getElem? hr)
  | finishRead i =>
    obtain ⟨r, hr, rfl⟩ := Option.map_eq_some_iff.mp hs
    have hkept : ∀ x ∈ s.reads.eraseIdx i, x.before ⊆ s.cluster.history.commits := fun x hx =>
      h.before x (List.mem_of_mem_eraseIdx hx)
    split
    · next hreturn =>
      refine ⟨hkept, fun x hx => ?_⟩
      rcases List.mem_cons.mp hx with rfl | hx
      · intro hlatest y hy
        have hlatest := of_decide_eq_true hlatest
        exact (committed_of_latest hS hT honce hlatest (hok r hr hlatest.1)
          (h.before r (List.mem_of_getElem? hr) hy)).trans hreturn.2
      · exact h.oks x hx
    · exact ⟨hkept, h.oks⟩

structure Inv (s : Leased) : Prop where
  configured : s.cluster.Configured
  ballot : Cluster.BallotInv s.cluster
  seen : s.cluster.LedOnce → (∃ w, Cluster.Secure w s.cluster) ∧ s.cluster.Tallied ∧ s.Seen

/-- A step of a call alone. -/
theorem Inv.same (h : s.Inv) {e : Event} (hok : s.Current e) (hs : step codec s e = some s')
    (hsame : s'.cluster = s.cluster) : s'.Inv where
  configured := by rw [hsame]; exact h.configured
  ballot := by rw [hsame]; exact h.ballot
  seen := by
    rw [hsame]
    intro honce
    obtain ⟨⟨w, hS⟩, hT, hseen⟩ := h.seen honce
    exact ⟨⟨w, hS⟩, hT, hseen.step hS hT honce hok hs⟩

theorem Inv.step (h : s.Inv) {e : Event} (hok : s.Current e) (hs : step codec s e = some s') : s'.Inv := by
  cases e with
  | act a =>
    obtain ⟨cluster, hcluster, rfl⟩ := Option.map_eq_some_iff.mp hs
    have hframe := Cluster.frame_of_moves (Cluster.moves_of_step hcluster)
    refine ⟨h.configured.frame hframe, h.ballot.step h.configured hcluster, fun honce => ?_⟩
    obtain ⟨⟨w, hS⟩, hT, hseen⟩ := h.seen (honce.frame hframe)
    obtain ⟨w', -, hS'⟩ := hS.step h.ballot h.configured honce hok hcluster
    exact ⟨⟨w', hS'⟩, hT.step hS hS' hcluster, hseen.step hS hT (honce.frame hframe) hok hs⟩
  | expire p =>
    refine h.same hok hs ?_
    cases hs
    rfl
  | beginRead p =>
    refine h.same hok hs ?_
    cases hs
    unfold beginRead
    split <;> rfl
  | checkLease i =>
    refine h.same hok hs ?_
    obtain ⟨r, hr, rfl⟩ := Option.map_eq_some_iff.mp hs
    rfl
  | finishRead i =>
    refine h.same hok hs ?_
    obtain ⟨r, hr, rfl⟩ := Option.map_eq_some_iff.mp hs
    split <;> rfl

theorem Inv.init (members : Members) (config : String → Config) : (init members config).Inv where
  configured := Cluster.configured_init members config
  ballot := .init members config
  seen _ := ⟨⟨_, Cluster.secure_init members config⟩, Cluster.tallied_init members config, fun r hr => (by cases hr),
    fun r hr => (by cases hr)⟩

end Leased

end RaftVdb
