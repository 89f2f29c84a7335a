import Mathlib.Data.List.Perm.Subperm
import RaftVdb.Rpc

/-!
# Quorums over a shared peer list

All nodes get one peer list, which may name a node more than once and hold empty entries,
and each keeps it without itself. `StartElection` counts a vote for every entry of that list,
`MaybeCommit` counts every node once, and both compare with a quorum over the node's own
list. Still any two elections have a voter in common, and so have an election and a commit,
unless the leader has not flushed the entry and the list names it more often than the candidate.
-/

namespace RaftVdb

namespace Node

/-- The node is this member of the cluster, with the list that `LoadAndNormalizeConfig` gives it. -/
structure IsMember (n : Node) (x : String) (peers : List String) : Prop where
  named : x ∈ peers ∧ x ≠ ""
  nodeId : n.config.nodeId = x
  peers : n.config.peers = normalizePeers x peers

/-- The answers that the threads of `StartElection` note, in the order in which they come. -/
def tally (n : Node) (answers : List (String × RequestVoteResponse)) : Node :=
  answers.foldl (fun n a => n.onVoteResponse n.currentTerm a.2) n

/-- Who has granted a vote, with the candidate itself. -/
def voters (n : Node) (answers : List (String × RequestVoteResponse)) : List String :=
  n.selfId :: (answers.filter fun a => a.2.voteGranted).map Prod.fst

/-- A candidate asks every entry of its list once, and the answers bring it to the quorum. -/
structure Wins (n : Node) (answers : List (String × RequestVoteResponse)) : Prop where
  started : n.election = some { term := n.currentTerm, highestTerm := n.currentTerm }
  asked : (answers.map Prod.fst).Subperm n.config.peers
  won : ∃ e, (n.tally answers).election = some e ∧ quorumSize n.config.peers ≤ e.grantedVotes

/-- The nodes that `MaybeCommit` counts for an index. -/
def counted (n : Node) (index : Nat) : List String :=
  (if n.flushedIndex ≥ index then [n.selfId] else []) ++
    (n.progress.rows.filter fun r => r.2.matchIndex ≥ index).map Prod.fst

/-- Distinct members of the cluster bring a leader to the quorum for an index. -/
structure Commits (n : Node) (peers : List String) (index : Nat) : Prop where
  quorum : quorumSize n.config.peers ≤ n.matched index
  distinct : (n.counted index).Nodup
  members : ∀ v ∈ n.counted index, v ∈ peers ∧ v ≠ ""

variable {n m : Node} {x y : String} {peers : List String} {answers : List (String × RequestVoteResponse)} {index : Nat}

theorem tally_spec (answers : List (String × RequestVoteResponse)) {e : Election} (h : n.election = some e) (hterm : e.term = n.currentTerm) :
    ∃ e', (n.tally answers).election = some e' ∧
      e'.grantedVotes = e.grantedVotes + (answers.filter fun a => a.2.voteGranted).length := by
  induction answers generalizing n e with
  | nil => exact ⟨e, h, rfl⟩
  | cons a answers ih =>
    have hnoted : n.onVoteResponse n.currentTerm a.2 = { n with
        election := some
          { e with
            highestTerm := max e.highestTerm a.2.term
            grantedVotes := if a.2.voteGranted then e.grantedVotes + 1 else e.grantedVotes } } := by
      rw [onVoteResponse, h]
      dsimp only
      rw [if_pos hterm]
    obtain ⟨e', he', hvotes⟩ := ih (n := n.onVoteResponse n.currentTerm a.2) (by rw [hnoted]) (by rw [hnoted]; exact hterm)
    refine ⟨e', he', hvotes.trans ?_⟩
    cases hgranted : a.2.voteGranted with
    | false => simp [hgranted]
    | true =>
      simp only [hgranted, if_true, List.filter_cons_of_pos, List.length_cons]
      omega

theorem length_counted (n : Node) (index : Nat) : (n.counted index).length = n.matched index := by
  rw [counted, matched, List.length_append, List.length_map]
  split <;> rfl

end Node

/-! ## Counting entries -/

/-- The entries that name neither of two nodes. -/
def othersOf (x y : String) (peers : List String) : List String := peers.filter fun p => p ≠ "" ∧ p ≠ x ∧ p ≠ y

variable {x y : String} {peers front rear : List String}

theorem othersOf_comm (x y : String) (peers : List String) : othersOf x y peers = othersOf y x peers := by
  unfold othersOf
  refine List.filter_congr fun p _ => ?_
  simp only [decide_eq_decide]
  tauto

/-- The list of one node has the entries of the other beside those of the others. -/
theorem length_normalizePeers_eq (peers : List String) (hy : y ≠ "") (hxy : x ≠ y) :
    (normalizePeers x peers).length = (othersOf x y peers).length + peers.count y := by
  induction peers with
  | nil => rfl
  | cons p peers ih =>
    unfold normalizePeers othersOf at ih ⊢
    by_cases hpy : p = y
    · have hkept : p ≠ "" ∧ p ≠ x := hpy ▸ ⟨hy, hxy.symm⟩
      have hleft : ¬ (p ≠ "" ∧ p ≠ x ∧ p ≠ y) := fun h => h.2.2 hpy
      rw [List.filter_cons_of_pos (by simpa using hkept), List.filter_cons_of_neg (by simpa using hleft), hpy,
        List.count_cons_self, List.length_cons, ih]
      omega
    · rw [List.count_cons_of_ne hpy]
      by_cases hp : p ≠ "" ∧ p ≠ x
      · rw [List.filter_cons_of_pos (by simpa using hp), List.filter_cons_of_pos (by simpa [hpy] using hp),
          List.length_cons, List.length_cons, ih]
        omega
      · have hnot : ¬ (p ≠ "" ∧ p ≠ x ∧ p ≠ y) := fun h => hp ⟨h.1, h.2.1⟩
        rw [List.filter_cons_of_neg (by simpa using hp), List.filter_cons_of_neg (by simpa using hnot), ih]

/-- Entries of a node's list that do not name the other node are entries of the others. -/
theorem subperm_othersOf (h : front.Subperm (normalizePeers x peers)) (hy : y ∉ front) :
    front.Subperm (othersOf x y peers) := by
  rw [List.subperm_iff_count] at h ⊢
  intro p
  by_cases hpy : p = y
  · rw [hpy, List.count_eq_zero_of_not_mem hy]
    exact Nat.zero_le _
  · refine (h p).trans (Nat.le_of_eq ?_)
    unfold normalizePeers othersOf
    by_cases hp : p ≠ "" ∧ p ≠ x
    · rw [List.count_filter (by simpa using hp), List.count_filter (by simpa [hpy] using hp)]
    · have hnot : ¬ (p ≠ "" ∧ p ≠ x ∧ p ≠ y) := fun h => hp ⟨h.1, h.2.1⟩
      rw [List.count_eq_zero_of_not_mem (by simpa using fun _ h₁ h₂ => hp ⟨h₁, h₂⟩),
        List.count_eq_zero_of_not_mem (by simpa using fun _ h₁ h₂ h₃ => hnot ⟨h₁, h₂, h₃⟩)]

theorem othersOf_sublist (x y : String) (peers : List String) :
    (othersOf x y peers).Sublist (normalizePeers x peers) :=
  List.monotone_filter_right _ fun p hp => by
    rw [decide_eq_true_eq] at hp ⊢
    exact ⟨hp.1, hp.2.1⟩

theorem length_add_le_of_disjoint {xs : List String} (hfront : front.Subperm xs) (hrear : rear.Subperm xs)
    (hdisjoint : front.Disjoint rear) : front.length + rear.length ≤ xs.length := by
  have happend : (front ++ rear).Subperm xs := by
    rw [List.subperm_iff_count] at hfront hrear ⊢
    intro p
    rw [List.count_append]
    by_cases hp : p ∈ front
    · rw [List.count_eq_zero_of_not_mem (hdisjoint hp), Nat.add_zero]
      exact hfront p
    · rw [List.count_eq_zero_of_not_mem hp, Nat.zero_add]
      exact hrear p
  rw [← List.length_append]
  exact happend.length_le

/-- A quorum of the entries of one node and a quorum of the entries of another, without these
two, have a node in common. -/
theorem exists_common (hx : x ∈ peers ∧ x ≠ "") (hy : y ∈ peers ∧ y ≠ "") (hxy : x ≠ y)
    (hfront : front.Subperm (othersOf x y peers)) (hrear : rear.Subperm (othersOf x y peers))
    (hqx : quorumSize (normalizePeers x peers) ≤ front.length + 1)
    (hqy : quorumSize (normalizePeers y peers) ≤ rear.length + 1) : ∃ v, v ∈ front ∧ v ∈ rear := by
  by_contra hnone
  have hsum := length_add_le_of_disjoint hfront hrear fun v hv hv' => hnone ⟨v, hv, hv'⟩
  have hlengthX := length_normalizePeers_eq peers hy.2 hxy
  have hlengthY := length_normalizePeers_eq peers hx.2 hxy.symm
  rw [othersOf_comm] at hlengthY
  have hcountX := List.count_pos_iff.mpr hx.1
  have hcountY := List.count_pos_iff.mpr hy.1
  unfold quorumSize at hqx hqy
  omega

namespace Node

variable {n m : Node} {answers answers' : List (String × RequestVoteResponse)} {index : Nat}

theorem Wins.quorum (h : n.Wins answers) :
    quorumSize n.config.peers ≤ ((answers.filter fun a => a.2.voteGranted).map Prod.fst).length + 1 := by
  obtain ⟨e, he, hquorum⟩ := h.won
  obtain ⟨e', he', hvotes⟩ := tally_spec answers h.started rfl
  rw [he] at he'
  cases he'
  rw [List.length_map]
  dsimp only at hvotes
  omega

theorem Wins.subperm (h : n.Wins answers) :
    ((answers.filter fun a => a.2.voteGranted).map Prod.fst).Subperm n.config.peers :=
  (List.filter_sublist.map Prod.fst).subperm.trans h.asked

/-- Two elections of different members have a voter in common. -/
theorem Wins.meets_winner (hn : n.IsMember x peers) (hm : m.IsMember y peers) (hxy : x ≠ y)
    (h : n.Wins answers) (h' : m.Wins answers') : ∃ v, v ∈ n.voters answers ∧ v ∈ m.voters answers' := by
  have hselfX : n.selfId = x := hn.nodeId
  have hselfY : m.selfId = y := hm.nodeId
  rw [voters, voters, hselfX, hselfY]
  have hfront := h.subperm
  have hrear := h'.subperm
  have hqx := h.quorum
  have hqy := h'.quorum
  rw [hn.peers] at hfront hqx
  rw [hm.peers] at hrear hqy
  by_cases hy : y ∈ (answers.filter fun a => a.2.voteGranted).map Prod.fst
  · exact ⟨y, List.mem_cons_of_mem _ hy, List.mem_cons_self⟩
  by_cases hx : x ∈ (answers'.filter fun a => a.2.voteGranted).map Prod.fst
  · exact ⟨x, List.mem_cons_self, List.mem_cons_of_mem _ hx⟩
  obtain ⟨v, hv, hv'⟩ := exists_common hn.named hm.named hxy (subperm_othersOf hfront hy)
    (othersOf_comm y x peers ▸ subperm_othersOf hrear hx) hqx hqy
  exact ⟨v, List.mem_cons_of_mem _ hv, List.mem_cons_of_mem _ hv'⟩

/-- The counted nodes other than the leader are among the others, when the candidate is not one of them. -/
theorem Commits.subperm (h : m.Commits peers index) (hx : x ∉ m.counted index) :
    ((m.counted index).erase y).Subperm (othersOf x y peers) := by
  refine List.subperm_of_subset (h.distinct.erase y) fun v hv => ?_
  obtain ⟨hne, hin⟩ := h.distinct.mem_erase_iff.mp hv
  obtain ⟨hnamed, hnonempty⟩ := h.members v hin
  rw [othersOf, List.mem_filter, decide_eq_true_eq]
  exact ⟨hnamed, hnonempty, fun heq => hx (heq ▸ hin), hne⟩

/-- An election has a voter among the nodes that another member counts for a commit. A leader that
does not count itself may be outvoted by its own entries, if there are more than the candidate has. -/
theorem Wins.meets_counted (hn : n.IsMember x peers) (hm : m.IsMember y peers) (hxy : x ≠ y)
    (h : n.Wins answers) (h' : m.Commits peers index)
    (hself : y ∈ m.counted index ∨ peers.count y ≤ peers.count x) :
    ∃ v, v ∈ n.voters answers ∧ v ∈ m.counted index := by
  have hselfX : n.selfId = x := hn.nodeId
  rw [voters, hselfX]
  have hfront := h.subperm
  have hqx := h.quorum
  rw [hn.peers] at hfront hqx
  have hqy := h'.quorum
  rw [hm.peers, ← length_counted] at hqy
  by_cases hx : x ∈ m.counted index
  · exact ⟨x, List.mem_cons_self, hx⟩
  have hrear := h'.subperm (y := y) hx
  by_cases hyc : y ∈ m.counted index
  · by_cases hyv : y ∈ (answers.filter fun a => a.2.voteGranted).map Prod.fst
    · exact ⟨y, List.mem_cons_of_mem _ hyv, hyc⟩
    rw [← List.length_erase_add_one hyc] at hqy
    obtain ⟨v, hv, hv'⟩ := exists_common hn.named hm.named hxy (subperm_othersOf hfront hyv) hrear hqx hqy
    exact ⟨v, List.mem_cons_of_mem _ hv, List.mem_of_mem_erase hv'⟩
  by_contra hnone
  rw [List.erase_of_not_mem hyc] at hrear
  have hsum := length_add_le_of_disjoint hfront (hrear.trans (othersOf_sublist x y peers).subperm)
    fun v hv hv' => hnone ⟨v, List.mem_cons_of_mem _ hv, hv'⟩
  have hlengthX := length_normalizePeers_eq peers hm.named.2 hxy
  have hlengthY := length_normalizePeers_eq peers hn.named.2 hxy.symm
  rw [othersOf_comm] at hlengthY
  have hcount := hself.resolve_left hyc
  unfold quorumSize at hqx hqy
  omega

/-- A leader that has flushed an entry counts itself. -/
theorem self_mem_counted (hm : m.IsMember y peers) (h : index ≤ m.flushedIndex) : y ∈ m.counted index := by
  have hself : m.selfId = y := hm.nodeId
  rw [counted, if_pos h, hself]
  exact List.mem_append_left _ List.mem_cons_self

theorem quorums_intersect (hn : n.IsMember x peers) (hm : m.IsMember y peers) (hxy : x ≠ y)
    (h : n.Wins answers) :
    (∀ answers', m.Wins answers' → ∃ v, v ∈ n.voters answers ∧ v ∈ m.voters answers') ∧
    ∀ index, m.Commits peers index → index ≤ m.flushedIndex ∨ peers.count y ≤ peers.count x →
      ∃ v, v ∈ n.voters answers ∧ v ∈ m.counted index :=
  ⟨fun _ h' => h.meets_winner hn hm hxy h', fun _ h' hself =>
    h.meets_counted hn hm hxy h' (hself.imp_left (self_mem_counted hm))⟩

/-- A list in which one node is named twice and one entry is empty. -/
def sharedList : List String := ["A", "B", "", "A", "C"]

/-- A node of that list that stands for election. -/
def standing (nodeId : String) (peers : List String) : Node where
  config := { nodeId, peers := normalizePeers nodeId peers }
  currentTerm := 1
  votedFor := nodeId
  state := .candidate
  dedup := { windowSize := 1000 }
  election := some { term := 1, highestTerm := 1 }

/-- A leader that has proposed its second entry and has the answers of these followers to it. -/
def leading (nodeId : String) (peers acknowledged : List String) (flushedIndex : Nat) : Node where
  config := { nodeId, peers := normalizePeers nodeId peers }
  currentTerm := 1
  state := .leader
  flushedIndex
  progress := (normalizePeers nodeId peers).foldl (fun t p =>
    t.insert p (if p ∈ acknowledged then { nextIndex := 3, matchIndex := 2 } else { nextIndex := 3 })) ∅
  dedup := { windowSize := 1000 }

theorem quorums_intersect_at_shared_list :
    (∃ v, v ∈ (standing "A" sharedList).voters [("C", ⟨1, true⟩)] ∧
      v ∈ (standing "B" sharedList).voters [("A", ⟨1, true⟩), ("A", ⟨1, true⟩)]) ∧
    ∃ v, v ∈ (standing "A" sharedList).voters [("C", ⟨1, true⟩)] ∧
      v ∈ (leading "B" sharedList ["A", "C"] 2).counted 2 := by
  have hn : (standing "A" sharedList).IsMember "A" sharedList := ⟨by decide, rfl, rfl⟩
  have h : (standing "A" sharedList).Wins [("C", ⟨1, true⟩)] :=
    ⟨rfl, by decide, ⟨_, rfl, by decide⟩⟩
  constructor
  · exact (quorums_intersect hn (m := standing "B" sharedList) ⟨by decide, rfl, rfl⟩ (by decide) h).1 _
      ⟨rfl, by decide, ⟨_, rfl, by decide⟩⟩
  · exact (quorums_intersect hn (m := leading "B" sharedList ["A", "C"] 2) ⟨by decide, rfl, rfl⟩ (by decide) h).2 2
      ⟨by decide, by decide, by decide⟩ (.inl (by decide))

/-- A list that names one node five times. -/
def lopsidedList : List String := ["A", "B", "B", "B", "B", "B", "C", "D", "E", "F"]

/-- A leader that is named five times and has not flushed its entry can commit it apart from the voters
of an election. -/
theorem unflushed_commit_apart :
    (standing "A" lopsidedList).IsMember "A" lopsidedList ∧
    (leading "B" lopsidedList ["C", "D", "E", "F"] 1).IsMember "B" lopsidedList ∧
    (standing "A" lopsidedList).Wins (List.replicate 5 ("B", ⟨1, true⟩)) ∧
    (leading "B" lopsidedList ["C", "D", "E", "F"] 1).Commits lopsidedList 2 ∧
    ¬ ∃ v, v ∈ (standing "A" lopsidedList).voters (List.replicate 5 ("B", ⟨1, true⟩)) ∧
      v ∈ (leading "B" lopsidedList ["C", "D", "E", "F"] 1).counted 2 := by
  refine ⟨⟨by decide, rfl, rfl⟩, ⟨by decide, rfl, rfl⟩, ⟨rfl, by decide, ⟨_, rfl, by decide⟩⟩,
    ⟨by decide, by decide, by decide⟩, ?_⟩
  rintro ⟨v, hv, hv'⟩
  have hnone : ∀ v ∈ (standing "A" lopsidedList).voters (List.replicate 5 ("B", ⟨1, true⟩)),
      v ∉ (leading "B" lopsidedList ["C", "D", "E", "F"] 1).counted 2 := by decide
  exact hnone v hv hv'

end Node

end RaftVdb
