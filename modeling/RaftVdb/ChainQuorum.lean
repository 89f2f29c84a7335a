import RaftVdb.Progress
import RaftVdb.Rebalance

/-!
# Can a leader commit through the chain?

A leader learns `match_index` only from the peers that `ReplicationLoop` sends to
itself: a follower's acknowledgement to its mentor stays with the mentor. So after
a rebalance the leader can commit only if itself and its direct peers reach the
quorum. The number of direct peers is computed here for every cluster size and
every set of healthy peers.
-/

namespace RaftVdb

open Lib TopologyManager

/-- A row of the topology, read through its shape. -/
theorem mem_allNodes_shape (t : TopologyManager) (x : String) (s : Shape) :
    (∃ n, (x, n) ∈ t.allNodes ∧ n.shape = s) ↔ t.shape x = some s := by
  simp only [allNodes, List.mem_insertionSort, ← Table.find?_eq_some, shape, Option.map_eq_some_iff]

theorem nodup_filter_allNodes (t : TopologyManager) (p : String × NodeInfo → Bool) :
    ((t.allNodes.filter p).map Prod.fst).Nodup := by
  have h : (t.allNodes.map Prod.fst).Nodup :=
    ((List.perm_insertionSort _ t.nodes.rows).map Prod.fst).nodup_iff.mpr t.nodes.nodup
  exact (List.filter_sublist.map _).nodup h

theorem mem_filter_allNodes (t : TopologyManager) (p : String × NodeInfo → Bool) (x : String) (s : Shape)
    (hs : t.shape x = some s) (b : Bool) (hp : ∀ n : NodeInfo, n.shape = s → p (x, n) = b) :
    x ∈ (t.allNodes.filter p).map Prod.fst ↔ b = true := by
  obtain ⟨n, hn, hns⟩ := (mem_allNodes_shape t x s).mpr hs
  simp only [List.mem_map, List.mem_filter, Prod.exists, exists_and_right, exists_eq_right]
  constructor
  · rintro ⟨m, hm, hpm⟩
    have : m.shape = s := by
      have := (mem_allNodes_shape t x m.shape).mp ⟨m, hm, rfl⟩
      rw [hs] at this
      exact (Option.some.inj this).symm
    rw [← hp m this]
    exact hpm
  · intro hb
    exact ⟨n, hn, by rw [hp n hns, hb]⟩

theorem not_mem_filter_allNodes (t : TopologyManager) (p : String × NodeInfo → Bool) (x : String)
    (hs : t.shape x = none) : x ∉ (t.allNodes.filter p).map Prod.fst := by
  intro hx
  obtain ⟨⟨y, n⟩, hn, rfl⟩ := List.mem_map.mp hx
  have := (mem_allNodes_shape t y n.shape).mp ⟨n, (List.mem_filter.mp hn).1, rfl⟩
  rw [hs] at this
  exact absurd this (by simp)

section AfterRebalance

variable {t t' : TopologyManager} {self : String} {hs : List String}

/-- Which rows of the rebalanced topology a filter keeps, when it never keeps the
leader or an unhealthy node. -/
theorem filter_rebalance_perm (h : t.rebalance hs = .ok t') (p : String × NodeInfo → Bool)
    (keep : Nat → Bool)
    (hlead : ∀ n : NodeInfo, p (t.rebalanceLeader, n) = false)
    (hdown : ∀ x n, n.healthy = false → p (x, n) = false)
    (hkeep : ∀ j x n, (sortedCandidates t.rebalanceLeader hs)[j]? = some x →
      n.shape = (if j < ((sortedCandidates t.rebalanceLeader hs).length + 1) / 2
        then ⟨.mentor, t.rebalanceLeader, true⟩
        else ⟨.follower, (sortedCandidates t.rebalanceLeader hs).getD
          (j - ((sortedCandidates t.rebalanceLeader hs).length + 1) / 2) "", true⟩) →
      p (x, n) = keep j) (x : String) :
    x ∈ (t'.allNodes.filter p).map Prod.fst ↔
      ∃ j, (sortedCandidates t.rebalanceLeader hs)[j]? = some x ∧ keep j = true := by
  obtain ⟨hl, hc, ho⟩ := rebalance_shape h
  by_cases hx : x ∈ sortedCandidates t.rebalanceLeader hs
  · obtain ⟨j, hj⟩ := List.mem_iff_getElem?.mp hx
    rw [mem_filter_allNodes t' p x _ (hc j x hj) (keep j) (fun n hn => hkeep j x n hj hn)]
    constructor
    · exact fun hb => ⟨j, hj, hb⟩
    · rintro ⟨i, hi, hb⟩
      have hij : i = j := (List.getElem?_inj (List.getElem?_eq_some_iff.mp hi).1
        (nodup_sortedCandidates _ _)).mp (hi.trans hj.symm)
      rw [← hij]
      exact hb
  · have hnot : ¬ ∃ j, (sortedCandidates t.rebalanceLeader hs)[j]? = some x ∧ keep j = true := by
      rintro ⟨j, hj, -⟩
      exact hx (List.mem_of_getElem? hj)
    simp only [hnot, iff_false]
    by_cases hxl : x = t.rebalanceLeader
    · subst hxl
      rw [mem_filter_allNodes t' p _ _ hl false (fun n _ => hlead n)]
      simp
    · have hshape := ho x hxl hx
      cases hs' : t.shape x with
      | none =>
        rw [hs'] at hshape
        exact not_mem_filter_allNodes t' p x hshape
      | some s =>
        rw [hs'] at hshape
        rw [mem_filter_allNodes t' p x _ hshape false
          (fun n hn => hdown x n (congrArg Shape.healthy hn))]
        simp

/-- The healthy peers after a rebalance are the candidates. -/
theorem length_healthyPeerIds (h : t.rebalance hs = .ok t') :
    (healthyPeerIds t.rebalanceLeader t').length = (sortedCandidates t.rebalanceLeader hs).length := by
  refine ((List.perm_ext_iff_of_nodup (nodup_filter_allNodes _ _) (nodup_sortedCandidates _ _)).mpr
    fun x => ?_).length_eq
  rw [filter_rebalance_perm h _ (fun _ => true)]
  · simp [List.mem_iff_getElem?]
  · simp
  · simp +contextual
  · intro j x n hj hn
    have hx := ((mem_sortedCandidates _ _ _).mp (List.mem_of_getElem? hj)).2.2
    have hh : n.healthy = true := by
      have := congrArg Shape.healthy hn
      split at this <;> exact this
    simp [hx, hh]

/-- The direct peers after a rebalance: all candidates at the quorum edge, else the
mentors only. -/
theorem length_replicationTargets (h : t.rebalance hs = .ok t') (peers : List String)
    (progress : ProgressTable) (hdirect : ∀ p q, progress.find? p = some q → q.directMode = false) :
    (replicationTargets t.rebalanceLeader peers t' progress).length =
      if (sortedCandidates t.rebalanceLeader hs).length + 1 ≤ quorumSize peers
      then (sortedCandidates t.rebalanceLeader hs).length
      else ((sortedCandidates t.rebalanceLeader hs).length + 1) / 2 := by
  set cs := sortedCandidates t.rebalanceLeader hs with hcs
  set edge : Bool := decide (cs.length + 1 ≤ quorumSize peers) with hedge
  have hkey : ∀ x, x ∈ replicationTargets t.rebalanceLeader peers t' progress ↔
      ∃ j, cs[j]? = some x ∧ (decide (j < (cs.length + 1) / 2) || edge) = true := by
    intro x
    rw [replicationTargets, length_healthyPeerIds h]
    refine filter_rebalance_perm h _ (fun j => decide (j < (cs.length + 1) / 2) || edge)
      (by simp) (by simp +contextual) (fun j x n hj hn => ?_) x
    have hx := ((mem_sortedCandidates _ _ _).mp (List.mem_of_getElem? hj)).2.2
    have hd : ((progress.find? x).map PeerProgress.directMode).getD false = false := by
      cases hf : progress.find? x with
      | none => rfl
      | some q => exact hdirect x q hf
    rw [← hcs] at hj hn
    by_cases hm : j < (cs.length + 1) / 2
    · rw [if_pos hm] at hn
      have hrole : n.role = .mentor := congrArg Shape.role hn
      have hh : n.healthy = true := congrArg Shape.healthy hn
      simp [shouldReplicate, hx, hh, hrole, hm]
    · rw [if_neg hm] at hn
      have hrole : n.role = .follower := congrArg Shape.role hn
      have hh : n.healthy = true := congrArg Shape.healthy hn
      have hlen : j < cs.length := (List.getElem?_eq_some_iff.mp hj).1
      have hsrc : n.sourceNodeId ≠ t.rebalanceLeader := by
        have hs : n.sourceNodeId = cs.getD (j - (cs.length + 1) / 2) "" := congrArg Shape.source hn
        have hlt : j - (cs.length + 1) / 2 < cs.length := by omega
        rw [hs, List.getD_eq_getElem?_getD, List.getElem?_eq_getElem hlt, Option.getD_some]
        exact ((mem_sortedCandidates _ _ _).mp (List.getElem_mem hlt)).2.2
      simp [shouldReplicate, hx, hh, hrole, hm, hd, hsrc, hedge, ← hcs]
  have hnd := nodup_filter_allNodes t' fun r => decide (r.1 ≠ t.rebalanceLeader) && r.2.healthy &&
    shouldReplicate t.rebalanceLeader progress
      (decide ((healthyPeerIds t.rebalanceLeader t').length + 1 ≤ quorumSize peers)) r
  have hcnd : cs.Nodup := nodup_sortedCandidates _ _
  by_cases he : cs.length + 1 ≤ quorumSize peers
  · rw [if_pos he]
    refine ((List.perm_ext_iff_of_nodup hnd hcnd).mpr fun x => ?_).length_eq
    have := hkey x
    simp only [hedge, he, decide_true, Bool.or_true, and_true] at this
    exact this.trans List.mem_iff_getElem?.symm
  · rw [if_neg he]
    have hmc : (cs.length + 1) / 2 ≤ cs.length ∨ cs.length = 0 := by omega
    have hlen : (cs.take ((cs.length + 1) / 2)).length = (cs.length + 1) / 2 := by
      rw [List.length_take]
      omega
    rw [← hlen]
    refine ((List.perm_ext_iff_of_nodup hnd (List.Sublist.nodup (List.take_sublist _ _) hcnd)).mpr
      fun x => ?_).length_eq
    have := hkey x
    simp only [hedge, he, decide_false, Bool.or_false, decide_eq_true_eq] at this
    refine this.trans ?_
    rw [List.mem_iff_getElem?]
    refine exists_congr fun j => ?_
    rw [List.getElem?_take]
    by_cases hj : j < (cs.length + 1) / 2 <;> simp [hj]

end AfterRebalance

/-- A leader that has just rebalanced on a set of healthy peers large enough for a
quorum reaches it directly exactly when the set is only just large enough, or when
its mentors alone, half of the healthy peers rounded up, complete the quorum. -/
theorem direct_peers_reach_quorum_iff (t t' : TopologyManager) (self : String) (peers healthy : List String)
    (progress : ProgressTable) (hself : self ≠ "") (hlead : t.leaderId = self)
    (hpeers : ∀ p ∈ peers, p ≠ "" ∧ p ≠ self) (hsub : healthy ⊆ peers) (hnd : healthy.Nodup)
    (hdirect : ∀ p q, progress.find? p = some q → q.directMode = false)
    (hr : t.rebalance healthy = .ok t') (hq : quorumSize peers ≤ healthy.length + 1) :
    quorumSize peers ≤ 1 + (replicationTargets self peers t' progress).length ↔
      healthy.length + 1 = quorumSize peers ∨ quorumSize peers ≤ 1 + (healthy.length + 1) / 2 := by
  have hleader : t.rebalanceLeader = self := by simp [rebalanceLeader, hlead, hself]
  have hlen : (sortedCandidates self healthy).length = healthy.length := by
    refine ((List.perm_ext_iff_of_nodup (nodup_sortedCandidates _ _) hnd).mpr fun x => ?_).length_eq
    rw [mem_sortedCandidates]
    exact ⟨fun hx => hx.1, fun hx => ⟨hx, hpeers x (hsub hx)⟩⟩
  have hcount := length_replicationTargets hr peers progress hdirect
  rw [hleader, hlen] at hcount
  rw [hcount]
  split <;> omega

/-- The leader `a` of a seven-node cluster, before its first rebalance. -/
def sevenNodeLeader : TopologyManager := (TopologyManager.create "a" "a").setLeader "a"

/-- With six configured peers and four of them healthy, the leader replicates to two
mentors only and counts three of the four acknowledgements that a commit needs. -/
theorem direct_peers_miss_quorum : ∃ t', sevenNodeLeader.rebalance ["b", "c", "d", "e"] = .ok t' ∧
    quorumSize ["b", "c", "d", "e", "f", "g"] ≤ ["b", "c", "d", "e"].length + 1 ∧
    ¬ quorumSize ["b", "c", "d", "e", "f", "g"] ≤
      1 + (replicationTargets "a" ["b", "c", "d", "e", "f", "g"] t' ∅).length := by
  refine ⟨_, rfl, by decide, ?_⟩
  decide

/-- All six peers healthy: the three mentors and the leader are a quorum of seven. -/
theorem direct_peers_reach_quorum_seven : ∃ t', sevenNodeLeader.rebalance ["b", "c", "d", "e", "f", "g"] = .ok t' ∧
    quorumSize ["b", "c", "d", "e", "f", "g"] ≤
      1 + (replicationTargets "a" ["b", "c", "d", "e", "f", "g"] t' ∅).length := by
  refine ⟨_, rfl, ?_⟩
  refine (direct_peers_reach_quorum_iff sevenNodeLeader _ "a" ["b", "c", "d", "e", "f", "g"]
    ["b", "c", "d", "e", "f", "g"] ∅ (by decide) (by decide) (by decide) (by decide) (by decide)
    (by simp) rfl (by decide)).mpr ?_
  decide

end RaftVdb
