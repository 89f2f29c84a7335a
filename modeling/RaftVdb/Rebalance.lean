import Mathlib.Data.List.Dedup
import RaftVdb.Topology

/-!
# What a rebalance builds

The chain is read off three fields of each node: its role, its upstream and its
health. `shape` is that projection, and every operation that `rebalance` is made
of has one equation for it. The result is `rebalance_shape`: the shape of every
node after a rebalance, as a function of the leader and of the sorted candidates
alone.
-/

namespace RaftVdb

open Lib

structure Shape where
  role : NodeRole
  source : String
  healthy : Bool
  deriving DecidableEq, Repr

def NodeInfo.shape (n : NodeInfo) : Shape := ⟨n.role, n.sourceNodeId, n.healthy⟩

namespace TopologyManager

def shape (t : TopologyManager) (nodeId : String) : Option Shape :=
  (t.nodes.find? nodeId).map NodeInfo.shape

@[simp] theorem leaderId_adjustNode (t : TopologyManager) (id : String) (f : NodeInfo → NodeInfo) :
    (t.adjustNode id f).leaderId = t.leaderId := rfl

@[simp] theorem leaderId_ensureNode (t : TopologyManager) (id : String) :
    (t.ensureNode id).leaderId = t.leaderId := rfl

@[simp] theorem leaderId_ensureLeader (t : TopologyManager) : t.ensureLeader.leaderId = t.leaderId := by
  unfold ensureLeader
  split <;> rfl

@[simp] theorem leaderId_resetNodes (t : TopologyManager) : t.resetNodes.leaderId = t.leaderId := rfl

theorem shape_adjustNode_other (t : TopologyManager) (id x : String) (f : NodeInfo → NodeInfo)
    (h : x ≠ id) : (t.adjustNode id f).shape x = t.shape x := by
  simp [shape, adjustNode, Table.find?_adjust_other _ _ _ _ h]

theorem shape_adjustNode_self (t : TopologyManager) (id : String) (f : NodeInfo → NodeInfo)
    (g : Shape → Shape) (h : ∀ n, (f n).shape = g n.shape) :
    (t.adjustNode id f).shape id = (t.shape id).map g := by
  simp [shape, adjustNode, Option.map_map, Function.comp_def, h]

/-- A node that was unknown starts as a healthy follower without upstream. -/
theorem shape_ensureNode (t : TopologyManager) (id x : String) :
    (t.ensureNode id).shape x =
      if x = id then some ((t.shape id).getD ⟨.follower, "", true⟩) else t.shape x := by
  split
  · next h =>
    subst h
    rw [ensureNode, shape_adjustNode_self _ _ _ (fun s => s) (by intro n; rfl)]
    simp only [shape, Table.find?_tryEmplace, if_true, Option.map_some]
    cases t.nodes.find? x <;> rfl
  · next h =>
    rw [ensureNode, shape_adjustNode_other _ _ _ _ h]
    simp [shape, Table.find?_tryEmplace, h]

theorem shape_ensureLeader (t : TopologyManager) (h : t.leaderId ≠ "") (x : String) :
    t.ensureLeader.shape x = if x = t.leaderId then some ⟨.leader, "", true⟩ else t.shape x := by
  rw [ensureLeader, if_neg h]
  split
  · next hx =>
    subst hx
    simp only [leaderId_ensureNode]
    rw [shape_adjustNode_self _ _ _ (fun _ => ⟨.leader, "", true⟩) (fun n => rfl), shape_ensureNode]
    simp
  · next hx =>
    simp only [leaderId_ensureNode]
    rw [shape_adjustNode_other _ _ _ _ hx, shape_ensureNode, if_neg hx]

theorem shape_resetNodes (t : TopologyManager) (x : String) :
    t.resetNodes.shape x = (t.shape x).map fun _ =>
      if x = t.leaderId then ⟨.leader, "", true⟩ else ⟨.follower, "", false⟩ := by
  simp only [shape, resetNodes, Table.find?_mapValues, Option.map_map, Function.comp_def]
  congr 1
  funext n
  split <;> rfl

theorem shape_bringUp (t : TopologyManager) (id x : String) :
    ((t.ensureNode id).adjustNode id fun n =>
        { n with addr := (t.ensureNode id).resolveAddress id, healthy := true }).shape x =
      if x = id then some { (t.shape id).getD ⟨.follower, "", true⟩ with healthy := true } else t.shape x := by
  split
  · next h =>
    subst h
    rw [shape_adjustNode_self _ _ _ (fun s => { s with healthy := true }) (fun n => rfl),
      shape_ensureNode]
    simp
  · next h => rw [shape_adjustNode_other _ _ _ _ h, shape_ensureNode, if_neg h]

/-- The listed nodes are collected once each, and only they come up. -/
theorem collectCandidates_spec (hs : List String) (t : TopologyManager) (cs : List String)
    (hcs : cs.Nodup) :
    (t.collectCandidates hs cs).1.leaderId = t.leaderId ∧
    (t.collectCandidates hs cs).2.Nodup ∧
    (∀ x, x ∈ (t.collectCandidates hs cs).2 ↔ x ∈ cs ∨ (x ∈ hs ∧ x ≠ "" ∧ x ≠ t.leaderId)) ∧
    (∀ x, (t.collectCandidates hs cs).1.shape x =
      if x ∈ (t.collectCandidates hs cs).2 ∧ x ∉ cs then
        some { (t.shape x).getD ⟨.follower, "", true⟩ with healthy := true }
      else t.shape x) := by
  induction hs generalizing t cs with
  | nil => simp [collectCandidates, hcs]
  | cons id hs ih =>
    rw [collectCandidates]
    by_cases hskip : id = "" ∨ id = t.leaderId ∨ id ∈ cs
    · rw [if_pos hskip]
      obtain ⟨h₁, h₂, h₃, h₄⟩ := ih t cs hcs
      refine ⟨h₁, h₂, fun x => ?_, h₄⟩
      rw [h₃ x]
      constructor
      · rintro (hx | ⟨hx, hne⟩)
        · exact .inl hx
        · exact .inr ⟨List.mem_cons_of_mem _ hx, hne⟩
      · rintro (hx | ⟨hx, he, hl⟩)
        · exact .inl hx
        · rcases List.mem_cons.mp hx with rfl | hx
          · rcases hskip with h | h | h
            · exact absurd h he
            · exact absurd h hl
            · exact .inl h
          · exact .inr ⟨hx, he, hl⟩
    · rw [if_neg hskip]
      simp only [not_or] at hskip
      obtain ⟨hne, hnl, hnc⟩ := hskip
      have hnd : (cs ++ [id]).Nodup := hcs.append (List.nodup_singleton id) (by simpa using hnc)
      obtain ⟨h₁, h₂, h₃, h₄⟩ := ih ((t.ensureNode id).adjustNode id fun n =>
        { n with addr := (t.ensureNode id).resolveAddress id, healthy := true }) (cs ++ [id]) hnd
      simp only [leaderId_adjustNode, leaderId_ensureNode] at h₁ h₃
      refine ⟨h₁, h₂, fun x => ?_, fun x => ?_⟩
      · rw [h₃ x]
        simp only [List.mem_append, List.mem_cons]
        by_cases hx : x = id
        · subst hx
          simp [hne, hnl]
        · simp [hx]
      · rw [h₄ x, shape_bringUp]
        by_cases hx : x = id
        · subst hx
          have hin := (h₃ x).mpr (.inl (by simp))
          simp [hin, hnc]
        · simp [hx]

@[simp] theorem leaderId_assignRoles (mc : Nat) (rest : List String) (t : TopologyManager) (index : Nat)
    (mentors : List String) : (t.assignRoles mc index mentors rest).leaderId = t.leaderId := by
  induction rest generalizing t index mentors with
  | nil => rfl
  | cons y rest ih =>
    rw [assignRoles]
    split <;> rw [ih, leaderId_adjustNode]

theorem shape_assignRoles_other (mc : Nat) (rest : List String) (t : TopologyManager) (index : Nat)
    (mentors : List String) (x : String) (hx : x ∉ rest) :
    (t.assignRoles mc index mentors rest).shape x = t.shape x := by
  induction rest generalizing t index mentors with
  | nil => rfl
  | cons y rest ih =>
    simp only [List.mem_cons, not_or] at hx
    rw [assignRoles]
    split <;> rw [ih _ _ _ hx.2, shape_adjustNode_other _ _ _ _ hx.1]

/-- The candidate at position `index + j` of the sorted list becomes a mentor below
the leader, or the follower of the mentor `mentorCount` places before it. -/
theorem shape_assignRoles (mc : Nat) (rest : List String) (t : TopologyManager) (index : Nat)
    (mentors : List String) (hnd : rest.Nodup) (j : Nat) (x : String) (hj : rest[j]? = some x) :
    (t.assignRoles mc index mentors rest).shape x = (t.shape x).map fun s =>
      if index + j < mc then { s with role := .mentor, source := t.leaderId }
      else { s with
        role := .follower
        source := (mentors ++ rest.take (mc - index)).getD (index + j - mc) "" } := by
  induction rest generalizing t index mentors j with
  | nil => simp at hj
  | cons y rest ih =>
    obtain ⟨hy, hrest⟩ := List.nodup_cons.mp hnd
    rw [assignRoles]
    by_cases hi : index < mc
    · rw [if_pos hi]
      have htake : mentors ++ [y] ++ rest.take (mc - (index + 1)) =
          mentors ++ (y :: rest).take (mc - index) := by
        rw [show mc - index = (mc - (index + 1)) + 1 by omega, List.take_succ_cons, List.append_assoc]
        rfl
      cases j with
      | zero =>
        simp only [List.getElem?_cons_zero, Option.some.injEq] at hj
        subst hj
        rw [shape_assignRoles_other _ _ _ _ _ _ hy,
          shape_adjustNode_self _ _ _ (fun s => { s with role := .mentor, source := t.leaderId })
            (fun n => rfl)]
        simp [hi]
      | succ j =>
        rw [List.getElem?_cons_succ] at hj
        have hxy : x ≠ y := fun he => hy (by rw [← he]; exact List.mem_of_getElem? hj)
        rw [ih _ (index + 1) _ hrest j hj, shape_adjustNode_other _ _ _ _ hxy, htake]
        simp only [leaderId_adjustNode]
        rw [show index + 1 + j = index + (j + 1) by omega]
    · rw [if_neg hi]
      have h₀ : mc - index = 0 := by omega
      have h₁ : mc - (index + 1) = 0 := by omega
      cases j with
      | zero =>
        simp only [List.getElem?_cons_zero, Option.some.injEq] at hj
        subst hj
        rw [shape_assignRoles_other _ _ _ _ _ _ hy,
          shape_adjustNode_self _ _ _ (fun s => { s with
            role := .follower, source := mentors.getD (index - mc) "" }) (fun n => rfl)]
        simp [hi, h₀]
      | succ j =>
        rw [List.getElem?_cons_succ] at hj
        have hxy : x ≠ y := fun he => hy (by rw [← he]; exact List.mem_of_getElem? hj)
        rw [ih _ (index + 1) _ hrest j hj, shape_adjustNode_other _ _ _ _ hxy, h₀, h₁]
        simp only [leaderId_adjustNode, List.take_zero]
        rw [show index + 1 + j = index + (j + 1) by omega]

/-- The leader after a rebalance. -/
def rebalanceLeader (t : TopologyManager) : String := if t.leaderId = "" then t.selfId else t.leaderId

/-- The sorted candidates of a rebalance: they depend on the leader and on the set of listed nodes. -/
def sortedCandidates (leader : String) (hs : List String) : List String :=
  (hs.dedup.filter fun x => x ≠ "" ∧ x ≠ leader).insertionSort (· ≤ ·)

theorem nodup_sortedCandidates (leader : String) (hs : List String) :
    (sortedCandidates leader hs).Nodup :=
  (List.perm_insertionSort _ _).nodup_iff.mpr (hs.nodup_dedup.filter _)

theorem mem_sortedCandidates (leader : String) (hs : List String) (x : String) :
    x ∈ sortedCandidates leader hs ↔ x ∈ hs ∧ x ≠ "" ∧ x ≠ leader := by
  simp [sortedCandidates]

theorem sort_eq_of_mem_iff {l₁ l₂ : List String} (h₁ : l₁.Nodup) (h₂ : l₂.Nodup)
    (h : ∀ x, x ∈ l₁ ↔ x ∈ l₂) : l₁.insertionSort (· ≤ ·) = l₂.insertionSort (· ≤ ·) := by
  have hp : (l₁.insertionSort (· ≤ ·)).Perm (l₂.insertionSort (· ≤ ·)) :=
    ((List.perm_insertionSort _ _).trans ((List.perm_ext_iff_of_nodup h₁ h₂).mpr h)).trans
      (List.perm_insertionSort _ _).symm
  exact hp.eq_of_pairwise (fun a b _ _ hab hba => le_antisymm hab hba)
    (List.pairwise_insertionSort _ _) (List.pairwise_insertionSort _ _)

/-- A rebalance succeeds exactly when it knows a leader or itself. -/
theorem rebalance_eq_ok (t : TopologyManager) (hs : List String) (t' : TopologyManager) :
    t.rebalance hs = .ok t' ↔ t.rebalanceLeader ≠ "" ∧
      t' = ((({ t with leaderId := t.rebalanceLeader }).ensureLeader.resetNodes.collectCandidates hs []).1).assignRoles
        (((sortedCandidates t.rebalanceLeader hs).length + 1) / 2) 0 [] (sortedCandidates t.rebalanceLeader hs) := by
  have hspec := collectCandidates_spec hs
    ({ t with leaderId := t.rebalanceLeader }).ensureLeader.resetNodes [] List.nodup_nil
  obtain ⟨-, hnd, hmem, -⟩ := hspec
  simp only [leaderId_resetNodes, leaderId_ensureLeader, List.not_mem_nil, false_or] at hmem
  have hsort : (({ t with leaderId := t.rebalanceLeader }).ensureLeader.resetNodes.collectCandidates hs
      []).2.insertionSort (· ≤ ·) = sortedCandidates t.rebalanceLeader hs := by
    refine sort_eq_of_mem_iff hnd (hs.nodup_dedup.filter _) fun x => ?_
    rw [hmem x]
    simp
  by_cases hl : t.leaderId = "" ∧ t.selfId = ""
  · simp [rebalance, rebalanceLeader, hl]
  · have hne : t.rebalanceLeader ≠ "" := by
      unfold rebalanceLeader
      split
      · next h => exact fun hs => hl ⟨h, hs⟩
      · next h => exact h
    rw [rebalance, if_neg hl]
    rw [rebalanceLeader] at hsort
    simp only [hsort, rebalanceLeader] at hne ⊢
    simp only [Except.ok.injEq, ne_eq, hne, not_false_eq_true, true_and]
    exact eq_comm

@[simp] theorem leaderId_rebalance {t t' : TopologyManager} {hs : List String}
    (h : t.rebalance hs = .ok t') : t'.leaderId = t.rebalanceLeader := by
  obtain ⟨-, rfl⟩ := (rebalance_eq_ok t hs t').mp h
  rw [leaderId_assignRoles]
  have := (collectCandidates_spec hs
    ({ t with leaderId := t.rebalanceLeader }).ensureLeader.resetNodes [] List.nodup_nil).1
  rw [this, leaderId_resetNodes, leaderId_ensureLeader]

/-- The shape of every node after a rebalance, whatever the topology was before. -/
theorem rebalance_shape {t t' : TopologyManager} {hs : List String} (h : t.rebalance hs = .ok t') :
    let leader := t.rebalanceLeader
    let cs := sortedCandidates leader hs
    let mc := (cs.length + 1) / 2
    t'.shape leader = some ⟨.leader, "", true⟩ ∧
    (∀ j x, cs[j]? = some x → t'.shape x = some (if j < mc then ⟨.mentor, leader, true⟩
      else ⟨.follower, cs.getD (j - mc) "", true⟩)) ∧
    (∀ x, x ≠ leader → x ∉ cs → t'.shape x = (t.shape x).map fun _ => ⟨.follower, "", false⟩) := by
  obtain ⟨hne, rfl⟩ := (rebalance_eq_ok t hs t').mp h
  obtain ⟨hlead, -, hmem, hshape⟩ := collectCandidates_spec hs
    ({ t with leaderId := t.rebalanceLeader }).ensureLeader.resetNodes [] List.nodup_nil
  simp only [leaderId_resetNodes, leaderId_ensureLeader, List.not_mem_nil, false_or,
    not_false_eq_true, and_true] at hlead hmem hshape
  have hbase : ∀ x, ({ t with leaderId := t.rebalanceLeader }).ensureLeader.resetNodes.shape x =
      if x = t.rebalanceLeader then some ⟨.leader, "", true⟩
      else (t.shape x).map fun _ => ⟨.follower, "", false⟩ := by
    intro x
    rw [shape_resetNodes, shape_ensureLeader _ hne, leaderId_ensureLeader]
    by_cases hx : x = t.rebalanceLeader
    · simp [hx]
    · simp only [hx, if_false]
      rfl
  have hin : ∀ x, x ∈ (({ t with leaderId := t.rebalanceLeader }).ensureLeader.resetNodes.collectCandidates
      hs []).2 ↔ x ∈ sortedCandidates t.rebalanceLeader hs := by
    intro x
    rw [hmem, mem_sortedCandidates]
  refine ⟨?_, fun j x hj => ?_, fun x hx hxc => ?_⟩
  · have hnot : t.rebalanceLeader ∉ sortedCandidates t.rebalanceLeader hs := by
      simp [mem_sortedCandidates]
    rw [shape_assignRoles_other _ _ _ _ _ _ hnot, hshape, if_neg (by rw [hin]; exact hnot), hbase]
    simp
  · have hxc := List.mem_of_getElem? hj
    have hxl := ((mem_sortedCandidates _ _ _).mp hxc).2.2
    rw [shape_assignRoles _ _ _ _ _ (nodup_sortedCandidates _ _) j x hj, hshape, if_pos ((hin x).mpr hxc),
      hbase, if_neg hxl, hlead]
    simp only [Nat.zero_add, Nat.sub_zero, List.nil_append, Option.map_some, Option.some.injEq]
    have hlen : j < (sortedCandidates t.rebalanceLeader hs).length :=
      (List.getElem?_eq_some_iff.mp hj).1
    split
    · rfl
    · next hm =>
      congr 1
      simp only [List.getD_eq_getElem?_getD]
      rw [List.getElem?_take_of_lt (by omega)]
  · rw [shape_assignRoles_other _ _ _ _ _ _ hxc, hshape, if_neg (by rw [hin]; exact hxc), hbase, if_neg hx]

end TopologyManager

end RaftVdb
