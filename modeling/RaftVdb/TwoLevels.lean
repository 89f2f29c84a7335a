import Mathlib.Data.Finset.Card
import Mathlib.Data.List.GetD
import RaftVdb.Rebalance

/-!
# The two levels of a rebalance

A rebalance puts half of the listed nodes, rounded up, directly below the leader and
gives every other listed node a mentor of its own. `assignRolesAt` is the last loop
with its lookups made visible: it stops where a candidate has no row or where the
index into the mentor list runs past its end.
-/

namespace RaftVdb.TopologyManager

open Lib

/-- The last loop of `rebalance` with lookups that can fail. -/
def assignRolesAt (t : TopologyManager) (mentorCount : Nat) :
    Nat → List String → List String → Option TopologyManager
  | _, _, [] => some t
  | index, mentors, nodeId :: rest =>
    if t.nodes.contains nodeId = false then none
    else if index < mentorCount then
      (t.adjustNode nodeId fun n => { n with role := .mentor, sourceNodeId := t.leaderId }).assignRolesAt
        mentorCount (index + 1) (mentors ++ [nodeId]) rest
    else match mentors[index - mentorCount]? with
      | none => none
      | some mentor =>
        (t.adjustNode nodeId fun n => { n with role := .follower, sourceNodeId := mentor }).assignRolesAt
          mentorCount (index + 1) mentors rest

def rebalanceAt (t : TopologyManager) (healthyNodes : List String) : Option TopologyManager :=
  let t := { t with leaderId := if t.leaderId = "" then t.selfId else t.leaderId }
  let t := t.ensureLeader.resetNodes
  let (t, candidates) := t.collectCandidates healthyNodes []
  let sorted := candidates.insertionSort (· ≤ ·)
  t.assignRolesAt ((sorted.length + 1) / 2) 0 [] sorted

/-- The ids that a rebalance places below the leader. -/
def listed (leader : String) (healthyNodes : List String) : Finset String :=
  healthyNodes.toFinset.filter fun x => x ≠ "" ∧ x ≠ leader

/-- A chain of two levels below the leader, made of the given nodes. -/
structure TwoLevels (t : TopologyManager) (ids : Finset String) : Prop where
  root : t.shape t.leaderId = some ⟨.leader, "", true⟩
  healthy : ∀ x, (∃ n, t.getNode x = some n ∧ n.healthy = true) ↔ x = t.leaderId ∨ x ∈ ids
  mentors : (ids.filter fun x => t.getRole x = .mentor).card = (ids.card + 1) / 2
  followers : (ids.filter fun x => t.getRole x = .follower).card = ids.card / 2
  mentor_source : ∀ x ∈ ids, t.getRole x = .mentor → t.getSource x = t.leaderId
  follower_source : ∀ x ∈ ids, t.getRole x = .follower →
    t.getSource x ∈ ids ∧ t.getRole (t.getSource x) = .mentor
  distinct : ∀ x ∈ ids, ∀ y ∈ ids, t.getRole x = .follower → t.getRole y = .follower →
    t.getSource x = t.getSource y → x = y
  others : ∀ x n, t.getNode x = some n → x ≠ t.leaderId → x ∉ ids →
    n.role = .follower ∧ n.sourceNodeId = "" ∧ n.healthy = false

variable {t t' u u' : TopologyManager} {hs : List String}

theorem getRole_eq_shape (t : TopologyManager) (x : String) :
    t.getRole x = ((t.shape x).map Shape.role).getD .follower := by
  simp [getRole, shape, Option.map_map, Function.comp_def, NodeInfo.shape]

theorem getSource_eq_shape (t : TopologyManager) (x : String) :
    t.getSource x = ((t.shape x).map Shape.source).getD "" := by
  simp [getSource, shape, Option.map_map, Function.comp_def, NodeInfo.shape]

theorem contains_iff_shape (t : TopologyManager) (x : String) :
    t.nodes.contains x = false ↔ t.shape x = none := by
  simp [Table.contains, shape]

theorem mem_listed (leader : String) (hs : List String) (x : String) :
    x ∈ listed leader hs ↔ x ∈ sortedCandidates leader hs := by
  simp [listed, mem_sortedCandidates]

theorem listed_eq (leader : String) (hs : List String) :
    listed leader hs = (sortedCandidates leader hs).toFinset := by
  ext x
  rw [mem_listed, List.mem_toFinset]

theorem card_listed (leader : String) (hs : List String) :
    (listed leader hs).card = (sortedCandidates leader hs).length := by
  rw [listed_eq, List.toFinset_card_of_nodup (nodup_sortedCandidates leader hs)]

theorem sortedCandidates_congr (leader : String) {hs hs' : List String} (h : ∀ x, x ∈ hs ↔ x ∈ hs') :
    sortedCandidates leader hs = sortedCandidates leader hs' := by
  refine sort_eq_of_mem_iff (hs.nodup_dedup.filter _) (hs'.nodup_dedup.filter _) fun x => ?_
  simp [h]

/-- No lookup of the last loop fails: every candidate has a row, and the mentors collected
so far cover the followers still to come. -/
theorem assignRolesAt_eq (mc : Nat) (rest : List String) (t : TopologyManager) (index : Nat)
    (mentors : List String) (hrows : ∀ x ∈ rest, t.shape x ≠ none) (hlen : mentors.length = min index mc)
    (htotal : index + rest.length ≤ 2 * mc) :
    t.assignRolesAt mc index mentors rest = some (t.assignRoles mc index mentors rest) := by
  induction rest generalizing t index mentors with
  | nil => rfl
  | cons y rest ih =>
    have hy : ¬ t.nodes.contains y = false := fun hnone =>
      hrows y (List.mem_cons_self ..) ((contains_iff_shape t y).mp hnone)
    have hkept : ∀ f : NodeInfo → NodeInfo, ∀ x ∈ rest, (t.adjustNode y f).shape x ≠ none := by
      intro f x hx
      have hold := hrows x (List.mem_cons_of_mem _ hx)
      by_cases hxy : x = y
      · subst hxy
        simpa [shape, adjustNode] using hold
      · rwa [shape_adjustNode_other _ _ _ _ hxy]
    rw [List.length_cons] at htotal
    rw [assignRolesAt, assignRoles, if_neg hy]
    by_cases hi : index < mc
    · rw [if_pos hi, if_pos hi]
      refine ih _ _ _ (hkept _) ?_ (by omega)
      rw [List.length_append, List.length_singleton]
      omega
    · have hin : index - mc < mentors.length := by omega
      rw [if_neg hi, if_neg hi, List.getElem?_eq_getElem hin, List.getD_eq_getElem _ _ hin]
      exact ih _ _ _ (hkept _) (by omega) (by omega)

/-- Every index that a rebalance uses is in range. -/
theorem rebalanceAt_eq (h : t.rebalance hs = .ok t') : t.rebalanceAt hs = some t' := by
  have hspec := collectCandidates_spec hs
    ({ t with leaderId := t.rebalanceLeader }).ensureLeader.resetNodes [] List.nodup_nil
  obtain ⟨-, -, -, hshape⟩ := hspec
  rw [rebalance] at h
  split at h
  · cases h
  · rw [← Except.ok.inj h]
    refine assignRolesAt_eq _ _ _ _ _ (fun x hx => ?_) rfl (by omega)
    rw [List.mem_insertionSort] at hx
    have hnew := hshape x
    rw [rebalanceLeader] at hnew
    rw [hnew, if_pos ⟨hx, List.not_mem_nil⟩]
    simp

/-- The row of a node after a rebalance, given its place among the candidates. -/
theorem shape_of_place (h : t.rebalance hs = .ok t') {j : Nat} {x : String}
    (hj : (sortedCandidates t.rebalanceLeader hs)[j]? = some x) :
    (j < ((sortedCandidates t.rebalanceLeader hs).length + 1) / 2 ∧
      t'.shape x = some ⟨.mentor, t.rebalanceLeader, true⟩) ∨
    (∃ m, ((sortedCandidates t.rebalanceLeader hs).length + 1) / 2 ≤ j ∧
      (sortedCandidates t.rebalanceLeader hs)[j - ((sortedCandidates t.rebalanceLeader hs).length + 1) / 2]? =
        some m ∧ t'.shape x = some ⟨.follower, m, true⟩) := by
  obtain ⟨-, hat, -⟩ := rebalance_shape h
  have hx := hat j x hj
  by_cases hlt : j < ((sortedCandidates t.rebalanceLeader hs).length + 1) / 2
  · rw [if_pos hlt] at hx
    exact .inl ⟨hlt, hx⟩
  · rw [if_neg hlt] at hx
    have hlen := (List.getElem?_eq_some_iff.mp hj).1
    refine .inr ⟨_, by omega, List.getElem?_eq_getElem (by omega), ?_⟩
    rw [hx, List.getD_eq_getElem _ _ (by omega)]

theorem role_mentor_iff (h : t.rebalance hs = .ok t') {x : String}
    (hx : x ∈ sortedCandidates t.rebalanceLeader hs) :
    t'.getRole x = .mentor ↔ x ∈ (sortedCandidates t.rebalanceLeader hs).take
      (((sortedCandidates t.rebalanceLeader hs).length + 1) / 2) := by
  have hnd := nodup_sortedCandidates t.rebalanceLeader hs
  generalize hcs : sortedCandidates t.rebalanceLeader hs = cs at hx hnd ⊢
  obtain ⟨j, hj⟩ := List.getElem?_of_mem hx
  rw [List.mem_take_iff_getElem]
  rw [getRole_eq_shape]
  rcases shape_of_place h (hcs ▸ hj) with ⟨hlt, hshape⟩ | ⟨m, hle, -, hshape⟩
  · rw [hcs] at hlt
    obtain ⟨hlen, heq⟩ := List.getElem?_eq_some_iff.mp hj
    simp only [hshape, Option.map_some, Option.getD_some, true_iff]
    exact ⟨j, by omega, heq⟩
  · rw [hcs] at hle
    simp only [hshape, Option.map_some, Option.getD_some, reduceCtorEq, false_iff]
    rintro ⟨i, hi, heq⟩
    obtain ⟨hlen, hxj⟩ := List.getElem?_eq_some_iff.mp hj
    have hij : i = j := (List.Nodup.getElem_inj_iff hnd).mp (heq.trans hxj.symm)
    omega

theorem role_follower_iff (h : t.rebalance hs = .ok t') {x : String}
    (hx : x ∈ sortedCandidates t.rebalanceLeader hs) :
    t'.getRole x = .follower ↔ t'.getRole x ≠ .mentor := by
  obtain ⟨j, hj⟩ := List.getElem?_of_mem hx
  rw [getRole_eq_shape]
  rcases shape_of_place h hj with ⟨-, hshape⟩ | ⟨m, -, -, hshape⟩ <;> simp [hshape]

/-- Half of the listed nodes, rounded up, are mentors. -/
theorem card_mentors (h : t.rebalance hs = .ok t') :
    ((listed t.rebalanceLeader hs).filter fun x => t'.getRole x = .mentor).card =
      ((listed t.rebalanceLeader hs).card + 1) / 2 := by
  have hset : ((listed t.rebalanceLeader hs).filter fun x => t'.getRole x = .mentor) =
      ((sortedCandidates t.rebalanceLeader hs).take
        (((sortedCandidates t.rebalanceLeader hs).length + 1) / 2)).toFinset := by
    ext x
    rw [Finset.mem_filter, mem_listed, List.mem_toFinset]
    constructor
    · rintro ⟨hx, hrole⟩
      exact (role_mentor_iff h hx).mp hrole
    · intro hx
      exact ⟨List.mem_of_mem_take hx, (role_mentor_iff h (List.mem_of_mem_take hx)).mpr hx⟩
  have hnd := (nodup_sortedCandidates t.rebalanceLeader hs).sublist (List.take_sublist
    (((sortedCandidates t.rebalanceLeader hs).length + 1) / 2) _)
  rw [hset, List.toFinset_card_of_nodup hnd, List.length_take, card_listed]
  omega

theorem card_followers (h : t.rebalance hs = .ok t') :
    ((listed t.rebalanceLeader hs).filter fun x => t'.getRole x = .follower).card =
      (listed t.rebalanceLeader hs).card / 2 := by
  have hsplit := Finset.card_filter_add_card_filter_not (s := listed t.rebalanceLeader hs)
    fun x => t'.getRole x = .mentor
  have hset : ((listed t.rebalanceLeader hs).filter fun x => t'.getRole x = .follower) =
      (listed t.rebalanceLeader hs).filter fun x => ¬ t'.getRole x = .mentor := by
    refine Finset.filter_congr fun x hx => ?_
    exact role_follower_iff h ((mem_listed _ _ _).mp hx)
  rw [card_mentors h] at hsplit
  rw [hset]
  omega

theorem exists_healthy_iff (t : TopologyManager) (x : String) :
    (∃ n, t.getNode x = some n ∧ n.healthy = true) ↔ (t.shape x).any Shape.healthy = true := by
  simp [getNode, shape, NodeInfo.shape, Option.any_eq_true]

theorem rebalance_twoLevels (h : t.rebalance hs = .ok t') : t'.TwoLevels (listed t.rebalanceLeader hs) := by
  obtain ⟨hroot, -, hrest⟩ := rebalance_shape h
  have hlead := leaderId_rebalance h
  have hplace : ∀ x ∈ listed t.rebalanceLeader hs,
      ∃ j, (sortedCandidates t.rebalanceLeader hs)[j]? = some x := fun x hx =>
    List.getElem?_of_mem ((mem_listed _ _ _).mp hx)
  have hnd := nodup_sortedCandidates t.rebalanceLeader hs
  refine ⟨?_, fun x => ?_, card_mentors h, card_followers h, fun x hx hrole => ?_, fun x hx hrole => ?_,
    fun x hx y hy hrx hry heq => ?_, fun x n hn hxl hx => ?_⟩
  · rw [hlead]
    exact hroot
  · rw [exists_healthy_iff, hlead]
    by_cases hxl : x = t.rebalanceLeader
    · simp [hxl, hroot]
    · by_cases hx : x ∈ listed t.rebalanceLeader hs
      · obtain ⟨j, hj⟩ := hplace x hx
        rcases shape_of_place h hj with ⟨-, hshape⟩ | ⟨m, -, -, hshape⟩ <;> simp [hshape, hx]
      · rw [hrest x hxl fun hin => hx ((mem_listed _ _ _).mpr hin)]
        cases t.shape x <;> simp [hxl, hx]
  · obtain ⟨j, hj⟩ := hplace x hx
    rw [getRole_eq_shape] at hrole
    rw [getSource_eq_shape, hlead]
    rcases shape_of_place h hj with ⟨-, hshape⟩ | ⟨m, -, -, hshape⟩
    · simp [hshape]
    · simp [hshape] at hrole
  · obtain ⟨j, hj⟩ := hplace x hx
    rw [getRole_eq_shape] at hrole
    rw [getSource_eq_shape]
    rcases shape_of_place h hj with ⟨-, hshape⟩ | ⟨m, hle, hm, hshape⟩
    · simp [hshape] at hrole
    · have hmem := List.mem_of_getElem? hm
      have hlen := (List.getElem?_eq_some_iff.mp hj).1
      simp only [hshape, Option.map_some, Option.getD_some]
      refine ⟨(mem_listed _ _ _).mpr hmem, (role_mentor_iff h hmem).mpr ?_⟩
      obtain ⟨hin, hget⟩ := List.getElem?_eq_some_iff.mp hm
      exact List.mem_take_iff_getElem.mpr ⟨_, by omega, hget⟩
  · obtain ⟨i, hi⟩ := hplace x hx
    obtain ⟨j, hj⟩ := hplace y hy
    rw [getRole_eq_shape] at hrx hry
    rw [getSource_eq_shape, getSource_eq_shape] at heq
    rcases shape_of_place h hi with ⟨-, hsx⟩ | ⟨mx, hlx, hmx, hsx⟩
    · simp [hsx] at hrx
    rcases shape_of_place h hj with ⟨-, hsy⟩ | ⟨my, hly, hmy, hsy⟩
    · simp [hsy] at hry
    simp only [hsx, hsy, Option.map_some, Option.getD_some] at heq
    subst heq
    have hin := (List.getElem?_eq_some_iff.mp hmx).1
    have hij := (List.getElem?_inj hin hnd).mp (hmx.trans hmy.symm)
    have heq : i = j := by omega
    rw [heq] at hi
    exact Option.some.inj (hi.symm.trans hj)
  · have hshape := hrest x (hlead ▸ hxl) fun hin => hx ((mem_listed _ _ _).mpr hin)
    rw [shape, show t'.nodes.find? x = some n from hn, Option.map_some] at hshape
    cases hold : t.shape x with
    | none => simp [hold] at hshape
    | some s => simpa [hold, NodeInfo.shape] using hshape

/-- Roles and sources after a rebalance depend on the leader and on the set of listed nodes. -/
theorem rebalance_order_free (h : t.rebalance hs = .ok t') {hs' : List String} (hu : u.rebalance hs' = .ok u')
    (hlead : u.rebalanceLeader = t.rebalanceLeader) (hsame : ∀ x, x ∈ hs' ↔ x ∈ hs) (x : String) :
    u'.getRole x = t'.getRole x ∧ u'.getSource x = t'.getSource x := by
  obtain ⟨hroot, hat, hrest⟩ := rebalance_shape h
  obtain ⟨hroot', hat', hrest'⟩ := rebalance_shape hu
  rw [hlead, sortedCandidates_congr t.rebalanceLeader hsame] at hat' hrest'
  rw [hlead] at hroot'
  rw [getRole_eq_shape, getRole_eq_shape, getSource_eq_shape, getSource_eq_shape]
  by_cases hxl : x = t.rebalanceLeader
  · rw [hxl, hroot, hroot']
    exact ⟨rfl, rfl⟩
  · by_cases hx : x ∈ sortedCandidates t.rebalanceLeader hs
    · obtain ⟨j, hj⟩ := List.getElem?_of_mem hx
      rw [hat j x hj, hat' j x hj]
      exact ⟨rfl, rfl⟩
    · rw [hrest x hxl hx, hrest' x hxl hx]
      cases t.shape x <;> cases u.shape x <;> exact ⟨rfl, rfl⟩

theorem rebalance_ok (hknown : t.rebalanceLeader ≠ "") (hs : List String) : ∃ t', t.rebalance hs = .ok t' :=
  ⟨_, (rebalance_eq_ok t hs _).mpr ⟨hknown, rfl⟩⟩

/-- A rebalance of any topology builds the two levels for any list of healthy nodes, with
every index in range, and lists with the same ids lead to the same chain. -/
theorem rebalance_builds_two_levels (t : TopologyManager) (hs : List String)
    (hknown : t.leaderId ≠ "" ∨ t.selfId ≠ "") :
    ∃ t', t.rebalance hs = .ok t' ∧ t.rebalanceAt hs = some t' ∧
      t'.leaderId = (if t.leaderId = "" then t.selfId else t.leaderId) ∧
      t'.TwoLevels (listed t'.leaderId hs) ∧
      ∀ (u : TopologyManager) (hs' : List String),
        (if u.leaderId = "" then u.selfId else u.leaderId) = t'.leaderId → (∀ x, x ∈ hs' ↔ x ∈ hs) →
        ∃ u', u.rebalance hs' = .ok u' ∧
          ∀ x, u'.getRole x = t'.getRole x ∧ u'.getSource x = t'.getSource x := by
  have hne : t.rebalanceLeader ≠ "" := by
    rw [rebalanceLeader]
    split
    · next hempty => exact hknown.resolve_left fun h => h hempty
    · assumption
  obtain ⟨t', h⟩ := rebalance_ok hne hs
  have hlead := leaderId_rebalance h
  refine ⟨t', h, rebalanceAt_eq h, hlead, hlead ▸ rebalance_twoLevels h, fun u hs' hu hsame => ?_⟩
  rw [hlead] at hu
  obtain ⟨u', hu'⟩ := rebalance_ok (t := u) (by rwa [rebalanceLeader, hu]) hs'
  exact ⟨u', hu', rebalance_order_free h hu' hu hsame⟩

/-- Five ids in another order, one twice, with the empty id and the leader among them. -/
theorem rebalance_builds_two_levels_of_five :
    ∃ t' u', ((create "a" "a").setLeader "a").rebalance ["e", "", "c", "a", "b", "c", "d"] = .ok t' ∧
      ((create "a" "a").setLeader "a").rebalance ["b", "c", "d", "e", "", "a"] = .ok u' ∧
      t'.TwoLevels {"b", "c", "d", "e"} ∧
      ∀ x, u'.getRole x = t'.getRole x ∧ u'.getSource x = t'.getSource x := by
  obtain ⟨t', h, -, hlead, hlevels, hfree⟩ := rebalance_builds_two_levels ((create "a" "a").setLeader "a")
    ["e", "", "c", "a", "b", "c", "d"] (.inl (by decide))
  have ha : t'.leaderId = "a" := hlead.trans rfl
  obtain ⟨u', hu, hsame⟩ := hfree ((create "a" "a").setLeader "a") ["b", "c", "d", "e", "", "a"]
    (ha.symm ▸ rfl) fun x => by
      simp only [List.mem_cons, List.not_mem_nil, or_false]
      tauto
  refine ⟨t', u', h, hu, ?_, hsame⟩
  rw [ha] at hlevels
  have hids : listed "a" ["e", "", "c", "a", "b", "c", "d"] = {"b", "c", "d", "e"} := by decide
  exact hids ▸ hlevels

end RaftVdb.TopologyManager
