import RaftVdb.ChainQuorum
import RaftVdb.Lib.Transition

/-!
# The chain keeps its shape

Below the leader a known node is a mentor, a healthy follower of the leader or of a
mentor, or it is down. A mutator may leave some healthy followers without a proper
source for a while; `Chained` allows for that with a set of loose nodes, and the
reassignment of orphans empties the set one node at a time.
-/

namespace RaftVdb.TopologyManager

open Lib

/-- `x` is a healthy follower whose log comes from `m`. -/
def Follows (t : TopologyManager) (x m : String) : Prop := t.shape x = some ⟨.follower, m, true⟩

def Mentors (t : TopologyManager) (m : String) : Prop := t.shape m = some ⟨.mentor, t.leaderId, true⟩

def Down (t : TopologyManager) (x : String) : Prop := t.shape x = some ⟨.follower, "", false⟩

structure Chained (t : TopologyManager) (loose : String → Prop) : Prop where
  leader : t.leaderId ≠ ""
  root : t.shape t.leaderId = some ⟨.leader, "", true⟩
  member : ∀ x, x ≠ t.leaderId → t.shape x = none ∨ t.Mentors x ∨ t.Down x ∨
    ∃ m, t.Follows x m ∧ (loose x ∨ m = t.leaderId ∨ t.Mentors m)
  single : ∀ m x y, t.Mentors m → t.Follows x m → t.Follows y m → x = y
  named : t.shape "" = none ∨ t.Down ""

variable {t t' : TopologyManager} {loose : String → Prop}

theorem Follows.source_unique {x m m' : String} (h : t.Follows x m) (h' : t.Follows x m') : m = m' := by
  have heq := h.symm.trans h'
  simpa using heq

theorem Follows.not_mentors {x m : String} (h : t.Follows x m) : ¬ t.Mentors x := by
  intro hm
  have heq := h.symm.trans hm
  simp at heq

theorem Chained.follows_ne_leader (h : t.Chained loose) {x m : String} (hx : t.Follows x m) : x ≠ t.leaderId := by
  intro heq
  have hroot := h.root
  rw [← heq, hx] at hroot
  simp at hroot

theorem Chained.mentors_ne_leader (h : t.Chained loose) {m : String} (hm : t.Mentors m) : m ≠ t.leaderId := by
  intro heq
  have hroot := h.root
  rw [← heq, hm] at hroot
  simp at hroot

theorem Chained.mentors_ne_empty (h : t.Chained loose) {m : String} (hm : t.Mentors m) : m ≠ "" := by
  rintro rfl
  rcases h.named with hnone | hdown
  · rw [Mentors, hnone] at hm
    cases hm
  · have heq := hm.symm.trans hdown
    simp at heq

theorem Chained.follows_ne_empty (h : t.Chained loose) {x m : String} (hx : t.Follows x m) : x ≠ "" := by
  rintro rfl
  rcases h.named with hnone | hdown
  · rw [Follows, hnone] at hx
    cases hx
  · have heq := hx.symm.trans hdown
    simp at heq

/-- A healthy follower that is not loose has the leader or a mentor above it. -/
theorem Chained.source (h : t.Chained loose) {x m : String} (hx : t.Follows x m) (hl : ¬ loose x) :
    m = t.leaderId ∨ t.Mentors m := by
  rcases h.member x (h.follows_ne_leader hx) with hnone | hmentor | hdown | ⟨m', hm', hsource⟩
  · rw [hx] at hnone
    cases hnone
  · exact absurd hmentor hx.not_mentors
  · have heq := hx.symm.trans hdown
    simp at heq
  · rw [hx.source_unique hm']
    exact hsource.resolve_left hl

/-- Only the roles, sources and healths count. -/
theorem Chained.congr (h : t.Chained loose) (hleader : t'.leaderId = t.leaderId)
    (hshape : ∀ x, t'.shape x = t.shape x) : t'.Chained loose := by
  have hmentors : ∀ m, t'.Mentors m ↔ t.Mentors m := fun m => by rw [Mentors, Mentors, hshape, hleader]
  have hfollows : ∀ x m, t'.Follows x m ↔ t.Follows x m := fun x m => by rw [Follows, Follows, hshape]
  refine ⟨?_, ?_, ?_, ?_, ?_⟩
  · rw [hleader]
    exact h.leader
  · rw [hleader, hshape]
    exact h.root
  · intro x hx
    rw [hleader] at hx
    have hx := h.member x hx
    simp only [hmentors, hfollows, Down, hshape, hleader]
    exact hx
  · intro m x y hm hx hy
    exact h.single m x y ((hmentors m).mp hm) ((hfollows x m).mp hx) ((hfollows y m).mp hy)
  · rw [Down, hshape]
    exact h.named

/-- A loose follower that has a source is loose no more. -/
theorem Chained.tighten {loose' : String → Prop} (h : t.Chained loose)
    (hsource : ∀ x m, t.Follows x m → loose x → ¬ loose' x → m = t.leaderId ∨ t.Mentors m) : t.Chained loose' := by
  refine ⟨h.leader, h.root, fun x hx => ?_, h.single, h.named⟩
  rcases h.member x hx with hnone | hmentor | hdown | ⟨m, hm, hloose | hok⟩
  · exact .inl hnone
  · exact .inr (.inl hmentor)
  · exact .inr (.inr (.inl hdown))
  · refine .inr (.inr (.inr ⟨m, hm, ?_⟩))
    by_cases hl : loose' x
    · exact .inl hl
    · exact .inr (hsource x m hm hloose hl)
  · exact .inr (.inr (.inr ⟨m, hm, .inr hok⟩))

/-- One node changes. Its own followers lose their source, unless it stays a mentor. -/
theorem Chained.replace {x : String} {s : Shape} (h : t.Chained fun _ => False) (hx : x ≠ t.leaderId) (hne : x ≠ "")
    (hself : t'.shape x = some s) (hother : ∀ y, y ≠ x → t'.shape y = t.shape y)
    (hleader : t'.leaderId = t.leaderId)
    (hs : s = ⟨.mentor, t.leaderId, true⟩ ∨ s = ⟨.follower, "", false⟩ ∨
      ∃ m, s = ⟨.follower, m, true⟩ ∧ (t.Mentors m → t.Follows x m)) :
    t'.Chained fun y => y = x ∨ t.Follows y x := by
  have hmentors : ∀ m, m ≠ x → (t'.Mentors m ↔ t.Mentors m) := fun m hm => by
    rw [Mentors, Mentors, hother m hm, hleader]
  have hfollows : ∀ y m, y ≠ x → (t'.Follows y m ↔ t.Follows y m) := fun y m hy => by
    rw [Follows, Follows, hother y hy]
  have hback : ∀ y m, t.Mentors m → t'.Follows y m → t.Follows y m := by
    intro y m hm hy
    by_cases hyx : y = x
    · subst hyx
      rw [Follows, hself] at hy
      cases hy
      rcases hs with hs | hs | ⟨m', hs, hold⟩
      · simp at hs
      · simp at hs
      · cases hs
        exact hold hm
    · exact (hfollows y m hyx).mp hy
  refine ⟨?_, ?_, fun y hy => ?_, fun m y z hm hy hz => ?_, ?_⟩
  · rw [hleader]
    exact h.leader
  · rw [hleader, hother _ (Ne.symm hx)]
    exact h.root
  · rw [hleader] at hy
    by_cases hyx : y = x
    · subst hyx
      rcases hs with hs | hs | ⟨m, hs, -⟩
      · exact .inr (.inl (by rw [Mentors, hself, hs, hleader]))
      · exact .inr (.inr (.inl (by rw [Down, hself, hs])))
      · exact .inr (.inr (.inr ⟨m, by rw [Follows, hself, hs], .inl (.inl rfl)⟩))
    · rcases h.member y hy with hnone | hmentor | hdown | ⟨m, hm, hsource⟩
      · exact .inl ((hother y hyx).trans hnone)
      · exact .inr (.inl ((hmentors y hyx).mpr hmentor))
      · exact .inr (.inr (.inl ((hother y hyx).trans hdown)))
      · refine .inr (.inr (.inr ⟨m, (hfollows y m hyx).mpr hm, ?_⟩))
        by_cases hmx : m = x
        · subst hmx
          exact .inl (.inr hm)
        · rw [hmentors m hmx, hleader]
          exact .inr (hsource.resolve_left id)
  · by_cases hmx : m = x
    · subst hmx
      have hnot : ∀ y, t'.Follows y m → t.Follows y m := fun y hy =>
        (hfollows y m (fun heq => (heq ▸ hy).not_mentors hm)).mp hy
      have hm' : t.Mentors m := (h.source (hnot y hy) id).resolve_left hx
      exact h.single m y z hm' (hnot y hy) (hnot z hz)
    · have hm' := (hmentors m hmx).mp hm
      exact h.single m y z hm' (hback y m hm' hy) (hback z m hm' hz)
  · rw [Down, hother "" (Ne.symm hne)]
    exact h.named

/-! ## The search for a source -/

theorem find_follower_some {m x : String} (h : t.findFollowerIdOf m = some x) : t.Follows x m := by
  unfold findFollowerIdOf at h
  obtain ⟨r, hr, rfl⟩ := Option.map_eq_some_iff.mp h
  have hmem := List.mem_of_find?_eq_some hr
  have hp := List.find?_some hr
  simp only [Bool.and_eq_true, decide_eq_true_eq] at hp
  obtain ⟨⟨hhealthy, hrole⟩, hsource⟩ := hp
  rw [Follows, shape, (Table.find?_eq_some t.nodes r.1 r.2).mpr hmem, Option.map_some, NodeInfo.shape, hrole,
    hsource, hhealthy]

theorem find_follower_none {m : String} (h : t.findFollowerIdOf m = none) (x : String) : ¬ t.Follows x m := by
  intro hx
  obtain ⟨n, hn, hshape⟩ := Option.map_eq_some_iff.mp hx
  unfold findFollowerIdOf at h
  rw [Option.map_eq_none_iff, List.find?_eq_none] at h
  have hnot := h (x, n) ((Table.find?_eq_some t.nodes x n).mp hn)
  simp only [NodeInfo.shape, Shape.mk.injEq] at hshape
  simp [hshape] at hnot

/-- The search for the follower of a mentor finds the only one there is. -/
theorem Chained.find_follower (h : t.Chained loose) {m x : String} (hm : t.Mentors m) (hx : t.Follows x m) :
    t.findFollowerIdOf m = some x := by
  cases hfind : t.findFollowerIdOf m with
  | none => exact absurd hx (find_follower_none hfind x)
  | some y => rw [h.single m y x hm (find_follower_some hfind) hx]

theorem mem_sortedMentorIds {m : String} (h : m ∈ t.sortedMentorIds) :
    ∃ source, t.shape m = some ⟨.mentor, source, true⟩ := by
  rw [sortedMentorIds, List.mem_insertionSort] at h
  obtain ⟨r, hr, rfl⟩ := List.mem_map.mp h
  obtain ⟨hmem, hp⟩ := List.mem_filter.mp hr
  simp only [Bool.and_eq_true, decide_eq_true_eq] at hp
  refine ⟨r.2.sourceNodeId, ?_⟩
  rw [shape, (Table.find?_eq_some t.nodes r.1 r.2).mpr hmem, Option.map_some, NodeInfo.shape, hp.1, hp.2]

/-- Every row of a mentor is that of a healthy one below the leader. -/
theorem Chained.mentors_of_role (h : t.Chained loose) {m : String} {s : Shape} (hs : t.shape m = some s)
    (hrole : s.role = .mentor) : t.Mentors m := by
  have hne : m ≠ t.leaderId := by
    rintro rfl
    have hroot := h.root
    rw [hs] at hroot
    cases hroot
    cases hrole
  rcases h.member m hne with hnone | hmentor | hdown | ⟨m', hm, -⟩
  · rw [hs] at hnone
    cases hnone
  · exact hmentor
  · have heq := Option.some.inj (hs.symm.trans hdown)
    rw [heq] at hrole
    cases hrole
  · have heq := Option.some.inj (hs.symm.trans hm)
    rw [heq] at hrole
    cases hrole

/-- The search returns the leader, or a mentor without another follower. -/
theorem Chained.selectSource (h : t.Chained loose) {x : String} (hx : x ≠ t.leaderId) :
    t.selectSourceForFollower x = t.leaderId ∨
      (t.Mentors (t.selectSourceForFollower x) ∧ ∀ y, t.Follows y (t.selectSourceForFollower x) → y = x) := by
  unfold selectSourceForFollower
  simp only
  split
  · next m hm =>
    right
    obtain ⟨source, hshape⟩ := mem_sortedMentorIds (List.mem_of_find?_eq_some hm)
    have hmentor := h.mentors_of_role hshape rfl
    have hfree := List.find?_some hm
    simp only [decide_eq_true_eq] at hfree
    refine ⟨hmentor, fun y hy => ?_⟩
    rcases hfree.2 with hnone | hsome
    · exact absurd hy (find_follower_none hnone y)
    · exact h.single m y x hmentor hy (find_follower_some hsome)
  · next hnone =>
    rw [if_pos ⟨h.leader, Ne.symm hx⟩]
    exact .inl rfl

/-- Hand a healthy follower to the source that the search finds. -/
def assignSource (t : TopologyManager) (x : String) : TopologyManager :=
  t.adjustNode x fun n => { n with sourceNodeId := t.selectSourceForFollower x }

theorem assignSource_follows {x m : String} (hx : t.Follows x m) :
    (t.assignSource x).Follows x (t.selectSourceForFollower x) := by
  rw [Follows, assignSource, shape_adjustNode_self _ _ _
    (fun s => { s with source := t.selectSourceForFollower x }) (fun n => rfl), hx, Option.map_some]

theorem assignSource_other (t : TopologyManager) {x y : String} (hy : y ≠ x) :
    (t.assignSource x).shape y = t.shape y :=
  shape_adjustNode_other t x y _ hy

theorem Chained.assignSource (h : t.Chained loose) {x m : String} (hx : t.Follows x m) :
    (t.assignSource x).Chained fun y => loose y ∧ y ≠ x := by
  have hne := h.follows_ne_leader hx
  have hnew := assignSource_follows hx
  have hold : ∀ y, y ≠ x → (t.assignSource x).shape y = t.shape y := fun y hy => assignSource_other t hy
  have hmentors : ∀ z, (t.assignSource x).Mentors z ↔ t.Mentors z := by
    intro z
    by_cases hz : z = x
    · subst hz
      exact ⟨fun hm => absurd hm hnew.not_mentors, fun hm => absurd hm hx.not_mentors⟩
    · rw [Mentors, Mentors, hold z hz]
      rfl
  have hsource := h.selectSource hne
  have honly : ∀ z y, (t.assignSource x).Follows y z → y ≠ x → t.Follows y z := by
    intro z y hy hyx
    rw [Follows, hold y hyx] at hy
    exact hy
  refine ⟨h.leader, ?_, fun y hy => ?_, fun z y w hz hy hw => ?_, ?_⟩
  · exact (hold _ (Ne.symm hne)).trans h.root
  · by_cases hyx : y = x
    · subst hyx
      refine .inr (.inr (.inr ⟨_, hnew, .inr ?_⟩))
      rw [hmentors]
      exact hsource.imp id And.left
    · rcases h.member y hy with hnone | hmentor | hdown | ⟨m', hm', hok⟩
      · exact .inl ((hold y hyx).trans hnone)
      · exact .inr (.inl ((hmentors y).mpr hmentor))
      · exact .inr (.inr (.inl ((hold y hyx).trans hdown)))
      · refine .inr (.inr (.inr ⟨m', (hold y hyx).trans hm', ?_⟩))
        rw [hmentors]
        exact hok.imp (fun hl => ⟨hl, hyx⟩) id
  · have htarget : ∀ v, (t.assignSource x).Follows v z → z = t.selectSourceForFollower x → v = x := by
      intro v hv hzsel
      by_contra hvx
      have hvz := honly z v hv hvx
      rcases hsource with hlead | ⟨-, hfree⟩
      · exact h.mentors_ne_leader ((hmentors z).mp hz) (hzsel.trans hlead)
      · exact hvx (hfree v (hzsel ▸ hvz))
    by_cases hyx : y = x
    · subst hyx
      exact (htarget w hw (hy.source_unique hnew)).symm
    · by_cases hwx : w = x
      · subst hwx
        exact htarget y hy (hw.source_unique hnew)
      · exact h.single z y w ((hmentors z).mp hz) (honly z y hy hyx) (honly z w hw hwx)
  · rw [Down, hold "" (Ne.symm (h.follows_ne_empty hx))]
    exact h.named

/-- The loop over the orphans. -/
theorem Chained.assign_all (orphans : List String) (h : t.Chained (· ∈ orphans))
    (hfollows : ∀ x ∈ orphans, ∃ m, t.Follows x m) :
    (orphans.foldl TopologyManager.assignSource t).Chained fun _ => False := by
  induction orphans generalizing t with
  | nil => exact h.tighten fun x _ _ hl => by cases hl
  | cons x rest ih =>
    obtain ⟨m, hx⟩ := hfollows x List.mem_cons_self
    rw [List.foldl_cons]
    have hnext := h.assignSource hx
    refine ih (hnext.tighten fun y _ _ hl hnot => ?_) fun y hy => ?_
    · rcases List.mem_cons.mp hl.1 with heq | hrest
      · exact absurd heq hl.2
      · exact absurd hrest hnot
    · by_cases hyx : y = x
      · subst hyx
        exact ⟨_, assignSource_follows hx⟩
      · obtain ⟨m', hm'⟩ := hfollows y (List.mem_cons_of_mem x hy)
        exact ⟨m', (assignSource_other t hyx).trans hm'⟩

theorem leaderId_foldl_assignSource (orphans : List String) (t : TopologyManager) :
    (orphans.foldl TopologyManager.assignSource t).leaderId = t.leaderId := by
  induction orphans generalizing t with
  | nil => rfl
  | cons x rest ih =>
    rw [List.foldl_cons, ih]
    rfl

@[simp] theorem leaderId_reassignFollowers (t : TopologyManager) (old exclude : String) :
    (t.reassignFollowers old exclude).leaderId = t.leaderId := by
  unfold reassignFollowers
  split
  · rfl
  · exact leaderId_foldl_assignSource _ t

/-- If the loose followers are those of a source that went away, all are handed on. -/
theorem Chained.reassignFollowers {old exclude : String} (hold : old ≠ "")
    (h : t.Chained fun y => t.Follows y old ∧ y ≠ exclude) :
    (t.reassignFollowers old exclude).Chained fun _ => False := by
  rw [TopologyManager.reassignFollowers, if_neg hold]
  have hmem : ∀ y, y ∈ ((t.nodes.rows.filter fun r =>
      r.2.healthy && r.2.role = .follower && r.2.sourceNodeId = old && r.1 ≠ exclude).map
        Prod.fst).insertionSort (· ≤ ·) ↔ t.Follows y old ∧ y ≠ exclude := by
    intro y
    rw [List.mem_insertionSort, List.mem_map]
    constructor
    · rintro ⟨r, hr, rfl⟩
      obtain ⟨hrow, hp⟩ := List.mem_filter.mp hr
      simp only [Bool.and_eq_true, decide_eq_true_eq] at hp
      refine ⟨?_, hp.2⟩
      rw [Follows, shape, (Table.find?_eq_some t.nodes r.1 r.2).mpr hrow, Option.map_some, NodeInfo.shape,
        hp.1.1.1, hp.1.1.2, hp.1.2]
    · rintro ⟨hy, hne⟩
      obtain ⟨n, hn, hshape⟩ := Option.map_eq_some_iff.mp hy
      refine ⟨(y, n), List.mem_filter.mpr ⟨(Table.find?_eq_some t.nodes y n).mp hn, ?_⟩, rfl⟩
      simp only [NodeInfo.shape, Shape.mk.injEq] at hshape
      simp [hshape, hne]
  refine Chained.assign_all _ (h.tighten fun y m hy hl hnot => ?_) fun y hy => ⟨old, ((hmem y).mp hy).1⟩
  exact absurd ((hmem y).mpr hl) hnot

/-! ## The mutators -/

/-- In a chain that knows the node, the calls that make sure of it change nothing. -/
theorem Chained.shape_ensure (h : t.Chained loose) {x : String} (hx : t.shape x ≠ none) (y : String) :
    (t.ensureLeader.ensureNode x).shape y = t.shape y := by
  have hlead : ∀ z, t.ensureLeader.shape z = t.shape z := by
    intro z
    rw [shape_ensureLeader t h.leader]
    split
    · next hz => rw [hz, h.root]
    · rfl
  rw [shape_ensureNode, hlead, hlead]
  split
  · next hy =>
    obtain ⟨s, hs⟩ := Option.ne_none_iff_exists'.mp hx
    rw [hy, hs, Option.getD_some]
  · rfl

theorem shape_adjustNode_addr (t : TopologyManager) (x addr y : String) :
    (t.adjustNode x fun n => { n with addr }).shape y = t.shape y := by
  by_cases hy : y = x
  · have hself := shape_adjustNode_self t x (fun n => { n with addr }) id fun n => rfl
    rw [hy, hself, Option.map_id, id]
  · rw [shape_adjustNode_other _ _ _ _ hy]

theorem leaderId_ensure (t : TopologyManager) (x : String) : (t.ensureLeader.ensureNode x).leaderId = t.leaderId := by
  rw [leaderId_ensureNode, leaderId_ensureLeader]

theorem Chained.promoteToMentor (h : t.Chained fun _ => False) {x : String} (hx : x ≠ t.leaderId)
    (hknown : t.shape x ≠ none) : (t.promoteToMentor x).Chained fun _ => False := by
  rw [TopologyManager.promoteToMentor]
  split
  · exact h
  · next hne =>
    obtain ⟨s, hs⟩ := Option.ne_none_iff_exists'.mp hknown
    simp only [leaderId_ensure, if_neg hx]
    have hself : ((t.ensureLeader.ensureNode x).adjustNode x fun n =>
        { n with
          healthy := true, role := .mentor, sourceNodeId := t.leaderId
          addr := (t.ensureLeader.ensureNode x).resolveAddress x }).shape x = some ⟨.mentor, t.leaderId, true⟩ := by
      rw [shape_adjustNode_self _ _ _ (fun _ => ⟨.mentor, t.leaderId, true⟩) (fun n => rfl),
        h.shape_ensure hknown, hs, Option.map_some]
    refine (h.replace hx hne hself (fun y hy => ?_) (leaderId_ensure t x) (.inl rfl)).tighten ?_
    · rw [shape_adjustNode_other _ _ _ _ hy, h.shape_ensure hknown]
    · intro y m hy hl _
      have hmentors : ((t.ensureLeader.ensureNode x).adjustNode x fun n =>
          { n with
            healthy := true, role := .mentor, sourceNodeId := t.leaderId
            addr := (t.ensureLeader.ensureNode x).resolveAddress x }).Mentors x := by
        rw [Mentors, hself, leaderId_adjustNode, leaderId_ensure]
      rcases hl with rfl | hold
      · exact absurd hmentors hy.not_mentors
      · have hyx : y ≠ x := fun heq => (heq ▸ hy).not_mentors hmentors
        rw [Follows, shape_adjustNode_other _ _ _ _ hyx, h.shape_ensure hknown] at hy
        rw [Follows.source_unique hy hold]
        exact .inr hmentors

theorem Chained.demoteToFollower (h : t.Chained fun _ => False) {x : String} (hx : x ≠ t.leaderId)
    (hknown : t.shape x ≠ none) : (t.demoteToFollower x).Chained fun _ => False := by
  rw [TopologyManager.demoteToFollower]
  split
  · exact h
  · next hne =>
    rw [not_or] at hne
    obtain ⟨s, hs⟩ := Option.ne_none_iff_exists'.mp hknown
    have hself : ((t.ensureLeader.ensureNode x).adjustNode x fun n =>
        { n with healthy := true, role := .follower }).Follows x s.source := by
      rw [Follows, shape_adjustNode_self _ _ _ (fun s => ⟨.follower, s.source, true⟩) (fun n => rfl),
        h.shape_ensure hknown, hs, Option.map_some]
    have hother : ∀ y, y ≠ x → ((t.ensureLeader.ensureNode x).adjustNode x fun n =>
        { n with healthy := true, role := .follower }).shape y = t.shape y := by
      intro y hy
      rw [shape_adjustNode_other _ _ _ _ hy, h.shape_ensure hknown]
    have hsource : t.Mentors s.source → t.Follows x s.source := by
      intro hm
      rcases h.member x hx with hnone | hmentor | hdown | ⟨m, hm', -⟩
      · exact absurd hnone hknown
      · rw [Mentors, hs] at hmentor
        cases hmentor
        exact absurd rfl (h.mentors_ne_leader hm)
      · rw [Down, hs] at hdown
        cases hdown
        exact absurd rfl (h.mentors_ne_empty hm)
      · rw [Follows, hs] at hm'
        cases hm'
        exact hs
    have hfirst := h.replace hx hne.1 hself hother (leaderId_ensure t x) (.inr (.inr ⟨s.source, rfl, hsource⟩))
    have hassigned := hfirst.assignSource hself
    have hshape : ∀ y, y ≠ x → (((t.ensureLeader.ensureNode x).adjustNode x fun n =>
        { n with healthy := true, role := .follower }).assignSource x).shape y = t.shape y := by
      intro y hy
      rw [assignSource_other _ hy, hother y hy]
    refine Chained.reassignFollowers hne.1 (Chained.congr (hassigned.tighten fun y m hy hl hnot => ?_) rfl
      fun y => shape_adjustNode_addr _ _ _ _)
    refine absurd ⟨?_, hl.2⟩ hnot
    rw [Follows, shape_adjustNode_addr]
    exact (hshape y hl.2).trans (hl.1.resolve_left hl.2)

theorem Chained.markUnhealthy (h : t.Chained fun _ => False) {x : String} (hx : x ≠ t.leaderId)
    (hknown : t.shape x ≠ none) : (t.markUnhealthy x).Chained fun _ => False := by
  rw [TopologyManager.markUnhealthy]
  split
  · exact h
  · next hne =>
    obtain ⟨s, hs⟩ := Option.ne_none_iff_exists'.mp hknown
    rw [if_neg (show ¬ x = ((t.ensureNode x).adjustNode x fun n => { n with healthy := false }).leaderId from hx)]
    have hensure : ∀ y, (t.ensureNode x).shape y = t.shape y := by
      intro y
      rw [shape_ensureNode]
      split
      · next hy => rw [hy, hs, Option.getD_some]
      · rfl
    have hself : (((t.ensureNode x).adjustNode x fun n => { n with healthy := false }).adjustNode x fun n =>
        { n with role := .follower, sourceNodeId := "" }).shape x = some ⟨.follower, "", false⟩ := by
      rw [shape_adjustNode_self _ _ _ (fun s => ⟨.follower, "", s.healthy⟩) (fun n => rfl),
        shape_adjustNode_self _ _ _ (fun s => { s with healthy := false }) (fun n => rfl), hensure, hs]
      rfl
    have hother : ∀ y, y ≠ x → (((t.ensureNode x).adjustNode x fun n => { n with healthy := false }).adjustNode x
        fun n => { n with role := .follower, sourceNodeId := "" }).shape y = t.shape y := by
      intro y hy
      rw [shape_adjustNode_other _ _ _ _ hy, shape_adjustNode_other _ _ _ _ hy, hensure]
    have hfirst := h.replace hx hne hself hother rfl (.inr (.inl rfl))
    refine Chained.reassignFollowers hne (hfirst.tighten fun y m hy hl hnot => ?_)
    have hyx : y ≠ x := by
      rintro rfl
      rw [Follows, hself] at hy
      cases hy
    have hold := hl.resolve_left hyx
    refine absurd ⟨(hother y hyx).trans hold, ?_⟩ hnot
    exact h.follows_ne_empty hold

theorem Chained.markHealthy (h : t.Chained fun _ => False) {x : String} (hx : x ≠ t.leaderId)
    (hknown : t.shape x ≠ none) : (t.markHealthy x).Chained fun _ => False := by
  rw [TopologyManager.markHealthy]
  split
  · exact h
  · next hne =>
    have hup : ∀ y, ((t.ensureLeader.ensureNode x).adjustNode x fun n =>
        { n with healthy := true, addr := (t.ensureLeader.ensureNode x).resolveAddress x }).shape y =
          if y = x then (t.shape x).map fun s => { s with healthy := true } else t.shape y := by
      intro y
      split
      · next hy =>
        rw [hy, shape_adjustNode_self _ _ _ (fun s => { s with healthy := true }) (fun n => rfl),
          h.shape_ensure hknown]
      · next hy => rw [shape_adjustNode_other _ _ _ _ hy, h.shape_ensure hknown]
    have hlead : ((t.ensureLeader.ensureNode x).adjustNode x fun n =>
        { n with healthy := true, addr := (t.ensureLeader.ensureNode x).resolveAddress x }).leaderId = t.leaderId :=
      leaderId_ensure t x
    dsimp only
    generalize ((t.ensureLeader.ensureNode x).adjustNode x fun n =>
        { n with healthy := true, addr := (t.ensureLeader.ensureNode x).resolveAddress x }) = up at hup hlead ⊢
    rw [if_neg (show ¬ x = up.leaderId from hlead ▸ hx)]
    have hsource : up.getSource x = ((t.shape x).map Shape.source).getD "" := by
      have hx' := hup x
      rw [if_pos rfl, shape, shape, Option.map_map] at hx'
      have hmap := congrArg (Option.map Shape.source) hx'
      simp only [Option.map_map] at hmap
      unfold getSource shape
      rw [Option.map_map]
      exact congrArg (Option.getD · "") hmap
    rcases h.member x hx with hnone | hmentor | hdown | ⟨m, hm, hm'⟩
    · exact absurd hnone hknown
    · rw [hsource, hmentor, Option.map_some, Option.getD_some, if_neg h.leader]
      refine h.congr hlead fun y => ?_
      rw [hup]
      split
      · next hy => rw [hy, hmentor, Option.map_some]
      · rfl
    · rw [hsource, hdown, Option.map_some, Option.getD_some, if_pos rfl]
      have hself : (up.adjustNode x fun n => { n with role := .follower }).Follows x "" := by
        rw [Follows, shape_adjustNode_self _ _ _ (fun s => { s with role := .follower }) (fun n => rfl), hup,
          if_pos rfl, hdown]
        rfl
      have hfirst := h.replace hx hne hself
        (fun y hy => by rw [shape_adjustNode_other _ _ _ _ hy, hup, if_neg hy]) hlead
        (.inr (.inr ⟨"", rfl, fun hm => absurd rfl (h.mentors_ne_empty hm)⟩))
      refine (hfirst.assignSource hself).tighten fun y m hy hl _ => ?_
      have hold := hl.1.resolve_left hl.2
      rcases h.source hold id with heq | hmentor
      · exact absurd heq hx
      · rw [Mentors, hdown] at hmentor
        cases hmentor
    · have hne' : m ≠ "" := by
        rcases hm'.resolve_left id with rfl | hmentor
        · exact h.leader
        · exact h.mentors_ne_empty hmentor
      rw [hsource, hm, Option.map_some, Option.getD_some, if_neg hne']
      refine h.congr hlead fun y => ?_
      rw [hup]
      split
      · next hy => rw [hy, hm, Option.map_some]
      · rfl

/-- A follower that a search found, if any, gets another source. -/
def rebind (t : TopologyManager) (f : Option String) (m : String) : TopologyManager :=
  match f with
  | some x => t.adjustNode x fun n => { n with sourceNodeId := m }
  | none => t

theorem shape_rebind (t : TopologyManager) (f : Option String) (m y : String)
    (hf : ∀ x, f = some x → ∃ old, t.Follows x old) :
    (t.rebind f m).shape y = if f = some y then some ⟨.follower, m, true⟩ else t.shape y := by
  cases f with
  | none => rw [rebind, if_neg (by simp)]
  | some x =>
    rw [rebind]
    by_cases hy : y = x
    · obtain ⟨old, hold⟩ := hf x rfl
      rw [hy, if_pos rfl, shape_adjustNode_self _ _ _ (fun s => { s with source := m }) (fun n => rfl), hold,
        Option.map_some]
    · rw [if_neg (by simpa using Ne.symm hy), shape_adjustNode_other _ _ _ _ hy]

theorem leaderId_rebind (t : TopologyManager) (f : Option String) (m : String) :
    (t.rebind f m).leaderId = t.leaderId := by
  cases f with
  | none => rfl
  | some x => rfl

theorem swapFollowers_eq (t : TopologyManager) {a b : String} (ha : a ≠ "") (hb : b ≠ "") (hab : a ≠ b) :
    t.swapFollowers a b = (t.rebind (t.findFollowerIdOf a) b).rebind (t.findFollowerIdOf b) a := by
  rw [swapFollowers, if_neg (by simp [ha, hb, hab])]
  rfl

/-- The followers of the two sources are exchanged, and nothing else changes. -/
theorem shape_swapFollowers (t : TopologyManager) {a b : String} (ha : a ≠ "") (hb : b ≠ "") (hab : a ≠ b)
    (y : String) : (t.swapFollowers a b).shape y =
      if t.findFollowerIdOf b = some y then some ⟨.follower, a, true⟩
      else if t.findFollowerIdOf a = some y then some ⟨.follower, b, true⟩ else t.shape y := by
  have hfirst : ∀ x, (t.rebind (t.findFollowerIdOf a) b).shape x =
      if t.findFollowerIdOf a = some x then some ⟨.follower, b, true⟩ else t.shape x :=
    fun x => shape_rebind t _ b x fun z hz => ⟨a, find_follower_some hz⟩
  rw [swapFollowers_eq t ha hb hab, shape_rebind, hfirst]
  intro x hx
  by_cases hax : t.findFollowerIdOf a = some x
  · exact ⟨b, by rw [Follows, hfirst, if_pos hax]⟩
  · exact ⟨b, by rw [Follows, hfirst, if_neg hax]; exact find_follower_some hx⟩

theorem Chained.swapFollowers (h : t.Chained fun _ => False) {a b : String} (ha : a = t.leaderId ∨ t.Mentors a)
    (hb : t.Mentors b) (hab : a ≠ b) : (t.swapFollowers a b).Chained fun _ => False := by
  have hane : a ≠ "" := by
    rcases ha with rfl | ha
    · exact h.leader
    · exact h.mentors_ne_empty ha
  have hshape := shape_swapFollowers t hane (h.mentors_ne_empty hb) hab
  have hleader : (t.swapFollowers a b).leaderId = t.leaderId := by
    rw [swapFollowers_eq t hane (h.mentors_ne_empty hb) hab, leaderId_rebind, leaderId_rebind]
  have hkeep : ∀ y, (∀ m, ¬ t.Follows y m) → (t.swapFollowers a b).shape y = t.shape y := by
    intro y hy
    rw [hshape, if_neg (fun heq => hy b (find_follower_some heq)), if_neg (fun heq => hy a (find_follower_some heq))]
  have hfollows : ∀ y m, (t.swapFollowers a b).Follows y m →
      (t.findFollowerIdOf b = some y ∧ m = a) ∨ (t.findFollowerIdOf a = some y ∧ m = b) ∨
        (t.findFollowerIdOf b ≠ some y ∧ t.findFollowerIdOf a ≠ some y ∧ t.Follows y m) := by
    intro y m hy
    rw [Follows, hshape] at hy
    split at hy
    · next hfb =>
      simp only [Option.some.injEq, Shape.mk.injEq, true_and, and_true] at hy
      exact .inl ⟨hfb, hy.symm⟩
    · next hfb =>
      split at hy
      · next hfa =>
        simp only [Option.some.injEq, Shape.mk.injEq, true_and, and_true] at hy
        exact .inr (.inl ⟨hfa, hy.symm⟩)
      · next hfa => exact .inr (.inr ⟨hfb, hfa, hy⟩)
  have hmentors : ∀ m, (t.swapFollowers a b).Mentors m ↔ t.Mentors m := by
    intro m
    rw [Mentors, Mentors, hleader]
    by_cases hm : ∃ old, t.Follows m old
    · obtain ⟨old, hold⟩ := hm
      refine ⟨fun hm' => ?_, fun hm' => absurd hm' hold.not_mentors⟩
      rw [hshape] at hm'
      split at hm'
      · simp at hm'
      · split at hm'
        · simp at hm'
        · exact hm'
    · rw [hkeep m (fun old hold => hm ⟨old, hold⟩)]
  refine ⟨?_, ?_, fun y hy => ?_, fun m y z hm hy hz => ?_, ?_⟩
  · rw [hleader]
    exact h.leader
  · rw [hleader, hkeep _ fun m hm => h.follows_ne_leader hm rfl]
    exact h.root
  · rw [hleader] at hy
    rcases h.member y hy with hnone | hmentor | hdown | ⟨m, hm, hok⟩
    · exact .inl ((hkeep y fun m hm => by rw [Follows, hnone] at hm; cases hm).trans hnone)
    · exact .inr (.inl ((hmentors y).mpr hmentor))
    · refine .inr (.inr (.inl ((hkeep y fun m hm => ?_).trans hdown)))
      have heq := hm.symm.trans hdown
      simp at heq
    · refine .inr (.inr (.inr ?_))
      by_cases hfb : t.findFollowerIdOf b = some y
      · refine ⟨a, by rw [Follows, hshape, if_pos hfb], .inr ?_⟩
        rw [hmentors, hleader]
        exact ha
      · by_cases hfa : t.findFollowerIdOf a = some y
        · exact ⟨b, by rw [Follows, hshape, if_neg hfb, if_pos hfa], .inr (.inr ((hmentors b).mpr hb))⟩
        · refine ⟨m, by rw [Follows, hshape, if_neg hfb, if_neg hfa]; exact hm, ?_⟩
          rw [hmentors, hleader]
          exact hok
  · have hm' := (hmentors m).mp hm
    rcases hfollows y m hy with ⟨hfy, rfl⟩ | ⟨hfy, rfl⟩ | ⟨hby, hay, hy'⟩
    · rcases hfollows z m hz with ⟨hfz, -⟩ | ⟨-, heq⟩ | ⟨-, haz, hz'⟩
      · exact Option.some.inj (hfy.symm.trans hfz)
      · exact absurd heq hab
      · exact absurd (h.find_follower hm' hz') haz
    · rcases hfollows z m hz with ⟨-, heq⟩ | ⟨hfz, -⟩ | ⟨hbz, -, hz'⟩
      · exact absurd heq.symm hab
      · exact Option.some.inj (hfy.symm.trans hfz)
      · exact absurd (h.find_follower hm' hz') hbz
    · rcases hfollows z m hz with ⟨-, rfl⟩ | ⟨-, rfl⟩ | ⟨-, -, hz'⟩
      · exact absurd (h.find_follower hm' hy') hay
      · exact absurd (h.find_follower hm' hy') hby
      · exact h.single m y z hm' hy' hz'
  · rw [Down, hkeep "" fun m hm => h.follows_ne_empty hm rfl]
    exact h.named

theorem rebalance_chained {hs : List String} (h : t.rebalance hs = .ok t') : t'.Chained fun _ => False := by
  obtain ⟨hroot, hlisted, hrest⟩ := rebalance_shape h
  have hne := ((rebalance_eq_ok t hs t').mp h).1
  rw [← leaderId_rebalance h] at hroot hlisted hrest hne
  have hnd := nodup_sortedCandidates t'.leaderId hs
  have hmem := mem_sortedCandidates t'.leaderId hs
  generalize sortedCandidates t'.leaderId hs = cs at hlisted hrest hnd hmem
  have hmentor : ∀ j x, cs[j]? = some x → j < (cs.length + 1) / 2 → t'.Mentors x := by
    intro j x hj hlt
    rw [Mentors, hlisted j x hj, if_pos hlt]
  have hfollower : ∀ j x, cs[j]? = some x → ¬ j < (cs.length + 1) / 2 →
      ∃ m, cs[j - (cs.length + 1) / 2]? = some m ∧ t'.Follows x m := by
    intro j x hj hlt
    have hlen : j < cs.length := (List.getElem?_eq_some_iff.mp hj).1
    have hsome : cs[j - (cs.length + 1) / 2]? = some (cs.getD (j - (cs.length + 1) / 2) "") := by
      rw [List.getD_eq_getElem?_getD, List.getElem?_eq_getElem (by omega), Option.getD_some]
    exact ⟨_, hsome, by rw [Follows, hlisted j x hj, if_neg hlt]⟩
  have hat : ∀ x m, t'.Follows x m → ∃ j, cs[j]? = some x ∧ ¬ j < (cs.length + 1) / 2 ∧
      cs[j - (cs.length + 1) / 2]? = some m := by
    intro x m hx
    have hxl : x ≠ t'.leaderId := by
      rintro rfl
      rw [Follows, hroot] at hx
      simp at hx
    by_cases hxc : x ∈ cs
    · obtain ⟨j, hj⟩ := List.mem_iff_getElem?.mp hxc
      by_cases hlt : j < (cs.length + 1) / 2
      · exact absurd (hmentor j x hj hlt) hx.not_mentors
      · obtain ⟨m', hm', hx'⟩ := hfollower j x hj hlt
        exact ⟨j, hj, hlt, by rw [hm', hx'.source_unique hx]⟩
    · rw [Follows, hrest x hxl hxc] at hx
      cases hold : t.shape x with
      | none => simp [hold] at hx
      | some s => simp [hold] at hx
  refine ⟨hne, hroot, fun x hx => ?_, fun m x y hm hx hy => ?_, ?_⟩
  · by_cases hxc : x ∈ cs
    · obtain ⟨j, hj⟩ := List.mem_iff_getElem?.mp hxc
      by_cases hlt : j < (cs.length + 1) / 2
      · exact .inr (.inl (hmentor j x hj hlt))
      · obtain ⟨m, hm, hx'⟩ := hfollower j x hj hlt
        have hlen : j < cs.length := (List.getElem?_eq_some_iff.mp hj).1
        exact .inr (.inr (.inr ⟨m, hx', .inr (.inr (hmentor _ m hm (by omega)))⟩))
    · have hshape := hrest x hx hxc
      cases hold : t.shape x with
      | none =>
        rw [hold] at hshape
        exact .inl hshape
      | some s =>
        rw [hold] at hshape
        exact .inr (.inr (.inl hshape))
  · obtain ⟨i, hi, hilt, him⟩ := hat x m hx
    obtain ⟨j, hj, hjlt, hjm⟩ := hat y m hy
    have hilen : i - (cs.length + 1) / 2 < cs.length := (List.getElem?_eq_some_iff.mp him).1
    have heq : i - (cs.length + 1) / 2 = j - (cs.length + 1) / 2 :=
      (List.getElem?_inj hilen hnd).mp (him.trans hjm.symm)
    have hij : i = j := by omega
    rw [hij, hj] at hi
    exact (Option.some.inj hi).symm
  · have hnot : "" ∉ cs := fun hin => ((hmem "").mp hin).2.1 rfl
    have hshape := hrest "" (Ne.symm hne) hnot
    cases hold : t.shape "" with
    | none =>
      rw [hold] at hshape
      exact .inl hshape
    | some s =>
      rw [hold] at hshape
      exact .inr hshape

/-! ## Sequences of calls -/

inductive Call where
  | rebalance (healthyNodes : List String)
  | promoteToMentor (nodeId : String)
  | demoteToFollower (nodeId : String)
  | markUnhealthy (nodeId : String)
  | markHealthy (nodeId : String)
  | swapFollowers (mentorA mentorB : String)
  deriving DecidableEq, Repr

def healthyMentor (t : TopologyManager) (m : String) : Bool :=
  (t.getNode m).any fun n => n.role = .mentor && n.healthy

/-- The arguments the leader passes: known nodes below it, and two sources to exchange
the followers of. -/
def Allowed (t : TopologyManager) : Call → Prop
  | .rebalance _ => True
  | .promoteToMentor nodeId => t.getNode nodeId ≠ none ∧ nodeId ≠ t.leaderId
  | .demoteToFollower nodeId => t.getNode nodeId ≠ none ∧ nodeId ≠ t.leaderId
  | .markUnhealthy nodeId => t.getNode nodeId ≠ none ∧ nodeId ≠ t.leaderId
  | .markHealthy nodeId => t.getNode nodeId ≠ none ∧ nodeId ≠ t.leaderId
  | .swapFollowers a b => (a = t.leaderId ∨ t.healthyMentor a = true) ∧ t.healthyMentor b = true ∧ a ≠ b

instance (t : TopologyManager) : (c : Call) → Decidable (t.Allowed c)
  | .rebalance _ => inferInstanceAs (Decidable True)
  | .promoteToMentor nodeId => inferInstanceAs (Decidable (t.getNode nodeId ≠ none ∧ nodeId ≠ t.leaderId))
  | .demoteToFollower nodeId => inferInstanceAs (Decidable (t.getNode nodeId ≠ none ∧ nodeId ≠ t.leaderId))
  | .markUnhealthy nodeId => inferInstanceAs (Decidable (t.getNode nodeId ≠ none ∧ nodeId ≠ t.leaderId))
  | .markHealthy nodeId => inferInstanceAs (Decidable (t.getNode nodeId ≠ none ∧ nodeId ≠ t.leaderId))
  | .swapFollowers a b => inferInstanceAs (Decidable
      ((a = t.leaderId ∨ t.healthyMentor a = true) ∧ t.healthyMentor b = true ∧ a ≠ b))

def call (t : TopologyManager) : Call → Option TopologyManager
  | .rebalance healthyNodes => (t.rebalance healthyNodes).toOption
  | .promoteToMentor nodeId => some (t.promoteToMentor nodeId)
  | .demoteToFollower nodeId => some (t.demoteToFollower nodeId)
  | .markUnhealthy nodeId => some (t.markUnhealthy nodeId)
  | .markHealthy nodeId => some (t.markHealthy nodeId)
  | .swapFollowers a b => some (t.swapFollowers a b)

theorem shape_of_getNode {x : String} {n : NodeInfo} (h : t.getNode x = some n) : t.shape x = some n.shape := by
  rw [getNode] at h
  rw [shape, h, Option.map_some]

theorem shape_ne_none {x : String} (h : t.getNode x ≠ none) : t.shape x ≠ none := by
  obtain ⟨n, hn⟩ := Option.ne_none_iff_exists'.mp h
  rw [shape_of_getNode hn]
  simp

theorem Chained.healthyMentor_iff (h : t.Chained loose) (m : String) : t.healthyMentor m = true ↔ t.Mentors m := by
  rw [healthyMentor, Option.any_eq_true]
  constructor
  · rintro ⟨n, hn, hp⟩
    simp only [Bool.and_eq_true, decide_eq_true_eq] at hp
    exact h.mentors_of_role (shape_of_getNode hn) hp.1
  · intro hm
    obtain ⟨n, hn, hshape⟩ := Option.map_eq_some_iff.mp hm
    simp only [NodeInfo.shape, Shape.mk.injEq] at hshape
    exact ⟨n, hn, by simp [hshape]⟩

@[simp] theorem leaderId_swapFollowers (t : TopologyManager) (a b : String) :
    (t.swapFollowers a b).leaderId = t.leaderId := by
  by_cases h : a = "" ∨ b = "" ∨ a = b
  · rw [swapFollowers, if_pos h]
  · simp only [not_or] at h
    rw [swapFollowers_eq t h.1 h.2.1 h.2.2, leaderId_rebind, leaderId_rebind]

/-- Every call keeps the chain and its leader. -/
theorem Chained.call (h : t.Chained fun _ => False) {c : Call} (hc : t.Allowed c) (hcall : t.call c = some t') :
    (t'.Chained fun _ => False) ∧ t'.leaderId = t.leaderId := by
  cases c with
  | rebalance healthyNodes =>
    have hok := Transition.ok_of_toOption hcall
    refine ⟨rebalance_chained hok, ?_⟩
    rw [leaderId_rebalance hok, rebalanceLeader, if_neg h.leader]
  | promoteToMentor nodeId =>
    cases hcall
    refine ⟨h.promoteToMentor hc.2 (shape_ne_none hc.1), ?_⟩
    unfold TopologyManager.promoteToMentor
    split
    · rfl
    · exact leaderId_ensure t nodeId
  | demoteToFollower nodeId =>
    cases hcall
    refine ⟨h.demoteToFollower hc.2 (shape_ne_none hc.1), ?_⟩
    unfold TopologyManager.demoteToFollower
    split
    · rfl
    · rw [leaderId_reassignFollowers]
      exact leaderId_ensure t nodeId
  | markUnhealthy nodeId =>
    cases hcall
    refine ⟨h.markUnhealthy hc.2 (shape_ne_none hc.1), ?_⟩
    unfold TopologyManager.markUnhealthy
    split
    · rfl
    · dsimp only
      split
      · rfl
      · exact leaderId_reassignFollowers _ _ _
  | markHealthy nodeId =>
    cases hcall
    refine ⟨h.markHealthy hc.2 (shape_ne_none hc.1), ?_⟩
    unfold TopologyManager.markHealthy
    split
    · rfl
    · dsimp only
      split
      · exact leaderId_ensure t nodeId
      · split
        · exact leaderId_ensure t nodeId
        · exact leaderId_ensure t nodeId
  | swapFollowers a b =>
    cases hcall
    obtain ⟨ha, hb, hab⟩ := hc
    rw [h.healthyMentor_iff] at ha hb
    exact ⟨h.swapFollowers ha hb hab, leaderId_swapFollowers t a b⟩

/-- What the leader relies on: nobody is lost and nobody is bound twice. -/
structure Sound (t : TopologyManager) : Prop where
  mentor : ∀ x n, t.getNode x = some n → n.role = .mentor → n.healthy = true ∧ n.sourceNodeId = t.leaderId
  unhealthy : ∀ x n, t.getNode x = some n → x ≠ t.leaderId → n.healthy = false →
    n.role = .follower ∧ n.sourceNodeId = ""
  follower : ∀ x n, t.getNode x = some n → n.role = .follower → n.healthy = true →
    n.sourceNodeId = t.leaderId ∨ t.healthyMentor n.sourceNodeId = true
  single : ∀ m x y n k, (∃ i, t.getNode m = some i ∧ i.role = .mentor) →
    t.getNode x = some n → n.role = .follower → n.healthy = true → n.sourceNodeId = m →
    t.getNode y = some k → k.role = .follower → k.healthy = true → k.sourceNodeId = m → x = y
  reached : ∀ x n, t.getNode x = some n → x ≠ t.leaderId → n.healthy = true →
    (∀ peers progress, x ∈ replicationTargets t.leaderId peers t progress) ∨
      (t.healthyMentor n.sourceNodeId = true ∧ t.getFollowerOf n.sourceNodeId = some (x, n))

theorem follows_of_getNode {x : String} {n : NodeInfo} (h : t.getNode x = some n) (hrole : n.role = .follower)
    (hhealthy : n.healthy = true) : t.Follows x n.sourceNodeId := by
  rw [Follows, shape_of_getNode h, NodeInfo.shape, hrole, hhealthy]

theorem mem_replicationTargets {x : String} {n : NodeInfo} (h : t.getNode x = some n) (hx : x ≠ t.leaderId)
    (hhealthy : n.healthy = true) (hdirect : n.role = .mentor ∨ n.sourceNodeId = t.leaderId)
    (peers : List String) (progress : ProgressTable) : x ∈ replicationTargets t.leaderId peers t progress := by
  rw [replicationTargets]
  refine List.mem_map.mpr ⟨(x, n), List.mem_filter.mpr ⟨?_, ?_⟩, rfl⟩
  · rw [allNodes, List.mem_insertionSort]
    exact (Table.find?_eq_some t.nodes x n).mp h
  · have hshould : ∀ edge, shouldReplicate t.leaderId progress edge (x, n) = true := by
      intro edge
      rcases hdirect with hrole | hsource
      · simp [shouldReplicate, hrole]
      · simp [shouldReplicate, hsource]
    simp [hx, hhealthy, hshould]

theorem Chained.sound (h : t.Chained fun _ => False) : t.Sound := by
  have hcases : ∀ x n, t.getNode x = some n → x ≠ t.leaderId →
      (n.role = .mentor ∧ n.healthy = true ∧ n.sourceNodeId = t.leaderId) ∨
      (n.role = .follower ∧ n.healthy = false ∧ n.sourceNodeId = "") ∨
      (n.role = .follower ∧ n.healthy = true ∧ (n.sourceNodeId = t.leaderId ∨ t.Mentors n.sourceNodeId)) := by
    intro x n hn hx
    have hshape := shape_of_getNode hn
    rcases h.member x hx with hnone | hmentor | hdown | ⟨m, hm, hok⟩
    · rw [hshape] at hnone
      cases hnone
    · have heq := Option.some.inj (hshape.symm.trans hmentor)
      simp only [NodeInfo.shape, Shape.mk.injEq] at heq
      exact .inl ⟨heq.1, heq.2.2, heq.2.1⟩
    · have heq := Option.some.inj (hshape.symm.trans hdown)
      simp only [NodeInfo.shape, Shape.mk.injEq] at heq
      exact .inr (.inl ⟨heq.1, heq.2.2, heq.2.1⟩)
    · have heq := Option.some.inj (hshape.symm.trans hm)
      simp only [NodeInfo.shape, Shape.mk.injEq] at heq
      rw [← heq.2.1] at hok
      exact .inr (.inr ⟨heq.1, heq.2.2, hok.resolve_left id⟩)
  have hroot : ∀ n, t.getNode t.leaderId = some n → n.role = .leader := by
    intro n hn
    have heq := Option.some.inj ((shape_of_getNode hn).symm.trans h.root)
    simp only [NodeInfo.shape, Shape.mk.injEq] at heq
    exact heq.1
  refine ⟨?_, ?_, ?_, ?_, ?_⟩
  · intro x n hn hrole
    have hm := h.mentors_of_role (shape_of_getNode hn) hrole
    have heq := Option.some.inj ((shape_of_getNode hn).symm.trans hm)
    simp only [NodeInfo.shape, Shape.mk.injEq] at heq
    exact ⟨heq.2.2, heq.2.1⟩
  · intro x n hn hx hhealthy
    rcases hcases x n hn hx with ⟨-, hup, -⟩ | ⟨hrole, -, hsource⟩ | ⟨-, hup, -⟩
    · rw [hhealthy] at hup
      cases hup
    · exact ⟨hrole, hsource⟩
    · rw [hhealthy] at hup
      cases hup
  · intro x n hn hrole hhealthy
    rw [h.healthyMentor_iff]
    exact h.source (follows_of_getNode hn hrole hhealthy) id
  · rintro m x y n k ⟨i, hi, hmentor⟩ hn hrole hhealthy rfl hk hrole' hhealthy' hsource
    have hy := follows_of_getNode hk hrole' hhealthy'
    rw [hsource] at hy
    exact h.single _ x y (h.mentors_of_role (shape_of_getNode hi) hmentor)
      (follows_of_getNode hn hrole hhealthy) hy
  · intro x n hn hx hhealthy
    rcases hcases x n hn hx with ⟨hrole, -, -⟩ | ⟨-, hdown, -⟩ | ⟨hrole, -, hsource | hmentor⟩
    · exact .inl (mem_replicationTargets hn hx hhealthy (.inl hrole))
    · rw [hhealthy] at hdown
      cases hdown
    · exact .inl (mem_replicationTargets hn hx hhealthy (.inr hsource))
    · refine .inr ⟨(h.healthyMentor_iff _).mpr hmentor, ?_⟩
      rw [getFollowerOf, h.find_follower hmentor (follows_of_getNode hn hrole hhealthy), Option.bind_some]
      rw [getNode] at hn
      rw [hn, Option.map_some]

/-- From any rebalance on, every sequence of calls keeps every replica in the chain. -/
theorem topology_keeps_shape (t t₀ t' : TopologyManager) (healthyNodes : List String) (calls : List Call)
    (h : t.rebalance healthyNodes = .ok t₀)
    (hrun : Transition.run (Transition.restrict Allowed call) t₀ calls = some t') :
    t'.leaderId = t₀.leaderId ∧ t'.Sound := by
  have hinv : (t'.Chained fun _ => False) ∧ t'.leaderId = t₀.leaderId := by
    refine Transition.run_invariant (fun u => (u.Chained fun _ => False) ∧ u.leaderId = t₀.leaderId) ?_
      ⟨rebalance_chained h, rfl⟩ hrun
    rintro u c v ⟨hu, hleader⟩ hstep
    obtain ⟨hc, hcall⟩ := Transition.restrict_eq_some.mp hstep
    obtain ⟨hv, hsame⟩ := hu.call hc hcall
    exact ⟨hv, hsame.trans hleader⟩
  exact ⟨hinv.2, hinv.1.sound⟩

/-- A leader with four peers loses a mentor, swaps followers and takes the peer back. -/
theorem topology_keeps_shape_after_failover :
    ∃ t₀ t', ((TopologyManager.create "a" "a").setLeader "a").rebalance ["b", "c", "d", "e"] = .ok t₀ ∧
      Transition.run (Transition.restrict Allowed call) t₀
        [.markUnhealthy "b", .promoteToMentor "d", .swapFollowers "c" "d", .markHealthy "b"] = some t' ∧
      t'.Sound := by
  obtain ⟨t₀, t', h, hrun⟩ : ∃ t₀ t',
      ((TopologyManager.create "a" "a").setLeader "a").rebalance ["b", "c", "d", "e"] = .ok t₀ ∧
      Transition.run (Transition.restrict Allowed call) t₀
        [.markUnhealthy "b", .promoteToMentor "d", .swapFollowers "c" "d", .markHealthy "b"] = some t' :=
    ⟨_, _, rfl, rfl⟩
  exact ⟨t₀, t', h, hrun, (topology_keeps_shape _ t₀ t' _ _ h hrun).2⟩

end RaftVdb.TopologyManager
