import RaftVdb.LocalView

/-!
# Who holds the leader role

The leader is recorded twice, as `leader_id_` and as the role of a row. A mutator that
records another leader gives it the role; whether the previous holder loses it depends
on the mutator, and `Yields` says when it does.
-/

namespace RaftVdb.TopologyManager

open Lib

/-- At most one row has the leader role, and it is the row of a recorded leader. -/
structure OneLeader (t : TopologyManager) : Prop where
  unique : ∀ x y, t.getRole x = .leader → t.getRole y = .leader → x = y
  recorded : t.leaderId ≠ "" → ∀ x, t.getRole x = .leader → x = t.leaderId

inductive Op where
  | setSelf (selfId selfAddr : String)
  | setLeader (leaderId leaderAddr : String)
  | registerNode (nodeId addr : String)
  | rebalance (healthyNodes : List String)
  | promoteToMentor (nodeId : String)
  | demoteToFollower (nodeId : String)
  | swapFollowers (mentorA mentorB : String)
  | markUnhealthy (nodeId : String)
  | markHealthy (nodeId : String)
  | fromProto (nodeId : String) (proto : TopologyInfo) (nodeAddr : String)
  deriving DecidableEq, Repr

/-- A call that returns an error has changed nothing. -/
def apply (t : TopologyManager) : Op → TopologyManager
  | .setSelf selfId selfAddr => t.setSelf selfId selfAddr
  | .setLeader leaderId leaderAddr => t.setLeader leaderId leaderAddr
  | .registerNode nodeId addr => t.registerNode nodeId addr
  | .rebalance healthyNodes => (t.rebalance healthyNodes).toOption.getD t
  | .promoteToMentor nodeId => t.promoteToMentor nodeId
  | .demoteToFollower nodeId => t.demoteToFollower nodeId
  | .swapFollowers mentorA mentorB => t.swapFollowers mentorA mentorB
  | .markUnhealthy nodeId => t.markUnhealthy nodeId
  | .markHealthy nodeId => t.markHealthy nodeId
  | .fromProto nodeId proto nodeAddr => (t.fromProto nodeId proto nodeAddr).toOption.getD t

/-- No row keeps the leader role but that of the leader which the call records. -/
def Yields (t : TopologyManager) : Op → Prop
  | .setLeader leaderId _ => leaderId = "" ∨ ∀ x, t.getRole x = .leader → x = leaderId
  | .fromProto nodeId proto _ =>
    nodeId = "" ∨ match parseRole proto.role with
      | .ok .leader => ∀ x, t.getRole x = .leader → x = nodeId
      | .ok .mentor => proto.sourceNodeId = "" ∨ ∀ x, t.getRole x = .leader →
          x = nodeId ∨ x = proto.sourceNodeId ∨
          (proto.sourceNodeId ≠ nodeId ∧ proto.followerNodeId ≠ "" ∧ x = proto.followerNodeId)
      | _ => True
  | _ => True

/-- The property holds now and after every call. -/
def OneLeaderAlong (t : TopologyManager) : List Op → Prop
  | [] => t.OneLeader
  | op :: ops => t.OneLeader ∧ (t.apply op).OneLeaderAlong ops

def YieldsAlong (t : TopologyManager) : List Op → Prop
  | [] => True
  | op :: ops => t.Yields op ∧ (t.apply op).YieldsAlong ops

/-! ## Calls that record no other leader -/

variable {t t' t'' : TopologyManager} {id x : String}

/-- The recorded leader stays, and no other row gains the role. -/
structure Narrows (t t' : TopologyManager) : Prop where
  leaderId : t'.leaderId = t.leaderId
  role : ∀ x, t'.getRole x = .leader → t.getRole x = .leader ∨ (t.leaderId ≠ "" ∧ x = t.leaderId)

theorem Narrows.refl (t : TopologyManager) : Narrows t t := ⟨rfl, fun _ => .inl⟩

theorem Narrows.trans (h : Narrows t t') (h' : Narrows t' t'') : Narrows t t'' := by
  refine ⟨h'.leaderId.trans h.leaderId, fun x hx => ?_⟩
  cases h'.role x hx with
  | inl hx => exact h.role x hx
  | inr hx =>
    rw [h.leaderId] at hx
    exact .inr hx

theorem OneLeader.narrows (h : t.OneLeader) (hn : Narrows t t') : t'.OneLeader := by
  have hlead : t.leaderId ≠ "" → ∀ x, t'.getRole x = .leader → x = t.leaderId := by
    intro hne x hx
    cases hn.role x hx with
    | inl hold => exact h.recorded hne x hold
    | inr hroot => exact hroot.2
  constructor
  · intro x y hx hy
    by_cases hne : t.leaderId = ""
    · have hold : ∀ z, t'.getRole z = .leader → t.getRole z = .leader := fun z hz =>
        (hn.role z hz).resolve_right fun hroot => hroot.1 hne
      exact h.unique x y (hold x hx) (hold y hy)
    · exact (hlead hne x hx).trans (hlead hne y hy).symm
  · rw [hn.leaderId]
    exact hlead

theorem getRole_adjustNode (t : TopologyManager) (id x : String) (f : NodeInfo → NodeInfo) :
    (t.adjustNode id f).getRole x =
      if x = id then ((t.nodes.find? id).map fun n => (f n).role).getD .follower else t.getRole x := by
  by_cases hx : x = id
  · subst hx
    simp [getRole, adjustNode, Option.map_map, Function.comp_def]
  · simp [getRole, adjustNode, Table.find?_adjust_other _ _ _ _ hx, hx]

theorem getRole_adjustNode_keep (t : TopologyManager) (id x : String) {f : NodeInfo → NodeInfo}
    (h : ∀ n, (f n).role = n.role) : (t.adjustNode id f).getRole x = t.getRole x := by
  rw [getRole_adjustNode]
  by_cases hx : x = id
  · simp [hx, h, getRole]
  · rw [if_neg hx]

theorem getRole_ensureNode (t : TopologyManager) (id x : String) : (t.ensureNode id).getRole x = t.getRole x := by
  rw [getRole_eq_shape, getRole_eq_shape, shape_ensureNode]
  by_cases hx : x = id
  · subst hx
    cases t.shape x <;> simp
  · rw [if_neg hx]

theorem narrows_keep (t : TopologyManager) (id : String) {f : NodeInfo → NodeInfo}
    (h : ∀ n, (f n).role = n.role) : Narrows t (t.adjustNode id f) := by
  refine ⟨rfl, fun x hx => ?_⟩
  rw [getRole_adjustNode_keep t id x h] at hx
  exact .inl hx

theorem narrows_below (t : TopologyManager) (id : String) {f : NodeInfo → NodeInfo}
    (h : ∀ n, (f n).role ≠ .leader) : Narrows t (t.adjustNode id f) := by
  refine ⟨rfl, fun x hx => ?_⟩
  rw [getRole_adjustNode] at hx
  by_cases hxid : x = id
  · rw [if_pos hxid] at hx
    cases hn : t.nodes.find? id with
    | none => simp [hn] at hx
    | some n =>
      rw [hn] at hx
      exact absurd hx (h n)
  · rw [if_neg hxid] at hx
    exact .inl hx

theorem narrows_root (t : TopologyManager) (hid : id = t.leaderId) (hne : id ≠ "") (f : NodeInfo → NodeInfo) :
    Narrows t (t.adjustNode id f) := by
  refine ⟨rfl, fun x hx => ?_⟩
  by_cases hxid : x = id
  · exact .inr ⟨hid ▸ hne, hxid.trans hid⟩
  · rw [getRole_adjustNode, if_neg hxid] at hx
    exact .inl hx

theorem narrows_ensureNode (t : TopologyManager) (id : String) : Narrows t (t.ensureNode id) := by
  refine ⟨rfl, fun x hx => ?_⟩
  rw [getRole_ensureNode] at hx
  exact .inl hx

theorem narrows_ensureLeader (t : TopologyManager) : Narrows t t.ensureLeader := by
  rw [ensureLeader]
  by_cases hl : t.leaderId = ""
  · rw [if_pos hl]
    exact .refl t
  · rw [if_neg hl]
    exact (narrows_ensureNode t t.leaderId).trans (narrows_root (t.ensureNode t.leaderId) rfl hl _)

theorem narrows_reassignFollowers (t : TopologyManager) (old exclude : String) :
    Narrows t (t.reassignFollowers old exclude) := by
  have hall : ∀ (orphans : List String) (t : TopologyManager), Narrows t (orphans.foldl (fun t followerId =>
      t.adjustNode followerId fun n => { n with sourceNodeId := t.selectSourceForFollower followerId }) t) := by
    intro orphans
    induction orphans with
    | nil => exact .refl
    | cons x orphans ih =>
      intro t
      rw [List.foldl_cons]
      exact .trans (narrows_keep t x (f := fun n => { n with sourceNodeId := t.selectSourceForFollower x })
        fun _ => rfl) (ih _)
  rw [reassignFollowers]
  split
  · exact .refl t
  · exact hall _ t

theorem narrows_registered (t : TopologyManager) (registeredAddrs : Table String String) :
    Narrows t { t with registeredAddrs } := ⟨rfl, fun _ => .inl⟩

theorem narrows_setSelf (t : TopologyManager) (selfId selfAddr : String) :
    Narrows t (t.setSelf selfId selfAddr) := by
  have hself : Narrows t { t with selfId, selfAddr } := ⟨rfl, fun _ => .inl⟩
  rw [setSelf]
  by_cases hid : selfId = ""
  · simpa only [hid, if_true] using hself
  · simp only [hid, if_false]
    exact hself.trans ((narrows_registered _ _).trans ((narrows_ensureNode _ selfId).trans
      (narrows_keep _ selfId fun _ => rfl)))

theorem narrows_registerNode (t : TopologyManager) (nodeId addr : String) :
    Narrows t (t.registerNode nodeId addr) := by
  rw [registerNode]
  by_cases hid : nodeId = ""
  · rw [if_pos hid]
    exact .refl t
  · rw [if_neg hid]
    exact (narrows_registered _ _).trans ((narrows_ensureNode _ nodeId).trans (narrows_keep _ nodeId fun _ => rfl))

theorem narrows_ensure (t : TopologyManager) (id : String) : Narrows t (t.ensureLeader.ensureNode id) :=
  (narrows_ensureLeader t).trans (narrows_ensureNode _ id)

theorem narrows_promoteToMentor (t : TopologyManager) (nodeId : String) :
    Narrows t (t.promoteToMentor nodeId) := by
  rw [promoteToMentor]
  by_cases hid : nodeId = ""
  · rw [if_pos hid]
    exact .refl t
  · rw [if_neg hid]
    by_cases hl : nodeId = t.leaderId
    · exact (narrows_ensure t nodeId).trans (narrows_root _ (hl.trans (leaderId_ensure t nodeId).symm) hid _)
    · refine (narrows_ensure t nodeId).trans (narrows_below _ nodeId fun n => ?_)
      simp [hl]

theorem narrows_demoteToFollower (t : TopologyManager) (nodeId : String) :
    Narrows t (t.demoteToFollower nodeId) := by
  rw [demoteToFollower]
  by_cases hid : nodeId = "" ∨ nodeId = t.leaderId
  · rw [if_pos hid]
    exact .refl t
  · rw [if_neg hid]
    refine (narrows_ensure t nodeId).trans (.trans (narrows_below _ nodeId fun n => ?_) (.trans
      (narrows_keep _ nodeId fun _ => ?_) (.trans (narrows_keep _ nodeId fun _ => ?_)
        (narrows_reassignFollowers _ nodeId nodeId))))
    · simp
    · rfl
    · rfl

theorem narrows_swapFollowers (t : TopologyManager) (a b : String) : Narrows t (t.swapFollowers a b) := by
  rw [swapFollowers]
  split
  · exact .refl t
  dsimp only
  cases t.findFollowerIdOf a with
  | none =>
    cases t.findFollowerIdOf b with
    | none => exact .refl t
    | some g => exact narrows_keep t g fun _ => rfl
  | some f =>
    have hfirst : Narrows t (t.adjustNode f fun n => { n with sourceNodeId := b }) := narrows_keep t f fun _ => rfl
    cases t.findFollowerIdOf b with
    | none => exact hfirst
    | some g => exact hfirst.trans (narrows_keep _ g fun _ => rfl)

theorem narrows_markUnhealthy (t : TopologyManager) (nodeId : String) :
    Narrows t (t.markUnhealthy nodeId) := by
  have hdown : Narrows t ((t.ensureNode nodeId).adjustNode nodeId fun n => { n with healthy := false }) :=
    (narrows_ensureNode t nodeId).trans (narrows_keep _ nodeId fun _ => rfl)
  rw [markUnhealthy]
  by_cases hid : nodeId = ""
  · rw [if_pos hid]
    exact .refl t
  · rw [if_neg hid]
    dsimp only
    split
    · next hl => exact hdown.trans (narrows_root _ hl hid _)
    · refine hdown.trans (.trans (narrows_below _ nodeId fun n => ?_) (narrows_reassignFollowers _ _ _))
      simp

theorem narrows_markHealthy (t : TopologyManager) (nodeId : String) : Narrows t (t.markHealthy nodeId) := by
  have hup : Narrows t ((t.ensureLeader.ensureNode nodeId).adjustNode nodeId fun n => { n with
      healthy := true
      addr := (t.ensureLeader.ensureNode nodeId).resolveAddress nodeId }) :=
    (narrows_ensure t nodeId).trans (narrows_keep _ nodeId fun _ => rfl)
  rw [markHealthy]
  by_cases hid : nodeId = ""
  · rw [if_pos hid]
    exact .refl t
  · rw [if_neg hid]
    dsimp only
    split
    · next hl => exact hup.trans (narrows_root _ hl hid _)
    · split
      · refine hup.trans (.trans (narrows_below _ nodeId fun n => ?_) (narrows_keep _ nodeId fun _ => rfl))
        simp
      · exact hup

/-! ## Calls that may record another leader -/

theorem getRole_setLeader (t : TopologyManager) (l addr x : String) :
    (t.setLeader l addr).getRole x = if l ≠ "" ∧ x = l then .leader else t.getRole x := by
  rw [getRole_eq_shape, shape_setLeader, getRole_eq_shape]
  split <;> rfl

theorem oneLeader_iff_of_recorded (h : t.leaderId ≠ "") :
    t.OneLeader ↔ ∀ x, t.getRole x = .leader → x = t.leaderId := by
  constructor
  · exact fun hone => hone.recorded h
  · exact fun hall => ⟨fun x y hx hy => (hall x hx).trans (hall y hy).symm, fun _ => hall⟩

theorem setLeader_iff (h : t.OneLeader) (l addr : String) :
    (t.setLeader l addr).OneLeader ↔ l = "" ∨ ∀ x, t.getRole x = .leader → x = l := by
  by_cases hl : l = ""
  · simp only [hl, true_or, iff_true]
    have hroles := fun x => getRole_setLeader t "" addr x
    simp only [ne_eq, not_true_eq_false, false_and, if_false] at hroles
    constructor
    · intro x y hx hy
      rw [hroles] at hx hy
      exact h.unique x y hx hy
    · simp
  · have hroles := fun x => getRole_setLeader t l addr x
    simp only [ne_eq, hl, not_false_eq_true, true_and] at hroles
    rw [oneLeader_iff_of_recorded (by simpa using hl)]
    simp only [leaderId_setLeader, hl, false_or, hroles]
    constructor
    · intro hall x hx
      by_contra hne
      exact hne (hall x (by rw [if_neg hne]; exact hx))
    · intro hall x hx
      by_cases hne : x = l
      · exact hne
      · rw [if_neg hne] at hx
        exact hall x hx

theorem rebalance_oneLeader {hs : List String} (h : t.rebalance hs = .ok t') : t'.OneLeader := by
  have hne := ((rebalance_eq_ok t hs t').mp h).1
  have hlead := leaderId_rebalance h
  rw [oneLeader_iff_of_recorded (hlead ▸ hne)]
  intro x hx
  rw [getRole_eq_shape] at hx
  cases hs : t'.shape x with
  | none => simp [hs] at hx
  | some s => exact (rebalance_chained h).eq_leader_of_role hs (by simpa [hs] using hx)

theorem getRole_noteAddress (t : TopologyManager) (id addr x : String) :
    (t.noteAddress id addr).getRole x = t.getRole x := by
  rw [getRole_eq_shape, shape_noteAddress, getRole_eq_shape]

theorem getRole_adoptRole (t : TopologyManager) (hid : id ≠ "") (role : NodeRole) (s x : String) :
    (t.adoptRole id role s).getRole x =
      if role = .mentor ∧ s ≠ "" ∧ x = s then .leader else if x = id then role else t.getRole x := by
  rw [getRole_eq_shape, getRole_eq_shape]
  cases role with
  | leader =>
    rw [shape_adoptRole_leader t hid]
    by_cases hx : x = id <;> simp [hx]
  | mentor =>
    rw [shape_adoptRole_mentor]
    by_cases hs : s ≠ "" ∧ x = s
    · simp [hs]
    · by_cases hx : x = id
      · rw [if_neg hs, if_pos hx, if_neg fun h => hs h.2, if_pos hx]
        rfl
      · rw [if_neg hs, if_neg hx, if_neg fun h => hs h.2, if_neg hx]
  | follower =>
    rw [shape_adoptRole_follower]
    by_cases hx : x = id
    · simp [hx]
    · by_cases hs : s ≠ "" ∧ x = s
      · rw [if_neg hx, if_pos hs]
        cases t.shape x <;> simp [hx]
      · simp [hx, hs]

theorem getRole_adoptFollower (t : TopologyManager) (id f x : String) :
    (t.adoptFollower id f).getRole x = if f ≠ "" ∧ x = f then .follower else t.getRole x := by
  rw [getRole_eq_shape, getRole_eq_shape, shape_adoptFollower]
  by_cases hf : f ≠ "" ∧ x = f
  · rw [if_pos hf, if_pos hf]
    rfl
  · rw [if_neg hf, if_neg hf]
    by_cases hst : t.findFollowerIdOf id = some x ∧ x ≠ f
    · have hfollows := find_follower_some hst.1
      rw [Follows] at hfollows
      rw [if_pos hst, hfollows]
      rfl
    · rw [if_neg hst]

theorem getRole_normalizeMentorSources (t : TopologyManager) (x : String) :
    t.normalizeMentorSources.getRole x = if t.leaderId ≠ "" ∧ x = t.leaderId then .leader else t.getRole x := by
  by_cases hl : t.leaderId = ""
  · simp [normalizeMentorSources, hl]
  · rw [getRole_eq_shape, getRole_eq_shape, shape_normalizeMentorSources t hl]
    by_cases hx : x = t.leaderId
    · simp [hx, hl]
    · rw [if_neg hx, if_neg fun h => hx h.2]
      cases t.shape x with
      | none => rfl
      | some s => by_cases hrole : s.role = .mentor <;> simp [hrole]

/-- The leader that a message records. -/
def namedLeader (t : TopologyManager) (id : String) (role : NodeRole) (s : String) : String :=
  if role = .leader then id else if role = .mentor ∧ s ≠ "" then s else t.leaderId

/-- The roles after a message, for every row. -/
theorem roles_fromProto (hid : id ≠ "") {m : TopologyInfo} {role : NodeRole} {addr : String}
    (hrole : parseRole m.role = .ok role) (h : t.fromProto id m addr = .ok t') :
    t'.leaderId = t.namedLeader id role m.sourceNodeId ∧ ∀ x, t'.getRole x =
      if t'.leaderId ≠ "" ∧ x = t'.leaderId then .leader
      else if role = .mentor ∧ m.sourceNodeId ≠ id ∧ m.followerNodeId ≠ "" ∧ x = m.followerNodeId then .follower
      else if x = id then role else t.getRole x := by
  have hroles := fun x => getRole_adoptRole (t.noteAddress id addr) hid role m.sourceNodeId x
  have hlead : ((t.noteAddress id addr).adoptRole id role m.sourceNodeId).leaderId =
      t.namedLeader id role m.sourceNodeId := by
    rw [leaderId_adoptRole, leaderId_noteAddress, namedLeader]
  simp only [getRole_noteAddress] at hroles
  rw [fromProto_eq t hid hrole] at h
  have heq := (Except.ok.inj h).symm
  generalize (t.noteAddress id addr).adoptRole id role m.sourceNodeId = a at hroles hlead heq
  have hmentor : a.getRole id = .mentor ↔ role = .mentor ∧ m.sourceNodeId ≠ id := by
    rw [hroles]
    by_cases hs : role = .mentor ∧ m.sourceNodeId ≠ "" ∧ id = m.sourceNodeId
    · rw [if_pos hs]
      simp [hs.2.2.symm]
    · rw [if_neg hs, if_pos rfl]
      constructor
      · rintro rfl
        exact ⟨rfl, fun he => hs ⟨rfl, he ▸ hid, he.symm⟩⟩
      · exact fun h => h.1
  have hrest : ∀ x, ¬ (t.namedLeader id role m.sourceNodeId ≠ "" ∧ x = t.namedLeader id role m.sourceNodeId) →
      a.getRole x = if x = id then role else t.getRole x := by
    intro x hx
    rw [hroles, if_neg]
    rintro ⟨rfl, hs, rfl⟩
    simp [namedLeader, hs] at hx
  by_cases hm : a.getRole id = .mentor
  · rw [if_pos hm] at heq
    subst heq
    refine ⟨by simp [hlead], fun x => ?_⟩
    rw [getRole_normalizeMentorSources, leaderId_normalizeMentorSources, leaderId_adoptFollower,
      getRole_adoptFollower, hlead]
    by_cases hx : t.namedLeader id role m.sourceNodeId ≠ "" ∧ x = t.namedLeader id role m.sourceNodeId
    · rw [if_pos hx, if_pos hx]
    · rw [if_neg hx, if_neg hx, hrest x hx]
      simp only [hmentor.mp hm, ne_eq, not_false_eq_true, true_and]
  · rw [if_neg hm] at heq
    subst heq
    refine ⟨by simp [hlead], fun x => ?_⟩
    rw [getRole_normalizeMentorSources, leaderId_normalizeMentorSources, hlead]
    by_cases hx : t.namedLeader id role m.sourceNodeId ≠ "" ∧ x = t.namedLeader id role m.sourceNodeId
    · rw [if_pos hx, if_pos hx]
    · have hnot : ¬ (role = .mentor ∧ m.sourceNodeId ≠ id ∧ m.followerNodeId ≠ "" ∧ x = m.followerNodeId) :=
        fun h => hm (hmentor.mpr ⟨h.1, h.2.1⟩)
      rw [if_neg hx, if_neg hx, if_neg hnot, hrest x hx]

/-- Who keeps the role through a message: the holders before that it does not write over. -/
theorem fromProto_iff (h : t.OneLeader) (hid : id ≠ "") {m : TopologyInfo} {role : NodeRole} {addr : String}
    (hrole : parseRole m.role = .ok role) (hok : t.fromProto id m addr = .ok t') :
    t'.OneLeader ↔ role = .follower ∨ (role = .mentor ∧ m.sourceNodeId = "") ∨
      ∀ x, t.getRole x = .leader → x = t.namedLeader id role m.sourceNodeId ∨ x = id ∨
        (role = .mentor ∧ m.sourceNodeId ≠ id ∧ m.followerNodeId ≠ "" ∧ x = m.followerNodeId) := by
  obtain ⟨hlead, hroles⟩ := roles_fromProto hid hrole hok
  have hgain : ∀ x, t'.getRole x = .leader → (t'.leaderId ≠ "" ∧ x = t'.leaderId) ∨
      (t.getRole x = .leader ∧ x ≠ id ∧
        ¬ (role = .mentor ∧ m.sourceNodeId ≠ id ∧ m.followerNodeId ≠ "" ∧ x = m.followerNodeId)) := by
    intro x hx
    rw [hroles] at hx
    by_cases hroot : t'.leaderId ≠ "" ∧ x = t'.leaderId
    · exact .inl hroot
    · rw [if_neg hroot] at hx
      split at hx
      · cases hx
      · next hf =>
        split at hx
        · next hxid =>
          subst hx
          rw [namedLeader, if_pos rfl] at hlead
          exact absurd ⟨hlead ▸ hid, hxid.trans hlead.symm⟩ hroot
        · next hxid => exact .inr ⟨hx, hxid, hf⟩
  have hsame : (role = .follower ∨ (role = .mentor ∧ m.sourceNodeId = "")) → t'.leaderId = t.leaderId := by
    rintro (rfl | ⟨rfl, hs⟩)
    · simpa [namedLeader] using hlead
    · simpa [namedLeader, hs] using hlead
  by_cases hkeep : role = .follower ∨ (role = .mentor ∧ m.sourceNodeId = "")
  · have hn : Narrows t t' := by
      refine ⟨hsame hkeep, fun x hx => ?_⟩
      rw [← hsame hkeep]
      cases hgain x hx with
      | inl hroot => exact .inr hroot
      | inr hold => exact .inl hold.1
    have htrue := h.narrows hn
    simp only [htrue, true_iff]
    exact hkeep.imp_right .inl
  · have hne : t'.leaderId ≠ "" := by
      rw [hlead]
      cases role with
      | leader => simp [namedLeader, hid]
      | mentor =>
        have hs : m.sourceNodeId ≠ "" := fun hs => hkeep (.inr ⟨rfl, hs⟩)
        simp [namedLeader, hs]
      | follower => exact absurd (.inl rfl) hkeep
    rw [oneLeader_iff_of_recorded hne, ← hlead]
    constructor
    · intro hall
      refine .inr (.inr fun x hx => ?_)
      by_contra hnot
      simp only [not_or] at hnot
      have hkept := hroles x
      rw [if_neg fun hroot => hnot.1 hroot.2, if_neg hnot.2.2, if_neg hnot.2.1, hx] at hkept
      exact hnot.1 (hall x hkept)
    · intro hcond x hx
      have hall := (hcond.resolve_left fun hf => hkeep (.inl hf)).resolve_left fun hm => hkeep (.inr hm)
      cases hgain x hx with
      | inl hroot => exact hroot.2
      | inr hold => exact (hall x hold.1).elim (fun heq => heq) fun hor => absurd hor (not_or.mpr hold.2)

/-! ## Whole sequences -/

/-- One call keeps the property exactly when every other holder yields the role. -/
theorem apply_oneLeader_iff (h : t.OneLeader) (op : Op) : (t.apply op).OneLeader ↔ t.Yields op := by
  cases op with
  | setSelf selfId selfAddr => exact iff_of_true (h.narrows (narrows_setSelf t selfId selfAddr)) trivial
  | setLeader leaderId leaderAddr => exact setLeader_iff h leaderId leaderAddr
  | registerNode nodeId addr => exact iff_of_true (h.narrows (narrows_registerNode t nodeId addr)) trivial
  | rebalance healthyNodes =>
    refine iff_of_true ?_ trivial
    rw [apply]
    cases hr : t.rebalance healthyNodes with
    | error e => exact h
    | ok t' => exact rebalance_oneLeader hr
  | promoteToMentor nodeId => exact iff_of_true (h.narrows (narrows_promoteToMentor t nodeId)) trivial
  | demoteToFollower nodeId => exact iff_of_true (h.narrows (narrows_demoteToFollower t nodeId)) trivial
  | swapFollowers mentorA mentorB => exact iff_of_true (h.narrows (narrows_swapFollowers t mentorA mentorB)) trivial
  | markUnhealthy nodeId => exact iff_of_true (h.narrows (narrows_markUnhealthy t nodeId)) trivial
  | markHealthy nodeId => exact iff_of_true (h.narrows (narrows_markHealthy t nodeId)) trivial
  | fromProto nodeId proto nodeAddr =>
    rw [apply, Yields]
    by_cases hid : nodeId = ""
    · simp only [hid, true_or, iff_true, fromProto, if_true]
      exact h
    · cases hrole : parseRole proto.role with
      | error e =>
        simp only [or_true, iff_true, fromProto, hid, if_false, hrole]
        exact h
      | ok role =>
        have hok := fromProto_eq t hid hrole nodeAddr
        rw [hok]
        refine (fromProto_iff h hid hrole hok).trans ?_
        cases role with
        | leader => simp [namedLeader, hid]
        | follower => simp
        | mentor =>
          by_cases hs : proto.sourceNodeId = ""
          · simp [hs]
          · simp [namedLeader, hs, hid, or_left_comm]

theorem oneLeaderAlong_iff (ops : List Op) (t : TopologyManager) (h : t.OneLeader) :
    t.OneLeaderAlong ops ↔ t.YieldsAlong ops := by
  induction ops generalizing t with
  | nil => exact iff_of_true h trivial
  | cons op ops ih =>
    rw [OneLeaderAlong, YieldsAlong]
    simp only [h, true_and]
    rw [← apply_oneLeader_iff h op]
    constructor
    · intro hrun
      have hnext : (t.apply op).OneLeader := by
        cases ops with
        | nil => exact hrun
        | cons op' ops => exact hrun.1
      exact ⟨hnext, (ih _ hnext).mp hrun⟩
    · rintro ⟨hnext, hrun⟩
      exact (ih _ hnext).mpr hrun

theorem oneLeader_create (selfId selfAddr : String) : (create selfId selfAddr).OneLeader := by
  have hempty : OneLeader { selfId, selfAddr } := by
    constructor
    · intro x y hx
      simp [getRole] at hx
    · simp
  rw [create]
  by_cases hid : selfId = ""
  · rw [if_pos hid]
    exact hempty
  · rw [if_neg hid]
    exact hempty.narrows (narrows_registerNode _ selfId selfAddr)

/-- In every sequence of calls the leader role is unique exactly as long as every call that
records another leader writes over the previous holder. -/
theorem leader_role_unique_iff (selfId selfAddr : String) (ops : List Op) :
    (create selfId selfAddr).OneLeaderAlong ops ↔ (create selfId selfAddr).YieldsAlong ops :=
  oneLeaderAlong_iff ops _ (oneLeader_create selfId selfAddr)

/-- A follower that hears of two leaders in turn. -/
theorem set_leader_twice_keeps_both : let t := ((create "c" "c").setLeader "a").setLeader "b"
    t.leaderId = "b" ∧ t.getRole "a" = .leader ∧ t.getRole "b" = .leader ∧ ¬ t.OneLeader ∧
      ¬ (create "c" "c").OneLeaderAlong [.setLeader "a" "", .setLeader "b" ""] := by
  intro t
  have hnot : ¬ t.OneLeader := fun h => absurd (h.unique "a" "b" rfl rfl) (by decide)
  exact ⟨rfl, rfl, rfl, hnot, fun h => hnot h.2.2⟩

end RaftVdb.TopologyManager
