import Mathlib.Data.List.Find
import RaftVdb.ChainShape
import RaftVdb.TwoLevels

/-!
# The topology of a peer after a broadcast

A peer learns its place in the chain from a message of the leader and keeps the rest
of its map as it was. `fromProto` looks for one downstream node to clear, by a scan of
an unordered map, so what a mentor forwards to afterwards depends on how many stale
followers its map still holds.
-/

namespace RaftVdb.TopologyManager

open Lib

variable {t t' : TopologyManager} {id x : String}

/-! ## The rows that a message writes -/

theorem shape_ensure_adjust (t : TopologyManager) (id x : String) {f : NodeInfo → NodeInfo} {s : Shape}
    (h : ∀ n, (f n).shape = s) :
    ((t.ensureNode id).adjustNode id f).shape x = if x = id then some s else t.shape x := by
  by_cases hx : x = id
  · subst hx
    rw [if_pos rfl, shape_adjustNode_self _ _ _ (fun _ => s) h, shape_ensureNode, if_pos rfl, Option.map_some]
  · rw [if_neg hx, shape_adjustNode_other _ _ _ _ hx, shape_ensureNode, if_neg hx]

@[simp] theorem leaderId_setLeader (t : TopologyManager) (l addr : String) :
    (t.setLeader l addr).leaderId = l := by
  by_cases haddr : addr = "" <;> simp [setLeader, haddr]

theorem shape_setLeader (t : TopologyManager) (l addr x : String) :
    (t.setLeader l addr).shape x = if l ≠ "" ∧ x = l then some ⟨.leader, "", true⟩ else t.shape x := by
  by_cases hl : l = ""
  · by_cases haddr : addr = "" <;> simp [setLeader, haddr, hl, ensureLeader, shape]
  · by_cases haddr : addr = ""
    · simp only [setLeader, haddr, if_true, ne_eq, hl, not_false_eq_true, true_and]
      exact shape_ensureLeader { t with leaderId := l } hl x
    · simp only [setLeader, haddr, if_false, ne_eq, hl, not_false_eq_true, true_and]
      exact shape_ensureLeader { t with
        leaderId := l
        registeredAddrs := t.registeredAddrs.insert l addr
        selfAddr := if l = t.selfId then addr else t.selfAddr } hl x

/-- A known address of the node itself is noted before the message is applied. -/
def noteAddress (t : TopologyManager) (id addr : String) : TopologyManager :=
  if addr = "" then t
  else { t with
    registeredAddrs := t.registeredAddrs.insert id addr
    selfAddr := if id = t.selfId then addr else t.selfAddr }

@[simp] theorem shape_noteAddress (t : TopologyManager) (id addr x : String) :
    (t.noteAddress id addr).shape x = t.shape x := by
  by_cases haddr : addr = "" <;> simp [noteAddress, haddr, shape]

@[simp] theorem leaderId_noteAddress (t : TopologyManager) (id addr : String) :
    (t.noteAddress id addr).leaderId = t.leaderId := by
  by_cases haddr : addr = "" <;> simp [noteAddress, haddr]

theorem fromProto_eq (t : TopologyManager) (hid : id ≠ "") {m : TopologyInfo} {role : NodeRole}
    (hrole : parseRole m.role = .ok role) (addr : String) :
    t.fromProto id m addr = .ok (if ((t.noteAddress id addr).adoptRole id role m.sourceNodeId).getRole id = .mentor
      then (((t.noteAddress id addr).adoptRole id role m.sourceNodeId).adoptFollower id
        m.followerNodeId).normalizeMentorSources
      else ((t.noteAddress id addr).adoptRole id role m.sourceNodeId).normalizeMentorSources) := by
  rw [fromProto, if_neg hid, hrole]
  by_cases hmentor : ((t.noteAddress id addr).adoptRole id role m.sourceNodeId).getRole id = .mentor
  · rw [if_pos hmentor]
    rw [noteAddress] at hmentor ⊢
    simp only [hmentor, if_true]
  · rw [if_neg hmentor]
    rw [noteAddress] at hmentor ⊢
    simp only [hmentor, if_false]

theorem leaderId_adoptRole (t : TopologyManager) (id : String) (role : NodeRole) (s : String) :
    (t.adoptRole id role s).leaderId =
      if role = .leader then id else if role = .mentor ∧ s ≠ "" then s else t.leaderId := by
  cases role with
  | leader => simp [adoptRole]
  | mentor =>
    by_cases hs : s = "" <;> simp [adoptRole, hs]
  | follower =>
    by_cases hs : s = "" <;> simp [adoptRole, hs]

theorem shape_adoptRole_leader (t : TopologyManager) (hid : id ≠ "") (s x : String) :
    (t.adoptRole id .leader s).shape x = if x = id then some ⟨.leader, "", true⟩ else t.shape x := by
  simp only [adoptRole, if_true]
  rw [shape_ensureLeader _ (by simpa using hid)]
  by_cases hx : x = id
  · rw [if_pos (by simpa using hx), if_pos hx]
  · rw [if_neg (by simpa using hx), if_neg hx, shape_adjustNode_other _ _ _ _ hx]
    exact (shape_ensure_adjust t id x fun n => rfl).trans (if_neg hx)

theorem shape_adoptRole_mentor (t : TopologyManager) (id s x : String) :
    (t.adoptRole id .mentor s).shape x =
      if s ≠ "" ∧ x = s then some ⟨.leader, "", true⟩
      else if x = id then some ⟨.mentor, s, true⟩ else t.shape x := by
  by_cases hs : s = ""
  · simp only [adoptRole, reduceCtorEq, if_false, hs, ne_eq, not_true_eq_false, false_and]
    exact shape_ensure_adjust t id x fun n => rfl
  · simp only [adoptRole, reduceCtorEq, if_false, ne_eq, hs, not_false_eq_true, if_true, true_and]
    by_cases hx : x = s
    · subst hx
      rw [if_pos rfl]
      refine (shape_adjustNode_self _ x _ (fun s => { s with role := .leader, source := "" }) fun n => rfl).trans ?_
      have hup := shape_bringUp ((t.ensureNode id).adjustNode id fun n =>
        { n with
          addr := (t.ensureNode id).resolveAddress id
          role := .mentor
          sourceNodeId := x
          healthy := true }) x x
      rw [if_pos rfl] at hup
      exact congrArg (Option.map fun s : Shape => { s with role := .leader, source := "" }) hup
    · rw [if_neg hx]
      refine (shape_adjustNode_other _ _ _ _ hx).trans ?_
      have hup := shape_bringUp ((t.ensureNode id).adjustNode id fun n =>
        { n with
          addr := (t.ensureNode id).resolveAddress id
          role := .mentor
          sourceNodeId := s
          healthy := true }) s x
      rw [if_neg hx] at hup
      exact hup.trans (shape_ensure_adjust t id x fun n => rfl)

theorem shape_adoptRole_follower (t : TopologyManager) (id s x : String) :
    (t.adoptRole id .follower s).shape x =
      if x = id then some ⟨.follower, s, true⟩
      else if s ≠ "" ∧ x = s then some { (t.shape x).getD ⟨.follower, "", true⟩ with healthy := true }
      else t.shape x := by
  by_cases hs : s = ""
  · simp only [adoptRole, reduceCtorEq, if_false, hs, ne_eq, not_true_eq_false, false_and]
    exact shape_ensure_adjust t id x fun n => rfl
  · simp only [adoptRole, reduceCtorEq, if_false, ne_eq, hs, not_false_eq_true, if_true, true_and]
    have hown : ∀ y, ((t.ensureNode id).adjustNode id fun n => { n with
        addr := (t.ensureNode id).resolveAddress id
        role := .follower
        sourceNodeId := s
        healthy := true }).shape y = if y = id then some ⟨.follower, s, true⟩ else t.shape y := fun y =>
      shape_ensure_adjust t id y fun n => rfl
    refine (shape_bringUp _ s x).trans ?_
    rw [hown, hown]
    by_cases hx : x = s
    · subst hx
      rw [if_pos rfl, if_pos rfl]
      split
      · rfl
      · rfl
    · rw [if_neg hx, if_neg hx]

@[simp] theorem leaderId_adoptFollower (t : TopologyManager) (id f : String) :
    (t.adoptFollower id f).leaderId = t.leaderId := by
  rw [adoptFollower]
  cases t.findFollowerIdOf id with
  | none => by_cases hf : f = "" <;> simp [hf]
  | some stale =>
    by_cases hst : stale = f
    · by_cases hf : f = "" <;> simp [hst, hf]
    · by_cases hf : f = ""
      · subst hf
        simp [hst]
      · simp [hst, hf]

/-- The scan clears one follower at most, and not the one that the message names. -/
theorem shape_adoptFollower (t : TopologyManager) (id f x : String) :
    (t.adoptFollower id f).shape x =
      if f ≠ "" ∧ x = f then some ⟨.follower, id, true⟩
      else if t.findFollowerIdOf id = some x ∧ x ≠ f then some ⟨.follower, "", true⟩ else t.shape x := by
  have hbind : ∀ u : TopologyManager, (if f = "" then u else (u.ensureNode f).adjustNode f fun n => { n with
      addr := (u.ensureNode f).resolveAddress f
      role := .follower
      sourceNodeId := id
      healthy := true }).shape x = if f ≠ "" ∧ x = f then some ⟨.follower, id, true⟩ else u.shape x := by
    intro u
    by_cases hf : f = ""
    · simp [hf]
    · rw [if_neg hf, shape_ensure_adjust (s := ⟨.follower, id, true⟩) u f x fun n => rfl]
      simp [hf]
  rw [adoptFollower]
  refine (hbind _).trans ?_
  congr 1
  cases hfind : t.findFollowerIdOf id with
  | none => simp
  | some stale =>
    by_cases hst : stale = f
    · subst hst
      have hnot : ¬ (some stale = some x ∧ x ≠ stale) := fun h => h.2 (Option.some.inj h.1).symm
      rw [if_neg hnot]
      simp
    · simp only [ne_eq, hst, not_false_eq_true, if_true, Option.some.injEq]
      by_cases hx : x = stale
      · subst hx
        have hfollows := find_follower_some hfind
        rw [Follows] at hfollows
        rw [shape_adjustNode_self _ _ _ (fun s => { s with role := .follower, source := "" }) fun n => rfl, hfollows]
        simp [hst]
      · rw [shape_adjustNode_other _ _ _ _ hx, if_neg fun h => hx h.1.symm]

@[simp] theorem leaderId_normalizeMentorSources (t : TopologyManager) :
    t.normalizeMentorSources.leaderId = t.leaderId := by
  by_cases hl : t.leaderId = "" <;> simp [normalizeMentorSources, hl]

theorem shape_normalizeMentorSources (t : TopologyManager) (hl : t.leaderId ≠ "") (x : String) :
    t.normalizeMentorSources.shape x = if x = t.leaderId then some ⟨.leader, "", true⟩
      else (t.shape x).map fun s => if s.role = .mentor then { s with source := t.leaderId } else s := by
  have hlead := shape_ensureLeader t hl x
  rw [normalizeMentorSources, if_neg hl]
  simp only [leaderId_ensureLeader]
  have hmap : ({ t.ensureLeader with nodes := t.ensureLeader.nodes.mapValues fun nodeId n =>
      if nodeId = t.leaderId then { n with role := .leader, sourceNodeId := "" }
      else if n.role = .mentor then { n with sourceNodeId := t.leaderId } else n } : TopologyManager).shape x =
      (t.ensureLeader.shape x).map fun s => if x = t.leaderId then { s with role := .leader, source := "" }
        else if s.role = .mentor then { s with source := t.leaderId } else s := by
    simp only [shape, Table.find?_mapValues, Option.map_map]
    congr 1
    funext n
    by_cases hx : x = t.leaderId
    · simp [hx, NodeInfo.shape]
    · by_cases hrole : n.role = .mentor <;> simp [hx, hrole, NodeInfo.shape]
  refine hmap.trans ?_
  rw [hlead]
  by_cases hx : x = t.leaderId
  · simp [hx]
  · simp [hx]

theorem follows_of_normalized (s : Option Shape) (leader m : String) :
    (s.map fun s => if s.role = .mentor then { s with source := leader } else s) = some ⟨.follower, m, true⟩ ↔
      s = some ⟨.follower, m, true⟩ := by
  cases s with
  | none => simp
  | some s =>
    obtain ⟨role, source, healthy⟩ := s
    cases role <;> simp

/-- The map of a peer at the scan, once the message has made it a mentor. -/
def afterRole (t : TopologyManager) (id addr source : String) : TopologyManager :=
  (t.noteAddress id addr).adoptRole id .mentor source

theorem shape_afterRole (t : TopologyManager) (id addr : String) {source : String} (hsource : source ≠ "")
    (x : String) : (t.afterRole id addr source).shape x =
      if x = source then some ⟨.leader, "", true⟩
      else if x = id then some ⟨.mentor, source, true⟩ else t.shape x := by
  rw [afterRole, shape_adoptRole_mentor, shape_noteAddress]
  simp only [ne_eq, hsource, not_false_eq_true, true_and]

theorem leaderId_afterRole (t : TopologyManager) (id addr : String) {source : String} (hsource : source ≠ "") :
    (t.afterRole id addr source).leaderId = source := by
  rw [afterRole, leaderId_adoptRole]
  simp [hsource]

theorem follows_afterRole (t : TopologyManager) (id addr : String) {source : String} (hsource : source ≠ "")
    (x m : String) :
    (t.afterRole id addr source).Follows x m ↔ t.Follows x m ∧ x ≠ source ∧ x ≠ id := by
  rw [Follows, shape_afterRole t id addr hsource]
  by_cases hxs : x = source
  · simp [hxs]
  · by_cases hxid : x = id
    · subst hxid
      simp [hxs]
    · simp [hxs, hxid, Follows]

theorem fromProto_mentor (t : TopologyManager) (hid : id ≠ "") {m : TopologyInfo}
    (hrole : parseRole m.role = .ok .mentor) (hsource : m.sourceNodeId ≠ "") (hother : m.sourceNodeId ≠ id)
    (addr : String) : t.fromProto id m addr =
      .ok ((t.afterRole id addr m.sourceNodeId).adoptFollower id m.followerNodeId).normalizeMentorSources := by
  have hmentor : ((t.noteAddress id addr).adoptRole id .mentor m.sourceNodeId).getRole id = .mentor := by
    have hshape := shape_afterRole t id addr hsource id
    rw [if_neg (Ne.symm hother), if_pos rfl, afterRole] at hshape
    rw [getRole_eq_shape, hshape]
    rfl
  rw [fromProto_eq t hid hrole, if_pos hmentor, afterRole]

/-- The rows of a mentor's map after the scan. -/
theorem shape_bound (t : TopologyManager) (hl : t.leaderId ≠ "") (id f x : String) (hx : x ≠ t.leaderId) :
    (t.adoptFollower id f).normalizeMentorSources.shape x =
      (if f ≠ "" ∧ x = f then some ⟨.follower, id, true⟩
        else if t.findFollowerIdOf id = some x ∧ x ≠ f then some ⟨.follower, "", true⟩ else t.shape x).map
          fun s : Shape => if s.role = .mentor then { s with source := t.leaderId } else s := by
  rw [shape_normalizeMentorSources _ (by simpa using hl), leaderId_adoptFollower, if_neg hx, shape_adoptFollower]

/-- Below a mentor stay the follower that the message names and all others but the one that
the scan met. -/
theorem follows_bound (t : TopologyManager) (hl : t.leaderId ≠ "") {id : String} (hid : id ≠ "") (f x : String)
    (hx : x ≠ t.leaderId) : (t.adoptFollower id f).normalizeMentorSources.Follows x id ↔
      (f ≠ "" ∧ x = f) ∨ (t.Follows x id ∧ ¬ (t.findFollowerIdOf id = some x ∧ x ≠ f)) := by
  rw [Follows, shape_bound t hl id f x hx, follows_of_normalized]
  by_cases hf : f ≠ "" ∧ x = f
  · simp [hf]
  · rw [if_neg hf]
    by_cases hst : t.findFollowerIdOf id = some x ∧ x ≠ f
    · simp [hst, Ne.symm hid]
    · rw [if_neg hst]
      simp only [hf, hst, false_or, not_false_eq_true, and_true]
      rfl

/-! ## Iteration orders -/

/-- The same manager with its node map iterated in another order. -/
structure Reordered (t u : TopologyManager) : Prop where
  selfId : u.selfId = t.selfId
  selfAddr : u.selfAddr = t.selfAddr
  leaderId : u.leaderId = t.leaderId
  registeredAddrs : u.registeredAddrs = t.registeredAddrs
  rows : u.nodes.rows.Perm t.nodes.rows

theorem Reordered.refl (t : TopologyManager) : Reordered t t := ⟨rfl, rfl, rfl, rfl, .refl _⟩

theorem Reordered.shape {u : TopologyManager} (h : Reordered t u) (x : String) : u.shape x = t.shape x := by
  rw [TopologyManager.shape, TopologyManager.shape]
  congr 1
  ext n
  rw [Table.find?_eq_some, Table.find?_eq_some, h.rows.mem_iff]

/-- In some order two given rows come first. -/
theorem exists_reordered_pair {y : String} (hx : t.shape x ≠ none) (hy : t.shape y ≠ none) (hne : x ≠ y) :
    ∃ u, Reordered t u ∧ [x, y] <+: u.nodes.keys := by
  obtain ⟨n, hn⟩ := Option.ne_none_iff_exists'.mp fun h : t.nodes.find? x = none => hx (by rw [shape, h]; rfl)
  obtain ⟨k, hk⟩ := Option.ne_none_iff_exists'.mp fun h : t.nodes.find? y = none => hy (by rw [shape, h]; rfl)
  have hmem := (Table.find?_eq_some t.nodes x n).mp hn
  have hmem' : (y, k) ∈ t.nodes.rows.erase (x, n) :=
    (List.mem_erase_of_ne fun h => hne (congrArg Prod.fst h).symm).mpr ((Table.find?_eq_some t.nodes y k).mp hk)
  have hperm : ((x, n) :: (y, k) :: (t.nodes.rows.erase (x, n)).erase (y, k)).Perm t.nodes.rows :=
    ((List.perm_cons_erase hmem').symm.cons (x, n)).trans (List.perm_cons_erase hmem).symm
  exact ⟨{ t with nodes := ⟨_, (hperm.map Prod.fst).nodup_iff.mpr t.nodes.nodup⟩ },
    ⟨rfl, rfl, rfl, rfl, hperm⟩, ⟨_, rfl⟩⟩

theorem getFollowerOf_fst (t : TopologyManager) (m : String) :
    (t.getFollowerOf m).map Prod.fst = t.findFollowerIdOf m := by
  rw [getFollowerOf]
  cases hfind : t.findFollowerIdOf m with
  | none => rfl
  | some x =>
    obtain ⟨n, hn, -⟩ := Option.map_eq_some_iff.mp (find_follower_some hfind)
    simp [hn]

/-- The scan for a follower goes through the keys of the map in order. -/
theorem findFollowerIdOf_eq (t : TopologyManager) (m : String) :
    t.findFollowerIdOf m = t.nodes.keys.find? fun x => t.shape x = some ⟨.follower, m, true⟩ := by
  rw [findFollowerIdOf, Table.keys, List.find?_map]
  congr 1
  refine List.find?_congr fun r hr => ?_
  have hrow : t.shape r.1 = some r.2.shape := by
    rw [shape, (Table.find?_eq_some t.nodes r.1 r.2).mpr hr, Option.map_some]
  simp only [Function.comp_apply, hrow, NodeInfo.shape, Option.some.injEq, Shape.mk.injEq]
  cases r.2.healthy <;> simp

/-- No step of a broadcast takes a key away or moves it. -/
def Extends (t t' : TopologyManager) : Prop := t.nodes.keys <+: t'.nodes.keys

theorem keys_ensureNode (t : TopologyManager) (id : String) : (t.ensureNode id).nodes.keys =
    if id ∈ t.nodes.keys then t.nodes.keys else t.nodes.keys ++ [id] := by
  rw [ensureNode]
  simp only [adjustNode, Table.keys_adjust]
  by_cases h : id ∈ t.nodes.keys
  · rw [Table.tryEmplace, dif_pos h, if_pos h]
  · rw [Table.tryEmplace, dif_neg h, if_neg h, Table.keys, Table.append, List.map_append]
    rfl

theorem extends_ensureNode (t : TopologyManager) (id : String) : Extends t (t.ensureNode id) := by
  rw [Extends, keys_ensureNode]
  split
  · exact List.prefix_rfl
  · exact List.prefix_append ..

@[simp] theorem keys_adjustNode (t : TopologyManager) (id : String) (f : NodeInfo → NodeInfo) :
    (t.adjustNode id f).nodes.keys = t.nodes.keys := by
  simp [adjustNode]

theorem extends_ensureLeader (t : TopologyManager) : Extends t t.ensureLeader := by
  rw [ensureLeader]
  split
  · exact List.prefix_rfl
  · rw [Extends, keys_adjustNode]
    exact extends_ensureNode t t.leaderId

theorem extends_setLeader (t : TopologyManager) (l addr : String) : Extends t (t.setLeader l addr) := by
  rw [setLeader]
  refine List.IsPrefix.trans ?_ (extends_ensureLeader _)
  by_cases haddr : addr = "" <;> simp [haddr]

theorem extends_afterRole (t : TopologyManager) (id addr source : String) :
    Extends t (t.afterRole id addr source) := by
  have haddr : (t.noteAddress id addr).nodes.keys = t.nodes.keys := by
    rw [noteAddress]
    split <;> rfl
  have hown : Extends t ((t.noteAddress id addr).ensureNode id) := by
    have h := extends_ensureNode (t.noteAddress id addr) id
    rwa [Extends, haddr] at h
  rw [afterRole, adoptRole]
  simp only [reduceCtorEq, if_false, if_true]
  split
  · refine List.IsPrefix.trans hown ?_
    simp only [keys_adjustNode]
    refine List.IsPrefix.trans ?_ (extends_ensureNode _ _)
    simp
  · simpa [Extends] using hown

/-- A row is added for a named follower that the map does not know, and for nobody else. -/
theorem keys_adoptFollower (t : TopologyManager) (id f : String) : (t.adoptFollower id f).nodes.keys =
    if f = "" ∨ f ∈ t.nodes.keys then t.nodes.keys else t.nodes.keys ++ [f] := by
  have hcleared : ∀ u : TopologyManager, (if f = "" then u else (u.ensureNode f).adjustNode f fun n => { n with
      addr := (u.ensureNode f).resolveAddress f
      role := .follower
      sourceNodeId := id
      healthy := true }).nodes.keys =
        if f = "" ∨ f ∈ u.nodes.keys then u.nodes.keys else u.nodes.keys ++ [f] := by
    intro u
    by_cases hf : f = ""
    · simp [hf]
    · rw [if_neg hf, keys_adjustNode, keys_ensureNode]
      simp [hf]
  rw [adoptFollower]
  refine (hcleared _).trans ?_
  cases t.findFollowerIdOf id with
  | none => rfl
  | some stale => by_cases hst : stale = f <;> simp [hst]

theorem keys_normalizeMentorSources (t : TopologyManager) (h : t.leaderId ∈ t.nodes.keys) :
    t.normalizeMentorSources.nodes.keys = t.nodes.keys := by
  by_cases hl : t.leaderId = ""
  · simp [normalizeMentorSources, hl]
  · rw [normalizeMentorSources, if_neg hl]
    simp only [Table.keys_mapValues]
    rw [ensureLeader, if_neg hl, keys_adjustNode, keys_ensureNode, if_pos h]

theorem mem_keys_iff (t : TopologyManager) (x : String) : x ∈ t.nodes.keys ↔ t.shape x ≠ none := by
  rw [← Table.find?_isSome, shape]
  cases t.nodes.find? x <;> simp

/-! ## Agreement with the leader -/

/-- The peer holds the place in the chain that the leader and its message give it. -/
structure Agrees (leader : TopologyManager) (peerId : String) (m : TopologyInfo) (t : TopologyManager) : Prop where
  role : t.getRole peerId = leader.getRole peerId
  source : t.getSource peerId = leader.getSource peerId
  follower : leader.getRole peerId = .mentor → (t.getFollowerOf peerId).map Prod.fst =
    if m.followerNodeId = "" then none else some m.followerNodeId

/-- A peer in state `t` agrees after the broadcast, whatever order its map is iterated in.
The order may change with a row that the message adds, and only then. -/
def AgreesInAnyOrder (leader : TopologyManager) (peerId : String) (m : TopologyInfo) (leaderAddr addr : String)
    (t : TopologyManager) : Prop :=
  ∀ u, Reordered t u → ∃ v, (u.setLeader leader.leaderId leaderAddr).fromProto peerId m addr = .ok v ∧
    ∀ w, Reordered v w → (m.followerNodeId = "" ∨ t.getNode m.followerNodeId ≠ none → w = v) →
      leader.Agrees peerId m w

/-- A follower that the peer still takes for its own, besides the one that the message names. -/
def LeftBelow (leader : TopologyManager) (peerId : String) (m : TopologyInfo) (t : TopologyManager) (x : String) :
    Prop :=
  t.Follows x peerId ∧ x ≠ leader.leaderId ∧ x ≠ peerId ∧ x ≠ m.followerNodeId

/-- At most one follower is left over, and it is not the row of the empty id. -/
def OneLeftBelow (leader : TopologyManager) (peerId : String) (m : TopologyInfo) (t : TopologyManager) : Prop :=
  (∀ x y, leader.LeftBelow peerId m t x → leader.LeftBelow peerId m t y → x = y) ∧
  (m.followerNodeId = "" → ¬ t.Follows "" peerId)

variable {leader u v w : TopologyManager} {peerId : String} {m : TopologyInfo}

theorem toProto_spec (h : leader.toProto peerId = .ok m) : ∃ n, leader.getNode peerId = some n ∧
    parseRole m.role = .ok n.role ∧ m.sourceNodeId = n.sourceNodeId ∧
    m.followerNodeId = if n.role = .mentor then (leader.findFollowerIdOf peerId).getD "" else "" := by
  rw [toProto] at h
  cases hn : leader.nodes.find? peerId with
  | none => simp [hn] at h
  | some n =>
    simp only [hn, Except.ok.injEq] at h
    subst h
    exact ⟨n, hn, parseRole_roleToString n.role, rfl, rfl⟩

theorem roles_of_shape {s : Shape} (h : t.shape x = some s) : t.getRole x = s.role ∧ t.getSource x = s.source := by
  rw [getRole_eq_shape, getSource_eq_shape, h]
  exact ⟨rfl, rfl⟩

/-- In a chain a row with the leader role is the leader's. -/
theorem Chained.eq_leader_of_role (hL : leader.Chained fun _ => False) {s : Shape} (hs : leader.shape x = some s)
    (hrole : s.role = .leader) : x = leader.leaderId := by
  by_contra hne
  rcases hL.member x hne with hnone | hmentor | hdown | ⟨m, hm, -⟩
  · rw [hs] at hnone
    cases hnone
  · rw [Mentors, hs] at hmentor
    cases hmentor
    cases hrole
  · rw [Down, hs] at hdown
    cases hdown
    cases hrole
  · rw [Follows, hs] at hm
    cases hm
    cases hrole

/-- A peer that is no mentor takes over its place whatever it knew before. -/
theorem agrees_of_not_mentor (hL : leader.Chained fun _ => False) (hp : peerId ≠ "")
    (hm : leader.toProto peerId = .ok m) (hrole : leader.getRole peerId ≠ .mentor) (leaderAddr addr : String)
    (t : TopologyManager) : leader.AgreesInAnyOrder peerId m leaderAddr addr t := by
  obtain ⟨n, hn, hparse, hms, -⟩ := toProto_spec hm
  have hshape := shape_of_getNode hn
  obtain ⟨hr, hs⟩ := roles_of_shape hshape
  have hagrees : ∀ v w : TopologyManager, v.shape peerId = some ⟨n.role, n.sourceNodeId, true⟩ →
      Reordered v w → leader.Agrees peerId m w := by
    intro v w hv hw
    obtain ⟨hrw, hsw⟩ := roles_of_shape ((hw.shape peerId).trans hv)
    exact ⟨hrw.trans hr.symm, hsw.trans hs.symm, fun hmentor => absurd hmentor hrole⟩
  intro u _
  have hmsg := fromProto_eq (u.setLeader leader.leaderId leaderAddr) hp hparse addr
  have hlead := leaderId_setLeader u leader.leaderId leaderAddr
  generalize u.setLeader leader.leaderId leaderAddr = q at hmsg hlead
  have hne : (q.noteAddress peerId addr).leaderId ≠ "" := by
    rw [leaderId_noteAddress, hlead]
    exact hL.leader
  cases hnr : n.role with
  | mentor =>
    rw [hr] at hrole
    exact absurd hnr hrole
  | leader =>
    have heq : peerId = leader.leaderId := hL.eq_leader_of_role hshape hnr
    have hroot := hL.root
    rw [← heq, hshape] at hroot
    have hsource := congrArg Shape.source (Option.some.inj hroot)
    simp only [NodeInfo.shape] at hsource
    rw [hnr] at hmsg
    have hadopted := shape_adoptRole_leader (q.noteAddress peerId addr) hp m.sourceNodeId peerId
    have hleader := leaderId_adoptRole (q.noteAddress peerId addr) peerId .leader m.sourceNodeId
    rw [if_pos rfl] at hadopted hleader
    rw [getRole_eq_shape, hadopted] at hmsg
    simp only [Option.map_some, Option.getD_some, reduceCtorEq, if_false] at hmsg
    refine ⟨_, hmsg, fun w hw _ => hagrees _ w ?_ hw⟩
    rw [shape_normalizeMentorSources _ (by rw [hleader]; exact hp), hleader, if_pos rfl, hnr, hsource]
  | follower =>
    have hne' : peerId ≠ leader.leaderId := by
      rintro rfl
      have hroot := hL.root
      rw [hshape] at hroot
      have hcontra := congrArg Shape.role (Option.some.inj hroot)
      rw [NodeInfo.shape, hnr] at hcontra
      cases hcontra
    rw [hnr] at hmsg
    have hadopted := shape_adoptRole_follower (q.noteAddress peerId addr) peerId m.sourceNodeId peerId
    have hleader := leaderId_adoptRole (q.noteAddress peerId addr) peerId .follower m.sourceNodeId
    rw [if_pos rfl] at hadopted
    simp only [reduceCtorEq, if_false, false_and, leaderId_noteAddress, hlead] at hleader
    rw [getRole_eq_shape, hadopted] at hmsg
    simp only [Option.map_some, Option.getD_some, reduceCtorEq, if_false] at hmsg
    refine ⟨_, hmsg, fun w hw _ => hagrees _ w ?_ hw⟩
    rw [shape_normalizeMentorSources _ (by rw [hleader]; exact hL.leader), hleader, if_neg hne', hadopted, hnr, hms]
    rfl

/-- What a message to a mentor carries. -/
structure MentorMessage (leader : TopologyManager) (peerId : String) (m : TopologyInfo) : Prop where
  parse : parseRole m.role = .ok .mentor
  source : m.sourceNodeId = leader.leaderId
  root : leader.leaderId ≠ ""
  below : leader.leaderId ≠ peerId
  place : leader.shape peerId = some ⟨.mentor, leader.leaderId, true⟩
  named : m.followerNodeId ≠ "" → m.followerNodeId ≠ leader.leaderId ∧ m.followerNodeId ≠ peerId

theorem mentorMessage (hL : leader.Chained fun _ => False) (hm : leader.toProto peerId = .ok m)
    (hrole : leader.getRole peerId = .mentor) : leader.MentorMessage peerId m := by
  obtain ⟨n, hn, hparse, hms, hmf⟩ := toProto_spec hm
  have hshape := shape_of_getNode hn
  have hnr : n.role = .mentor := (roles_of_shape hshape).1.symm.trans hrole
  have hmentor := hL.mentors_of_role hshape hnr
  have hsource : n.sourceNodeId = leader.leaderId := by
    have heq := Option.some.inj (hshape.symm.trans hmentor)
    simp only [NodeInfo.shape, Shape.mk.injEq] at heq
    exact heq.2.1
  refine ⟨hnr ▸ hparse, hms.trans hsource, hL.leader, (hL.mentors_ne_leader hmentor).symm, hmentor, fun hne => ?_⟩
  rw [if_pos hnr] at hmf
  cases hfind : leader.findFollowerIdOf peerId with
  | none => simp [hmf, hfind] at hne
  | some f =>
    have hfollows := find_follower_some hfind
    rw [hmf, hfind, Option.getD_some]
    refine ⟨hL.follows_ne_leader hfollows, ?_⟩
    rintro rfl
    exact hfollows.not_mentors hmentor

/-- The map of a mentor at the scan, in a peer that has just heard of the leader. -/
def atScan (leader : TopologyManager) (peerId leaderAddr addr : String) (u : TopologyManager) : TopologyManager :=
  (u.setLeader leader.leaderId leaderAddr).afterRole peerId addr leader.leaderId

theorem MentorMessage.fromProto (h : leader.MentorMessage peerId m) (hp : peerId ≠ "")
    (leaderAddr addr : String) (u : TopologyManager) :
    (u.setLeader leader.leaderId leaderAddr).fromProto peerId m addr =
      .ok ((atScan leader peerId leaderAddr addr u).adoptFollower peerId m.followerNodeId).normalizeMentorSources := by
  have hsource : m.sourceNodeId ≠ "" := by
    rw [h.source]
    exact h.root
  rw [fromProto_mentor _ hp h.parse hsource (by rw [h.source]; exact h.below), h.source, atScan]

theorem MentorMessage.leaderId_atScan (h : leader.MentorMessage peerId m) (leaderAddr addr : String)
    (u : TopologyManager) : (atScan leader peerId leaderAddr addr u).leaderId = leader.leaderId :=
  leaderId_afterRole _ peerId addr h.root

theorem MentorMessage.follows_atScan (h : leader.MentorMessage peerId m) (leaderAddr addr : String)
    (u : TopologyManager) (x : String) : (atScan leader peerId leaderAddr addr u).Follows x peerId ↔
      u.Follows x peerId ∧ x ≠ leader.leaderId ∧ x ≠ peerId := by
  rw [atScan, follows_afterRole _ peerId addr h.root, Follows, shape_setLeader]
  by_cases hx : x = leader.leaderId
  · simp [hx]
  · simp [hx, Follows]

theorem MentorMessage.place_after (h : leader.MentorMessage peerId m) (leaderAddr addr : String)
    (u : TopologyManager) : ((atScan leader peerId leaderAddr addr u).adoptFollower peerId
      m.followerNodeId).normalizeMentorSources.shape peerId = some ⟨.mentor, leader.leaderId, true⟩ := by
  have hlead := h.leaderId_atScan leaderAddr addr u
  have hrow : (atScan leader peerId leaderAddr addr u).shape peerId = some ⟨.mentor, leader.leaderId, true⟩ := by
    rw [atScan, shape_afterRole _ peerId addr h.root, if_neg h.below.symm, if_pos rfl]
  have hscan : ¬ ((atScan leader peerId leaderAddr addr u).findFollowerIdOf peerId = some peerId ∧
      peerId ≠ m.followerNodeId) := fun hfind =>
    ((h.follows_atScan leaderAddr addr u peerId).mp (find_follower_some hfind.1)).2.2 rfl
  have hnamed : ¬ (m.followerNodeId ≠ "" ∧ peerId = m.followerNodeId) := fun hf => (h.named hf.1).2 hf.2.symm
  rw [shape_bound _ (by rw [hlead]; exact h.root) peerId m.followerNodeId peerId (by rw [hlead]; exact h.below.symm),
    if_neg hnamed, if_neg hscan, hrow, hlead]
  rfl

theorem MentorMessage.follows_after (h : leader.MentorMessage peerId m) (hp : peerId ≠ "") (leaderAddr addr : String)
    (u : TopologyManager) (x : String) : ((atScan leader peerId leaderAddr addr u).adoptFollower peerId
      m.followerNodeId).normalizeMentorSources.Follows x peerId ↔
        (m.followerNodeId ≠ "" ∧ x = m.followerNodeId) ∨
        ((atScan leader peerId leaderAddr addr u).Follows x peerId ∧
          ¬ ((atScan leader peerId leaderAddr addr u).findFollowerIdOf peerId = some x ∧ x ≠ m.followerNodeId)) := by
  have hlead := h.leaderId_atScan leaderAddr addr u
  have hroot : (atScan leader peerId leaderAddr addr u).leaderId ≠ "" := by
    rw [hlead]
    exact h.root
  by_cases hx : x = leader.leaderId
  · have hrow := shape_normalizeMentorSources ((atScan leader peerId leaderAddr addr u).adoptFollower peerId
      m.followerNodeId) (by simpa using hroot) x
    rw [leaderId_adoptFollower, hlead, if_pos hx] at hrow
    constructor
    · intro hf
      rw [Follows, hrow] at hf
      simp at hf
    · rintro (hf | hf)
      · exact absurd (hf.2.symm.trans hx) (h.named hf.1).1
      · exact absurd hx ((h.follows_atScan leaderAddr addr u x).mp hf.1).2.1
  · exact follows_bound _ hroot hp m.followerNodeId x (by rw [hlead]; exact hx)

theorem MentorMessage.keys_after (h : leader.MentorMessage peerId m) (leaderAddr addr : String)
    (u : TopologyManager) : ((atScan leader peerId leaderAddr addr u).adoptFollower peerId
      m.followerNodeId).normalizeMentorSources.nodes.keys =
        if m.followerNodeId = "" ∨ m.followerNodeId ∈ (atScan leader peerId leaderAddr addr u).nodes.keys
        then (atScan leader peerId leaderAddr addr u).nodes.keys
        else (atScan leader peerId leaderAddr addr u).nodes.keys ++ [m.followerNodeId] := by
  have hin : leader.leaderId ∈ (atScan leader peerId leaderAddr addr u).nodes.keys := by
    rw [mem_keys_iff, atScan, shape_afterRole _ peerId addr h.root, if_pos rfl]
    simp
  rw [keys_normalizeMentorSources, keys_adoptFollower]
  rw [leaderId_adoptFollower, h.leaderId_atScan, keys_adoptFollower]
  split
  · exact hin
  · exact List.mem_append_left _ hin

theorem extends_atScan (leader : TopologyManager) (peerId leaderAddr addr : String) (u : TopologyManager) :
    Extends u (atScan leader peerId leaderAddr addr u) :=
  List.IsPrefix.trans (extends_setLeader u leader.leaderId leaderAddr) (extends_afterRole _ _ _ _)

/-- With nobody left over but the node that the scan meets, the named follower is the only one. -/
theorem MentorMessage.only_named (h : leader.MentorMessage peerId m) (hp : peerId ≠ "") (leaderAddr addr : String)
    (hleft : leader.OneLeftBelow peerId m t) (hu : Reordered t u)
    (hmet : (atScan leader peerId leaderAddr addr u).findFollowerIdOf peerId ≠ some m.followerNodeId)
    (x : String) : ((atScan leader peerId leaderAddr addr u).adoptFollower peerId
      m.followerNodeId).normalizeMentorSources.Follows x peerId ↔ m.followerNodeId ≠ "" ∧ x = m.followerNodeId := by
  have hback : ∀ y, (atScan leader peerId leaderAddr addr u).Follows y peerId → y ≠ m.followerNodeId →
      leader.LeftBelow peerId m t y := by
    intro y hy hne
    obtain ⟨hf, hl, hself⟩ := (h.follows_atScan leaderAddr addr u y).mp hy
    rw [Follows, hu.shape] at hf
    exact ⟨hf, hl, hself, hne⟩
  rw [h.follows_after hp]
  constructor
  · rintro (hx | ⟨hx, hkept⟩)
    · exact hx
    · by_contra hnot
      have hne : x ≠ m.followerNodeId := by
        intro heq
        obtain ⟨hf, -, -⟩ := (h.follows_atScan leaderAddr addr u x).mp hx
        rw [Follows, hu.shape] at hf
        by_cases hempty : m.followerNodeId = ""
        · rw [heq, hempty] at hf
          exact hleft.2 hempty hf
        · exact hnot ⟨hempty, heq⟩
      cases hfind : (atScan leader peerId leaderAddr addr u).findFollowerIdOf peerId with
      | none => exact find_follower_none hfind x hx
      | some y =>
        have hy : y ≠ m.followerNodeId := fun heq => hmet (hfind.trans (congrArg some heq))
        have heq := hleft.1 x y (hback x hx hne) (hback y (find_follower_some hfind) hy)
        exact hkept ⟨hfind.trans (congrArg some heq.symm), hne⟩
  · exact .inl

theorem find_of_only {f : String} (h : ∀ x, t.Follows x peerId ↔ f ≠ "" ∧ x = f) :
    t.findFollowerIdOf peerId = if f = "" then none else some f := by
  by_cases hf : f = ""
  · rw [if_pos hf]
    cases hfind : t.findFollowerIdOf peerId with
    | none => rfl
    | some x => exact absurd hf ((h x).mp (find_follower_some hfind)).1
  · rw [if_neg hf]
    cases hfind : t.findFollowerIdOf peerId with
    | none => exact absurd ((h f).mpr ⟨hf, rfl⟩) (find_follower_none hfind f)
    | some x => rw [((h x).mp (find_follower_some hfind)).2]

/-- Where the scan meets the named follower first, a later scan meets it first again. -/
theorem MentorMessage.named_first (h : leader.MentorMessage peerId m) (hp : peerId ≠ "") (leaderAddr addr : String)
    (hne : m.followerNodeId ≠ "")
    (hmet : (atScan leader peerId leaderAddr addr u).findFollowerIdOf peerId = some m.followerNodeId) :
    ((atScan leader peerId leaderAddr addr u).adoptFollower peerId
      m.followerNodeId).normalizeMentorSources.findFollowerIdOf peerId = some m.followerNodeId := by
  have hfollows := find_follower_some hmet
  have hin : m.followerNodeId ∈ (atScan leader peerId leaderAddr addr u).nodes.keys := by
    rw [mem_keys_iff, hfollows]
    simp
  rw [findFollowerIdOf_eq, List.find?_eq_some_iff_append] at hmet
  obtain ⟨-, before, after, hkeys, hbefore⟩ := hmet
  rw [findFollowerIdOf_eq, h.keys_after, if_pos (.inr hin), List.find?_eq_some_iff_append]
  refine ⟨?_, before, after, hkeys, fun y hy => ?_⟩
  · rw [decide_eq_true_eq]
    exact (h.follows_after hp leaderAddr addr u m.followerNodeId).mpr (.inl ⟨hne, rfl⟩)
  · have hnot := hbefore y hy
    simp only [Bool.not_eq_true', decide_eq_false_iff_not] at hnot ⊢
    intro hafter
    rcases (h.follows_after hp leaderAddr addr u y).mp hafter with ⟨-, rfl⟩ | ⟨hold, -⟩
    · exact hnot hfollows
    · exact hnot hold

theorem agrees_of_one_left (h : leader.MentorMessage peerId m) (hp : peerId ≠ "") (leaderAddr addr : String)
    (hleft : leader.OneLeftBelow peerId m t) : leader.AgreesInAnyOrder peerId m leaderAddr addr t := by
  intro u hu
  refine ⟨_, h.fromProto hp leaderAddr addr u, fun w hw hsame => ?_⟩
  obtain ⟨hrl, hsl⟩ := roles_of_shape h.place
  obtain ⟨hrw, hsw⟩ := roles_of_shape ((hw.shape peerId).trans (h.place_after leaderAddr addr u))
  refine ⟨hrw.trans hrl.symm, hsw.trans hsl.symm, fun _ => ?_⟩
  rw [getFollowerOf_fst]
  by_cases hmet : (atScan leader peerId leaderAddr addr u).findFollowerIdOf peerId = some m.followerNodeId
  · obtain ⟨hf, -, -⟩ := (h.follows_atScan leaderAddr addr u m.followerNodeId).mp (find_follower_some hmet)
    rw [Follows, hu.shape] at hf
    have hne : m.followerNodeId ≠ "" := by
      intro hempty
      rw [hempty] at hf
      exact hleft.2 hempty hf
    have hknown : t.getNode m.followerNodeId ≠ none := by
      intro hnone
      rw [shape, show t.nodes.find? m.followerNodeId = none from hnone] at hf
      cases hf
    rw [hsame (.inr hknown), if_neg hne]
    exact h.named_first hp leaderAddr addr hne hmet
  · refine find_of_only fun x => ?_
    exact (iff_of_eq (congrArg (· = some _) (hw.shape x))).trans
      (h.only_named hp leaderAddr addr hleft hu hmet x)

theorem one_left_of_agrees (h : leader.MentorMessage peerId m) (hp : peerId ≠ "") (leaderAddr addr : String)
    (hagrees : leader.AgreesInAnyOrder peerId m leaderAddr addr t) : leader.OneLeftBelow peerId m t := by
  have hplace := roles_of_shape h.place
  refine ⟨fun x y hx hy => ?_, fun hempty hfollows => ?_⟩
  · by_contra hne
    have hknown : ∀ z, t.Follows z peerId → t.shape z ≠ none := fun z hz => by
      rw [hz]
      simp
    obtain ⟨u, hu, hfront⟩ := exists_reordered_pair (hknown x hx.1) (hknown y hy.1) hne
    have hscan : ∀ z, leader.LeftBelow peerId m t z →
        (atScan leader peerId leaderAddr addr u).Follows z peerId := by
      intro z hz
      refine (h.follows_atScan leaderAddr addr u z).mpr ⟨?_, hz.2.1, hz.2.2.1⟩
      rw [Follows, hu.shape]
      exact hz.1
    have hmet : (atScan leader peerId leaderAddr addr u).findFollowerIdOf peerId = some x := by
      obtain ⟨rest, hrest⟩ := hfront.trans (extends_atScan leader peerId leaderAddr addr u)
      have hx' := hscan x hx
      rw [Follows] at hx'
      rw [findFollowerIdOf_eq, ← hrest]
      simp [hx']
    obtain ⟨v, hv, hview⟩ := hagrees u hu
    rw [h.fromProto hp] at hv
    have hanswer := (hview v (.refl v) fun _ => rfl).follower hplace.1
    have hkept : ¬ ((atScan leader peerId leaderAddr addr u).adoptFollower peerId
        m.followerNodeId).normalizeMentorSources.Follows x peerId := by
      rw [h.follows_after hp]
      rintro (⟨-, heq⟩ | ⟨-, hcleared⟩)
      · exact hx.2.2.2 heq
      · exact hcleared ⟨hmet, hx.2.2.2⟩
    have hstays : ((atScan leader peerId leaderAddr addr u).adoptFollower peerId
        m.followerNodeId).normalizeMentorSources.Follows y peerId :=
      (h.follows_after hp leaderAddr addr u y).mpr (.inr ⟨hscan y hy, fun hcleared =>
        hne (Option.some.inj (hmet.symm.trans hcleared.1))⟩)
    have hprefix : [x, y] <+: ((atScan leader peerId leaderAddr addr u).adoptFollower peerId
        m.followerNodeId).normalizeMentorSources.nodes.keys := by
      refine (hfront.trans (extends_atScan leader peerId leaderAddr addr u)).trans ?_
      rw [h.keys_after]
      split
      · exact List.prefix_rfl
      · exact List.prefix_append ..
    obtain ⟨rest, hrest⟩ := hprefix
    rw [Follows] at hkept hstays
    rw [getFollowerOf_fst, ← Except.ok.inj hv, findFollowerIdOf_eq, ← hrest] at hanswer
    simp only [List.cons_append, List.find?_cons, hkept, hstays, decide_true, decide_false] at hanswer
    split at hanswer
    · cases hanswer
    · exact hy.2.2.2 (Option.some.inj hanswer)
  · obtain ⟨v, hv, hview⟩ := hagrees t (.refl t)
    rw [h.fromProto hp] at hv
    have hanswer := (hview v (.refl v) fun _ => rfl).follower hplace.1
    rw [getFollowerOf_fst, if_pos hempty, ← Except.ok.inj hv] at hanswer
    refine find_follower_none hanswer "" ((h.follows_after hp leaderAddr addr t "").mpr (.inr ⟨?_, ?_⟩))
    · exact (h.follows_atScan leaderAddr addr t "").mpr ⟨hfollows, h.root.symm, hp.symm⟩
    · exact fun hcleared => hcleared.2 hempty.symm

/-- A peer agrees with the leader after the broadcast exactly when it is no mentor, or its map
holds at most one follower of its own besides the named one. -/
theorem broadcast_agrees_iff (hL : leader.Chained fun _ => False) (hp : peerId ≠ "")
    (hm : leader.toProto peerId = .ok m) (leaderAddr addr : String) (t : TopologyManager) :
    leader.AgreesInAnyOrder peerId m leaderAddr addr t ↔
      (leader.getRole peerId = .mentor → leader.OneLeftBelow peerId m t) := by
  by_cases hrole : leader.getRole peerId = .mentor
  · have hmsg := mentorMessage hL hm hrole
    constructor
    · intro h _
      exact one_left_of_agrees hmsg hp leaderAddr addr h
    · intro h
      exact agrees_of_one_left hmsg hp leaderAddr addr (h hrole)
  · constructor
    · intro _ hmentor
      exact absurd hmentor hrole
    · intro _
      exact agrees_of_not_mentor hL hp hm hrole leaderAddr addr t

/-- A mentor whose follower was `d` gets `c` in its place. -/
theorem broadcast_agrees_for_replaced_follower :
    ∃ older m₀ t leader m, ((create "a" "a").setLeader "a").rebalance ["b", "d"] = .ok older ∧
      older.toProto "b" = .ok m₀ ∧ (create "b" "b").fromProto "b" m₀ "b" = .ok t ∧
      ((create "a" "a").setLeader "a").rebalance ["b", "c"] = .ok leader ∧ leader.toProto "b" = .ok m ∧
      leader.getRole "b" = .mentor ∧ t.findFollowerIdOf "b" = some "d" ∧ m.followerNodeId = "c" ∧
      leader.AgreesInAnyOrder "b" m "" "b" t := by
  obtain ⟨older, m₀, t, leader, m, ho, hm₀, ht, hl, hm, hrole, hd, hc, honly⟩ : ∃ older m₀ t leader m,
      ((create "a" "a").setLeader "a").rebalance ["b", "d"] = .ok older ∧
      older.toProto "b" = .ok m₀ ∧ (create "b" "b").fromProto "b" m₀ "b" = .ok t ∧
      ((create "a" "a").setLeader "a").rebalance ["b", "c"] = .ok leader ∧ leader.toProto "b" = .ok m ∧
      leader.getRole "b" = .mentor ∧ t.findFollowerIdOf "b" = some "d" ∧ m.followerNodeId = "c" ∧
      ∀ r ∈ t.nodes.rows, r.2.shape = ⟨.follower, "b", true⟩ → r.1 = "d" :=
    ⟨_, _, _, _, _, rfl, rfl, rfl, rfl, rfl, rfl, rfl, rfl, by decide⟩
  have hleft : ∀ x, t.Follows x "b" → x = "d" := fun x hx => by
    obtain ⟨n, hn, hshape⟩ := Option.map_eq_some_iff.mp hx
    exact honly (x, n) ((Table.find?_eq_some t.nodes x n).mp hn) hshape
  refine ⟨older, m₀, t, leader, m, ho, hm₀, ht, hl, hm, hrole, hd, hc,
    (broadcast_agrees_iff (rebalance_chained hl) (by decide) hm "" "b" t).mpr fun _ => ⟨fun x y hx hy => ?_, fun hempty => ?_⟩⟩
  · rw [hleft x hx.1, hleft y hy.1]
  · exact absurd (hc.symm.trans hempty) (by decide)

/-- A deposed leader with two direct followers becomes a mentor without a follower and keeps one of
them. Which one it is depends on the order of the map. -/
theorem broadcast_leaves_stale_follower :
    ∃ leader t v m, ((create "a" "a").setLeader "a").rebalance ["b"] = .ok leader ∧
      ((create "b" "b").setLeader "b").rebalance ["c", "d", "e"] = .ok t ∧
      (leader.Chained fun _ => False) ∧ leader.toProto "b" = .ok m ∧
      (((t.demoteToFollower "d").markUnhealthy "c").setLeader "a").fromProto "b" m "b" = .ok v ∧
      leader.getRole "b" = .mentor ∧ m.followerNodeId = "" ∧ (v.getFollowerOf "b").map Prod.fst = some "e" ∧
      ¬ leader.Agrees "b" m v := by
  obtain ⟨leader, t, v, m, hl, ht, hm, hv, hrole, hnone, hstale⟩ : ∃ leader t v m,
      ((create "a" "a").setLeader "a").rebalance ["b"] = .ok leader ∧
      ((create "b" "b").setLeader "b").rebalance ["c", "d", "e"] = .ok t ∧
      leader.toProto "b" = .ok m ∧
      (((t.demoteToFollower "d").markUnhealthy "c").setLeader "a").fromProto "b" m "b" = .ok v ∧
      leader.getRole "b" = .mentor ∧ m.followerNodeId = "" ∧ (v.getFollowerOf "b").map Prod.fst = some "e" :=
    ⟨_, _, _, _, rfl, rfl, rfl, rfl, rfl, rfl, rfl⟩
  refine ⟨leader, t, v, m, hl, ht, rebalance_chained hl, hm, hv, hrole, hnone, hstale, fun hagrees => ?_⟩
  have hanswer := hagrees.follower hrole
  rw [hstale, if_pos hnone] at hanswer
  cases hanswer

end RaftVdb.TopologyManager
