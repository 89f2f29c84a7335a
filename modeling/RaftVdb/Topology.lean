import Mathlib.Data.List.Sort
import Mathlib.Data.String.Basic
import RaftVdb.Lib.Table

/-!
# Chain replication topology

`TopologyManager` keeps, for every known node, its role in the replication chain
and the node it receives its log from. The leader holds the whole picture and
rebuilds it with `rebalance`; every other node holds the part it was told about
through `fromProto`. Each public method runs under one lock, so each is one
function on the manager's state.
-/

namespace RaftVdb

open Lib

inductive NodeRole where
  | leader | mentor | follower
  deriving DecidableEq, Repr

/-- One row of `nodes_`. The key of the row is the `node_id`, so it is not stored twice. -/
structure NodeInfo where
  addr : String
  role : NodeRole := .follower
  sourceNodeId : String := ""
  healthy : Bool := true
  deriving DecidableEq, Repr

/-- The `TopologyInfo` message. -/
structure TopologyInfo where
  role : String := ""
  sourceNodeId : String := ""
  followerNodeId : String := ""
  deriving DecidableEq, Repr

structure TopologyManager where
  selfId : String := ""
  selfAddr : String := ""
  leaderId : String := ""
  registeredAddrs : Table String String := ∅
  nodes : Table String NodeInfo := ∅
  deriving DecidableEq

def roleToString : NodeRole → String
  | .leader => "leader"
  | .mentor => "mentor"
  | .follower => "follower"

def parseRole (role : String) : Except String NodeRole :=
  if role = "leader" then .ok .leader
  else if role = "mentor" then .ok .mentor
  else if role = "follower" then .ok .follower
  else .error ("非法拓扑角色: " ++ role)

theorem parseRole_roleToString (r : NodeRole) : parseRole (roleToString r) = .ok r := by
  cases r <;> decide

namespace TopologyManager

def resolveAddress (t : TopologyManager) (nodeId : String) : String :=
  if nodeId = t.selfId ∧ t.selfAddr ≠ "" then t.selfAddr
  else
    let registered := (t.registeredAddrs.find? nodeId).getD ""
    if registered ≠ "" then registered
    else
      let existing := ((t.nodes.find? nodeId).map NodeInfo.addr).getD ""
      if existing ≠ "" then existing else nodeId

def adjustNode (t : TopologyManager) (nodeId : String) (f : NodeInfo → NodeInfo) : TopologyManager :=
  { t with nodes := t.nodes.adjust nodeId f }

def ensureNode (t : TopologyManager) (nodeId : String) : TopologyManager :=
  let t := { t with nodes := t.nodes.tryEmplace nodeId ⟨t.resolveAddress nodeId, .follower, "", true⟩ }
  t.adjustNode nodeId fun n => { n with addr := if n.addr = "" then t.resolveAddress nodeId else n.addr }

def ensureLeader (t : TopologyManager) : TopologyManager :=
  if t.leaderId = "" then t
  else
    let t := t.ensureNode t.leaderId
    t.adjustNode t.leaderId fun n =>
      { n with role := .leader, sourceNodeId := "", healthy := true, addr := t.resolveAddress t.leaderId }

def registerNode (t : TopologyManager) (nodeId addr : String) : TopologyManager :=
  if nodeId = "" then t
  else
    let t := { t with registeredAddrs := t.registeredAddrs.insert nodeId addr }
    let t := t.ensureNode nodeId
    t.adjustNode nodeId fun n => { n with addr := t.resolveAddress nodeId }

/-- The constructor. -/
def create (selfId selfAddr : String) : TopologyManager :=
  let t : TopologyManager := { selfId, selfAddr }
  if selfId = "" then t else t.registerNode selfId selfAddr

def setSelf (t : TopologyManager) (selfId selfAddr : String) : TopologyManager :=
  let t := { t with selfId, selfAddr }
  if selfId = "" then t
  else
    let t := { t with registeredAddrs := t.registeredAddrs.insert selfId selfAddr }
    let t := t.ensureNode selfId
    t.adjustNode selfId fun n => { n with addr := t.resolveAddress selfId }

def setLeader (t : TopologyManager) (leaderId : String) (leaderAddr : String := "") : TopologyManager :=
  let t := { t with leaderId }
  let t := if leaderAddr = "" then t
    else { t with
      registeredAddrs := t.registeredAddrs.insert leaderId leaderAddr
      selfAddr := if leaderId = t.selfId then leaderAddr else t.selfAddr }
  t.ensureLeader

/-- The first healthy follower, in iteration order, whose source is the mentor. -/
def findFollowerIdOf (t : TopologyManager) (mentorId : String) : Option String :=
  (t.nodes.rows.find? fun r =>
    r.2.healthy && r.2.role = .follower && r.2.sourceNodeId = mentorId).map Prod.fst

def sortedMentorIds (t : TopologyManager) : List String :=
  ((t.nodes.rows.filter fun r => r.2.healthy && r.2.role = .mentor).map Prod.fst).insertionSort (· ≤ ·)

def selectSourceForFollower (t : TopologyManager) (followerId : String) : String :=
  let free := t.sortedMentorIds.find? fun m =>
    m ≠ followerId ∧ (t.findFollowerIdOf m = none ∨ t.findFollowerIdOf m = some followerId)
  match free with
  | some m => m
  | none => if t.leaderId ≠ "" ∧ t.leaderId ≠ followerId then t.leaderId else ""

/-- Hand the followers of a source that went away to other mentors, in id order. -/
def reassignFollowers (t : TopologyManager) (oldSource excludeNodeId : String) : TopologyManager :=
  if oldSource = "" then t
  else
    let toReassign := ((t.nodes.rows.filter fun r =>
      r.2.healthy && r.2.role = .follower && r.2.sourceNodeId = oldSource && r.1 ≠ excludeNodeId).map
        Prod.fst).insertionSort (· ≤ ·)
    toReassign.foldl (fun t followerId =>
      t.adjustNode followerId fun n => { n with sourceNodeId := t.selectSourceForFollower followerId }) t

def normalizeMentorSources (t : TopologyManager) : TopologyManager :=
  if t.leaderId = "" then t
  else
    let t := t.ensureLeader
    { t with nodes := t.nodes.mapValues fun nodeId n =>
        if nodeId = t.leaderId then { n with role := .leader, sourceNodeId := "" }
        else if n.role = .mentor then { n with sourceNodeId := t.leaderId }
        else n }

/-- First loop of `rebalance`: everything but the leader goes down. -/
def resetNodes (t : TopologyManager) : TopologyManager :=
  { t with nodes := t.nodes.mapValues fun nodeId n =>
      if nodeId = t.leaderId then
        { n with addr := t.resolveAddress nodeId, role := .leader, sourceNodeId := "", healthy := true }
      else
        { n with addr := t.resolveAddress nodeId, role := .follower, sourceNodeId := "", healthy := false } }

/-- Second loop of `rebalance`: bring the listed nodes up, each once. -/
def collectCandidates (t : TopologyManager) : List String → List String → TopologyManager × List String
  | [], candidates => (t, candidates)
  | nodeId :: rest, candidates =>
    if nodeId = "" ∨ nodeId = t.leaderId ∨ nodeId ∈ candidates then t.collectCandidates rest candidates
    else
      let t := t.ensureNode nodeId
      let t := t.adjustNode nodeId fun n => { n with addr := t.resolveAddress nodeId, healthy := true }
      t.collectCandidates rest (candidates ++ [nodeId])

/-- Last loop of `rebalance`, from position `index` of the sorted candidates on. -/
def assignRoles (t : TopologyManager) (mentorCount : Nat) :
    Nat → List String → List String → TopologyManager
  | _, _, [] => t
  | index, mentors, nodeId :: rest =>
    if index < mentorCount then
      (t.adjustNode nodeId fun n => { n with role := .mentor, sourceNodeId := t.leaderId }).assignRoles
        mentorCount (index + 1) (mentors ++ [nodeId]) rest
    else
      (t.adjustNode nodeId fun n =>
        { n with role := .follower, sourceNodeId := mentors.getD (index - mentorCount) "" }).assignRoles
          mentorCount (index + 1) mentors rest

def rebalance (t : TopologyManager) (healthyNodes : List String) : Except String TopologyManager :=
  if t.leaderId = "" ∧ t.selfId = "" then .error "Rebalance 失败: 尚未设置 leader_id 或 self_id"
  else
    let t := { t with leaderId := if t.leaderId = "" then t.selfId else t.leaderId }
    let t := t.ensureLeader.resetNodes
    let (t, candidates) := t.collectCandidates healthyNodes []
    let sorted := candidates.insertionSort (· ≤ ·)
    .ok (t.assignRoles ((sorted.length + 1) / 2) 0 [] sorted)

def allNodes (t : TopologyManager) : List (String × NodeInfo) :=
  t.nodes.rows.insertionSort fun a b => a.1 ≤ b.1

def getMentors (t : TopologyManager) : List (String × NodeInfo) :=
  (t.nodes.rows.filter fun r => r.2.healthy && r.2.role = .mentor).insertionSort fun a b => a.1 ≤ b.1

def getNode (t : TopologyManager) (nodeId : String) : Option NodeInfo := t.nodes.find? nodeId

def getFollowerOf (t : TopologyManager) (mentorId : String) : Option (String × NodeInfo) :=
  (t.findFollowerIdOf mentorId).bind fun followerId => (t.nodes.find? followerId).map (followerId, ·)

def getMentorOf (t : TopologyManager) (followerId : String) : Option (String × NodeInfo) :=
  match t.nodes.find? followerId with
  | none => none
  | some n =>
    if n.role ≠ .follower ∨ n.sourceNodeId = "" then none
    else (t.nodes.find? n.sourceNodeId).map (n.sourceNodeId, ·)

def getRole (t : TopologyManager) (nodeId : String) : NodeRole :=
  ((t.nodes.find? nodeId).map NodeInfo.role).getD .follower

def getSource (t : TopologyManager) (nodeId : String) : String :=
  ((t.nodes.find? nodeId).map NodeInfo.sourceNodeId).getD ""

def promoteToMentor (t : TopologyManager) (nodeId : String) : TopologyManager :=
  if nodeId = "" then t
  else
    let t := t.ensureLeader.ensureNode nodeId
    let isLeader := nodeId = t.leaderId
    t.adjustNode nodeId fun n =>
      { n with
        healthy := true
        role := if isLeader then .leader else .mentor
        sourceNodeId := if isLeader then "" else t.leaderId
        addr := t.resolveAddress nodeId }

def demoteToFollower (t : TopologyManager) (nodeId : String) : TopologyManager :=
  if nodeId = "" ∨ nodeId = t.leaderId then t
  else
    let t := t.ensureLeader.ensureNode nodeId
    let t := t.adjustNode nodeId fun n => { n with healthy := true, role := .follower }
    let t := t.adjustNode nodeId fun n => { n with sourceNodeId := t.selectSourceForFollower nodeId }
    let t := t.adjustNode nodeId fun n => { n with addr := t.resolveAddress nodeId }
    t.reassignFollowers nodeId nodeId

def swapFollowers (t : TopologyManager) (mentorA mentorB : String) : TopologyManager :=
  if mentorA = "" ∨ mentorB = "" ∨ mentorA = mentorB then t
  else
    let followerA := t.findFollowerIdOf mentorA
    let followerB := t.findFollowerIdOf mentorB
    let t := match followerA with
      | some f => t.adjustNode f fun n => { n with sourceNodeId := mentorB }
      | none => t
    match followerB with
    | some f => t.adjustNode f fun n => { n with sourceNodeId := mentorA }
    | none => t

def markUnhealthy (t : TopologyManager) (nodeId : String) : TopologyManager :=
  if nodeId = "" then t
  else
    let t := (t.ensureNode nodeId).adjustNode nodeId fun n => { n with healthy := false }
    if nodeId = t.leaderId then
      t.adjustNode nodeId fun n => { n with role := .leader, sourceNodeId := "" }
    else
      (t.adjustNode nodeId fun n => { n with role := .follower, sourceNodeId := "" }).reassignFollowers nodeId ""

def markHealthy (t : TopologyManager) (nodeId : String) : TopologyManager :=
  if nodeId = "" then t
  else
    let t := t.ensureLeader.ensureNode nodeId
    let t := t.adjustNode nodeId fun n => { n with healthy := true, addr := t.resolveAddress nodeId }
    if nodeId = t.leaderId then
      t.adjustNode nodeId fun n => { n with role := .leader, sourceNodeId := "" }
    else if t.getSource nodeId = "" then
      let t := t.adjustNode nodeId fun n => { n with role := .follower }
      t.adjustNode nodeId fun n => { n with sourceNodeId := t.selectSourceForFollower nodeId }
    else t

def toProto (t : TopologyManager) (nodeId : String) : Except String TopologyInfo :=
  match t.nodes.find? nodeId with
  | none => .error ("ToProto 失败: 未找到节点 " ++ nodeId)
  | some n => .ok
    { role := roleToString n.role
      sourceNodeId := n.sourceNodeId
      followerNodeId := if n.role = .mentor then (t.findFollowerIdOf nodeId).getD "" else "" }

/-- Adopt the role and the upstream named by a broadcast. -/
def adoptRole (t : TopologyManager) (nodeId : String) (role : NodeRole) (sourceNodeId : String) :
    TopologyManager :=
  let t := t.ensureNode nodeId
  let t := t.adjustNode nodeId fun n =>
    { n with addr := t.resolveAddress nodeId, role, sourceNodeId, healthy := true }
  if role = .leader then
    let t := { t with leaderId := nodeId }
    (t.adjustNode nodeId fun n => { n with sourceNodeId := "" }).ensureLeader
  else if sourceNodeId ≠ "" then
    let t := t.ensureNode sourceNodeId
    let t := t.adjustNode sourceNodeId fun n => { n with addr := t.resolveAddress sourceNodeId, healthy := true }
    if role = .mentor then
      let t := { t with leaderId := sourceNodeId }
      t.adjustNode sourceNodeId fun n => { n with role := .leader, sourceNodeId := "" }
    else t
  else t

/-- A mentor's downstream is what the broadcast names, also when it names nobody. -/
def adoptFollower (t : TopologyManager) (nodeId followerNodeId : String) : TopologyManager :=
  let t := match t.findFollowerIdOf nodeId with
    | some stale =>
      if stale ≠ followerNodeId then
        t.adjustNode stale fun n => { n with role := .follower, sourceNodeId := "" }
      else t
    | none => t
  if followerNodeId = "" then t
  else
    let t := t.ensureNode followerNodeId
    t.adjustNode followerNodeId fun n =>
      { n with addr := t.resolveAddress followerNodeId, role := .follower, sourceNodeId := nodeId, healthy := true }

def fromProto (t : TopologyManager) (nodeId : String) (proto : TopologyInfo) (nodeAddr : String := "") :
    Except String TopologyManager :=
  if nodeId = "" then .error "FromProto 失败: node_id 不能为空"
  else
    match parseRole proto.role with
    | .error e => .error e
    | .ok role =>
      let t := if nodeAddr = "" then t
        else { t with
          registeredAddrs := t.registeredAddrs.insert nodeId nodeAddr
          selfAddr := if nodeId = t.selfId then nodeAddr else t.selfAddr }
      let t := t.adoptRole nodeId role proto.sourceNodeId
      let t := if t.getRole nodeId = .mentor then t.adoptFollower nodeId proto.followerNodeId else t
      .ok t.normalizeMentorSources

end TopologyManager

end RaftVdb
