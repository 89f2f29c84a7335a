import Mathlib.Data.List.Basic
import RaftVdb.Provenance
import Std.Data.String.ToNat

/-!
# `DBClient`

A logical write gets its request id once and keeps it over all attempts. `WithRetry` sends
the attempts one after another: it goes where it is redirected, and to another peer where an
attempt fails or finds an election under way.
-/

namespace RaftVdb

/-- What `DBClient` reads of the section `client`. -/
structure ClientConfig where
  retryBaseMs : UInt32 := 50
  retryMaxMs : UInt32 := 2000
  maxRetryCount : UInt32 := 10
  deriving DecidableEq, Repr

/-- What the template `WithRetry` asks of a response. -/
class RpcResponse (ρ : Type) where
  success : ρ → Bool
  redirectTo : ρ → String
  error : ρ → String

instance : RpcResponse ClientWriteResponse := ⟨ClientWriteResponse.success, ClientWriteResponse.redirectTo, ClientWriteResponse.error⟩

/-- The bytes of `float32` values, given as bit patterns, least significant byte first. -/
def serializeFloatVectorBytes (values : List UInt32) : Bytes :=
  values.flatMap fun v => [.ofNat v.toNat, .ofNat (v.toNat / 2 ^ 8), .ofNat (v.toNat / 2 ^ 16), .ofNat (v.toNat / 2 ^ 24)]

/-- The leader parses what the client serializes. -/
theorem parseFloatVectorBytes_serialize (values : List UInt32) :
    Node.parseFloatVectorBytes (serializeFloatVectorBytes values) = .ok (values.map UInt32.toNat) := by
  induction values with
  | nil => rfl
  | cons v values ih =>
    have hlt := v.toNat_lt
    show (Node.parseFloatVectorBytes (serializeFloatVectorBytes values)).map _ = _
    rw [ih]
    simp only [Except.map, List.map_cons, UInt8.toNat_ofNat']
    congr 2
    omega

structure DBClient where
  peers : List String
  config : ClientConfig := {}
  leaderAddr : String := ""
  clientId : String
  clientSeq : UInt64 := 0
  deriving DecidableEq, Repr

namespace DBClient

def validatePeers (peers : List String) : Except String Unit :=
  if peers = [] then .error "DBClient::Connect 失败: peers 不能为空"
  else if peers.any (fun peer => peer ≠ "") = false then .error "DBClient::Connect 失败: peers 不能全为空"
  else .ok ()

def nextRequestId (client : DBClient) : String × DBClient :=
  let nextSeq := client.clientSeq + 1
  (client.clientId ++ "-" ++ toString nextSeq.toNat, { client with clientSeq := nextSeq })

/-- The random number comes in as `pick`. -/
def chooseRandomPeer (peers : List String) (pick : Nat) (excludeAddr : String) : String :=
  let candidates := peers.filter fun peer => peer ≠ "" ∧ peer ≠ excludeAddr
  candidates.getD (pick % candidates.length) excludeAddr

def backoffMs (config : ClientConfig) (attempt : UInt32) : UInt64 :=
  let multiplier : UInt64 := 1 <<< (min attempt 20).toUInt64
  min (config.retryBaseMs.toUInt64 * multiplier) config.retryMaxMs.toUInt64

/-- How an attempt ends: the loop returns, or goes on with a target. -/
inductive Verdict (ρ : Type) where
  | finish (result : Except String ρ)
  | again (target : String)
  deriving DecidableEq

section

variable {ρ : Type} [RpcResponse ρ]

def judge (peers : List String) (pick : Nat) (target : String) : Except String ρ → Verdict ρ
  | .ok response =>
    if RpcResponse.success response then .finish (.ok response)
    else if RpcResponse.redirectTo response ≠ "" then .again (RpcResponse.redirectTo response)
    else if RpcResponse.error response ≠ "" then .finish (.error (RpcResponse.error response))
    else .again (chooseRandomPeer peers pick target)
  | .error _ => .again (chooseRandomPeer peers pick target)

/-- Only a response that says so is a success, and it is returned as it came. -/
theorem judge_eq_ok {peers : List String} {pick : Nat} {target : String} {answer : Except String ρ} {response : ρ}
    (h : judge peers pick target answer = .finish (.ok response)) :
    answer = .ok response ∧ RpcResponse.success response = true := by
  cases answer with
  | error err => cases h
  | ok r =>
    unfold judge at h
    dsimp only at h
    split at h
    · next hsuccess =>
      cases h
      exact ⟨rfl, hsuccess⟩
    split at h
    · cases h
    split at h
    · cases h
    · cases h

/-- The result of `WithRetry`, with the targets of the attempts and the pauses between them. -/
structure Retried (ρ : Type) where
  result : Except String ρ
  targets : List String
  pauses : List UInt64 := []

/-- The loop, with `remaining` iterations left after this one. -/
def retryLoop (peers : List String) (config : ClientConfig) (fn : UInt32 → String → Except String ρ) (pick : UInt32 → Nat) :
    Nat → UInt32 → String → Retried ρ
  | remaining, attempt, target =>
    match judge peers (pick attempt) target (fn attempt target) with
    | .finish result => { result, targets := [target] }
    | .again next =>
      match remaining with
      | 0 => { result := .error "重试次数超过上限，仍未定位到可用 Leader", targets := [target] }
      | remaining + 1 =>
        let rest := retryLoop peers config fn pick remaining (attempt + 1) next
        { rest with targets := target :: rest.targets, pauses := backoffMs config attempt :: rest.pauses }

/-- `WithRetry`. The answers of the servers come in as `fn`, and what `ProbeLeaderConcurrently`
finds as `probe`. -/
def withRetry (client : DBClient) (probe : Except String String) (fn : UInt32 → String → Except String ρ) (pick : UInt32 → Nat) :
    DBClient × Retried ρ :=
  match if client.leaderAddr = "" then probe else .ok client.leaderAddr with
  | .error err => (client, { result := .error err, targets := [] })
  | .ok target =>
    let retried := retryLoop client.peers client.config fn pick client.config.maxRetryCount.toNat 0 target
    match retried.result with
    | .ok _ => ({ client with leaderAddr := retried.targets.getLastD target }, retried)
    | .error _ => (client, retried)

end

/-! ## The loop -/

/-- The product stays below `2 ^ 52`. -/
theorem backoffMs_toNat (config : ClientConfig) (attempt : UInt32) : (backoffMs config attempt).toNat =
    min (config.retryBaseMs.toNat * 2 ^ min attempt.toNat 20) config.retryMaxMs.toNat := by
  have hexponent : min attempt.toNat 20 ≤ 20 := min_le_right _ _
  have hpower : 2 ^ min attempt.toNat 20 ≤ 2 ^ 20 := Nat.pow_le_pow_right (by decide) hexponent
  have hbase := config.retryBaseMs.toNat_lt
  have hmultiplier : ((1 : UInt64) <<< (min attempt 20).toUInt64).toNat = 2 ^ min attempt.toNat 20 := by
    have hshift : (min attempt 20).toUInt64.toNat = min attempt.toNat 20 := by
      rw [UInt32.toNat_toUInt64, UInt32.toNat_min]
      rfl
    rw [UInt64.toNat_shiftLeft, hshift, Nat.mod_eq_of_lt (show min attempt.toNat 20 < 64 by omega), Nat.shiftLeft_eq]
    show 1 * 2 ^ min attempt.toNat 20 % 2 ^ 64 = _
    rw [Nat.one_mul, Nat.mod_eq_of_lt (by omega)]
  have hproduct : config.retryBaseMs.toNat * 2 ^ min attempt.toNat 20 < 2 ^ 64 := by
    have := Nat.mul_le_mul hbase.le hpower
    omega
  unfold backoffMs
  rw [UInt64.toNat_min, UInt64.toNat_mul, hmultiplier, UInt32.toNat_toUInt64, UInt32.toNat_toUInt64, Nat.mod_eq_of_lt hproduct]

section

variable {ρ : Type} [RpcResponse ρ] {peers : List String} {config : ClientConfig} {fn : UInt32 → String → Except String ρ}
  {pick : UInt32 → Nat}

/-- The verdict on the attempt of a number at a target. -/
def verdict (peers : List String) (fn : UInt32 → String → Except String ρ) (pick : UInt32 → Nat) (attempt : UInt32)
    (target : String) : Verdict ρ := judge peers (pick attempt) target (fn attempt target)

/-- The course of the loop, as its targets and pauses tell: every attempt but the last sends the
next one on its way, and the last one decides or is one too many. -/
structure Course (peers : List String) (config : ClientConfig) (fn : UInt32 → String → Except String ρ) (pick : UInt32 → Nat)
    (remaining : Nat) (attempt : UInt32) (target : String) (r : Retried ρ) : Prop where
  head : r.targets.head? = some target
  length_le : r.targets.length ≤ remaining + 1
  pauses : r.pauses = (List.range (r.targets.length - 1)).map fun i => backoffMs config (attempt + .ofNat i)
  next : ∀ i t t', r.targets[i]? = some t → r.targets[i + 1]? = some t' →
    verdict peers fn pick (attempt + .ofNat i) t = .again t'
  last : ∀ i t, r.targets[i]? = some t → i + 1 = r.targets.length →
    verdict peers fn pick (attempt + .ofNat i) t = .finish r.result ∨
      (i = remaining ∧ r.result = .error "重试次数超过上限，仍未定位到可用 Leader" ∧
        ∃ t', verdict peers fn pick (attempt + .ofNat i) t = .again t')

theorem ofNat_succ (attempt : UInt32) (i : Nat) : attempt + .ofNat (i + 1) = attempt + 1 + .ofNat i := by
  rw [UInt32.ofNat_add, UInt32.add_comm (UInt32.ofNat i), ← UInt32.add_assoc]
  rfl

theorem Course.single {remaining : Nat} {attempt : UInt32} {target : String} {result : Except String ρ}
    (h : verdict peers fn pick attempt target = .finish result ∨
      (0 = remaining ∧ result = .error "重试次数超过上限，仍未定位到可用 Leader" ∧
        ∃ t', verdict peers fn pick attempt target = .again t')) :
    Course peers config fn pick remaining attempt target { result, targets := [target] } where
  head := rfl
  length_le := Nat.le_add_left 1 remaining
  pauses := rfl
  next i t t' _ ht' := by cases ht'
  last i t ht hlast := by
    obtain rfl : i = 0 := by simpa using hlast
    cases ht
    simpa using h

theorem Course.cons {remaining : Nat} {attempt : UInt32} {target target' : String} {r : Retried ρ}
    (h : Course peers config fn pick remaining (attempt + 1) target' r)
    (hagain : verdict peers fn pick attempt target = .again target') : Course peers config fn pick (remaining + 1) attempt target
      { r with targets := target :: r.targets, pauses := backoffMs config attempt :: r.pauses } := by
  have hpos : 0 < r.targets.length := List.length_pos_of_mem (List.mem_of_head? h.head)
  refine ⟨rfl, Nat.succ_le_succ h.length_le, ?_, fun i t t' ht ht' => ?_, fun i t ht hlast => ?_⟩
  · obtain ⟨k, hk⟩ := Nat.exists_eq_succ_of_ne_zero hpos.ne'
    dsimp only
    rw [h.pauses, List.length_cons, hk, Nat.add_sub_cancel, Nat.succ_sub_one, List.range_succ_eq_map, List.map_cons, List.map_map]
    refine congrArg₂ List.cons (by simp) (List.map_congr_left fun i _ => ?_)
    exact congrArg (backoffMs config) (ofNat_succ attempt i).symm
  · cases i with
    | zero =>
      cases ht
      have hhead : r.targets.head? = some t' := by
        rw [List.head?_eq_getElem?]
        exact ht'
      rw [h.head] at hhead
      cases hhead
      simpa using hagain
    | succ i =>
      rw [ofNat_succ]
      exact h.next i t t' ht ht'
  · cases i with
    | zero =>
      rw [List.length_cons] at hlast
      omega
    | succ i =>
      rw [ofNat_succ]
      rcases h.last i t ht (Nat.succ.inj hlast) with hfinish | ⟨rfl, hresult, hagain⟩
      · exact .inl hfinish
      · exact .inr ⟨rfl, hresult, hagain⟩

theorem course_retryLoop (remaining : Nat) (attempt : UInt32) (target : String) :
    Course peers config fn pick remaining attempt target (retryLoop peers config fn pick remaining attempt target) := by
  induction remaining generalizing attempt target with
  | zero =>
    unfold retryLoop
    cases hverdict : judge peers (pick attempt) target (fn attempt target) with
    | finish result => exact .single (.inl hverdict)
    | again next => exact .single (.inr ⟨rfl, rfl, next, hverdict⟩)
  | succ remaining ih =>
    unfold retryLoop
    cases hverdict : judge peers (pick attempt) target (fn attempt target) with
    | finish result => exact .single (.inl hverdict)
    | again next => exact (ih (attempt + 1) next).cons hverdict

/-- Where the next attempt goes: to where this one is redirected, or else to another peer, if
there is one. -/
def Hops (peers : List String) (answer : Except String ρ) (target target' : String) : Prop :=
  (∃ response, answer = .ok response ∧ RpcResponse.success response = false ∧ RpcResponse.redirectTo response = target' ∧
    target' ≠ "") ∨
  ((∀ response, answer = .ok response → RpcResponse.success response = false ∧ RpcResponse.redirectTo response = "" ∧
      RpcResponse.error response = "") ∧
    ((target' ∈ peers ∧ target' ≠ "" ∧ target' ≠ target) ∨ (target' = target ∧ ∀ peer ∈ peers, peer = "" ∨ peer = target)))

theorem chooseRandomPeer_cases (peers : List String) (pick : Nat) (target : String) :
    (chooseRandomPeer peers pick target ∈ peers ∧ chooseRandomPeer peers pick target ≠ "" ∧
      chooseRandomPeer peers pick target ≠ target) ∨
    (chooseRandomPeer peers pick target = target ∧ ∀ peer ∈ peers, peer = "" ∨ peer = target) := by
  unfold chooseRandomPeer
  generalize hcandidates : (peers.filter fun peer => peer ≠ "" ∧ peer ≠ target) = candidates
  rcases candidates.eq_nil_or_concat with rfl | ⟨_, _, hne⟩
  · refine .inr ⟨rfl, fun peer hpeer => ?_⟩
    have hnot := List.filter_eq_nil_iff.mp hcandidates peer hpeer
    simpa [or_iff_not_imp_left] using hnot
  · have hlt : pick % candidates.length < candidates.length := Nat.mod_lt _ (by rw [hne]; simp)
    have hmem : candidates.getD (pick % candidates.length) target ∈ candidates := by
      rw [List.getD_eq_getElem?_getD, List.getElem?_eq_getElem hlt]
      exact List.getElem_mem hlt
    rw [← hcandidates] at hmem ⊢
    have hpeer := List.mem_filter.mp hmem
    simp only [ne_eq, decide_eq_true_eq] at hpeer
    exact .inl hpeer

theorem judge_eq_again {pick : Nat} {target target' : String} {answer : Except String ρ}
    (h : judge peers pick target answer = .again target') : Hops peers answer target target' := by
  cases answer with
  | error err =>
    cases h
    exact .inr ⟨fun response hresponse => (by cases hresponse), chooseRandomPeer_cases peers pick target⟩
  | ok response =>
    unfold judge at h
    dsimp only at h
    split at h
    · cases h
    next hsuccess =>
    have hsuccess := Bool.eq_false_iff.mpr hsuccess
    split at h
    · next hredirect =>
      cases h
      exact .inl ⟨response, rfl, hsuccess, rfl, hredirect⟩
    next hredirect =>
    split at h
    · cases h
    next herror =>
    cases h
    refine .inr ⟨fun r hr => ?_, chooseRandomPeer_cases peers pick target⟩
    cases hr
    exact ⟨hsuccess, not_not.mp hredirect, not_not.mp herror⟩

theorem judge_eq_error {pick : Nat} {target err : String} {answer : Except String ρ}
    (h : judge peers pick target answer = .finish (.error err)) : ∃ response, answer = .ok response ∧
      RpcResponse.success response = false ∧ RpcResponse.redirectTo response = "" ∧ RpcResponse.error response = err ∧ err ≠ "" := by
  cases answer with
  | error err => cases h
  | ok response =>
    unfold judge at h
    dsimp only at h
    split at h
    · cases h
    next hsuccess =>
    split at h
    · cases h
    next hredirect =>
    split at h
    · next herror =>
      cases h
      exact ⟨response, rfl, Bool.eq_false_iff.mpr hsuccess, not_not.mp hredirect, rfl, herror⟩
    · cases h

/-- Why `WithRetry` gives up: there was no leader to begin with, the last answer was an error of
its own, or the attempts are used up. -/
inductive GivesUp (client : DBClient) (probe : Except String String) (fn : UInt32 → String → Except String ρ)
    (targets : List String) (err : String) : Prop
  | noLeader (htargets : targets = []) (hleader : client.leaderAddr = "") (hprobe : probe = .error err)
  | refused {i : Nat} {target : String} {response : ρ} (hlast : i + 1 = targets.length) (htarget : targets[i]? = some target)
      (hanswer : fn (.ofNat i) target = .ok response) (hsuccess : RpcResponse.success response = false)
      (hredirect : RpcResponse.redirectTo response = "") (herror : RpcResponse.error response = err) (hne : err ≠ "")
  | exhausted (hlength : targets.length = client.config.maxRetryCount.toNat + 1) (herror : err = "重试次数超过上限，仍未定位到可用 Leader")

/-- `WithRetry`, whatever the servers answer: its attempts are bounded and go where the answers
before sent them, the pauses double up to their maximum without overflow, a success is that
of the last answer, and only with a success does the client learn a leader. -/
theorem with_retry_course (client client' : DBClient) (probe : Except String String) (fn : UInt32 → String → Except String ρ)
    (pick : UInt32 → Nat) (r : Retried ρ) (h : client.withRetry probe fn pick = (client', r)) :
    r.targets.length ≤ client.config.maxRetryCount.toNat + 1 ∧
    r.pauses.map UInt64.toNat = (List.range (r.targets.length - 1)).map (fun i =>
      min (client.config.retryBaseMs.toNat * 2 ^ min i 20) client.config.retryMaxMs.toNat) ∧
    (∀ i t t', r.targets[i]? = some t → r.targets[i + 1]? = some t' → Hops client.peers (fn (.ofNat i) t) t t') ∧
    (∀ response, r.result = .ok response → ∃ i t, i + 1 = r.targets.length ∧ r.targets[i]? = some t ∧
      fn (.ofNat i) t = .ok response ∧ RpcResponse.success response = true ∧ client' = { client with leaderAddr := t }) ∧
    (∀ err, r.result = .error err → client' = client ∧ GivesUp client probe fn r.targets err) := by
  unfold withRetry at h
  split at h
  · next err hprobe =>
    cases h
    refine ⟨Nat.zero_le _, rfl, fun i t t' ht => (by cases ht), fun response hok => (by cases hok), fun e he => ?_⟩
    cases he
    split at hprobe
    · next hleader => exact ⟨rfl, .noLeader rfl hleader hprobe⟩
    · cases hprobe
  next first hfirst =>
  have hcourse : Course client.peers client.config fn pick client.config.maxRetryCount.toNat 0 first _ := course_retryLoop _ _ _
  dsimp only at h
  generalize retryLoop client.peers client.config fn pick client.config.maxRetryCount.toNat 0 first = retried at h hcourse
  have hr : r = retried ∧ client' = match retried.result with
      | .ok _ => { client with leaderAddr := retried.targets.getLastD first }
      | .error _ => client := by
    split at h
    · cases h
      exact ⟨rfl, rfl⟩
    · cases h
      exact ⟨rfl, rfl⟩
  obtain ⟨rfl, rfl⟩ := hr
  obtain ⟨i, hlast, t, ht⟩ : ∃ i, i + 1 = r.targets.length ∧ ∃ t, r.targets[i]? = some t := by
    have hpos : 0 < r.targets.length := List.length_pos_of_mem (List.mem_of_head? hcourse.head)
    exact ⟨r.targets.length - 1, by omega, _, List.getElem?_eq_getElem (by omega)⟩
  have hend := hcourse.last i t ht hlast
  rw [UInt32.zero_add] at hend
  refine ⟨hcourse.length_le, ?_, fun i t t' ht ht' => ?_, fun response hok => ?_, fun err herr => ?_⟩
  · rw [hcourse.pauses, List.map_map]
    refine List.map_congr_left fun j hj => ?_
    have hlt := List.mem_range.mp hj
    have hle := hcourse.length_le
    have hmax := client.config.maxRetryCount.toNat_lt
    have hj : (UInt32.ofNat j).toNat = j := by
      rw [UInt32.toNat_ofNat']
      exact Nat.mod_eq_of_lt (by omega)
    rw [Function.comp_apply, UInt32.zero_add, backoffMs_toNat, hj]
  · have hagain := hcourse.next i t t' ht ht'
    rw [UInt32.zero_add] at hagain
    exact judge_eq_again hagain
  · rcases hend with hfinish | ⟨-, herror, -⟩
    · rw [hok] at hfinish
      obtain ⟨hanswer, hsuccess⟩ := judge_eq_ok hfinish
      have htarget : r.targets.getLastD first = t := by
        rw [List.getLastD_eq_getLast?, List.getLast?_eq_getElem?, ← hlast, Nat.add_sub_cancel, ht]
        rfl
      exact ⟨i, t, hlast, ht, hanswer, hsuccess, by rw [hok, htarget]⟩
    · rw [hok] at herror
      cases herror
  · refine ⟨by rw [herr], ?_⟩
    rcases hend with hfinish | ⟨rfl, herror, -⟩
    · rw [herr] at hfinish
      obtain ⟨response, hanswer, hsuccess, hredirect, herror, hne⟩ := judge_eq_error hfinish
      exact .refused hlast ht hanswer hsuccess hredirect herror hne
    · rw [herr] at herror
      cases herror
      exact .exhausted hlast.symm rfl

end

/-- The first peer does not answer, the second one names the leader. -/
def answersOf : String → Except String ClientWriteResponse
  | "A" => .error "ClientWrite RPC 失败: "
  | "B" => .ok { success := false, redirectTo := "C" }
  | _ => .ok { success := true }

theorem with_retry_course_to_leader :
    let outcome := withRetry { peers := ["A", "B", "C"], leaderAddr := "A", clientId := "c" } (.error "") (fun _ => answersOf) fun _ => 0
    outcome.2.targets = ["A", "B", "C"] ∧ outcome.2.pauses.map UInt64.toNat = [50, 100] ∧ outcome.1.leaderAddr = "C" ∧
      Hops ["A", "B", "C"] (answersOf "B") "B" "C" := by
  intro outcome
  obtain ⟨-, hpauses, hhops, hok, -⟩ := with_retry_course { peers := ["A", "B", "C"], leaderAddr := "A", clientId := "c" } outcome.1
    (.error "") (fun _ => answersOf) (fun _ => 0) outcome.2 rfl
  have htargets : outcome.2.targets = ["A", "B", "C"] := by decide +kernel
  obtain ⟨i, t, hlast, ht, -, -, hclient⟩ := hok { success := true } rfl
  rw [htargets] at hpauses hlast ht hhops
  obtain rfl : i = 2 := by simpa using hlast
  cases ht
  exact ⟨htargets, hpauses, by rw [hclient], hhops 1 "B" "C" rfl rfl⟩

/-! ## Request ids -/

theorem ne_of_mem_toString {n : Nat} {ch : Char} (h : ch ∈ (toString n).toList.reverse) : ch ≠ '-' := by
  rintro rfl
  rw [List.mem_reverse, show (toString n).toList = Nat.toDigits 10 n from Nat.toList_repr] at h
  exact absurd (Nat.isDigit_of_mem_toDigits (by decide) (by decide) h) (by decide)

/-- The digits begin behind the last dash, so an id tells the client and the number. -/
theorem requestId_inj {a b : String} {m n : Nat} (h : a ++ "-" ++ toString m = b ++ "-" ++ toString n) : a = b ∧ m = n := by
  have hlists : (toString m).toList.reverse ++ '-' :: a.toList.reverse = (toString n).toList.reverse ++ '-' :: b.toList.reverse := by
    have hreverse := congrArg (fun s : String => s.toList.reverse) h
    simpa using hreverse
  have hdigits : (toString m).toList.reverse = (toString n).toList.reverse := by
    have hfront := congrArg (List.takeWhile fun ch => ch ≠ '-') hlists
    rwa [List.takeWhile_append_of_pos fun ch hch => by simpa using ne_of_mem_toString hch, List.takeWhile_cons_of_neg (by simp),
      List.append_nil, List.takeWhile_append_of_pos fun ch hch => by simpa using ne_of_mem_toString hch,
      List.takeWhile_cons_of_neg (by simp), List.append_nil] at hfront
  rw [hdigits, List.append_cancel_left_eq, List.cons.injEq] at hlists
  exact ⟨String.toList_inj.mp (List.reverse_injective hlists.2),
    Nat.repr_injective (String.toList_inj.mp (List.reverse_injective hdigits))⟩

end DBClient

end RaftVdb
