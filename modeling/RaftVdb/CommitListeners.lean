import RaftVdb.Dedup
import RaftVdb.Lib.Transition

/-!
# Waiting for a commit

A call of `HandleClientWrite` whose request is in the log registers a promise under its
request id, looks into the dedup table again, and waits. `ApplyCommittedEntries` records the
request and then fulfils the promise that stands under its id. The map has one promise for
each id: a second registration drops its promise, and the calls that time out or find the
request committed erase by id. A promise that is dropped before it is fulfilled leaves its
future ready with an exception.
-/

namespace RaftVdb

open Lib

inductive Future where
  | pending
  | value (entry : DedupEntry)
  /-- `std::future_errc::broken_promise` -/
  | broken
  deriving DecidableEq, Repr

/-- How a call ends: with the outcome of its request, with `success = false` after its
timeout, or with the exception of `future.get()`. -/
inductive Reply where
  | committed (entry : DedupEntry)
  | failed
  | broken
  deriving DecidableEq, Repr

/-- Where a call is, by the step that it takes next. -/
inductive WaitPhase where
  /-- The promise is registered, and `Check` is next. -/
  | registered
  /-- `Check` has found the request committed, and `UnregisterCommitListener` is next. -/
  | early (entry : DedupEntry)
  | waiting
  /-- `wait_for` has timed out, and `UnregisterCommitListener` is next. -/
  | timedOut
  /-- The last `Check` is next. -/
  | unregistered
  | done (reply : Reply)
  deriving DecidableEq, Repr

structure Waiter where
  requestId : String
  phase : WaitPhase := .registered
  future : Future := .pending
  deriving DecidableEq, Repr

/-- The calls, `commit_listeners_` with the call that each promise belongs to, the dedup
table, and the request that `ApplyCommittedEntries` has recorded but not notified. -/
structure Listening where
  waiters : Table Nat Waiter := ∅
  listeners : Table String Nat := ∅
  dedup : DedupTable
  applying : Option (String × DedupEntry) := none

namespace Listening

inductive Action where
  | register (call : Nat) (requestId : String)
  | check (call : Nat)
  | timeout (call : Nat)
  | unregister (call : Nat)
  | lastCheck (call : Nat)
  | receive (call : Nat)
  /-- `TrackPending` of a `Propose`. -/
  | track (requestId : String) (logIndex : Nat)
  | record (requestId : String) (logIndex : Nat) (success : Bool) (error : String)
  | notify
  deriving DecidableEq, Repr

def setPhase (s : Listening) (call : Nat) (phase : WaitPhase) : Listening :=
  { s with waiters := s.waiters.adjust call fun w => { w with phase } }

def setFuture (s : Listening) (call : Nat) (future : Future) : Listening :=
  { s with waiters := s.waiters.adjust call fun w => { w with future } }

/-- `emplace`: where the id is taken, the promise is dropped. -/
def registerCommitListener (s : Listening) (call : Nat) (requestId : String) : Listening :=
  match s.listeners.find? requestId with
  | none => { s with listeners := s.listeners.insert requestId call, waiters := s.waiters.insert call { requestId } }
  | some _ => { s with waiters := s.waiters.insert call { requestId, future := .broken } }

def notifyCommitListener (s : Listening) (requestId : String) (entry : DedupEntry) : Listening :=
  match s.listeners.find? requestId with
  | none => s
  | some call => { s.setFuture call (.value entry) with listeners := s.listeners.erase requestId }

/-- `erase`: the promise under the id is dropped. -/
def unregisterCommitListener (s : Listening) (requestId : String) : Listening :=
  match s.listeners.find? requestId with
  | none => s
  | some call => { s.setFuture call .broken with listeners := s.listeners.erase requestId }

def step (s : Listening) : Action → Option Listening
  | .register call requestId =>
    if s.waiters.contains call then none else some (s.registerCommitListener call requestId)
  | .check call => match s.waiters.find? call with
    | some ⟨requestId, .registered, _⟩ => match s.dedup.check requestId with
      | .alreadyCommitted entry => some (s.setPhase call (.early entry))
      | _ => some (s.setPhase call .waiting)
    | _ => none
  | .timeout call => match s.waiters.find? call with
    | some ⟨_, .waiting, .pending⟩ => some (s.setPhase call .timedOut)
    | _ => none
  | .unregister call => match s.waiters.find? call with
    | some ⟨requestId, .early entry, _⟩ =>
      some ((s.unregisterCommitListener requestId).setPhase call (.done (.committed entry)))
    | some ⟨requestId, .timedOut, _⟩ => some ((s.unregisterCommitListener requestId).setPhase call .unregistered)
    | _ => none
  | .lastCheck call => match s.waiters.find? call with
    | some ⟨requestId, .unregistered, _⟩ => match s.dedup.check requestId with
      | .alreadyCommitted entry => some (s.setPhase call (.done (.committed entry)))
      | _ => some (s.setPhase call (.done .failed))
    | _ => none
  | .receive call => match s.waiters.find? call with
    | some ⟨_, .waiting, .value entry⟩ => some (s.setPhase call (.done (.committed entry)))
    | some ⟨_, .waiting, .broken⟩ => some (s.setPhase call (.done .broken))
    | _ => none
  | .track requestId logIndex => some { s with dedup := s.dedup.trackPending requestId logIndex }
  | .record requestId logIndex success error =>
    if requestId = "" ∨ s.applying.isSome then none
    else some { s with dedup := s.dedup.record requestId logIndex success error
                       applying := some (requestId, { committed := true, success, error, logIndex }) }
  | .notify => s.applying.map fun (requestId, entry) =>
      { s.notifyCommitListener requestId entry with applying := none }

end Listening

/-- The call may still erase what stands under its request id, or depends on it. -/
def Waiter.liable (w : Waiter) : Bool :=
  match w.phase with
  | .registered | .early _ | .timedOut => true
  | .waiting => w.future = .pending
  | _ => false

/-- The phases behind `UnregisterCommitListener`. -/
def WaitPhase.Past : WaitPhase → Prop
  | .unregistered => True
  | .done (.committed _) => True
  | _ => False

theorem WaitPhase.Past.not_liable {w : Waiter} (h : w.phase.Past) : w.liable = false := by
  unfold Waiter.liable
  cases hphase : w.phase with
  | unregistered => rfl
  | done reply => rfl
  | registered => rw [hphase] at h; cases h
  | early entry => rw [hphase] at h; cases h
  | waiting => rw [hphase] at h; cases h
  | timedOut => rw [hphase] at h; cases h

theorem WaitPhase.Past.whole {phase : WaitPhase} (h : phase.Past) (future : Future) :
    (phase = .registered ∨ phase = .waiting → future ≠ .broken) ∧ phase ≠ .done .broken := by
  refine ⟨?_, ?_⟩
  · rintro (rfl | rfl)
    · cases h
    · cases h
  · rintro rfl
    cases h

namespace Listening

/-- A call registers when no other one is liable for its request id. -/
def Clear (s : Listening) : Action → Prop
  | .register _ requestId => ∀ row ∈ s.waiters.rows, row.2.liable = true → row.2.requestId ≠ requestId
  | _ => True

instance (s : Listening) (a : Action) : Decidable (s.Clear a) := by
  cases a <;> unfold Clear <;> infer_instance

/-- The promise under an id is that of the one call that is liable for it. -/
structure Inv (s : Listening) : Prop where
  owner : ∀ r c, s.listeners.find? r = some c →
    ∃ w, s.waiters.find? c = some w ∧ w.requestId = r ∧ w.future = .pending ∧ w.liable = true
  entered : ∀ c w, s.waiters.find? c = some w → w.liable = true → w.future = .pending →
    s.listeners.find? w.requestId = some c
  whole : ∀ c w, s.waiters.find? c = some w →
    (w.phase = .registered ∨ w.phase = .waiting → w.future ≠ .broken) ∧ w.phase ≠ .done .broken
  alone : ∀ c c' w w', s.waiters.find? c = some w → s.waiters.find? c' = some w' → w.liable = true → w'.liable = true →
    w.requestId = w'.requestId → c = c'

variable {s s' : Listening} {c : Nat} {w w' : Waiter}

/-- A call goes on and keeps its promise. -/
theorem Inv.advance (h : Inv s) (hw : s.waiters.find? c = some w) (hc : s'.waiters.find? c = some w')
    (hother : ∀ x, x ≠ c → s'.waiters.find? x = s.waiters.find? x) (hlisteners : s'.listeners = s.listeners)
    (hid : w'.requestId = w.requestId) (hfuture : w'.future = w.future) (hliable : w'.liable = true → w.liable = true)
    (hkept : w.liable = true → w.future = .pending → w'.liable = true)
    (hwhole : (w'.phase = .registered ∨ w'.phase = .waiting → w'.future ≠ .broken) ∧ w'.phase ≠ .done .broken) :
    Inv s' := by
  have hback : ∀ x v, s'.waiters.find? x = some v → ∃ u, s.waiters.find? x = some u ∧ v.requestId = u.requestId ∧
      v.future = u.future ∧ (v.liable = true → u.liable = true) := by
    intro x v hv
    by_cases hx : x = c
    · subst hx
      rw [hc] at hv
      cases hv
      exact ⟨w, hw, hid, hfuture, hliable⟩
    · rw [hother x hx] at hv
      exact ⟨v, hv, rfl, rfl, id⟩
  refine ⟨?_, ?_, ?_, ?_⟩
  · intro r x hx
    rw [hlisteners] at hx
    obtain ⟨u, hu, hr, hpending, hl⟩ := h.owner r x hx
    by_cases hxc : x = c
    · subst hxc
      rw [hw] at hu
      cases hu
      exact ⟨w', hc, hid.trans hr, hfuture.trans hpending, hkept hl hpending⟩
    · exact ⟨u, (hother x hxc).trans hu, hr, hpending, hl⟩
  · intro x v hv hl hpending
    obtain ⟨u, hu, hr, hf, hul⟩ := hback x v hv
    rw [hlisteners, hr]
    exact h.entered x u hu (hul hl) (hf ▸ hpending)
  · intro x v hv
    by_cases hx : x = c
    · subst hx
      rw [hc] at hv
      cases hv
      exact hwhole
    · rw [hother x hx] at hv
      exact h.whole x v hv
  · intro x y v u hv hu hvl hul hr
    obtain ⟨v₀, hv₀, hvr, -, hvl₀⟩ := hback x v hv
    obtain ⟨u₀, hu₀, hur, -, hul₀⟩ := hback y u hu
    exact h.alone x y v₀ u₀ hv₀ hu₀ (hvl₀ hvl) (hul₀ hul) (by rw [← hvr, ← hur, hr])

/-- The call that is liable for an id gives up what stands under it. -/
theorem Inv.release (h : Inv s) (hw : s.waiters.find? c = some w) (hwl : w.liable = true)
    (hc : s'.waiters.find? c = some w') (hother : ∀ x, x ≠ c → s'.waiters.find? x = s.waiters.find? x)
    (hlisteners : ∀ r, s'.listeners.find? r = if r = w.requestId then none else s.listeners.find? r)
    (hid : w'.requestId = w.requestId) (hpast : w'.liable = true → w'.future ≠ .pending)
    (hwhole : (w'.phase = .registered ∨ w'.phase = .waiting → w'.future ≠ .broken) ∧ w'.phase ≠ .done .broken) :
    Inv s' := by
  have hback : ∀ x v, s'.waiters.find? x = some v → v.liable = true → ∃ u, s.waiters.find? x = some u ∧
      v.requestId = u.requestId ∧ u.liable = true ∧ (x ≠ c → v = u) := by
    intro x v hv hl
    by_cases hx : x = c
    · subst hx
      rw [hc] at hv
      cases hv
      exact ⟨w, hw, hid, hwl, fun hne => absurd rfl hne⟩
    · rw [hother x hx] at hv
      exact ⟨v, hv, rfl, hl, fun _ => rfl⟩
  refine ⟨?_, ?_, ?_, ?_⟩
  · intro r x hx
    rw [hlisteners] at hx
    split at hx
    · cases hx
    · next hne =>
      obtain ⟨u, hu, hr, hpending, hl⟩ := h.owner r x hx
      have hxc : x ≠ c := by
        rintro rfl
        rw [hw] at hu
        cases hu
        exact hne hr.symm
      exact ⟨u, (hother x hxc).trans hu, hr, hpending, hl⟩
  · intro x v hv hl hpending
    obtain ⟨u, hu, hr, hul, hsame⟩ := hback x v hv hl
    by_cases hxc : x = c
    · subst hxc
      rw [hc] at hv
      cases hv
      exact absurd hpending (hpast hl)
    · rw [hlisteners, if_neg]
      · rw [hr]
        exact h.entered x u hu hul (hsame hxc ▸ hpending)
      · intro hsameId
        exact hxc (h.alone x c u w hu hw hul hwl (by rw [← hr, hsameId]))
  · intro x v hv
    by_cases hx : x = c
    · subst hx
      rw [hc] at hv
      cases hv
      exact hwhole
    · rw [hother x hx] at hv
      exact h.whole x v hv
  · intro x y v u hv hu hvl hul hr
    obtain ⟨v₀, hv₀, hvr, hvl₀, -⟩ := hback x v hv hvl
    obtain ⟨u₀, hu₀, hur, hul₀, -⟩ := hback y u hu hul
    exact h.alone x y v₀ u₀ hv₀ hu₀ hvl₀ hul₀ (by rw [← hvr, ← hur, hr])

theorem find?_setPhase (hw : s.waiters.find? c = some w) (phase : WaitPhase) :
    (s.setPhase c phase).waiters.find? c = some { w with phase } := by
  rw [setPhase, Table.find?_adjust_self, hw]
  rfl

theorem find?_setPhase_other {x : Nat} (phase : WaitPhase) (hx : x ≠ c) :
    (s.setPhase c phase).waiters.find? x = s.waiters.find? x :=
  Table.find?_adjust_other _ _ _ _ hx

theorem find?_setFuture (hw : s.waiters.find? c = some w) (future : Future) :
    (s.setFuture c future).waiters.find? c = some { w with future } := by
  rw [setFuture, Table.find?_adjust_self, hw]
  rfl

theorem find?_setFuture_other {x : Nat} (future : Future) (hx : x ≠ c) :
    (s.setFuture c future).waiters.find? x = s.waiters.find? x :=
  Table.find?_adjust_other _ _ _ _ hx

/-- No promise stands under an id that no call is liable for. -/
theorem Inv.free (h : Inv s) {requestId : String} (hclear : s.Clear (.register c requestId)) :
    s.listeners.find? requestId = none := by
  cases hfind : s.listeners.find? requestId with
  | none => rfl
  | some x =>
    obtain ⟨w, hw, hid, -, hl⟩ := h.owner requestId x hfind
    exact absurd hid (hclear (x, w) ((Table.find?_eq_some ..).mp hw) hl)

theorem Inv.register (h : Inv s) {requestId : String} (hnew : s.waiters.find? c = none)
    (hclear : s.Clear (.register c requestId)) : Inv (s.registerCommitListener c requestId) := by
  have hother : ∀ x v, s.waiters.find? x = some v → v.liable = true → v.requestId ≠ requestId := fun x v hv hl =>
    hclear (x, v) ((Table.find?_eq_some ..).mp hv) hl
  rw [registerCommitListener, h.free hclear]
  refine ⟨?_, ?_, ?_, ?_⟩
  · intro r x hx
    dsimp only at hx ⊢
    rw [Table.find?_insert] at hx
    split at hx
    · next heq =>
      cases hx
      exact ⟨{ requestId }, by rw [Table.find?_insert, if_pos rfl], heq.symm, rfl, rfl⟩
    · obtain ⟨w, hw, hrest⟩ := h.owner r x hx
      have hxc : x ≠ c := by
        rintro rfl
        rw [hnew] at hw
        cases hw
      exact ⟨w, by rw [Table.find?_insert, if_neg hxc, hw], hrest⟩
  · intro x v hv hl hpending
    dsimp only at hv ⊢
    rw [Table.find?_insert] at hv
    split at hv
    · next heq =>
      cases hv
      rw [Table.find?_insert, if_pos rfl, heq]
    · rw [Table.find?_insert, if_neg (hother x v hv hl)]
      exact h.entered x v hv hl hpending
  · intro x v hv
    dsimp only at hv
    rw [Table.find?_insert] at hv
    split at hv
    · cases hv
      simp
    · exact h.whole x v hv
  · intro x y v u hv hu hvl hul hid
    dsimp only at hv hu
    rw [Table.find?_insert] at hv hu
    split at hv
    · next hx =>
      cases hv
      split at hu
      · next hy => rw [hx, hy]
      · exact absurd hid.symm (hother y u hu hul)
    · split at hu
      · cases hu
        exact absurd hid (hother x v hv hvl)
      · exact h.alone x y v u hv hu hvl hul hid

/-- The promise that a liable call erases is its own. -/
theorem Inv.unregister_eq (h : Inv s) (hw : s.waiters.find? c = some w) (hl : w.liable = true) :
    s.listeners.find? w.requestId = none ∨ s.listeners.find? w.requestId = some c := by
  cases hfind : s.listeners.find? w.requestId with
  | none => exact .inl rfl
  | some x =>
    obtain ⟨v, hv, hid, -, hvl⟩ := h.owner _ x hfind
    rw [h.alone x c v w hv hw hvl hl hid]
    exact .inr rfl

theorem Inv.unregister (h : Inv s) (hw : s.waiters.find? c = some w) (hl : w.liable = true) {phase : WaitPhase}
    (hpast : phase.Past) : Inv ((s.unregisterCommitListener w.requestId).setPhase c phase) := by
  rcases h.unregister_eq hw hl with hnone | hown
  · have hsame : s.unregisterCommitListener w.requestId = s := by rw [unregisterCommitListener, hnone]
    rw [hsame]
    refine h.release hw hl (find?_setPhase hw phase) (fun x hx => find?_setPhase_other phase hx) ?_ rfl ?_
      (hpast.whole _)
    · intro r
      split
      · next heq =>
        rw [heq]
        exact hnone
      · rfl
    · intro hliable
      rw [WaitPhase.Past.not_liable hpast] at hliable
      cases hliable
  · have herased : s.unregisterCommitListener w.requestId =
        { s.setFuture c .broken with listeners := s.listeners.erase w.requestId } := by
      rw [unregisterCommitListener, hown]
    rw [herased]
    have hbroken : ({ s.setFuture c .broken with listeners := s.listeners.erase w.requestId } : Listening).waiters.find? c =
        some { w with future := .broken } := find?_setFuture hw .broken
    refine h.release hw hl (find?_setPhase hbroken phase) ?_ (fun r => Table.find?_erase_eq _ _ _) rfl ?_ (hpast.whole _)
    · intro x hx
      rw [find?_setPhase_other phase hx]
      exact find?_setFuture_other .broken hx
    · intro hliable
      rw [WaitPhase.Past.not_liable hpast] at hliable
      cases hliable

theorem notify_of_find? {requestId : String} {entry : DedupEntry} (hfind : s.listeners.find? requestId = some c) :
    s.notifyCommitListener requestId entry =
      { s.setFuture c (.value entry) with listeners := s.listeners.erase requestId } := by
  rw [notifyCommitListener, hfind]

theorem Inv.notify (h : Inv s) (requestId : String) (entry : DedupEntry) : Inv (s.notifyCommitListener requestId entry) := by
  cases hfind : s.listeners.find? requestId with
  | none =>
    rw [notifyCommitListener, hfind]
    exact h
  | some x =>
    obtain ⟨w, hw, rfl, -, hl⟩ := h.owner requestId x hfind
    rw [notify_of_find? hfind]
    refine h.release hw hl (find?_setFuture hw (.value entry)) (fun y hy => find?_setFuture_other _ hy)
      (fun r => Table.find?_erase_eq _ _ _) rfl ?_ ⟨?_, (h.whole x w hw).2⟩
    · intro _ hpending
      cases hpending
    · intro _ hbroken
      cases hbroken

theorem Inv.of_eq (h : Inv s) (hwaiters : s'.waiters = s.waiters) (hlisteners : s'.listeners = s.listeners) : Inv s' := by
  refine ⟨?_, ?_, ?_, ?_⟩
  · rw [hwaiters, hlisteners]
    exact h.owner
  · rw [hwaiters, hlisteners]
    exact h.entered
  · rw [hwaiters]
    exact h.whole
  · rw [hwaiters]
    exact h.alone

/-- A call goes to a phase in which it is no less bound to its promise. -/
theorem Inv.setPhase (h : Inv s) (hw : s.waiters.find? c = some w) {phase : WaitPhase}
    (hliable : ({ w with phase } : Waiter).liable = true → w.liable = true)
    (hkept : w.liable = true → w.future = .pending → ({ w with phase } : Waiter).liable = true)
    (hwhole : (phase = .registered ∨ phase = .waiting → w.future ≠ .broken) ∧ phase ≠ .done .broken) :
    Inv (s.setPhase c phase) :=
  h.advance hw (find?_setPhase hw phase) (fun _ hx => find?_setPhase_other phase hx) rfl rfl rfl hliable hkept hwhole

theorem Inv.step {a : Action} (h : Inv s) (hstep : Transition.restrict Clear Listening.step s a = some s') : Inv s' := by
  obtain ⟨hclear, hstep⟩ := Transition.restrict_eq_some.mp hstep
  cases a with
  | register call requestId =>
    unfold Listening.step at hstep
    dsimp only at hstep
    split at hstep
    · cases hstep
    · next hnew =>
      cases hstep
      refine h.register ?_ hclear
      simpa [Table.contains] using hnew
  | check call =>
    unfold Listening.step at hstep
    dsimp only at hstep
    split at hstep
    · next requestId future hw =>
      have hfuture := (h.whole _ _ hw).1 (.inl rfl)
      split at hstep
      · cases hstep
        exact h.setPhase hw (fun _ => rfl) (fun _ _ => rfl) (by simp)
      · cases hstep
        exact h.setPhase hw (fun _ => rfl) (fun _ hpending => by simpa [Waiter.liable] using hpending)
          ⟨fun _ => hfuture, by simp⟩
    · cases hstep
  | timeout call =>
    unfold Listening.step at hstep
    dsimp only at hstep
    split at hstep
    · next requestId hw =>
      cases hstep
      exact h.setPhase hw (fun _ => rfl) (fun _ _ => rfl) (by simp)
    · cases hstep
  | unregister call =>
    unfold Listening.step at hstep
    dsimp only at hstep
    split at hstep
    · next requestId entry future hw =>
      cases hstep
      exact h.unregister hw rfl trivial
    · next requestId future hw =>
      cases hstep
      exact h.unregister hw rfl trivial
    · cases hstep
  | lastCheck call =>
    unfold Listening.step at hstep
    dsimp only at hstep
    split at hstep
    · next requestId future hw =>
      split at hstep
      · cases hstep
        exact h.setPhase hw (fun hl => by cases hl) (fun hl => by cases hl) (by simp)
      · cases hstep
        exact h.setPhase hw (fun hl => by cases hl) (fun hl => by cases hl) (by simp)
    · cases hstep
  | receive call =>
    unfold Listening.step at hstep
    dsimp only at hstep
    split at hstep
    · next requestId entry hw =>
      cases hstep
      exact h.setPhase hw (fun hl => by cases hl) (fun _ hpending => by cases hpending) (by simp)
    · next requestId hw => exact absurd rfl ((h.whole _ _ hw).1 (.inr rfl))
    · cases hstep
  | track requestId logIndex =>
    cases hstep
    exact h.of_eq rfl rfl
  | record requestId logIndex success error =>
    unfold Listening.step at hstep
    dsimp only at hstep
    split at hstep
    · cases hstep
    · cases hstep
      exact h.of_eq rfl rfl
  | notify =>
    obtain ⟨⟨requestId, entry⟩, -, rfl⟩ := Option.map_eq_some_iff.mp hstep
    exact (h.notify requestId entry).of_eq rfl rfl

theorem Inv.init (dedup : DedupTable) : Inv { dedup } := by
  refine ⟨?_, ?_, ?_, ?_⟩
  · intro r c hc
    cases hc
  · intro c w hw
    cases hw
  · intro c w hw
    cases hw
  · intro c c' w w' hw
    cases hw

/-- `NotifyCommitListener` reaches each call on the request that waits or is about to. -/
theorem Inv.notified (h : Inv s) {requestId : String} {entry : DedupEntry} (hw : s.waiters.find? c = some w)
    (hid : w.requestId = requestId) (hphase : w.phase = .registered ∨ w.phase = .waiting) :
    ∃ e, (s.notifyCommitListener requestId entry).waiters.find? c = some { w with future := .value e } ∧
      (w.future = .pending → e = entry) := by
  cases hfuture : w.future with
  | pending =>
    have hl : w.liable = true := by
      unfold Waiter.liable
      rcases hphase with hp | hp
      · rw [hp]
      · rw [hp]
        exact decide_eq_true hfuture
    have hfind := h.entered c w hw hl hfuture
    rw [hid] at hfind
    rw [notify_of_find? hfind]
    exact ⟨entry, find?_setFuture hw (.value entry), fun _ => rfl⟩
  | value e =>
    have hsame : ({ w with future := .value e } : Waiter) = w := by rw [← hfuture]
    refine ⟨e, ?_, fun hpending => by cases hpending⟩
    rw [hsame]
    cases hfind : s.listeners.find? requestId with
    | none =>
      rw [notifyCommitListener, hfind]
      exact hw
    | some x =>
      obtain ⟨v, hv, -, hpending, -⟩ := h.owner requestId x hfind
      have hxc : c ≠ x := by
        rintro rfl
        rw [hw] at hv
        cases hv
        rw [hpending] at hfuture
        cases hfuture
      rw [notify_of_find? hfind]
      exact (find?_setFuture_other _ hxc).trans hw
  | broken => exact absurd hfuture ((h.whole c w hw).1 hphase)

/-- What a liable call erases is not the promise of another one. -/
theorem Inv.kept {phase : WaitPhase} (h : Inv s) (hw : s.waiters.find? c = some w) (hl : w.liable = true)
    {requestId : String} {x : Nat} (hx : x ≠ c) (hfind : s.listeners.find? requestId = some x) :
    ((s.unregisterCommitListener w.requestId).setPhase c phase).listeners.find? requestId = some x := by
  rcases h.unregister_eq hw hl with hnone | hown
  · have hsame : s.unregisterCommitListener w.requestId = s := by rw [unregisterCommitListener, hnone]
    rw [hsame]
    exact hfind
  · have hne : requestId ≠ w.requestId := by
      rintro rfl
      rw [hown] at hfind
      cases hfind
      exact hx rfl
    have hlisteners : ((s.unregisterCommitListener w.requestId).setPhase c phase).listeners =
        s.listeners.erase w.requestId := by
      rw [unregisterCommitListener, hown]
      rfl
    rw [hlisteners, Table.find?_erase_eq, if_neg hne]
    exact hfind

/-- In every schedule in which calls register only when no other one is liable for their
request id: no call ends with a broken promise; `NotifyCommitListener` gives the entry to
every call on the request that has registered and has neither timed out nor found the
request committed, and a waiting call then ends with it; and no call erases the promise of
another one. -/
theorem no_notification_is_lost (dedup : DedupTable) (actions : List Action) (s : Listening)
    (hrun : Transition.run (Transition.restrict Clear step) { dedup } actions = some s) :
    (∀ c w, s.waiters.find? c = some w → w.phase ≠ .done .broken) ∧
    (∀ requestId entry s', s.applying = some (requestId, entry) → s.step .notify = some s' →
      ∀ c w, s.waiters.find? c = some w → w.requestId = requestId → w.phase = .registered ∨ w.phase = .waiting →
        ∃ e, s'.waiters.find? c = some { w with future := .value e } ∧ (w.future = .pending → e = entry)) ∧
    (∀ c w e, s.waiters.find? c = some w → w.phase = .waiting → w.future = .value e → s.step (.timeout c) = none ∧
      ∃ s', s.step (.receive c) = some s' ∧ s'.waiters.find? c = some { w with phase := .done (.committed e) }) ∧
    ∀ c s', s.step (.unregister c) = some s' → ∀ requestId x, x ≠ c → s.listeners.find? requestId = some x →
      s'.listeners.find? requestId = some x := by
  have h := Transition.run_invariant Inv (fun _ _ _ hs hstep => Inv.step hs hstep) (Inv.init dedup) hrun
  refine ⟨fun c w hw => (h.whole c w hw).2, ?_, ?_, ?_⟩
  · intro requestId entry s' happlying hstep c w hw hid hphase
    rw [step, happlying] at hstep
    cases hstep
    exact h.notified hw hid hphase
  · intro c w e hw hphase hfuture
    obtain ⟨requestId, phase, future⟩ := w
    cases hphase
    cases hfuture
    refine ⟨by rw [step, hw], s.setPhase c (.done (.committed e)), by rw [step, hw], find?_setPhase hw _⟩
  · intro c s' hstep requestId x hx hfind
    unfold step at hstep
    dsimp only at hstep
    split at hstep
    · next hw =>
      cases hstep
      exact h.kept hw rfl hx hfind
    · next hw =>
      cases hstep
      exact h.kept hw rfl hx hfind
    · cases hstep

/-- One call after the other on the same request. -/
theorem no_notification_is_lost_in_turn : ∃ s s', Transition.run (Transition.restrict Clear step)
      { dedup := { windowSize := 8 } }
      [.track "r" 5, .register 1 "r", .check 1, .timeout 1, .unregister 1, .lastCheck 1, .register 2 "r", .check 2,
        .record "r" 5 true ""] = some s ∧
    s.step .notify = some s' ∧
    s'.waiters.find? 2 = some ⟨"r", .waiting, .value { committed := true, success := true, logIndex := 5 }⟩ := by
  obtain ⟨s, s', hrun, happlying, hstep, hw⟩ : ∃ s s', Transition.run (Transition.restrict Clear step)
      { dedup := { windowSize := 8 } }
      [.track "r" 5, .register 1 "r", .check 1, .timeout 1, .unregister 1, .lastCheck 1, .register 2 "r", .check 2,
        .record "r" 5 true ""] = some s ∧
      s.applying = some ("r", { committed := true, success := true, logIndex := 5 }) ∧ s.step .notify = some s' ∧
      s.waiters.find? 2 = some ⟨"r", .waiting, .pending⟩ := ⟨_, _, rfl, rfl, rfl, rfl⟩
  obtain ⟨e, hfind, he⟩ := (no_notification_is_lost _ _ s hrun).2.1 _ _ s' happlying hstep 2 _ hw rfl (.inr rfl)
  rw [he rfl] at hfind
  exact ⟨s, s', hrun, hstep, hfind⟩

/-- Two calls on one request: the second registers before the notification, but ends with
the exception of its dropped promise. And a call that returns early erases the promise of
one that has registered after the notification. -/
theorem second_waiter_is_lost :
    (∃ s s', Transition.run step { dedup := { windowSize := 8 } }
        [.track "r" 5, .register 1 "r", .check 1, .register 2 "r", .check 2, .record "r" 5 true "", .notify] = some s ∧
      s.waiters.find? 1 = some ⟨"r", .waiting, .value { committed := true, success := true, logIndex := 5 }⟩ ∧
      s.waiters.find? 2 = some ⟨"r", .waiting, .broken⟩ ∧
      s.step (.receive 2) = some s' ∧ s'.waiters.find? 2 = some ⟨"r", .done .broken, .broken⟩) ∧
    ∃ s s', Transition.run step { dedup := { windowSize := 8 } }
        [.track "r" 5, .register 1 "r", .record "r" 5 true "", .notify, .check 1, .register 2 "r"] = some s ∧
      s.listeners.find? "r" = some 2 ∧ s.step (.unregister 1) = some s' ∧ s'.listeners.find? "r" = none :=
  ⟨⟨_, _, rfl, rfl, rfl, rfl, rfl⟩, _, _, rfl, rfl, rfl, rfl⟩

end Listening

end RaftVdb
