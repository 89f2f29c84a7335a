import Mathlib.Data.List.Nodup
import Mathlib.Logic.Function.Basic
import RaftVdb.WalRecovery

/-!
# Durability of acknowledged entries

A session is a WAL opened on an empty directory and driven by `Append` and `Flush`; it
remembers the entries whose `Append` returned Ok. The session is durable if, after a
last `Flush`, whatever a crash leaves of the files is recovered with all these entries.
Each file holds the records of a list of entries, the first of which are durable, so
durability comes down to what each rotation leaves behind unsynced.
-/

namespace RaftVdb.Wal

open Lib

variable {codec : EntryCodec}

inductive Op where
  | append (entry : LogEntry)
  | flush
  deriving DecidableEq, Repr

/-- A WAL in use, with the entries whose `Append` returned Ok. -/
structure Session where
  wal : Wal
  accepted : List LogEntry := []

namespace Session

def step (codec : EntryCodec) (s : Session) : Op → Session
  | .append entry => match s.wal.append codec entry with
    | .ok wal => { wal, accepted := s.accepted ++ [entry] }
    | .error _ => s
  | .flush => match s.wal.flush with
    | .ok wal => { s with wal }
    | .error _ => s

def run (codec : EntryCodec) (s : Session) (ops : List Op) : Session := ops.foldl (step codec) s

/-- After a last `Flush`, every crash and every `WAL::Open` that follows, each accepted
entry is read back. -/
def Durable (codec : EntryCodec) (s : Session) : Prop :=
  ∀ w, s.wal.flush = .ok w → ∀ cut start, ∃ w',
    openWal codec (w.dir.crash cut) start w.segmentSizeBytes = .ok w' ∧
      ∀ e ∈ s.accepted, w'.read codec e.index = .ok e

/-- `Append` accepts the entry. -/
def Accepts (codec : EntryCodec) (w : Wal) (entry : LogEntry) : Prop :=
  (w.offsetIndex.size ≠ 0 → entry.index = w.lastIndex + 1) ∧ codec.serialize entry ≠ [] ∧
    (codec.serialize entry).length ≤ 2 ^ 32 - 1

instance (w : Wal) (entry : LogEntry) : Decidable (Accepts codec w entry) := by
  unfold Accepts
  infer_instance

/-- All bytes of the active segment are synced. -/
def ActiveSynced (w : Wal) : Prop :=
  ∀ fd ∈ w.fd, ∀ f ∈ w.dir.find? fd.path, f.synced = f.bytes.length

instance (w : Wal) : Decidable (ActiveSynced w) := by
  unfold ActiveSynced
  infer_instance

/-- The rotations lose nothing: an accepted entry has known codes and, if it rotates, it
finds the active segment synced and its own segment file not yet there. -/
def Safe (codec : EntryCodec) (s : Session) : Op → Prop
  | .append entry => Accepts codec s.wal entry → Known entry ∧
    (s.wal.needsRotation (record (codec.serialize entry)).length = true →
      ActiveSynced s.wal ∧ entry.index ∉ s.wal.dir.keys)
  | .flush => True

instance (s : Session) (op : Op) : Decidable (Safe codec s op) := by
  cases op <;> unfold Safe <;> infer_instance

def SafeRun (codec : EntryCodec) (s : Session) : List Op → Prop
  | [] => True
  | op :: ops => Safe codec s op ∧ SafeRun codec (s.step codec op) ops

instance decidableSafeRun : (s : Session) → (ops : List Op) → Decidable (SafeRun codec s ops)
  | _, [] => .isTrue trivial
  | s, op :: ops =>
    have := decidableSafeRun (s.step codec op) ops
    inferInstanceAs (Decidable (Safe codec s op ∧ SafeRun codec (s.step codec op) ops))

/-- Files, descriptor and accepted entries in terms of file contents, the first entries
of which are durable. -/
structure Describes (codec : EntryCodec) (s : Session) (content durable : Nat → List LogEntry) : Prop where
  holds : Holds codec s.wal.dir content
  synced : ∀ p f, s.wal.dir.find? p = some f → f.synced = (records codec (durable p)).length
  durable_le : ∀ p, durable p <+: content p
  active : ∃ a, s.wal.segments.getLast? = some a ∧ s.wal.fd = some ⟨a.startIndex, a.sizeBytes⟩ ∧
    a.startIndex ∈ s.wal.dir.keys ∧ a.sizeBytes = (records codec (content a.startIndex)).length
  sublist : ∀ p, (content p).Sublist s.accepted
  separate : ∀ p q e, e ∈ content p → e ∈ content q → p = q
  increasing : s.accepted.Pairwise fun a b => a.index < b.index
  bounded : ∀ e ∈ s.accepted, e.index ≤ s.wal.lastIndex
  written : s.wal.offsetIndex.size = 0 ↔ s.accepted = []
  filled : s.accepted ≠ [] → ∀ p ∈ s.wal.dir.keys, content p ≠ []
  single : s.accepted = [] → ∀ p ∈ s.wal.dir.keys, ∀ fd ∈ s.wal.fd, p = fd.path
  encoded : ∀ e ∈ s.accepted, codec.parse (codec.serialize e) = some e ∧ (codec.serialize e).length < 2 ^ 32
  size : s.wal.segmentSizeBytes ≠ 0

/-- What `Append` leaves behind when it puts the record of `e` into the file `q` behind
the records of `base`. -/
structure Writes (codec : EntryCodec) (w w' : Wal) (q : Nat) (base baseDurable : List LogEntry) (e : LogEntry) :
    Prop where
  find : ∀ p, w'.dir.find? p =
    if p = q then some ⟨records codec (base ++ [e]), (records codec baseDurable).length⟩ else w.dir.find? p
  active : ∃ a, w'.segments.getLast? = some a ∧ w'.fd = some ⟨a.startIndex, a.sizeBytes⟩ ∧
    a.startIndex = q ∧ a.sizeBytes = (records codec (base ++ [e])).length
  lastIndex : w'.lastIndex = e.index
  written : w'.offsetIndex.size ≠ 0
  size : w'.segmentSizeBytes = w.segmentSizeBytes

/-- The rotated WAL, ready for the first record of the new segment. -/
def rotated (w : Wal) (i : Nat) : Wal :=
  { w with dir := w.dir.insert i {}, fd := some ⟨i, 0⟩, segments := w.segments ++ [⟨i, i - 1, 0⟩] }

theorem rotateSegment_eq (w : Wal) (i : Nat) : w.rotateSegment i = .ok (rotated w i) := by
  have hmem : i ∈ (w.dir.insert i ({} : File)).keys := by simp
  simp [rotateSegment, createFreshSegment, openActiveSegmentForAppend, rotated,
    Table.find?_tryEmplace_of_mem _ _ _ hmem]

theorem append_error {w : Wal} {e : LogEntry} (h : ¬ Accepts codec w e) : ∃ m, w.append codec e = .error m := by
  unfold append
  split
  · exact ⟨_, rfl⟩
  · next hindex =>
    simp only
    split
    · exact ⟨_, rfl⟩
    · next hpayload =>
      split
      · exact ⟨_, rfl⟩
      · next hlength =>
        refine absurd ⟨fun hs => ?_, hpayload, by omega⟩ h
        by_contra hne
        exact hindex ⟨hs, hne⟩

theorem append_ok {w : Wal} {e : LogEntry} {a : SegmentMeta} (h : Accepts codec w e)
    (hlast : w.segments.getLast? = some a) (hfd : w.fd = some ⟨a.startIndex, a.sizeBytes⟩) :
    w.append codec e = .ok (if w.needsRotation (record (codec.serialize e)).length = true then
      (rotated w e.index).writeRecord ⟨e.index, 0⟩ ⟨e.index, e.index - 1, 0⟩ e.index (codec.serialize e)
      else w.writeRecord ⟨a.startIndex, a.sizeBytes⟩ a e.index (codec.serialize e)) := by
  obtain ⟨hindex, hpayload, hlength⟩ := h
  have hne : w.segments ≠ [] := by
    intro he
    rw [he] at hlast
    cases hlast
  unfold append
  rw [if_neg (fun hn => hn.2 (hindex hn.1))]
  simp only
  rw [if_neg hpayload, if_neg (by omega), ensureActiveSegmentForAppend]
  simp only [if_neg hne]
  by_cases hrot : w.needsRotation (record (codec.serialize e)).length = true
  · rw [if_pos hrot, if_pos hrot, rotateSegment_eq]
    simp [rotated]
  · rw [if_neg hrot, if_neg hrot, hfd]
    simp [hfd, hlast]

theorem writes_of_append {s : Session} {content durable : Nat → List LogEntry} {e : LogEntry}
    (hd : Describes codec s content durable) (h : Accepts codec s.wal e) :
    ∃ w' q base baseDurable, s.wal.append codec e = .ok w' ∧ Writes codec s.wal w' q base baseDurable e ∧
      ((s.wal.needsRotation (record (codec.serialize e)).length = true ∧ q = e.index ∧ base = [] ∧
          baseDurable = []) ∨
        (s.wal.needsRotation (record (codec.serialize e)).length = false ∧ base = content q ∧
          baseDurable = durable q ∧ ∃ pos, s.wal.fd = some ⟨q, pos⟩)) := by
  obtain ⟨a, hlast, hfd, hmem, hsize⟩ := hd.active
  have hok := append_ok h hlast hfd
  split at hok
  · next hrot =>
    refine ⟨_, e.index, [], [], hok, ?_, .inl ⟨hrot, rfl, rfl, rfl⟩⟩
    constructor
    · intro p
      simp only [writeRecord, rotated, Dir.write]
      by_cases hp : p = e.index
      · subst hp
        rw [Table.find?_adjust_self, Table.find?_insert, if_pos rfl]
        simp [records]
      · rw [Table.find?_adjust_other _ _ _ _ hp, Table.find?_insert, if_neg hp, if_neg hp]
    · exact ⟨⟨e.index, e.index, 0 + (record (codec.serialize e)).length⟩, by simp [writeRecord, rotated],
        by simp [writeRecord], rfl, by simp⟩
    · rfl
    · exact Table.size_ne_zero_of_mem ((Table.mem_keys_insert ..).mpr (.inl rfl))
    · rfl
  · next hrot =>
    refine ⟨_, a.startIndex, content a.startIndex, durable a.startIndex, hok, ?_,
      .inr ⟨by simpa using hrot, rfl, rfl, _, hfd⟩⟩
    obtain ⟨f, hf⟩ := Option.isSome_iff_exists.mp ((Table.find?_isSome _ _).mpr hmem)
    have hbytes := hd.holds.bytes _ f hf
    constructor
    · intro p
      simp only [writeRecord, Dir.write]
      by_cases hp : p = a.startIndex
      · subst hp
        rw [Table.find?_adjust_self, if_pos rfl, hf, Option.map_some, hd.synced _ f hf, hsize, ← hbytes]
        simp [hbytes]
      · rw [Table.find?_adjust_other _ _ _ _ hp, if_neg hp]
    · exact ⟨⟨a.startIndex, e.index, a.sizeBytes + (record (codec.serialize e)).length⟩,
        by simp [writeRecord], by simp [writeRecord], rfl, by simp [hsize]⟩
    · rfl
    · exact Table.size_ne_zero_of_mem ((Table.mem_keys_insert ..).mpr (.inl rfl))
    · rfl

theorem mem_keys_of_writes {w w' : Wal} {q : Nat} {base baseDurable : List LogEntry} {e : LogEntry}
    (hw : Writes codec w w' q base baseDurable e) (p : Nat) : p ∈ w'.dir.keys ↔ p = q ∨ p ∈ w.dir.keys := by
  rw [← Table.find?_isSome, hw.find, ← Table.find?_isSome]
  by_cases hp : p = q
  · simp [hp]
  · simp [hp]

/-- A new entry has a larger index than every accepted one. -/
theorem index_lt_of_accepts {s : Session} {content durable : Nat → List LogEntry} {e : LogEntry}
    (hd : Describes codec s content durable) (h : Accepts codec s.wal e) : ∀ x ∈ s.accepted, x.index < e.index := by
  intro x hx
  have hsize : s.wal.offsetIndex.size ≠ 0 := fun hz => by
    rw [hd.written.mp hz] at hx
    cases hx
  have hnext := h.1 hsize
  have hle := hd.bounded x hx
  omega

theorem describes_write {s : Session} {content durable : Nat → List LogEntry} {e : LogEntry} {w' : Wal} {q : Nat}
    {base baseDurable : List LogEntry} (hd : Describes codec s content durable) (h : Accepts codec s.wal e)
    (hround : codec.RoundTrips e) (hw : Writes codec s.wal w' q base baseDurable e)
    (hbase : base.Sublist (content q)) (hdurable : baseDurable <+: base)
    (hfilled : s.accepted = [] → ∀ p ∈ s.wal.dir.keys, p = q) :
    Describes codec { wal := w', accepted := s.accepted ++ [e] } (Function.update content q (base ++ [e]))
      (Function.update durable q baseDurable) := by
  have hlt := index_lt_of_accepts hd h
  have hfresh : ∀ p, e ∉ content p := fun p hp => Nat.lt_irrefl _ (hlt e ((hd.sublist p).subset hp))
  have hmem : ∀ p x, x ∈ Function.update content q (base ++ [e]) p → x = e ∧ p = q ∨ x ∈ content p := by
    intro p x hx
    by_cases hp : p = q
    · subst hp
      rw [Function.update_self] at hx
      rcases List.mem_append.mp hx with hx | hx
      · exact .inr (hbase.subset hx)
      · exact .inl ⟨List.mem_singleton.mp hx, rfl⟩
    · rw [Function.update_of_ne hp] at hx
      exact .inr hx
  constructor
  · constructor
    · intro p f hf
      rw [hw.find] at hf
      by_cases hp : p = q
      · rw [if_pos hp] at hf
        cases hf
        rw [hp, Function.update_self]
      · rw [if_neg hp] at hf
        rw [Function.update_of_ne hp]
        exact hd.holds.bytes p f hf
    · intro p hp
      rw [mem_keys_of_writes hw, not_or] at hp
      rw [Function.update_of_ne hp.1]
      exact hd.holds.absent p hp.2
  · intro p f hf
    rw [hw.find] at hf
    by_cases hp : p = q
    · rw [if_pos hp] at hf
      cases hf
      rw [hp, Function.update_self]
    · rw [if_neg hp] at hf
      rw [Function.update_of_ne hp]
      exact hd.synced p f hf
  · intro p
    by_cases hp : p = q
    · subst hp
      rw [Function.update_self, Function.update_self]
      exact hdurable.trans (List.prefix_append base [e])
    · rw [Function.update_of_ne hp, Function.update_of_ne hp]
      exact hd.durable_le p
  · obtain ⟨a, hlast, hfd, hq, hsize⟩ := hw.active
    refine ⟨a, hlast, hfd, (mem_keys_of_writes hw _).mpr (.inl hq), ?_⟩
    rw [hsize, hq, Function.update_self]
  · intro p
    by_cases hp : p = q
    · subst hp
      rw [Function.update_self]
      exact (hbase.trans (hd.sublist p)).append (List.Sublist.refl _)
    · rw [Function.update_of_ne hp]
      exact (hd.sublist p).trans (List.sublist_append_left _ _)
  · intro p p' x hx hx'
    rcases hmem p x hx with ⟨rfl, hp⟩ | hold
    · rcases hmem p' x hx' with ⟨-, hp'⟩ | hold'
      · rw [hp, hp']
      · exact absurd hold' (hfresh p')
    · rcases hmem p' x hx' with ⟨rfl, -⟩ | hold'
      · exact absurd hold (hfresh p)
      · exact hd.separate p p' x hold hold'
  · refine List.pairwise_append.mpr ⟨hd.increasing, List.pairwise_singleton _ _, ?_⟩
    intro x hx y hy
    rw [List.mem_singleton.mp hy]
    exact hlt x hx
  · intro x hx
    rw [hw.lastIndex]
    rcases List.mem_append.mp hx with hx | hx
    · exact Nat.le_of_lt (hlt x hx)
    · rw [List.mem_singleton.mp hx]
  · simp [hw.written]
  · intro _ p hp
    by_cases hpq : p = q
    · rw [hpq, Function.update_self]
      simp
    · rw [Function.update_of_ne hpq]
      have hold := ((mem_keys_of_writes hw p).mp hp).resolve_left hpq
      exact hd.filled (fun hn => hpq (hfilled hn p hold)) p hold
  · simp
  · intro x hx
    rcases List.mem_append.mp hx with hx | hx
    · exact hd.encoded x hx
    · rw [List.mem_singleton.mp hx]
      have hlen := h.2.2
      exact ⟨hround h.2.1, by omega⟩
  · rw [hw.size]
    exact hd.size

theorem accepted_ne_nil_of_rotation {s : Session} {content durable : Nat → List LogEntry} {size : Nat}
    (hd : Describes codec s content durable) (h : s.wal.needsRotation size = true) : s.accepted ≠ [] := by
  obtain ⟨a, hlast, -, -, hsize⟩ := hd.active
  intro hn
  have hcontent : content a.startIndex = [] := List.sublist_nil.mp (hn ▸ hd.sublist a.startIndex)
  simp [needsRotation, activeSize, hlast, hsize, hcontent] at h

/-- What the entries of a session came to: `Append` in terms of the contents. -/
theorem describes_append {s : Session} {content durable : Nat → List LogEntry} {e : LogEntry}
    (hd : Describes codec s content durable) (h : Accepts codec s.wal e) (hround : codec.RoundTrips e) :
    ∃ w' q base baseDurable, s.step codec (.append e) = { wal := w', accepted := s.accepted ++ [e] } ∧
      (∃ pos, w'.fd = some ⟨q, pos⟩) ∧
      Describes codec (s.step codec (.append e)) (Function.update content q (base ++ [e]))
        (Function.update durable q baseDurable) ∧
      ((s.wal.needsRotation (record (codec.serialize e)).length = true ∧ q = e.index ∧ base = [] ∧
          baseDurable = []) ∨
        (s.wal.needsRotation (record (codec.serialize e)).length = false ∧ base = content q ∧
          baseDurable = durable q ∧ ∃ pos, s.wal.fd = some ⟨q, pos⟩)) := by
  obtain ⟨w', q, base, baseDurable, hok, hw, hcases⟩ := writes_of_append hd h
  have hstep : s.step codec (.append e) = { wal := w', accepted := s.accepted ++ [e] } := by
    simp only [step, hok]
  obtain ⟨a, -, hfd, hq, -⟩ := hw.active
  refine ⟨w', q, base, baseDurable, hstep, ⟨a.sizeBytes, hq ▸ hfd⟩, ?_, hcases⟩
  rw [hstep]
  rcases hcases with ⟨hrot, rfl, rfl, rfl⟩ | ⟨-, rfl, rfl, pos, hfd'⟩
  · exact describes_write hd h hround hw (List.nil_sublist _) (List.prefix_refl _)
      fun hn => absurd hn (accepted_ne_nil_of_rotation hd hrot)
  · exact describes_write hd h hround hw (List.Sublist.refl _) (hd.durable_le q)
      fun hn p hp => hd.single hn p hp _ hfd'

theorem describes_flush {s : Session} {content durable : Nat → List LogEntry} (hd : Describes codec s content durable) :
    ∃ w' q pos, s.wal.flush = .ok w' ∧ w'.segmentSizeBytes = s.wal.segmentSizeBytes ∧
      s.wal.fd = some ⟨q, pos⟩ ∧ w'.fd = s.wal.fd ∧
      Describes codec { s with wal := w' } content (Function.update durable q (content q)) := by
  obtain ⟨a, hlast, hfd, hmem, hsize⟩ := hd.active
  have hfind : ∀ p f, (s.wal.dir.fdatasync a.startIndex).find? p = some f →
      ∃ g, s.wal.dir.find? p = some g ∧ f.bytes = g.bytes ∧
        f.synced = if p = a.startIndex then g.bytes.length else g.synced := by
    intro p f hf
    unfold Dir.fdatasync at hf
    by_cases hp : p = a.startIndex
    · subst hp
      rw [Table.find?_adjust_self] at hf
      obtain ⟨g, hg, rfl⟩ := Option.map_eq_some_iff.mp hf
      exact ⟨g, hg, rfl, by simp⟩
    · rw [Table.find?_adjust_other _ _ _ _ hp] at hf
      exact ⟨f, hf, rfl, by simp [hp]⟩
  refine ⟨{ s.wal with dir := s.wal.dir.fdatasync a.startIndex }, a.startIndex, a.sizeBytes, ?_, rfl, hfd, rfl, ?_⟩
  · simp only [flush, hfd]
  · constructor
    · constructor
      · intro p f hf
        obtain ⟨g, hg, hb, -⟩ := hfind p f hf
        rw [hb]
        exact hd.holds.bytes p g hg
      · intro p hp
        exact hd.holds.absent p (by simpa [Dir.fdatasync] using hp)
    · intro p f hf
      obtain ⟨g, hg, -, hs⟩ := hfind p f hf
      rw [hs]
      by_cases hp : p = a.startIndex
      · rw [if_pos hp, hp, Function.update_self, ← hp, hd.holds.bytes p g hg]
      · rw [if_neg hp, Function.update_of_ne hp, hd.synced p g hg]
    · intro p
      by_cases hp : p = a.startIndex
      · simp only [hp, Function.update_self, List.prefix_refl]
      · rw [Function.update_of_ne hp]
        exact hd.durable_le p
    · exact ⟨a, hlast, hfd, by simpa [Dir.fdatasync] using hmem, hsize⟩
    · exact hd.sublist
    · exact hd.separate
    · exact hd.increasing
    · exact hd.bounded
    · exact hd.written
    · intro hn p hp
      exact hd.filled hn p (by simpa [Dir.fdatasync] using hp)
    · intro hn p hp
      exact hd.single hn p (by simpa [Dir.fdatasync] using hp)
    · exact hd.encoded
    · exact hd.size

/-- The descriptor is not on this file. -/
def Inactive (w : Wal) (p : Nat) : Prop := ∀ pos, w.fd ≠ some ⟨p, pos⟩

/-- Nothing accepted can be lost by a crash after the next `Flush`. -/
structure Sound (codec : EntryCodec) (s : Session) (content durable : Nat → List LogEntry) : Prop
    extends Describes codec s content durable where
  present : ∀ e ∈ s.accepted, ∃ p, e ∈ content p
  settled : ∀ p, Inactive s.wal p → durable p = content p
  known : ∀ e ∈ s.accepted, Known e

/-- This accepted entry is beyond the reach of every later `Flush`. -/
structure Lost (codec : EntryCodec) (s : Session) (content durable : Nat → List LogEntry) (e : LogEntry) : Prop
    extends Describes codec s content durable where
  accepted : e ∈ s.accepted
  gone : ∀ p, e ∈ content p → Inactive s.wal p ∧ e ∉ durable p

theorem inactive_of_ne {w : Wal} {p q pos : Nat} (h : w.fd = some ⟨q, pos⟩) (hp : p ≠ q) : Inactive w p := by
  intro pos' he
  rw [h] at he
  cases he
  exact hp rfl

theorem not_inactive {w : Wal} {q pos : Nat} (h : w.fd = some ⟨q, pos⟩) : ¬ Inactive w q := fun hn => hn pos h

/-- The contents of a file are durable as soon as its bytes are synced. -/
theorem durable_eq_of_synced {s : Session} {content durable : Nat → List LogEntry} {p : Nat} {f : File}
    (hd : Describes codec s content durable) (hf : s.wal.dir.find? p = some f) (h : f.synced = f.bytes.length) :
    durable p = content p := by
  obtain ⟨rest, hrest⟩ := hd.durable_le p
  rw [hd.synced p f hf, hd.holds.bytes p f hf, ← hrest, records_append, List.length_append] at h
  have hnil : records codec rest = [] := List.length_eq_zero_iff.mp (by omega)
  rw [records_eq_nil.mp hnil, List.append_nil] at hrest
  exact hrest

theorem step_append_rejected {s : Session} {e : LogEntry} (h : ¬ Accepts codec s.wal e) :
    s.step codec (.append e) = s := by
  obtain ⟨m, hm⟩ := append_error h
  simp only [step, hm]

theorem sound_append {s : Session} {content durable : Nat → List LogEntry} {e : LogEntry}
    (hs : Sound codec s content durable) (hround : codec.RoundTrips e) (hsafe : Safe codec s (.append e)) :
    ∃ content' durable', Sound codec (s.step codec (.append e)) content' durable' := by
  by_cases h : Accepts codec s.wal e
  swap
  · rw [step_append_rejected h]
    exact ⟨content, durable, hs⟩
  obtain ⟨hknown, hrotate⟩ := hsafe h
  obtain ⟨w', q, base, baseDurable, hstep, ⟨pos, hfd⟩, hd, hcases⟩ := describes_append hs.toDescribes h hround
  have hbase : content q ≠ [] → base = content q := by
    intro hne
    rcases hcases with ⟨hrot, rfl, -, -⟩ | ⟨-, hb, -⟩
    · exact absurd (hs.holds.absent _ (hrotate hrot).2) hne
    · exact hb
  have hsettled : ∀ p, p ≠ q → durable p = content p := by
    intro p hp
    rcases hcases with ⟨hrot, -, -, -⟩ | ⟨-, -, -, pos', hfd'⟩
    · by_cases hin : Inactive s.wal p
      · exact hs.settled p hin
      · obtain ⟨a, -, hfda, hmem, -⟩ := hs.active
        have hpa : p = a.startIndex := by
          by_contra hne
          exact hin (inactive_of_ne hfda hne)
        obtain ⟨f, hf⟩ := Option.isSome_iff_exists.mp ((Table.find?_isSome _ _).mpr hmem)
        rw [hpa]
        exact durable_eq_of_synced hs.toDescribes hf ((hrotate hrot).1 _ hfda f hf)
    · exact hs.settled p (inactive_of_ne hfd' hp)
  refine ⟨_, _, hd, ?_, ?_, ?_⟩
  · rw [hstep]
    intro x hx
    rcases List.mem_append.mp hx with hx | hx
    · obtain ⟨p, hp⟩ := hs.present x hx
      refine ⟨p, ?_⟩
      by_cases hpq : p = q
      · subst hpq
        rw [Function.update_self, hbase (List.ne_nil_of_mem hp)]
        exact List.mem_append_left _ hp
      · rw [Function.update_of_ne hpq]
        exact hp
    · rw [List.mem_singleton.mp hx]
      exact ⟨q, by simp⟩
  · rw [hstep]
    intro p hp
    by_cases hpq : p = q
    · rw [hpq] at hp
      exact absurd hp (not_inactive hfd)
    · rw [Function.update_of_ne hpq, Function.update_of_ne hpq]
      exact hsettled p hpq
  · rw [hstep]
    intro x hx
    rcases List.mem_append.mp hx with hx | hx
    · exact hs.known x hx
    · rw [List.mem_singleton.mp hx]
      exact hknown

theorem sound_flush {s : Session} {content durable : Nat → List LogEntry} (hs : Sound codec s content durable) :
    ∃ w', s.wal.flush = .ok w' ∧ w'.segmentSizeBytes = s.wal.segmentSizeBytes ∧
      Sound codec { s with wal := w' } content content := by
  obtain ⟨w', q, pos, hok, hsize, hfd, hfd', hd⟩ := describes_flush hs.toDescribes
  have hall : Function.update durable q (content q) = content := by
    funext p
    by_cases hp : p = q
    · rw [hp, Function.update_self]
    · rw [Function.update_of_ne hp]
      exact hs.settled p (inactive_of_ne hfd hp)
  rw [hall] at hd
  exact ⟨w', hok, hsize, hd, hs.present, fun _ _ => rfl, hs.known⟩

theorem lost_append {s : Session} {content durable : Nat → List LogEntry} {x e : LogEntry}
    (hl : Lost codec s content durable x) (hround : codec.RoundTrips e) :
    ∃ content' durable', Lost codec (s.step codec (.append e)) content' durable' x := by
  by_cases h : Accepts codec s.wal e
  swap
  · rw [step_append_rejected h]
    exact ⟨content, durable, hl⟩
  obtain ⟨w', q, base, baseDurable, hstep, ⟨pos, hfd⟩, hd, hcases⟩ := describes_append hl.toDescribes h hround
  have hlt := index_lt_of_accepts hl.toDescribes h x hl.accepted
  have hbase : x ∉ base := by
    intro hx
    rcases hcases with ⟨-, -, rfl, -⟩ | ⟨-, rfl, -, pos', hfd'⟩
    · cases hx
    · exact not_inactive hfd' (hl.gone q hx).1
  refine ⟨_, _, hd, ?_, ?_⟩
  · rw [hstep]
    exact List.mem_append_left _ hl.accepted
  · rw [hstep]
    intro p hp
    by_cases hpq : p = q
    · rw [hpq, Function.update_self] at hp
      rcases List.mem_append.mp hp with hp | hp
      · exact absurd hp hbase
      · rw [List.mem_singleton.mp hp] at hlt
        exact absurd hlt (Nat.lt_irrefl _)
    · rw [Function.update_of_ne hpq] at hp ⊢
      exact ⟨inactive_of_ne hfd hpq, (hl.gone p hp).2⟩

theorem lost_flush {s : Session} {content durable : Nat → List LogEntry} {x : LogEntry}
    (hl : Lost codec s content durable x) :
    ∃ w' durable', s.wal.flush = .ok w' ∧ w'.segmentSizeBytes = s.wal.segmentSizeBytes ∧
      Lost codec { s with wal := w' } content durable' x := by
  obtain ⟨w', q, pos, hok, hsize, hfd, hfd', hd⟩ := describes_flush hl.toDescribes
  refine ⟨w', _, hok, hsize, hd, hl.accepted, ?_⟩
  intro p hp
  obtain ⟨hin, hnot⟩ := hl.gone p hp
  have hpq : p ≠ q := fun he => not_inactive hfd (he ▸ hin)
  rw [Function.update_of_ne hpq]
  refine ⟨?_, hnot⟩
  intro pos' he
  exact hin pos' (hfd' ▸ he)

/-- A not safe accepted `Append` puts an unknown code into the log or loses an entry. -/
theorem lost_of_not_safe {s : Session} {content durable : Nat → List LogEntry} {e : LogEntry}
    (hs : Sound codec s content durable) (hround : codec.RoundTrips e) (hbreak : ¬ Safe codec s (.append e)) :
    (∃ x ∈ (s.step codec (.append e)).accepted, ¬ Known x) ∨
      ∃ content' durable' x, Lost codec (s.step codec (.append e)) content' durable' x := by
  obtain ⟨h, hbad⟩ : Accepts codec s.wal e ∧ ¬ (Known e ∧
      (s.wal.needsRotation (record (codec.serialize e)).length = true →
        ActiveSynced s.wal ∧ e.index ∉ s.wal.dir.keys)) := by
    simpa [Safe] using hbreak
  obtain ⟨w', q, base, baseDurable, hstep, ⟨pos, hfd⟩, hd, hcases⟩ := describes_append hs.toDescribes h hround
  by_cases hknown : Known e
  swap
  · refine .inl ⟨e, ?_, hknown⟩
    rw [hstep]
    simp
  right
  obtain ⟨hrot, hbad⟩ : s.wal.needsRotation (record (codec.serialize e)).length = true ∧
      ¬ (ActiveSynced s.wal ∧ e.index ∉ s.wal.dir.keys) := by
    simpa [hknown] using hbad
  obtain ⟨rfl, rfl, rfl⟩ : q = e.index ∧ base = [] ∧ baseDurable = [] := by
    rcases hcases with ⟨-, hq⟩ | ⟨hn, -⟩
    · exact hq
    · rw [hrot] at hn
      cases hn
  have hlose : ∀ a x, x ∈ content a → (a ≠ e.index → x ∉ durable a) →
      ∃ content' durable', Lost codec (s.step codec (.append e)) content' durable' x := by
    intro a x hx hnot
    have hacc : x ∈ s.accepted := (hs.sublist a).subset hx
    have hlt := index_lt_of_accepts hs.toDescribes h x hacc
    refine ⟨_, _, hd, ?_, ?_⟩
    · rw [hstep]
      exact List.mem_append_left _ hacc
    · rw [hstep]
      intro p hp
      by_cases hpq : p = e.index
      · rw [hpq, Function.update_self, List.nil_append, List.mem_singleton] at hp
        rw [hp] at hlt
        exact absurd hlt (Nat.lt_irrefl _)
      · rw [Function.update_of_ne hpq] at hp ⊢
        have hpa : p = a := hs.separate p a x hp hx
        exact ⟨inactive_of_ne hfd hpq, hpa ▸ hnot (hpa ▸ hpq)⟩
  by_cases hmem : e.index ∈ s.wal.dir.keys
  · obtain ⟨x, hx⟩ := List.exists_mem_of_ne_nil _
      (hs.filled (accepted_ne_nil_of_rotation hs.toDescribes hrot) e.index hmem)
    obtain ⟨content', durable', hl⟩ := hlose e.index x hx fun hne => absurd rfl hne
    exact ⟨content', durable', x, hl⟩
  · have hunsynced : ¬ ActiveSynced s.wal := fun ha => hbad ⟨ha, hmem⟩
    obtain ⟨a, -, hfda, hmema, -⟩ := hs.active
    obtain ⟨rest, hrest⟩ := hs.durable_le a.startIndex
    have hne : rest ≠ [] := by
      rintro rfl
      refine hunsynced ?_
      intro fd hfd' f hf
      rw [hfda] at hfd'
      cases hfd'
      rw [hs.synced _ f hf, hs.holds.bytes _ f hf, ← hrest, List.append_nil]
    obtain ⟨x, hx⟩ := List.exists_mem_of_ne_nil _ hne
    have hnodup : (durable a.startIndex ++ rest).Nodup := by
      rw [hrest]
      exact (hs.sublist _).nodup (hs.increasing.imp fun hlt he => by rw [he] at hlt; exact Nat.lt_irrefl _ hlt)
    have hnot : x ∉ durable a.startIndex := fun hd' => (List.nodup_append.mp hnodup).2.2 x hd' x hx rfl
    obtain ⟨content', durable', hl⟩ := hlose a.startIndex x (by rw [← hrest]; exact List.mem_append_right _ hx)
      fun _ => hnot
    exact ⟨content', durable', x, hl⟩

theorem recoverable_of_accepted {s : Session} {content durable : Nat → List LogEntry}
    (hd : Describes codec s content durable) (hknown : ∀ e ∈ s.accepted, Known e) :
    ∀ p, ∀ e ∈ content p, Recoverable codec e := by
  intro p e he
  have hacc := (hd.sublist p).subset he
  exact ⟨hknown e hacc, (hd.encoded e hacc).1, (hd.encoded e hacc).2⟩

theorem keys_ne_nil {s : Session} {content durable : Nat → List LogEntry} (hd : Describes codec s content durable)
    (cut : Nat → Nat) : (s.wal.dir.crash cut).keys ≠ [] := by
  obtain ⟨a, -, -, hmem, -⟩ := hd.active
  rw [Dir.crash, Table.keys_mapValues]
  exact List.ne_nil_of_mem hmem

/-- Synced files survive every crash. -/
theorem holds_crash_of_synced {s : Session} {content : Nat → List LogEntry}
    (hd : Describes codec s content content) (cut : Nat → Nat) :
    Holds codec (s.wal.dir.crash cut) content := by
  constructor
  · intro p f hf
    rw [Dir.crash, Table.find?_mapValues] at hf
    obtain ⟨g, hg, rfl⟩ := Option.map_eq_some_iff.mp hf
    have hbytes := hd.holds.bytes p g hg
    have hsynced := hd.synced p g hg
    simp only
    rw [List.take_of_length_le (by rw [hsynced, hbytes]; exact Nat.le_max_left _ _), hbytes]
  · intro p hp
    exact hd.holds.absent p (by simpa [Dir.crash] using hp)

/-- A crash may leave of each file no more than its durable entries. -/
theorem holds_crash_zero {s : Session} {content durable : Nat → List LogEntry}
    (hd : Describes codec s content durable) : Holds codec (s.wal.dir.crash fun _ => 0) durable := by
  constructor
  · intro p f hf
    rw [Dir.crash, Table.find?_mapValues] at hf
    obtain ⟨g, hg, rfl⟩ := Option.map_eq_some_iff.mp hf
    obtain ⟨rest, hrest⟩ := hd.durable_le p
    simp only [Nat.max_zero]
    rw [hd.synced p g hg, hd.holds.bytes p g hg, ← hrest, records_append, List.take_left]
  · intro p hp
    have hnil : content p = [] := hd.holds.absent p (by simpa [Dir.crash] using hp)
    exact List.prefix_nil.mp (hnil ▸ hd.durable_le p)

theorem durable_of_sound {s : Session} {content durable : Nat → List LogEntry}
    (hs : Sound codec s content durable) : Durable codec s := by
  intro w hflush cut start
  obtain ⟨w', hok, hsize, hs'⟩ := sound_flush hs
  rw [hflush] at hok
  cases hok
  obtain ⟨wal, hopen, -, hread⟩ := openWal_records start hs'.size (keys_ne_nil hs'.toDescribes cut)
    (holds_crash_of_synced hs'.toDescribes cut) (recoverable_of_accepted hs'.toDescribes hs'.known)
  refine ⟨wal, hopen, ?_⟩
  intro e he
  obtain ⟨p, hp⟩ := hs'.present e he
  obtain ⟨q, e', he', hindex, hread'⟩ := hread p e hp
  have hacc : e' ∈ s.accepted := (hs'.sublist q).subset he'
  have hnodup : (s.accepted.map LogEntry.index).Nodup :=
    List.pairwise_map.mpr (hs'.increasing.imp Nat.ne_of_lt)
  rw [hread', List.inj_on_of_nodup_map hnodup hacc he hindex]

theorem not_durable_of_unknown {s : Session} {content durable : Nat → List LogEntry} {x : LogEntry}
    (hd : Describes codec s content durable) (hx : x ∈ s.accepted) (hunknown : ¬ Known x) :
    ¬ Durable codec s := by
  intro h
  obtain ⟨w', q, pos, hok, -⟩ := describes_flush hd
  obtain ⟨wal, -, hread⟩ := h w' hok (fun _ => 0) 0
  exact hunknown (known_of_read (hread x hx))

theorem not_durable_of_lost {s : Session} {content durable : Nat → List LogEntry} {x : LogEntry}
    (hl : Lost codec s content durable x) : ¬ Durable codec s := by
  by_cases hknown : ∀ e ∈ s.accepted, Known e
  swap
  · obtain ⟨e, he, hunknown⟩ : ∃ e ∈ s.accepted, ¬ Known e := by simpa using hknown
    exact not_durable_of_unknown hl.toDescribes he hunknown
  intro h
  obtain ⟨w', durable', hok, hsize, hl'⟩ := lost_flush hl
  obtain ⟨wal, hopen, hread⟩ := h w' hok (fun _ => 0) 0
  have hrec : ∀ p, ∀ e ∈ durable' p, Recoverable codec e := fun p e he =>
    recoverable_of_accepted hl'.toDescribes hknown p e ((hl'.durable_le p).subset he)
  obtain ⟨wal', hopen', honly, -⟩ := openWal_records 0 hl'.size (keys_ne_nil hl'.toDescribes fun _ => 0)
    (holds_crash_zero hl'.toDescribes) hrec
  rw [hopen] at hopen'
  cases hopen'
  obtain ⟨p, hp⟩ := honly x.index x (hread x hl.accepted)
  exact (hl'.gone p ((hl'.durable_le p).subset hp)).2 hp

theorem describes_step {s : Session} {content durable : Nat → List LogEntry} (op : Op)
    (hd : Describes codec s content durable) (hround : ∀ e, op = .append e → codec.RoundTrips e) :
    ∃ content' durable', Describes codec (s.step codec op) content' durable' := by
  cases op with
  | append e =>
    by_cases h : Accepts codec s.wal e
    · obtain ⟨w', q, base, baseDurable, -, -, hd', -⟩ := describes_append hd h (hround e rfl)
      exact ⟨_, _, hd'⟩
    · rw [step_append_rejected h]
      exact ⟨content, durable, hd⟩
  | flush =>
    obtain ⟨w', q, pos, hok, -, -, -, hd'⟩ := describes_flush hd
    have hstep : s.step codec .flush = { s with wal := w' } := by simp only [step, hok]
    exact ⟨_, _, hstep ▸ hd'⟩

theorem accepted_subset_step (s : Session) (op : Op) : s.accepted ⊆ (s.step codec op).accepted := by
  intro x hx
  cases op with
  | append e =>
    simp only [step]
    split
    · exact List.mem_append_left _ hx
    · exact hx
  | flush =>
    simp only [step]
    split
    · exact hx
    · exact hx

theorem unknown_run {s : Session} {content durable : Nat → List LogEntry} {x : LogEntry} (ops : List Op)
    (hd : Describes codec s content durable) (hround : ∀ e, .append e ∈ ops → codec.RoundTrips e)
    (hx : x ∈ s.accepted) (hunknown : ¬ Known x) : ¬ Durable codec (s.run codec ops) := by
  induction ops generalizing s content durable with
  | nil => exact not_durable_of_unknown hd hx hunknown
  | cons op ops ih =>
    obtain ⟨content', durable', hd'⟩ := describes_step op hd fun e he => hround e (by simp [he])
    exact ih hd' (fun e he => hround e (by simp [he])) (accepted_subset_step s op hx)

theorem lost_run {s : Session} {content durable : Nat → List LogEntry} {x : LogEntry} (ops : List Op)
    (hl : Lost codec s content durable x) (hround : ∀ e, .append e ∈ ops → codec.RoundTrips e) :
    ¬ Durable codec (s.run codec ops) := by
  induction ops generalizing s content durable with
  | nil => exact not_durable_of_lost hl
  | cons op ops ih =>
    have hrest : ∀ e, .append e ∈ ops → codec.RoundTrips e := fun e he => hround e (by simp [he])
    cases op with
    | append e =>
      obtain ⟨content', durable', hl'⟩ := lost_append hl (hround e (by simp))
      exact ih hl' hrest
    | flush =>
      obtain ⟨w', durable', hok, -, hl'⟩ := lost_flush hl
      have hstep : s.step codec .flush = { s with wal := w' } := by simp only [step, hok]
      rw [run, List.foldl_cons, hstep]
      exact ih hl' hrest

/-- From a sound session on, durability is safety of every step. -/
theorem durable_run_iff {s : Session} {content durable : Nat → List LogEntry} (ops : List Op)
    (hs : Sound codec s content durable) (hround : ∀ e, .append e ∈ ops → codec.RoundTrips e) :
    Durable codec (s.run codec ops) ↔ SafeRun codec s ops := by
  induction ops generalizing s content durable with
  | nil => exact ⟨fun _ => trivial, fun _ => durable_of_sound hs⟩
  | cons op ops ih =>
    have hrest : ∀ e, .append e ∈ ops → codec.RoundTrips e := fun e he => hround e (by simp [he])
    rw [SafeRun, run, List.foldl_cons]
    cases op with
    | append e =>
      by_cases hsafe : Safe codec s (.append e)
      · obtain ⟨content', durable', hs'⟩ := sound_append hs (hround e (by simp)) hsafe
        rw [← run, ih hs' hrest]
        simp [hsafe]
      · refine ⟨fun h => absurd h ?_, fun h => absurd h.1 hsafe⟩
        rw [← run]
        rcases lost_of_not_safe hs (hround e (by simp)) hsafe with ⟨x, hx, hunknown⟩ | ⟨content', durable', x, hl⟩
        · obtain ⟨content', durable', hd'⟩ := describes_step (.append e) hs.toDescribes fun x hx =>
            hround x (by simp [hx])
          exact unknown_run ops hd' hrest hx hunknown
        · exact lost_run ops hl hrest
    | flush =>
      obtain ⟨w', hok, -, hs'⟩ := sound_flush hs
      have hstep : s.step codec .flush = { s with wal := w' } := by simp only [step, hok]
      rw [hstep, ← run, ih hs' hrest]
      simp [Safe]

/-- A WAL opened on an empty directory has one empty segment. -/
theorem sound_open {start size : Nat} {w : Wal} (h : openWal codec ∅ start size = .ok w) :
    Sound codec { wal := w } (fun _ => []) fun _ => [] := by
  obtain ⟨hsize, rfl⟩ := openWal_empty h
  have hkeys : (∅ : Dir).keys = [] := rfl
  have hmem : start ∈ ((∅ : Dir).insert start ({} : File)).keys := by simp
  have hfile : ∀ p f, ((∅ : Dir).insert start ({} : File)).find? p = some f → f = {} := by
    intro p f hf
    rw [Table.find?_insert] at hf
    split at hf
    · exact (Option.some.inj hf).symm
    · cases hf
  constructor
  · constructor
    · exact ⟨fun p f hf => by rw [hfile p f hf]; rfl, fun _ _ => rfl⟩
    · intro p f hf
      rw [hfile p f hf]
      rfl
    · exact fun _ => List.prefix_refl _
    · exact ⟨_, rfl, rfl, hmem, rfl⟩
    · exact fun _ => List.Sublist.refl _
    · simp
    · exact List.Pairwise.nil
    · simp
    · exact ⟨fun _ => rfl, fun _ => rfl⟩
    · simp
    · intro _ p hp fd hfd
      cases hfd
      simpa [hkeys] using hp
    · simp
    · exact hsize
  · simp
  · simp
  · simp

end Session

/-- The accepted entries survive every crash after a `Flush` exactly if no step of the
session appends an unknown code, rotates away from an unsynced segment or onto the file
of an existing one. -/
theorem accepted_durable_iff (codec : EntryCodec) (start size : Nat) (ops : List Op) (w : Wal)
    (hopen : openWal codec ∅ start size = .ok w) (hround : ∀ e, .append e ∈ ops → codec.RoundTrips e) :
    (Session.run codec { wal := w } ops).Durable codec ↔ Session.SafeRun codec { wal := w } ops :=
  Session.durable_run_iff ops (Session.sound_open hopen) hround

/-- The protobuf encoding of entries without payload whose numbers fit in one byte. -/
def shortCodec : EntryCodec where
  serialize e :=
    [0x08, UInt8.ofNat e.index, 0x10, UInt8.ofNat e.term, 0x18,
      match e.type with | .normal => 1 | .config => 2 | .noop => 3 | .other code => code, 0x20,
      match e.cmdType with | .upsert => 1 | .delete => 2 | .other code => code]
  parse
    | [0x08, index, 0x10, term, 0x18, type, 0x20, cmdType] => some
      { index := index.toNat
        term := term.toNat
        type := match type with | 1 => .normal | 2 => .config | 3 => .noop | code => .other code
        cmdType := match cmdType with | 1 => .upsert | 2 => .delete | code => .other code }
    | _ => none

def shortNoop (index : Nat) : LogEntry := { index, term := 1, type := .noop }

/-- Two segments of one record each, with a `Flush` before the rotation. -/
theorem accepted_durable_flushed_rotation :
    ∃ w, openWal shortCodec ∅ 1 30 = .ok w ∧
      (Session.run shortCodec { wal := w } [.append (shortNoop 1), .flush, .append (shortNoop 2)]).accepted =
        [shortNoop 1, shortNoop 2] ∧
      (Session.run shortCodec { wal := w } [.append (shortNoop 1), .flush, .append (shortNoop 2)]).Durable
        shortCodec := by
  refine ⟨_, rfl, rfl, (accepted_durable_iff shortCodec 1 30 _ _ rfl ?_).mpr (by decide)⟩
  intro e he
  simp only [List.mem_cons, Op.append.injEq, reduceCtorEq, List.not_mem_nil, or_false, false_or] at he
  rcases he with rfl | rfl
  · exact fun _ => by decide
  · exact fun _ => by decide

set_option maxRecDepth 20000 in
/-- The second record rotates before the first one is synced, so the last `Flush` does
not reach the first segment and a crash empties it. -/
theorem rotation_loses_unsynced_entry :
    ∃ w w₁ w₂, openWal shortCodec ∅ 1 30 = .ok w ∧
      (Session.run shortCodec { wal := w } [.append (shortNoop 1), .append (shortNoop 2)]).accepted =
        [shortNoop 1, shortNoop 2] ∧
      (Session.run shortCodec { wal := w } [.append (shortNoop 1), .append (shortNoop 2)]).wal.flush = .ok w₁ ∧
      openWal shortCodec (w₁.dir.crash fun _ => 0) 1 30 = .ok w₂ ∧
      w₂.read shortCodec 1 = .error "日志索引不存在: 1" ∧
      ¬ (Session.run shortCodec { wal := w } [.append (shortNoop 1), .append (shortNoop 2)]).Durable shortCodec := by
  obtain ⟨w, w₁, w₂, hopen, hrun, hflush, hsize, hcrash, hmiss⟩ : ∃ w w₁ w₂, openWal shortCodec ∅ 1 30 = .ok w ∧
      (Session.run shortCodec { wal := w } [.append (shortNoop 1), .append (shortNoop 2)]).accepted =
        [shortNoop 1, shortNoop 2] ∧
      (Session.run shortCodec { wal := w } [.append (shortNoop 1), .append (shortNoop 2)]).wal.flush = .ok w₁ ∧
      w₁.segmentSizeBytes = 30 ∧ openWal shortCodec (w₁.dir.crash fun _ => 0) 1 30 = .ok w₂ ∧
      w₂.read shortCodec 1 = .error "日志索引不存在: 1" := ⟨_, _, _, rfl, rfl, rfl, rfl, rfl, rfl⟩
  refine ⟨w, w₁, w₂, hopen, hrun, hflush, hcrash, hmiss, fun h => ?_⟩
  obtain ⟨w', hopen', hread⟩ := h w₁ hflush (fun _ => 0) 1
  rw [hsize, hcrash] at hopen'
  cases hopen'
  have hfirst := hread (shortNoop 1) (by rw [hrun]; simp)
  rw [show (shortNoop 1).index = 1 from rfl, hmiss] at hfirst
  cases hfirst

end RaftVdb.Wal
