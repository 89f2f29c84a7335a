import RaftVdb.HeldLog
import RaftVdb.Lib.Completeness

/-!
# The WAL as an excerpt of the whole log

Behind the snapshot a node has its log in the WAL, and `Holds` says no more. Segments that
`TruncateBefore` has not removed yet are read as well, by the loop that applies entries and
by the senders. `Retains` adds that these entries are the log's too, and that the WAL has
no gap behind its first entry.
-/

namespace RaftVdb

open Lib LogRepair Leaders

/-- The entries stand in the log at their indices. -/
def Excerpt (full entries : List LogEntry) : Prop := ∀ e ∈ entries, full[e.index - 1]? = some e

theorem Excerpt.mono {full full' entries : List LogEntry} (h : Excerpt full entries) (hle : full <+: full') :
    Excerpt full' entries := by
  obtain ⟨rest, rfl⟩ := hle
  intro e he
  rw [List.getElem?_append_left (List.getElem?_eq_some_iff.mp (h e he)).1]
  exact h e he

theorem Excerpt.filter {full entries : List LogEntry} (h : Excerpt full entries) (p : LogEntry → Bool) :
    Excerpt full (entries.filter p) := fun e he => h e (List.mem_of_mem_filter he)

namespace IndexedLog

variable {l l' : IndexedLog}

/-- Behind its first entry the WAL has no gap. -/
def Dense (l : IndexedLog) : Prop := ∀ e ∈ l.entries, l.Joined e.index

theorem Dense.truncateBefore (h : l.Dense) (hordered : l.Ordered) (index keepFrom : Nat) :
    (l.truncateBefore index keepFrom).Dense := by
  intro e he i hi hle
  have hmem := mem_of_mem_truncateBefore he
  obtain ⟨y, hy, rfl⟩ := h e hmem i hi (hle.trans (hordered.lastIndex_truncateBefore index keepFrom))
  rcases Nat.lt_or_ge y.index index with hlt | hge
  swap
  · exact ⟨y, (hordered.mem_truncateBefore keepFrom hge).mpr hy, rfl⟩
  refine ⟨y, ?_, rfl⟩
  -- the entry before it is kept for the sake of its segment, so it is kept too
  unfold IndexedLog.truncateBefore at he ⊢
  split at he
  · cases he
  next hlast =>
  rw [if_neg hlast]
  simp only [List.mem_filter, Bool.or_eq_true, Bool.and_eq_true, decide_eq_true_eq] at he ⊢
  obtain ⟨-, hge | ⟨hfrom, hcont⟩⟩ := he
  · omega
  · exact ⟨hy, .inr ⟨by omega, continues_mono hcont (by omega)⟩⟩

/-- What a truncation of the end removes. -/
theorem Ordered.le_of_mem_drop_truncateSuffix (h : l.Ordered) {index : Nat} (hl : l.truncateSuffix index = .ok l')
    {y : LogEntry} (hy : y ∈ l.entries.drop l'.entries.length) : index ≤ y.index := by
  have hsorted : ∀ {xs : List LogEntry}, xs.Pairwise (fun a b => a.index < b.index) →
      y ∈ xs.drop (xs.filter fun e => e.index < index).length → index ≤ y.index := by
    intro xs
    induction xs with
    | nil => exact fun _ hy => by simp at hy
    | cons x xs ih =>
      intro hxs hy
      obtain ⟨hlater, hxs⟩ := List.pairwise_cons.mp hxs
      by_cases hx : x.index < index
      · rw [List.filter_cons_of_pos (by simpa using hx), List.length_cons, List.drop_succ_cons] at hy
        exact ih hxs hy
      · rcases List.mem_cons.mp (List.mem_of_mem_drop hy) with rfl | hmem
        · omega
        · have := hlater y hmem
          omega
  unfold IndexedLog.truncateSuffix at hl
  split at hl
  · cases hl
  split at hl
  · cases hl
    rw [List.drop_length] at hy
    cases hy
  · cases hl
    exact hsorted h.sorted hy

end IndexedLog

namespace Node

variable {n m : Node} {full : List LogEntry} {prev : Nat} {e : LogEntry} {es : List LogEntry}

/-- The node holds the log, and its WAL is an excerpt of it without gaps. -/
structure Retains (n : Node) (full : List LogEntry) : Prop where
  holds : n.Holds full
  excerpt : Excerpt full n.log.entries
  dense : n.log.Dense

theorem Retains.congr (h : n.Retains full) (hlog : m.log = n.log) (hindex : m.lastSnapshotIndex = n.lastSnapshotIndex)
    (hterm : m.lastSnapshotTerm = n.lastSnapshotTerm) : m.Retains full where
  holds := h.holds.congr hlog hindex hterm
  excerpt := by rw [hlog]; exact h.excerpt
  dense := by rw [hlog]; exact h.dense

theorem Retains.of_core (h : n.Retains full) (hcore : m.core = n.core) : m.Retains full :=
  h.congr (eq_of_core Node.log (fun _ => rfl) hcore) (eq_of_core Node.lastSnapshotIndex (fun _ => rfl) hcore)
    (eq_of_core Node.lastSnapshotTerm (fun _ => rfl) hcore)

/-- Only the entries up to the snapshot need a look. -/
theorem Holds.backed (h : n.Holds full)
    (hexcerpt : ∀ x ∈ n.log.entries, x.index ≤ n.lastSnapshotIndex → full[x.index - 1]? = some x)
    (hdense : ∀ x ∈ n.log.entries, ∀ i, x.index < i → i ≤ n.lastSnapshotIndex → ∃ y ∈ n.log.entries, y.index = i) :
    n.Retains full where
  holds := h
  excerpt x hx := by
    rcases Nat.lt_or_ge n.lastSnapshotIndex x.index with hlt | hle
    · have hread := h.read hlt
      rw [h.ordered.read_eq_ok.mpr ⟨hx, rfl⟩] at hread
      exact hread.symm
    · exact hexcerpt x hx hle
  dense x hx i hi hle := by
    rcases Nat.lt_or_ge n.lastSnapshotIndex i with hlt | hge
    · exact h.joined i hlt hle
    · exact hdense x hx i hi hge

theorem Retains.pos (h : n.Retains full) {x : LogEntry} (hx : x ∈ n.log.entries) : 0 < x.index := by
  have := h.holds.indexed _ x (h.excerpt x hx)
  omega

theorem Retains.read (h : n.Retains full) {i : Nat} {x : LogEntry} (hread : n.log.read i = .ok x) :
    0 < i ∧ full[i - 1]? = some x := by
  obtain ⟨hx, rfl⟩ := IndexedLog.mem_of_read hread
  exact ⟨h.pos hx, h.excerpt x hx⟩

/-- A term that the node knows is that of the entry. -/
theorem Retains.term_of_ok (h : n.Retains full) {i t : Nat} (hpos : 0 < i) (hterm : n.termAtLogicalIndex i = .ok t) :
    termAt LogEntry.term full i = some t := by
  unfold Node.termAtLogicalIndex at hterm
  rw [if_neg (by omega)] at hterm
  split at hterm
  · cases hterm
  split at hterm
  · next hat =>
    cases hterm
    rw [hat.2.1]
    exact (h.holds.covered hat.1).2
  · obtain ⟨x, hread, rfl⟩ := IndexedLog.read_of_termAt (by omega) hterm
    unfold termAt
    rw [(h.read hread).2]
    rfl

theorem Retains.joined_snapshot (h : n.Retains full) {x : LogEntry} (hx : x ∈ n.log.entries) {i : Nat} (hi : x.index < i)
    (hle : i ≤ n.lastSnapshotIndex) : ∃ y ∈ n.log.entries, y.index = i := by
  refine h.dense x hx i hi (hle.trans ?_)
  have := h.holds.anchored.le_lastIndex h.holds.ordered
  exact this.resolve_left (List.ne_nil_of_mem hx)

theorem Retains.append (h : n.Retains full) (he : e.index = full.length + 1) :
    ∃ log, n.log.append e = .ok log ∧ { n with log }.Retains (full ++ [e]) := by
  obtain ⟨log, hlog, hholds⟩ := h.holds.append he
  have hsnap := h.holds.snapshot_le
  have hold : ∀ x ∈ log.entries, x.index ≤ n.lastSnapshotIndex → x ∈ n.log.entries := by
    intro x hx hle
    rcases (IndexedLog.mem_append hlog).mp hx with hx | rfl
    · exact hx
    · omega
  refine ⟨log, hlog, hholds.backed (fun x hx hle => ?_) fun x hx i hi hle => ?_⟩
  · have hfull := h.excerpt x (hold x hx hle)
    rw [List.getElem?_append_left (List.getElem?_eq_some_iff.mp hfull).1]
    exact hfull
  · obtain ⟨y, hy, hindex⟩ := h.joined_snapshot (hold x hx (by dsimp only at hle; omega)) hi hle
    exact ⟨y, (IndexedLog.mem_append hlog).mpr (.inl hy), hindex⟩

theorem Retains.truncate (h : n.Retains full) (hsnap : n.lastSnapshotIndex ≤ prev) (hlt : prev < full.length) :
    ∃ log, n.log.truncateSuffix (prev + 1) = .ok log ∧ { n with log }.Retains (full.take prev) := by
  obtain ⟨log, hlog, hholds⟩ := h.holds.truncate hsnap hlt
  have hmem := fun x => h.holds.ordered.mem_truncateSuffix (x := x) hlog
  refine ⟨log, hlog, hholds.backed (fun x hx hle => ?_) fun x hx i hi hle => ?_⟩
  · have hold := ((hmem x).mp hx).1
    have hpos := h.pos hold
    dsimp only at hle
    rw [List.getElem?_take_of_lt (by omega)]
    exact h.excerpt x hold
  · dsimp only at hle
    obtain ⟨y, hy, rfl⟩ := h.joined_snapshot ((hmem x).mp hx).1 hi hle
    exact ⟨y, (hmem y).mpr ⟨hy, by omega⟩, rfl⟩

/-- What the entry loop leaves was there before, or came with the request. -/
theorem mem_of_mem_spliceEntries {snapshotIndex : Nat} {log : IndexedLog} {x : LogEntry} (hordered : log.Ordered)
    (hx : x ∈ (spliceEntries snapshotIndex log es).log.entries) : x ∈ log.entries ∨ x ∈ es := by
  induction es generalizing log with
  | nil => exact .inl hx
  | cons e rest ih =>
    have hstep := spliceEntry_step snapshotIndex hordered e
    rw [spliceEntries] at hx
    dsimp only at hx
    generalize spliceEntry snapshotIndex log e = first at hstep hx
    have hrest : ∀ {log' : IndexedLog}, log'.Ordered → (∀ y ∈ log'.entries, y ∈ log.entries ∨ y = e) →
        x ∈ (spliceEntries snapshotIndex log' rest).log.entries → x ∈ log.entries ∨ x ∈ e :: rest := by
      intro log' hordered' hsub hx'
      rcases ih hordered' hx' with hx' | hx'
      · rcases hsub x hx' with hx' | rfl
        · exact .inl hx'
        · exact .inr List.mem_cons_self
      · exact .inr (List.mem_cons_of_mem _ hx')
    cases hstep with
    | covered h he => exact hrest hordered (fun y => .inl) hx
    | present hy hindex hterm => exact hrest hordered (fun y => .inl) hx
    | refused err => exact .inl hx
    | appended hnew hfree hlog =>
      exact hrest (hordered.append hlog) (fun y => (IndexedLog.mem_append hlog).mp) hx
    | replaced hnew hy hindex hterm hkept hlog =>
      refine hrest ((hordered.truncateSuffix hkept).append hlog) (fun y hy => ?_) hx
      exact ((IndexedLog.mem_append hlog).mp hy).imp_left fun hmem => ((hordered.mem_truncateSuffix hkept).mp hmem).1
    | cut err hy hindex hterm hkept => exact .inl ((hordered.mem_truncateSuffix hkept).mp hx).1

theorem lt_of_numbered (hes : Numbered prev es) (he : e ∈ es) : prev < e.index := by
  obtain ⟨i, hi⟩ := List.mem_iff_getElem?.mp he
  have := hes i e hi
  omega

/-- The entry loop is a merge. -/
theorem Retains.spliceEntries (h : n.Retains full) (hsnap : n.lastSnapshotIndex ≤ prev) (hprev : prev ≤ full.length)
    (hes : Numbered prev es) : (spliceEntries n.lastSnapshotIndex n.log es).error = none ∧
      { n with log := (spliceEntries n.lastSnapshotIndex n.log es).log }.Retains (merge LogEntry.term full prev es) := by
  obtain ⟨hok, hholds⟩ := h.holds.spliceEntries hsnap hprev hes
  obtain ⟨hfront, -⟩ := take_merge LogEntry.term prev es hprev
  have hordered := h.holds.ordered
  have hold : ∀ x ∈ (Node.spliceEntries n.lastSnapshotIndex n.log es).log.entries, x.index ≤ prev → x ∈ n.log.entries := by
    intro x hx hle
    rcases mem_of_mem_spliceEntries hordered hx with hx | hx
    · exact hx
    · have := lt_of_numbered hes hx
      omega
  refine ⟨hok, hholds.backed (fun x hx hle => ?_) fun x hx i hi hle => ?_⟩
  · have hmem := hold x hx (hle.trans hsnap)
    have hpos := h.pos hmem
    rw [← List.getElem?_take_of_lt (show x.index - 1 < prev by dsimp only at hle; omega), hfront,
      List.getElem?_take_of_lt (by dsimp only at hle; omega)]
    exact h.excerpt x hmem
  · obtain ⟨y, hy, rfl⟩ := h.joined_snapshot (hold x hx (by dsimp only at hle; omega)) hi hle
    refine ⟨y, mem_spliceEntries hordered hy fun d hd hdle => ?_, rfl⟩
    have := lt_of_numbered hes hd
    dsimp only at hle
    omega

/-- The entry loop truncates at most once, where the logs part, and removes what stands
behind that. -/
theorem Retains.truncations {l : List LogEntry} {c : Nat} (h : n.Retains full) (hfork : Fork LogEntry.term l full c)
    (hsnap : n.lastSnapshotIndex ≤ prev) (hprev : prev ≤ c) (hes : Numbered prev es) (hstands : Stands l prev es)
    {t : Nat × List LogEntry} (ht : t ∈ (Node.spliceEntries n.lastSnapshotIndex n.log es).truncations) :
    t.1 = c + 1 ∧ c < full.length ∧ c < prev + es.length ∧ ∀ x ∈ t.2, c < x.index ∧ full[x.index - 1]? = some x := by
  induction es generalizing n full prev c with
  | nil => cases ht
  | cons e es ih =>
    have hlen : prev + (e :: es).length = prev + 1 + es.length := by
      rw [List.length_cons]
      omega
    have hle : prev ≤ full.length := hprev.trans hfork.right
    have hindex := hes.head
    have hfirst := hstands.head
    -- behind what the sender has there is nothing left to truncate
    have hbeyond : ∀ {m : Node} {full' : List LogEntry}, m.Retains full' → m.lastSnapshotIndex = n.lastSnapshotIndex →
        full' = l.take (prev + 1) →
        t ∉ (Node.spliceEntries n.lastSnapshotIndex m.log es).truncations := by
      intro m full' hm hmsnap hfull' hmem
      have hsucc := (List.getElem?_eq_some_iff.mp hfirst).1
      rw [hfull'] at hm
      obtain ⟨-, hlt, -⟩ := ih hm (fork_take l hsucc) (by omega) (Nat.le_refl _) hes.tail hstands.tail (hmsnap ▸ hmem)
      rw [List.length_take_of_le hsucc] at hlt
      exact Nat.lt_irrefl _ hlt
    obtain ⟨hok, -⟩ := h.holds.spliceEntry hsnap hle hindex
    rw [Node.spliceEntries] at ht
    dsimp only at ht
    rw [if_neg (by rw [hok]; simp)] at ht
    dsimp only at ht
    unfold Node.spliceEntry at ht
    rw [if_neg (by omega), hindex] at ht
    rw [hlen]
    rcases h.holds.read_cases hsnap with ⟨x, hx, hread⟩ | ⟨hnone, err, hread⟩
    · rw [hread] at ht
      dsimp only at ht
      have hlt := (List.getElem?_eq_some_iff.mp hx).1
      by_cases hterm : x.term = e.term
      · rw [if_pos hterm] at ht
        have hc : prev < c := by
          by_contra hge
          exact hfork.differ prev e x (by omega) hfirst hx hterm.symm
        exact ih h hfork (by omega) hc hes.tail hstands.tail ht
      · rw [if_neg hterm] at ht
        have hc : c = prev := by
          by_contra hne
          rw [hfork.getElem? (show prev < c by omega), hx] at hfirst
          cases hfirst
          exact hterm rfl
        subst hc
        obtain ⟨kept, hkept, hbacked⟩ := h.truncate hsnap hlt
        have hlen' : (full.take c).length = c := List.length_take_of_le hlt.le
        obtain ⟨log, hlog, hbacked'⟩ := hbacked.append (e := e) (by rw [hlen', hindex])
        have hlog : kept.append e = .ok log := hlog
        rw [hkept] at ht
        dsimp only at ht
        rw [hlog] at ht
        rcases List.mem_append.mp ht with ht | ht
        · obtain rfl := List.mem_singleton.mp ht
          refine ⟨rfl, hlt, by omega, fun y hy => ⟨?_, h.excerpt y (List.mem_of_mem_drop hy)⟩⟩
          exact h.holds.ordered.le_of_mem_drop_truncateSuffix hkept hy
        · refine absurd ht (hbeyond hbacked' rfl ?_)
          rw [← hfork.agree, ← take_succ_of_getElem? hfirst]
    · have hend : full.length = prev := Nat.le_antisymm (List.getElem?_eq_none_iff.mp hnone) hle
      have hc : c = prev := Nat.le_antisymm (hend ▸ hfork.right) hprev
      obtain ⟨log, hlog, hbacked⟩ := h.append (e := e) (by rw [hend, hindex])
      rw [hread] at ht
      dsimp only at ht
      rw [hlog] at ht
      refine absurd ht (hbeyond hbacked rfl ?_)
      rw [take_succ_of_getElem? hfirst, ← hc, hfork.agree, List.take_of_length_le (by omega)]

/-! ## Snapshots -/

/-- A snapshot may stand at any index behind which the WAL has everything. -/
theorem Retains.rebase (h : n.Retains full) {b index keepFrom : Nat} (hb : b ≤ full.length)
    (hcovers : ∀ i, b ≤ i → i < full.length → ∃ x ∈ n.log.entries, x.index = i + 1)
    (hterm : m.lastSnapshotTerm ≠ 0 ∧ termAt LogEntry.term full b = some m.lastSnapshotTerm) (hle : b ≤ index)
    (hge : index ≤ b + 1) (hlog : m.log = n.log.truncateBefore index keepFrom) (hindex : m.lastSnapshotIndex = b) :
    m.Retains full := by
  have hordered := h.holds.ordered.truncateBefore index keepFrom
  have hlast : n.log.lastIndex ≤ full.length := by
    rw [← h.holds.last]
    exact Nat.le_max_right ..
  have hshort := (h.holds.ordered.lastIndex_truncateBefore index keepFrom).trans hlast
  have hkept : ∀ i, b ≤ i → i < full.length → ∃ x ∈ m.log.entries, x.index = i + 1 := by
    intro i hi hlt
    obtain ⟨x, hx, hxi⟩ := hcovers i hi hlt
    rw [hlog]
    exact ⟨x, (h.holds.ordered.mem_truncateBefore keepFrom (by omega)).mpr hx, hxi⟩
  have hsub : ∀ x ∈ m.log.entries, x ∈ n.log.entries := by
    rw [hlog]
    exact fun x => IndexedLog.mem_of_mem_truncateBefore
  refine ⟨⟨hlog ▸ hordered, ?_, ?_, h.holds.indexed, fun _ => by rw [hindex]; exact hterm, fun i hi => ?_⟩,
    fun x hx => h.excerpt x (hsub x hx), ?_⟩
  · rw [hlog, hindex]
    exact Anchored.truncateBefore_of_le hle keepFrom
  · unfold logicalLastIndex
    rw [hindex]
    rcases Nat.lt_or_ge b full.length with hlt | heq
    · obtain ⟨x, hx, hxi⟩ := hkept (full.length - 1) (by omega) (by omega)
      have := (hlog ▸ hordered : m.log.Ordered).le_last hx
      rw [hlog] at this ⊢
      omega
    · rw [hlog]
      omega
  · rw [hindex] at hi
    rcases Nat.lt_or_ge i full.length with hlt | hbehind
    · obtain ⟨x, hx, hxi⟩ := hkept i hi hlt
      have hfull := h.excerpt x (hsub x hx)
      rw [hxi, Nat.add_sub_cancel] at hfull
      rw [(hlog ▸ hordered : m.log.Ordered).read_eq_ok.mpr ⟨hx, hxi⟩, hfull]
      rfl
    · rw [List.getElem?_eq_none hbehind, IndexedLog.read_of_forall_ne fun x hx hxi => ?_]
      · rfl
      · have := (hlog ▸ hordered : m.log.Ordered).le_last hx
        rw [hlog] at this
        omega
  · rw [hlog]
    exact h.dense.truncateBefore h.holds.ordered index keepFrom

/-- An installed snapshot that goes with the log, or reaches beyond it. -/
theorem Retains.install (h : n.Retains full) {l : List LogEntry} {b keepFrom : Nat} (hb : n.lastSnapshotIndex ≤ b)
    (hl : l.length = b) (hindexed : ∀ i e, l[i]? = some e → e.index = i + 1)
    (hterm : m.lastSnapshotTerm ≠ 0 ∧ termAt LogEntry.term l b = some m.lastSnapshotTerm)
    (hfit : b < full.length → l <+: full) (hlog : m.log = n.log.truncateBefore (b + 1) keepFrom)
    (hindex : m.lastSnapshotIndex = b) : m.Retains (if full.length ≤ b then l else full) := by
  have hlast : n.log.lastIndex ≤ full.length := by
    rw [← h.holds.last]
    exact Nat.le_max_right ..
  split
  · next hshort =>
    have hempty : m.log = {} := by
      rw [hlog, IndexedLog.truncateBefore, if_pos (by omega)]
    refine ⟨⟨hempty ▸ .empty, hempty ▸ .nil _, ?_, hindexed, fun _ => by rw [hindex]; exact hterm, fun i hi => ?_⟩, ?_, ?_⟩
    · unfold logicalLastIndex
      rw [hindex, hempty, hl]
      exact Nat.max_eq_left (Nat.zero_le b)
    · rw [hempty, List.getElem?_eq_none (by omega)]
      rfl
    · rw [hempty]
      exact fun e he => by cases he
    · rw [hempty]
      exact fun e he => by cases he
  · next hlong =>
    have hle := hfit (by omega)
    refine h.rebase (by omega) (fun i hi hlt => ?_) ⟨hterm.1, ?_⟩ (Nat.le_succ b) (Nat.le_refl _) hlog hindex
    · have hend := h.holds.lastIndex (by omega)
      exact h.holds.joined (i + 1) (by omega) (by omega)
    · obtain ⟨rest, rfl⟩ := hle
      rw [← hterm.2]
      unfold termAt
      have hpos : 0 < l.length := by
        rcases Nat.eq_zero_or_pos l.length with hzero | hpos
        · have hnone := hterm.2
          rw [List.length_eq_zero_iff.mp hzero] at hnone
          cases hnone
        · exact hpos
      rw [List.getElem?_append_left (by omega)]

/-- A saved snapshot stands at an index that the WAL has. -/
theorem Retains.save (h : n.Retains full) {b t keepFrom : Nat} (hpos : 0 < b) (hterm : n.log.termAt b = .ok t) (ht : t ≠ 0)
    (hlog : m.log = n.log.truncateBefore b keepFrom) (hindex : m.lastSnapshotIndex = b) (hmterm : m.lastSnapshotTerm = t) :
    m.Retains full := by
  obtain ⟨x, hread, rfl⟩ := IndexedLog.read_of_termAt (by omega) hterm
  obtain ⟨hx, rfl⟩ := IndexedLog.mem_of_read hread
  have hfull := h.excerpt x hx
  have hlt := (List.getElem?_eq_some_iff.mp hfull).1
  refine h.rebase (by omega) (fun i hi hlt' => ?_) ⟨by rw [hmterm]; exact ht, ?_⟩ (Nat.le_refl _) (Nat.le_succ _) hlog hindex
  · have hend : full.length ≤ n.log.lastIndex := by
      have hlast := h.holds.last
      have hanchored := (h.holds.anchored.le_lastIndex h.holds.ordered).resolve_left (List.ne_nil_of_mem hx)
      unfold logicalLastIndex at hlast
      omega
    exact h.dense x hx (i + 1) (by omega) (by omega)
  · unfold termAt
    rw [hfull, hmterm]
    rfl

/-! ## Requests -/

/-- What is read from an index on is a piece of the log. -/
theorem Retains.readFrom_le (h : n.Retains full) (next maxEntries : Nat) :
    (n.log.readFrom next maxEntries).toOption.getD [] <+: full.drop (next - 1) := by
  unfold IndexedLog.readFrom
  split
  · exact List.nil_prefix
  split
  · exact List.nil_prefix
  next x hread =>
  obtain ⟨hx, hxi⟩ := IndexedLog.mem_of_read hread
  have hpos := h.pos hx
  have hend : full.length ≤ n.log.lastIndex := by
    have hlast := h.holds.last
    have hanchored := (h.holds.anchored.le_lastIndex h.holds.ordered).resolve_left (List.ne_nil_of_mem hx)
    unfold logicalLastIndex at hlast
    omega
  have hirrefl : Std.Irrefl fun a b : LogEntry => a.index < b.index := ⟨fun a => Nat.lt_irrefl a.index⟩
  have hsame : (n.log.entries.filter fun e => next ≤ e.index) = full.drop (next - 1) := by
    refine List.Pairwise.eq_of_mem_iff (h.holds.ordered.sorted.filter _) ?_ fun y => ?_
    · rw [List.pairwise_iff_getElem]
      intro i j hi hj hij
      have hget : ∀ k (hk : k < (full.drop (next - 1)).length), (full.drop (next - 1))[k].index = next - 1 + k + 1 := by
        intro k hk
        refine h.holds.indexed (next - 1 + k) _ ?_
        rw [← List.getElem?_drop, List.getElem?_eq_getElem hk]
      rw [hget i hi, hget j hj]
      omega
    · rw [List.mem_filter, decide_eq_true_eq]
      constructor
      · rintro ⟨hy, hle⟩
        refine List.mem_iff_getElem?.mpr ⟨y.index - next, ?_⟩
        rw [List.getElem?_drop, show next - 1 + (y.index - next) = y.index - 1 by omega]
        exact h.excerpt y hy
      · intro hy
        obtain ⟨k, hk⟩ := List.mem_iff_getElem?.mp hy
        rw [List.getElem?_drop] at hk
        have hat := h.holds.indexed _ _ hk
        have hlt := (List.getElem?_eq_some_iff.mp hk).1
        obtain ⟨z, hz, hzi⟩ : ∃ z ∈ n.log.entries, z.index = y.index := by
          by_cases heq : y.index = next
          · exact ⟨x, hx, hxi.trans heq.symm⟩
          · exact h.dense x hx y.index (by omega) (by omega)
        have hfull := h.excerpt z hz
        rw [hzi, hat, Nat.add_sub_cancel, hk] at hfull
        cases hfull
        exact ⟨hz, by omega⟩
  dsimp only [Except.toOption, Option.getD_some]
  rw [hsame]
  exact List.take_prefix _ _

/-- What a sender puts into a request is a piece of its log, or the request names a previous
entry without a term. -/
theorem Retains.carried (h : n.Retains full) {r : AppendEntriesRequest} (hr : n.Carries r) :
    Carried full r ∨ (0 < r.prevLogIndex ∧ r.prevLogTerm = 0) := by
  obtain ⟨next, batch, hprev, hterm, hentries, hreach⟩ := hr.piece
  have hpiece : r.entries <+: full.drop r.prevLogIndex := by
    rw [hentries, hprev]
    exact h.readFrom_le next batch
  have hnumbered : Numbered r.prevLogIndex r.entries := by
    intro i e he
    obtain ⟨rest, hrest⟩ := hpiece
    refine h.holds.indexed _ e ?_
    rw [← List.getElem?_drop, ← hrest, List.getElem?_append_left (List.getElem?_eq_some_iff.mp he).1]
    exact he
  rw [← hprev] at hterm hreach
  rw [h.holds.last] at hreach
  rcases Nat.eq_zero_or_pos r.prevLogIndex with hzero | hpos
  · exact .inl ⟨by omega, fun i e hi => by omega, hpiece, hnumbered⟩
  rcases Nat.lt_or_ge r.prevLogIndex n.lastSnapshotIndex with hcut | hge
  · refine .inr ⟨hpos, ?_⟩
    rw [hterm, termAtLogicalIndex, if_neg (by omega), if_pos ⟨by omega, hcut⟩]
    rfl
  have hle : r.prevLogIndex ≤ full.length := by
    rcases hreach with hlast | ⟨t, hok⟩
    · omega
    · have hsome := h.term_of_ok hpos hok
      unfold termAt at hsome
      obtain ⟨x, hx, -⟩ := Option.map_eq_some_iff.mp hsome
      have := (List.getElem?_eq_some_iff.mp hx).1
      omega
  refine .inl ⟨hle, fun i e hi he => ?_, hpiece, hnumbered⟩
  rw [hterm, h.holds.termAtLogicalIndex hpos hge (t := e.term)]
  · rfl
  · unfold termAt
    rw [hi, Nat.add_sub_cancel, he]
    rfl

theorem Retains.accepts (h : n.Retains full) {r : AppendEntriesRequest} (hr : n.rejectPrev r = none) :
    n.lastSnapshotIndex ≤ r.prevLogIndex ∧ r.prevLogIndex ≤ full.length ∧
      (r.prevLogIndex = 0 ∨ termAt LogEntry.term full r.prevLogIndex = some r.prevLogTerm) := by
  obtain ⟨hsnap, hle, hsame⟩ := rejectPrev_bounds hr
  rw [h.holds.last] at hle
  rcases Nat.eq_zero_or_pos r.prevLogIndex with hzero | hpos
  · exact ⟨hsnap, hle, .inl hzero⟩
  · exact ⟨hsnap, hle, .inr (h.term_of_ok hpos (hsame.resolve_left (by omega)))⟩

/-! ## Votes -/

theorem Retains.lastLogTerm (h : n.Retains full) : n.lastLogTerm = World.lastTerm LogEntry.term full := by
  unfold Node.lastLogTerm
  rw [h.holds.last]
  rcases List.eq_nil_or_concat' full with rfl | ⟨front, e, rfl⟩
  · rfl
  rw [if_neg (by simp), World.lastTerm_concat, h.holds.termAtLogicalIndex (by simp) h.holds.snapshot_le (t := e.term)]
  unfold termAt
  simp

/-- The check of a vote compares the whole logs. -/
theorem Retains.upToDate (h : n.Retains full) {l : List LogEntry}
    (hup : n.isCandidateLogUpToDate l.length (World.lastTerm LogEntry.term l) = true) :
    World.UpToDate LogEntry.term full l := by
  unfold isCandidateLogUpToDate at hup
  rw [h.lastLogTerm, h.holds.last] at hup
  unfold World.UpToDate
  split at hup
  · exact .inl (of_decide_eq_true hup)
  · next heq =>
    rw [ne_eq, not_not] at heq
    exact .inr ⟨heq.symm, of_decide_eq_true hup⟩

end Node

end RaftVdb
