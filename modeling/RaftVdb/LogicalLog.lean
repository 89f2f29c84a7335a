import RaftVdb.Rpc

/-!
# The log behind a snapshot

The logical log of a node is its snapshot index followed by the entries of the WAL behind
it. `Joined` says that nothing is missing between the two, and that the WAL has no gap
behind the snapshot. Every operation on the WAL keeps it, the entry loop of
`HandleAppendEntries` included.
-/

namespace RaftVdb

namespace IndexedLog

/-- Every index behind the snapshot up to the last one has an entry. -/
def Joined (l : IndexedLog) (snapshotIndex : Nat) : Prop :=
  ∀ i, snapshotIndex < i → i ≤ l.lastIndex → ∃ x ∈ l.entries, x.index = i

variable {l l' : IndexedLog} {k : Nat}

theorem Joined.empty (k : Nat) : Joined {} k := fun i hi hle => by
  have hle' : i ≤ 0 := hle
  omega

theorem Joined.of_le (h : l.Joined k) {k' : Nat} (hk : k ≤ k') : l.Joined k' := fun i hi => h i (by omega)

/-- A WAL without entries ends at the snapshot. -/
theorem Joined.lastIndex_le (h : l.Joined k) (hnil : l.entries = []) : l.lastIndex ≤ k := by
  by_contra hlt
  obtain ⟨x, hx, -⟩ := h l.lastIndex (by omega) (Nat.le_refl _)
  rw [hnil] at hx
  cases hx

theorem lastIndex_append {e : LogEntry} (hl : l.append e = .ok l') : l'.lastIndex = e.index := by
  rw [append_eq_ok hl]

theorem index_of_append {e : LogEntry} (hl : l.append e = .ok l') (hne : l.entries ≠ []) : e.index = l.lastIndex + 1 := by
  by_contra hindex
  rw [IndexedLog.append, if_pos ⟨hne, hindex⟩] at hl
  cases hl

theorem Joined.append (h : l.Joined k) {e : LogEntry} (hl : l.append e = .ok l') (he : e.index ≤ max k l.lastIndex + 1) :
    l'.Joined k := by
  intro i hi hle
  rw [lastIndex_append hl] at hle
  by_cases hlast : i = e.index
  · exact ⟨e, (mem_append hl).mpr (.inr rfl), hlast.symm⟩
  · have hold : i ≤ l.lastIndex := by
      by_cases hnil : l.entries = []
      · have := h.lastIndex_le hnil
        omega
      · have := index_of_append hl hnil
        omega
    obtain ⟨x, hx, hindex⟩ := h i hi hold
    exact ⟨x, (mem_append hl).mpr (.inl hx), hindex⟩

theorem pos_of_truncateSuffix {index : Nat} (hl : l.truncateSuffix index = .ok l') : 0 < index := by
  unfold IndexedLog.truncateSuffix at hl
  split at hl
  · cases hl
  · omega

theorem Ordered.lastIndex_truncateSuffix (h : l.Ordered) {index : Nat} (hl : l.truncateSuffix index = .ok l') :
    l'.lastIndex ≤ l.lastIndex ∧ (l'.lastIndex < index ∨ l' = l) := by
  unfold IndexedLog.truncateSuffix at hl
  split at hl
  · cases hl
  split at hl
  · cases hl
    exact ⟨Nat.le_refl _, .inr rfl⟩
  next hcase =>
  cases hl
  dsimp only
  cases hlast : (l.entries.filter fun e => e.index < index).getLast? with
  | none =>
    simp only [Option.elim_none]
    omega
  | some x =>
    have hx := List.mem_filter.mp (List.mem_of_getLast? hlast)
    have hlt : x.index < index := by simpa using hx.2
    exact ⟨h.le_last hx.1, .inl hlt⟩

theorem Joined.truncateSuffix (h : l.Joined k) (hordered : l.Ordered) {index : Nat}
    (hl : l.truncateSuffix index = .ok l') : l'.Joined k := by
  intro i hi hle
  obtain ⟨hlast, hcut | hsame⟩ := hordered.lastIndex_truncateSuffix hl
  · obtain ⟨x, hx, hindex⟩ := h i hi (by omega)
    exact ⟨x, (hordered.mem_truncateSuffix hl).mpr ⟨hx, by omega⟩, hindex⟩
  · rw [hsame] at hle ⊢
    exact h i hi hle

/-- A truncation behind an index that is joined leaves the log up to there. -/
theorem Joined.le_truncateSuffix (h : l.Joined k) (hordered : l.Ordered) {index c : Nat}
    (hl : l.truncateSuffix index = .ok l') (hc : c < index) (hle : c ≤ max k l.lastIndex) : c ≤ max k l'.lastIndex := by
  by_cases hk : c ≤ k
  · omega
  · obtain ⟨x, hx, hindex⟩ := h c (by omega) (by omega)
    have hmem := (hordered.mem_truncateSuffix hl).mpr ⟨hx, by omega⟩
    have := (hordered.truncateSuffix hl).le_last hmem
    omega

theorem Ordered.lastIndex_truncateBefore (h : l.Ordered) (index keepFrom : Nat) :
    (l.truncateBefore index keepFrom).lastIndex ≤ l.lastIndex := by
  unfold IndexedLog.truncateBefore
  split
  · exact Nat.zero_le _
  dsimp only
  generalize hkept : (l.entries.filter fun e => index ≤ e.index || (keepFrom ≤ e.index && l.continues e.index index)) = kept
  cases hlast : kept.getLast? with
  | none => exact Nat.zero_le _
  | some x =>
    have hx := List.mem_of_getLast? hlast
    rw [← hkept] at hx
    exact h.le_last (List.mem_of_mem_filter hx)

theorem Joined.truncateBefore (h : l.Joined k) (hordered : l.Ordered) {index : Nat} (hk : index ≤ k + 1) (keepFrom : Nat) :
    (l.truncateBefore index keepFrom).Joined k := by
  intro i hi hle
  have hlast := hordered.lastIndex_truncateBefore index keepFrom
  obtain ⟨x, hx, hindex⟩ := h i hi (by omega)
  exact ⟨x, (hordered.mem_truncateBefore keepFrom (by omega)).mpr hx, hindex⟩

/-- A truncation up to the snapshot leaves the logical end. -/
theorem Joined.le_truncateBefore (h : l.Joined k) (hordered : l.Ordered) {index c : Nat} (hk : index ≤ k + 1) (keepFrom : Nat)
    (hle : c ≤ max k l.lastIndex) : c ≤ max k (l.truncateBefore index keepFrom).lastIndex := by
  by_cases hck : c ≤ k
  · omega
  · obtain ⟨x, hx, hindex⟩ := h c (by omega) (by omega)
    have hmem := (hordered.mem_truncateBefore keepFrom (show index ≤ x.index by omega)).mpr hx
    have := (hordered.truncateBefore index keepFrom).le_last hmem
    omega

theorem Ordered.eq_of_index {x y : LogEntry} (h : l.Ordered) (hx : x ∈ l.entries) (hy : y ∈ l.entries)
    (hindex : x.index = y.index) : x = y := by
  have hread := h.read_eq_ok.mpr ⟨hx, hindex⟩
  rw [h.read_eq_ok.mpr ⟨hy, rfl⟩] at hread
  cases hread
  rfl

theorem Ordered.lt_of_append {e x : LogEntry} (h : l.Ordered) (hl : l.append e = .ok l') (hx : x ∈ l.entries) :
    x.index < e.index := by
  have hle := h.le_last hx
  have hindex := index_of_append hl (List.ne_nil_of_mem hx)
  omega

end IndexedLog

namespace Node

/-- The previous entry of a request that goes on lies between the snapshot and the end, and has
the term of the request. -/
theorem rejectPrev_bounds {n : Node} {r : AppendEntriesRequest} (h : n.rejectPrev r = none) :
    n.lastSnapshotIndex ≤ r.prevLogIndex ∧ r.prevLogIndex ≤ n.logicalLastIndex ∧
      (r.prevLogIndex = 0 ∨ n.termAtLogicalIndex r.prevLogIndex = .ok r.prevLogTerm) := by
  unfold rejectPrev at h
  dsimp only at h
  split at h
  · cases h
  split at h
  · cases h
  next hend hbehind =>
  refine ⟨by omega, by omega, ?_⟩
  split at h
  · next hzero => exact .inl hzero
  split at h
  · cases h
  next term hterm =>
  split at h
  · next heq =>
    rw [heq] at hterm
    exact .inr hterm
  · split at h <;> cases h

/-- What one iteration of the entry loop can do. -/
inductive SpliceStep (snapshotIndex : Nat) (log : IndexedLog) (e : LogEntry) : Splice → Prop
  | covered (h : 0 < snapshotIndex) (he : e.index ≤ snapshotIndex) : SpliceStep snapshotIndex log e { log }
  | present {x : LogEntry} (hx : x ∈ log.entries) (hindex : x.index = e.index) (hterm : x.term = e.term) :
      SpliceStep snapshotIndex log e { log }
  | appended {log' : IndexedLog} (hnew : snapshotIndex = 0 ∨ snapshotIndex < e.index)
      (hfree : ∀ x ∈ log.entries, x.index ≠ e.index) (hlog : log.append e = .ok log') :
      SpliceStep snapshotIndex log e { log := log' }
  | refused (err : String) : SpliceStep snapshotIndex log e { log, error := some err }
  | replaced {x : LogEntry} {kept log' : IndexedLog} {truncations : List (Nat × List LogEntry)}
      (hnew : snapshotIndex = 0 ∨ snapshotIndex < e.index) (hx : x ∈ log.entries) (hindex : x.index = e.index)
      (hterm : x.term ≠ e.term) (hkept : log.truncateSuffix e.index = .ok kept) (hlog : kept.append e = .ok log') :
      SpliceStep snapshotIndex log e { log := log', truncations }
  | cut {x : LogEntry} {kept : IndexedLog} {truncations : List (Nat × List LogEntry)} (err : String)
      (hx : x ∈ log.entries) (hindex : x.index = e.index) (hterm : x.term ≠ e.term)
      (hkept : log.truncateSuffix e.index = .ok kept) :
      SpliceStep snapshotIndex log e { log := kept, truncations, error := some err }

theorem spliceEntry_step (snapshotIndex : Nat) {log : IndexedLog} (hordered : log.Ordered) (e : LogEntry) :
    SpliceStep snapshotIndex log e (spliceEntry snapshotIndex log e) := by
  unfold spliceEntry
  split
  · next hcovered => exact .covered hcovered.1 hcovered.2
  next hnew =>
  have hnew' : snapshotIndex = 0 ∨ snapshotIndex < e.index := by omega
  split
  · next err hread =>
    have hfree : ∀ x ∈ log.entries, x.index ≠ e.index := by
      intro x hx hindex
      rw [hordered.read_eq_ok.mpr ⟨hx, hindex⟩] at hread
      cases hread
    split
    · exact .refused _
    · next log' hlog => exact .appended hnew' hfree hlog
  · next x hread =>
    obtain ⟨hx, hindex⟩ := hordered.read_eq_ok.mp hread
    split
    · next hterm => exact .present hx hindex hterm
    next hterm =>
    split
    · exact .refused _
    next kept hkept =>
    dsimp only
    split
    · exact .cut _ hx hindex hterm hkept
    · next log' hlog => exact .replaced hnew' hx hindex hterm hkept hlog

/-- The entry loop keeps an entry if nothing at or before its index conflicts. -/
theorem mem_spliceEntries {snapshotIndex : Nat} {log : IndexedLog} {es : List LogEntry} {x : LogEntry}
    (hordered : log.Ordered) (hx : x ∈ log.entries)
    (hagree : ∀ e ∈ es, e.index ≤ x.index → (snapshotIndex = 0 ∨ snapshotIndex < e.index) →
      ∀ y ∈ log.entries, y.index = e.index → y.term = e.term) :
    x ∈ (spliceEntries snapshotIndex log es).log.entries := by
  induction es generalizing log with
  | nil => exact hx
  | cons e rest ih =>
    have hagree' : ∀ e' ∈ rest, e'.index ≤ x.index → (snapshotIndex = 0 ∨ snapshotIndex < e'.index) →
        ∀ y ∈ log.entries, y.index = e'.index → y.term = e'.term := fun e' he' => hagree e' (List.mem_cons_of_mem _ he')
    rw [spliceEntries]
    dsimp only
    by_cases hcovered : snapshotIndex > 0 ∧ e.index ≤ snapshotIndex
    · rw [spliceEntry, if_pos hcovered]
      exact ih hordered hx hagree'
    have hconflict : ∀ y ∈ log.entries, y.index = e.index → y.term ≠ e.term → x.index < e.index := by
      intro y hy hindex hterm
      by_contra hge
      exact hterm (hagree e List.mem_cons_self (by omega) (by omega) y hy hindex)
    have hstep := spliceEntry_step snapshotIndex hordered e
    generalize spliceEntry snapshotIndex log e = first at hstep ⊢
    cases hstep with
    | covered h he => exact absurd ⟨h, he⟩ hcovered
    | present hy hindex hterm => exact ih hordered hx hagree'
    | refused err => exact hx
    | appended hnew hfree hlog =>
      have hlt := hordered.lt_of_append hlog hx
      refine ih (hordered.append hlog) ((IndexedLog.mem_append hlog).mpr (.inl hx)) fun e' he' hle hnew' y hy hindex => ?_
      rcases (IndexedLog.mem_append hlog).mp hy with hy | rfl
      · exact hagree' e' he' hle hnew' y hy hindex
      · omega
    | replaced hnew hy hindex hterm hkept hlog =>
      have hlt := hconflict _ hy hindex hterm
      have hxkept := (hordered.mem_truncateSuffix hkept).mpr ⟨hx, hlt⟩
      refine ih ((hordered.truncateSuffix hkept).append hlog) ((IndexedLog.mem_append hlog).mpr (.inl hxkept))
        fun e' he' hle hnew' y hy hindex' => ?_
      rcases (IndexedLog.mem_append hlog).mp hy with hy | rfl
      · exact hagree' e' he' hle hnew' y ((hordered.mem_truncateSuffix hkept).mp hy).1 hindex'
      · omega
    | cut err hy hindex hterm hkept =>
      exact (hordered.mem_truncateSuffix hkept).mpr ⟨hx, hconflict _ hy hindex hterm⟩

theorem ordered_spliceEntries (snapshotIndex : Nat) {log : IndexedLog} (es : List LogEntry) (hordered : log.Ordered) :
    (spliceEntries snapshotIndex log es).log.Ordered := by
  induction es generalizing log with
  | nil => exact hordered
  | cons e rest ih =>
    have hstep := spliceEntry_step snapshotIndex hordered e
    rw [spliceEntries]
    dsimp only
    generalize spliceEntry snapshotIndex log e = first at hstep ⊢
    cases hstep with
    | covered h he => exact ih hordered
    | present hy hindex hterm => exact ih hordered
    | refused err => exact hordered
    | appended hnew hfree hlog => exact ih (hordered.append hlog)
    | replaced hnew hy hindex hterm hkept hlog => exact ih ((hordered.truncateSuffix hkept).append hlog)
    | cut err hy hindex hterm hkept => exact hordered.truncateSuffix hkept

/-- Behind the entry loop the log holds an entry of the request, or the one it held under that
index: then nothing up to there conflicts. -/
theorem spliced_mem {snapshotIndex : Nat} {log : IndexedLog} {es : List LogEntry} {e : LogEntry}
    (hordered : log.Ordered) (hsorted : es.Pairwise fun a b => a.index < b.index)
    (hok : (spliceEntries snapshotIndex log es).error = none) (he : e ∈ es)
    (hnew : snapshotIndex = 0 ∨ snapshotIndex < e.index) :
    e ∈ (spliceEntries snapshotIndex log es).log.entries ∨
      (∃ y ∈ log.entries, y.index = e.index ∧ y ∈ (spliceEntries snapshotIndex log es).log.entries) ∧
        ∀ d ∈ es, (snapshotIndex = 0 ∨ snapshotIndex < d.index) → d.index ≤ e.index →
          ∀ z ∈ log.entries, z.index = d.index → z.term = d.term := by
  induction es generalizing log with
  | nil => cases he
  | cons first rest ih =>
    obtain ⟨hlater, hsorted⟩ := List.pairwise_cons.mp hsorted
    have hbeyond : ∀ {log' : IndexedLog}, log'.Ordered → first ∈ log'.entries → (∀ y ∈ log'.entries, y.index ≤ first.index) →
        (spliceEntries snapshotIndex log' rest).error = none → e ∈ (spliceEntries snapshotIndex log' rest).log.entries := by
      intro log' hordered' hmem hle hok'
      rcases List.mem_cons.mp he with rfl | he
      · refine mem_spliceEntries hordered' hmem fun d hd hdle => ?_
        have := hlater d hd
        omega
      · rcases ih hordered' hsorted hok' he with h | ⟨⟨y, hy, hindex, -⟩, -⟩
        · exact h
        · have := hle y hy
          have := hlater e he
          omega
    have hstep := spliceEntry_step snapshotIndex hordered first
    rw [spliceEntries] at hok ⊢
    dsimp only at hok ⊢
    generalize spliceEntry snapshotIndex log first = splice at hstep hok ⊢
    cases hstep with
    | covered hpos hle =>
      have he : e ∈ rest := by
        rcases List.mem_cons.mp he with rfl | he
        · omega
        · exact he
      rcases ih hordered hsorted hok he with h | ⟨hheld, hagree⟩
      · exact .inl h
      · refine .inr ⟨hheld, fun d hd hdnew hdle => ?_⟩
        rcases List.mem_cons.mp hd with rfl | hd
        · omega
        · exact hagree d hd hdnew hdle
    | present hx hindex hterm =>
      rename_i x
      have hfirst : ∀ z ∈ log.entries, z.index = first.index → z.term = first.term := by
        intro z hz hzindex
        rw [hordered.eq_of_index hz hx (hzindex.trans hindex.symm)]
        exact hterm
      rcases List.mem_cons.mp he with rfl | he
      · refine .inr ⟨⟨x, hx, hindex, mem_spliceEntries hordered hx fun d hd hdle => ?_⟩, fun d hd hdnew hdle => ?_⟩
        · have := hlater d hd
          omega
        · rcases List.mem_cons.mp hd with rfl | hd
          · exact hfirst
          · have := hlater d hd
            omega
      · rcases ih hordered hsorted hok he with h | ⟨hheld, hagree⟩
        · exact .inl h
        · refine .inr ⟨hheld, fun d hd hdnew hdle => ?_⟩
          rcases List.mem_cons.mp hd with rfl | hd
          · exact hfirst
          · exact hagree d hd hdnew hdle
    | refused err => cases hok
    | appended hnew' hfree hlog =>
      refine .inl (hbeyond (hordered.append hlog) ((IndexedLog.mem_append hlog).mpr (.inr rfl)) ?_ hok)
      intro y hy
      rcases (IndexedLog.mem_append hlog).mp hy with hy | rfl
      · exact Nat.le_of_lt (hordered.lt_of_append hlog hy)
      · exact Nat.le_refl _
    | replaced hnew' hx hindex hterm hkept hlog =>
      have hordered' := hordered.truncateSuffix hkept
      refine .inl (hbeyond (hordered'.append hlog) ((IndexedLog.mem_append hlog).mpr (.inr rfl)) ?_ hok)
      intro y hy
      rcases (IndexedLog.mem_append hlog).mp hy with hy | rfl
      · exact Nat.le_of_lt (hordered'.lt_of_append hlog hy)
      · exact Nat.le_refl _
    | cut err hx hindex hterm hkept => cases hok

/-- The entry loop keeps the log joined and does not go below an index that no entry conflicts
with. -/
theorem joined_spliceEntries {snapshotIndex c next : Nat} {log : IndexedLog} {es : List LogEntry} (hordered : log.Ordered)
    (hjoined : log.Joined snapshotIndex) (hnumbered : es.map LogEntry.index = List.range' next es.length)
    (hnext : next ≤ max snapshotIndex log.lastIndex + 1) (hle : c ≤ max snapshotIndex log.lastIndex)
    (hconflict : ∀ e ∈ es, ∀ x ∈ log.entries, x.index = e.index → x.term ≠ e.term → c < e.index) :
    (spliceEntries snapshotIndex log es).log.Ordered ∧ (spliceEntries snapshotIndex log es).log.Joined snapshotIndex ∧
      c ≤ max snapshotIndex (spliceEntries snapshotIndex log es).log.lastIndex := by
  induction es generalizing log next with
  | nil => exact ⟨hordered, hjoined, hle⟩
  | cons e rest ih =>
    simp only [List.map_cons, List.length_cons, List.range'_succ, List.cons.injEq] at hnumbered
    obtain ⟨hindex, hrest⟩ := hnumbered
    have hlater : ∀ y ∈ rest, e.index < y.index := by
      intro y hy
      have hmem : y.index ∈ List.range' (next + 1) rest.length := hrest ▸ List.mem_map_of_mem hy
      have := (List.mem_range'_1.mp hmem).1
      omega
    have hrestconflict : ∀ y ∈ rest, ∀ x ∈ log.entries, x.index = y.index → x.term ≠ y.term → c < y.index :=
      fun y hy => hconflict y (List.mem_cons_of_mem _ hy)
    have hstep := spliceEntry_step snapshotIndex hordered e
    rw [spliceEntries]
    dsimp only
    generalize spliceEntry snapshotIndex log e = first at hstep ⊢
    cases hstep with
    | covered h he => exact ih hordered hjoined hrest (by omega) hle hrestconflict
    | present hx hxindex hterm =>
      have := hordered.le_last hx
      exact ih hordered hjoined hrest (by dsimp only; omega) hle hrestconflict
    | appended hnew hfree hlog =>
      have hlast := IndexedLog.lastIndex_append hlog
      have hgrows : log.lastIndex ≤ max snapshotIndex e.index := by
        by_cases hnil : log.entries = []
        · have := hjoined.lastIndex_le hnil
          omega
        · have := IndexedLog.index_of_append hlog hnil
          omega
      refine ih (hordered.append hlog) (hjoined.append hlog (by omega)) hrest (by dsimp only; omega)
        (by dsimp only; omega) ?_
      intro y hy x hx hxy hterm
      rcases (IndexedLog.mem_append hlog).mp hx with hx | rfl
      · exact hrestconflict y hy x hx hxy hterm
      · have := hlater y hy
        omega
    | refused err => exact ⟨hordered, hjoined, hle⟩
    | replaced hnew hx hxindex hterm hkept hlog =>
      have hc := hconflict e List.mem_cons_self _ hx hxindex hterm
      have hordered' := hordered.truncateSuffix hkept
      have hjoined' := hjoined.truncateSuffix hordered hkept
      have hlast := IndexedLog.lastIndex_append hlog
      have hpos := IndexedLog.pos_of_truncateSuffix hkept
      have hprev := hjoined.le_truncateSuffix hordered (c := e.index - 1) hkept (by omega) (by omega)
      refine ih (hordered'.append hlog) (hjoined'.append hlog (by omega)) hrest (by dsimp only; omega)
        (by dsimp only; omega) ?_
      intro y hy x hx hxy hterm
      rcases (IndexedLog.mem_append hlog).mp hx with hx | rfl
      · exact hrestconflict y hy x ((hordered.mem_truncateSuffix hkept).mp hx).1 hxy hterm
      · have := hlater y hy
        omega
    | cut err hx hxindex hterm hkept =>
      have hc := hconflict e List.mem_cons_self _ hx hxindex hterm
      exact ⟨hordered.truncateSuffix hkept, hjoined.truncateSuffix hordered hkept,
        hjoined.le_truncateSuffix hordered hkept hc hle⟩

end Node

end RaftVdb
