import Mathlib.Data.List.TakeDrop
import RaftVdb.LogEntry

/-!
# The write-ahead log as a list of entries

What the public methods of `WAL` do to the readable entries and to `LastIndex()` while
reading and writing files never fails. `TruncateBefore` removes whole segments, so the
first index it keeps is an input.
-/

namespace RaftVdb

structure IndexedLog where
  entries : List LogEntry := []
  lastIndex : Nat := 0
  deriving DecidableEq, Repr

namespace IndexedLog

def append (l : IndexedLog) (e : LogEntry) : Except String IndexedLog :=
  if l.entries ≠ [] ∧ e.index ≠ l.lastIndex + 1 then .error "WAL 追加的日志索引不连续"
  else .ok { entries := l.entries ++ [e], lastIndex := e.index }

def read (l : IndexedLog) (index : Nat) : Except String LogEntry :=
  match l.entries.find? fun e => e.index = index with
  | none => .error ("日志索引不存在: " ++ toString index)
  | some e => .ok e

def readFrom (l : IndexedLog) (fromIndex maxEntries : Nat) : Except String (List LogEntry) :=
  if maxEntries = 0 ∨ l.entries = [] ∨ fromIndex > l.lastIndex then .ok []
  else match l.read fromIndex with
    | .error _ => .error ("起始日志索引不存在: " ++ toString fromIndex)
    | .ok _ => .ok ((l.entries.filter fun e => fromIndex ≤ e.index).take maxEntries)

def termAt (l : IndexedLog) (index : Nat) : Except String Nat :=
  if index = 0 then .ok 0 else (l.read index).map LogEntry.term

def truncateSuffix (l : IndexedLog) (index : Nat) : Except String IndexedLog :=
  if index = 0 then .error "TruncateSuffix 失败: index 必须从 1 开始"
  else if l.entries = [] ∨ index > l.lastIndex then .ok l
  else
    let kept := l.entries.filter fun e => e.index < index
    .ok { entries := kept, lastIndex := kept.getLast?.elim (index - 1) LogEntry.index }

/-- Every index from one to another has an entry, as inside a segment. -/
def continues (l : IndexedLog) (first last : Nat) : Bool :=
  (List.range' first (last + 1 - first)).all fun i => l.entries.any fun e => e.index = i

/-- `TruncateBefore` removes the segments that end before `index`, which are all of them if
the log does. Of the smaller entries those in the segment of `index` stay, which are those
from `keepFrom` on. -/
def truncateBefore (l : IndexedLog) (index keepFrom : Nat) : IndexedLog :=
  if l.lastIndex < index then {}
  else
    let kept := l.entries.filter fun e => index ≤ e.index || (keepFrom ≤ e.index && l.continues e.index index)
    { entries := kept, lastIndex := kept.getLast?.elim 0 LogEntry.index }

/-- The entries have the indices 1, 2, and so on: nothing has been cut off at the front. -/
structure FromOne (l : IndexedLog) : Prop where
  last : l.lastIndex = l.entries.length
  index : ∀ i e, l.entries[i]? = some e → e.index = i + 1

/-- The indices increase, with gaps perhaps, and the last one is the last index. -/
structure Ordered (l : IndexedLog) : Prop where
  sorted : l.entries.Pairwise fun a b => a.index < b.index
  last : ∀ e ∈ l.entries.getLast?, l.lastIndex = e.index

variable {l : IndexedLog}

theorem continues_mono {first last i : Nat} (h : l.continues first last = true) (hi : first ≤ i) :
    l.continues i last = true := by
  simp only [continues, List.all_eq_true, List.mem_range'_1] at h ⊢
  intro j hj
  exact h j (by omega)

theorem Ordered.empty : Ordered {} := ⟨List.Pairwise.nil, fun e he => by cases he⟩

theorem Ordered.le_last (h : Ordered l) {e : LogEntry} (he : e ∈ l.entries) : e.index ≤ l.lastIndex := by
  obtain ⟨front, last, hsplit⟩ := (List.eq_nil_or_concat' l.entries).resolve_left (List.ne_nil_of_mem he)
  have hlast : l.lastIndex = last.index := h.last last (by rw [hsplit, List.getLast?_concat]; rfl)
  have hsorted := h.sorted
  rw [hsplit, List.pairwise_append] at hsorted
  rw [hsplit] at he
  rcases List.mem_append.mp he with he | he
  · have hlt := hsorted.2.2 e he last List.mem_cons_self
    omega
  · obtain rfl := List.mem_singleton.mp he
    omega

theorem mem_of_read {i : Nat} {e : LogEntry} (h : l.read i = .ok e) : e ∈ l.entries ∧ e.index = i := by
  unfold read at h
  split at h
  · cases h
  · next x hx =>
    cases h
    exact ⟨List.mem_of_find?_eq_some hx, by simpa using List.find?_some hx⟩

/-- Among increasing indices the first entry of an index is the only one. -/
theorem read_of_sorted (h : l.entries.Pairwise fun a b => a.index < b.index) {e : LogEntry} (he : e ∈ l.entries) :
    l.read e.index = .ok e := by
  have hfind : (l.entries.find? fun x => decide (x.index = e.index)) = some e := by
    obtain ⟨front, rear, hsplit⟩ := List.append_of_mem he
    rw [hsplit, List.pairwise_append] at h
    rw [hsplit, List.find?_append, List.find?_eq_none.mpr, Option.none_or, List.find?_cons_of_pos (by simp)]
    intro x hx
    have hlt := h.2.2 x hx e List.mem_cons_self
    simp only [decide_eq_true_eq]
    omega
  rw [read, hfind]

/-- In such a log an index is read back if it is there. -/
theorem Ordered.read_eq_ok (h : Ordered l) {i : Nat} {e : LogEntry} : l.read i = .ok e ↔ e ∈ l.entries ∧ e.index = i := by
  constructor
  · exact mem_of_read
  · rintro ⟨he, rfl⟩
    exact read_of_sorted h.sorted he

theorem read_of_termAt {i t : Nat} (hi : i ≠ 0) (h : l.termAt i = .ok t) : ∃ e, l.read i = .ok e ∧ e.term = t := by
  rw [termAt, if_neg hi] at h
  cases hread : l.read i with
  | error err =>
    rw [hread] at h
    cases h
  | ok e =>
    rw [hread] at h
    cases h
    exact ⟨e, rfl, rfl⟩

theorem read_of_forall_ne {i : Nat} (h : ∀ e ∈ l.entries, e.index ≠ i) :
    l.read i = .error ("日志索引不存在: " ++ toString i) := by
  have hnone : (l.entries.find? fun e => e.index = i) = none := by
    rw [List.find?_eq_none]
    intro e he
    simpa using h e he
  rw [read, hnone]

/-- What an index reads as depends on the entries of that index only. -/
theorem read_congr {l l' : IndexedLog} (h : l.entries.Pairwise fun a b => a.index < b.index)
    (h' : l'.entries.Pairwise fun a b => a.index < b.index) {i : Nat}
    (hmem : ∀ e, e.index = i → (e ∈ l.entries ↔ e ∈ l'.entries)) : l.read i = l'.read i := by
  cases hread : l'.read i with
  | ok e =>
    obtain ⟨he, rfl⟩ := mem_of_read hread
    exact read_of_sorted h ((hmem e rfl).mpr he)
  | error err =>
    have hnone : ∀ e ∈ l'.entries, e.index ≠ i := by
      rintro e he rfl
      rw [read_of_sorted h' he] at hread
      cases hread
    rw [← hread, read_of_forall_ne hnone, read_of_forall_ne fun e he hindex => hnone e ((hmem e hindex).mp he) hindex]

theorem Ordered.append (h : Ordered l) {e : LogEntry} {l' : IndexedLog} (hl : l.append e = .ok l') : Ordered l' := by
  unfold IndexedLog.append at hl
  split at hl
  · cases hl
  next hnext =>
  cases hl
  refine ⟨?_, fun x hx => ?_⟩
  · rw [List.pairwise_append]
    refine ⟨h.sorted, List.pairwise_singleton _ _, fun x hx y hy => ?_⟩
    obtain rfl := List.mem_singleton.mp hy
    have hle := h.le_last hx
    have hindex : y.index = l.lastIndex + 1 := by
      by_contra hne
      exact hnext ⟨List.ne_nil_of_mem hx, hne⟩
    omega
  · rw [List.getLast?_concat] at hx
    cases hx
    rfl

/-- What is left of such a log is one. -/
theorem Ordered.filter (h : Ordered l) (p : LogEntry → Bool) (k : Nat) :
    Ordered ⟨l.entries.filter p, (l.entries.filter p).getLast?.elim k LogEntry.index⟩ := by
  refine ⟨h.sorted.filter p, fun e he => ?_⟩
  rw [Option.mem_def.mp he]
  rfl

theorem mem_append {e x : LogEntry} {l' : IndexedLog} (hl : l.append e = .ok l') :
    x ∈ l'.entries ↔ x ∈ l.entries ∨ x = e := by
  unfold IndexedLog.append at hl
  split at hl
  · cases hl
  · cases hl
    simp

theorem Ordered.read_append_of_ne (h : Ordered l) {e : LogEntry} {l' : IndexedLog} (hl : l.append e = .ok l') {i : Nat}
    (hi : i ≠ e.index) : l'.read i = l.read i := by
  refine read_congr (h.append hl).sorted h.sorted fun x hx => ?_
  rw [mem_append hl]
  refine ⟨fun hmem => hmem.resolve_right ?_, .inl⟩
  rintro rfl
  exact hi hx.symm

/-- An append leaves the terms of the other indices alone. -/
theorem termAt_append_of_ne (h : Ordered l) {e : LogEntry} {l' : IndexedLog} (hl : l.append e = .ok l') {i : Nat}
    (hi : i ≠ e.index) : l'.termAt i = l.termAt i := by
  rw [termAt, termAt, h.read_append_of_ne hl hi]

theorem Ordered.truncateSuffix (h : Ordered l) {index : Nat} {l' : IndexedLog} (hl : l.truncateSuffix index = .ok l') :
    Ordered l' := by
  unfold IndexedLog.truncateSuffix at hl
  split at hl
  · cases hl
  split at hl
  · cases hl
    exact h
  · cases hl
    exact h.filter _ _

theorem Ordered.mem_truncateSuffix (h : Ordered l) {index : Nat} {l' : IndexedLog} {x : LogEntry}
    (hl : l.truncateSuffix index = .ok l') : x ∈ l'.entries ↔ x ∈ l.entries ∧ x.index < index := by
  unfold IndexedLog.truncateSuffix at hl
  split at hl
  · cases hl
  split at hl
  · next hshort =>
    cases hl
    refine ⟨fun hx => ⟨hx, ?_⟩, And.left⟩
    rcases hshort with hnil | hlt
    · rw [hnil] at hx
      cases hx
    · have hle := h.le_last hx
      omega
  · cases hl
    simp

theorem Ordered.read_truncateSuffix_of_lt (h : Ordered l) {index : Nat} {l' : IndexedLog}
    (hl : l.truncateSuffix index = .ok l') {i : Nat} (hi : i < index) : l'.read i = l.read i := by
  refine read_congr (h.truncateSuffix hl).sorted h.sorted fun x hx => ?_
  rw [h.mem_truncateSuffix hl]
  exact ⟨And.left, fun hmem => ⟨hmem, by omega⟩⟩

theorem Ordered.truncateBefore (h : Ordered l) (index keepFrom : Nat) : Ordered (l.truncateBefore index keepFrom) := by
  unfold IndexedLog.truncateBefore
  split
  · exact .empty
  · exact h.filter _ _

/-- Nothing from the index on goes. -/
theorem Ordered.mem_truncateBefore (h : Ordered l) {index : Nat} (keepFrom : Nat) {x : LogEntry} (hx : index ≤ x.index) :
    x ∈ (l.truncateBefore index keepFrom).entries ↔ x ∈ l.entries := by
  unfold IndexedLog.truncateBefore
  split
  · next hlt =>
    refine ⟨fun hmem => (List.not_mem_nil hmem).elim, fun hmem => ?_⟩
    have hle := h.le_last hmem
    omega
  · simp [hx]

theorem mem_of_mem_truncateBefore {index keepFrom : Nat} {x : LogEntry}
    (hx : x ∈ (l.truncateBefore index keepFrom).entries) : x ∈ l.entries := by
  unfold IndexedLog.truncateBefore at hx
  split at hx
  · cases hx
  · exact List.mem_of_mem_filter hx

theorem FromOne.empty : FromOne {} := ⟨rfl, fun i e he => by simp at he⟩

theorem FromOne.of_take (h : FromOne l) {k : Nat} (hk : k ≤ l.entries.length) : FromOne ⟨l.entries.take k, k⟩ := by
  refine ⟨(List.length_take_of_le hk).symm, fun i e he => h.index i e ?_⟩
  rw [List.getElem?_take] at he
  split at he
  · exact he
  · cases he

theorem FromOne.concat (h : FromOne l) {e : LogEntry} (he : e.index = l.entries.length + 1) :
    FromOne ⟨l.entries ++ [e], e.index⟩ := by
  refine ⟨by simp [he], fun i x hx => ?_⟩
  rcases Nat.lt_or_ge i l.entries.length with hi | hi
  · rw [List.getElem?_append_left hi] at hx
    exact h.index i x hx
  · rw [List.getElem?_append_right hi, List.getElem?_singleton] at hx
    split at hx
    · cases hx
      omega
    · cases hx

/-- In such a log an index is a position. -/
theorem FromOne.find?_index (h : FromOne l) (i : Nat) : (l.entries.find? fun e => e.index = i + 1) = l.entries[i]? := by
  cases he : l.entries[i]? with
  | some e =>
    obtain ⟨hi, hget⟩ := List.getElem?_eq_some_iff.mp he
    rw [List.find?_eq_some_iff_getElem]
    refine ⟨by simp [h.index i e he], i, hi, hget, fun j hj => ?_⟩
    have hindex := h.index j _ (List.getElem?_eq_getElem (Nat.lt_trans hj hi))
    simp only [hindex]
    simp
    omega
  | none =>
    rw [List.find?_eq_none]
    intro e hmem hindex
    obtain ⟨j, hj⟩ := List.mem_iff_getElem?.mp hmem
    have hji := h.index j e hj
    simp only [decide_eq_true_eq] at hindex
    obtain rfl : j = i := by omega
    rw [he] at hj
    cases hj

theorem FromOne.read_eq_ok (h : FromOne l) {i : Nat} {e : LogEntry} : l.read (i + 1) = .ok e ↔ l.entries[i]? = some e := by
  unfold read
  rw [h.find?_index]
  cases l.entries[i]? <;> simp

theorem FromOne.read_error (h : FromOne l) {i : Nat} (hi : l.entries.length ≤ i) : ∃ err, l.read (i + 1) = .error err := by
  unfold read
  rw [h.find?_index, List.getElem?_eq_none hi]
  exact ⟨_, rfl⟩

theorem FromOne.read_zero (h : FromOne l) : ∃ err, l.read 0 = .error err := by
  unfold read
  have hnone : (l.entries.find? fun e => e.index = 0) = none := by
    rw [List.find?_eq_none]
    intro e hmem hindex
    obtain ⟨j, hj⟩ := List.mem_iff_getElem?.mp hmem
    have hj' := h.index j e hj
    simp only [decide_eq_true_eq] at hindex
    omega
  rw [hnone]
  exact ⟨_, rfl⟩

theorem FromOne.termAt_eq_ok (h : FromOne l) {i t : Nat} :
    l.termAt (i + 1) = .ok t ↔ ∃ e, l.entries[i]? = some e ∧ e.term = t := by
  unfold termAt
  rw [if_neg (Nat.succ_ne_zero i)]
  cases he : l.entries[i]? with
  | some e =>
    rw [h.read_eq_ok.mpr he]
    simp [Except.map]
  | none =>
    obtain ⟨err, herr⟩ := h.read_error (List.getElem?_eq_none_iff.mp he)
    rw [herr]
    simp [Except.map]

theorem FromOne.append_eq (h : FromOne l) {e : LogEntry} (he : e.index = l.entries.length + 1) :
    l.append e = .ok ⟨l.entries ++ [e], e.index⟩ := by
  unfold append
  rw [if_neg]
  rintro ⟨-, hne⟩
  exact hne (by rw [h.last, he])

/-- What `append` returns when it succeeds. -/
theorem append_eq_ok {e : LogEntry} {l' : IndexedLog} (h : l.append e = .ok l') :
    l' = ⟨l.entries ++ [e], e.index⟩ := by
  unfold append at h
  split at h
  · cases h
  · cases h
    rfl

theorem FromOne.index_le_of_mem_take (h : FromOne l) {k : Nat} {e : LogEntry} (he : e ∈ l.entries.take k) :
    e.index ≤ k := by
  obtain ⟨j, hj⟩ := List.mem_iff_getElem?.mp he
  rw [List.getElem?_take] at hj
  split at hj
  · next hlt =>
    rw [h.index j e hj]
    exact hlt
  · cases hj

theorem FromOne.lt_index_of_mem_drop (h : FromOne l) {k : Nat} {e : LogEntry} (he : e ∈ l.entries.drop k) :
    k < e.index := by
  obtain ⟨j, hj⟩ := List.mem_iff_getElem?.mp he
  rw [List.getElem?_drop] at hj
  rw [h.index _ e hj]
  omega

/-- A filter that keeps the entries up to an index, or those behind it. -/
theorem FromOne.filter_eq (h : FromOne l) (k : Nat) :
    (l.entries.filter fun e => e.index < k + 1) = l.entries.take k ∧
    (l.entries.filter fun e => k + 1 ≤ e.index) = l.entries.drop k := by
  have hsplit : ∀ f : LogEntry → Bool, l.entries.filter f = (l.entries.take k).filter f ++ (l.entries.drop k).filter f := by
    intro f
    rw [← List.filter_append, List.take_append_drop]
  constructor
  · rw [hsplit, List.filter_eq_self.mpr, List.filter_eq_nil_iff.mpr, List.append_nil]
    · intro e he
      have := h.lt_index_of_mem_drop he
      simp only [decide_eq_true_eq]
      omega
    · intro e he
      have := h.index_le_of_mem_take he
      simp only [decide_eq_true_eq]
      omega
  · rw [hsplit, List.filter_eq_nil_iff.mpr, List.nil_append, List.filter_eq_self.mpr]
    · intro e he
      have := h.lt_index_of_mem_drop he
      simp only [decide_eq_true_eq]
      omega
    · intro e he
      have := h.index_le_of_mem_take he
      simp only [decide_eq_true_eq]
      omega

theorem FromOne.truncateSuffix_eq (h : FromOne l) {k : Nat} (hk : k < l.entries.length) :
    l.truncateSuffix (k + 1) = .ok ⟨l.entries.take k, k⟩ := by
  unfold truncateSuffix
  rw [if_neg (Nat.succ_ne_zero k), if_neg]
  · dsimp only
    rw [(h.filter_eq k).1]
    congr 2
    cases k with
    | zero => simp
    | succ j =>
      have hlast : (l.entries.take (j + 1)).getLast? = l.entries[j]? := by
        rw [List.getLast?_eq_getElem?, List.length_take_of_le (Nat.le_of_lt hk)]
        simp
      rw [hlast, List.getElem?_eq_getElem (by omega)]
      exact h.index j _ (List.getElem?_eq_getElem (by omega))
  · rintro (hnil | hgt)
    · rw [hnil] at hk
      cases hk
    · rw [h.last] at hgt
      omega

/-- What `readFrom` returns, with an error read as nothing. -/
theorem FromOne.readFrom_getD (h : FromOne l) (fromIndex maxEntries : Nat) :
    (l.readFrom fromIndex maxEntries).toOption.getD [] = [] ∨
    (0 < fromIndex ∧ (l.readFrom fromIndex maxEntries).toOption.getD [] =
      (l.entries.drop (fromIndex - 1)).take maxEntries) := by
  unfold readFrom
  split
  · exact .inl rfl
  · split
    · exact .inl rfl
    · next e he =>
      cases fromIndex with
      | zero =>
        obtain ⟨err, herr⟩ := h.read_zero
        rw [herr] at he
        cases he
      | succ k =>
        refine .inr ⟨Nat.succ_pos k, ?_⟩
        rw [(h.filter_eq k).2]
        rfl

end IndexedLog

/-- If there is an entry below the index then there is one at it. -/
def Anchored (entries : List LogEntry) (k : Nat) : Prop := ∀ e ∈ entries, e.index < k → ∃ x ∈ entries, x.index = k

instance (entries : List LogEntry) (k : Nat) : Decidable (Anchored entries k) :=
  inferInstanceAs (Decidable (∀ e ∈ entries, e.index < k → ∃ x ∈ entries, x.index = k))

namespace Anchored

variable {entries : List LogEntry} {k : Nat} {l : IndexedLog}

theorem nil (k : Nat) : Anchored [] k := fun e he => by cases he

theorem zero (entries : List LogEntry) : Anchored entries 0 := fun e _ hlt => by omega

theorem of_mem {x : LogEntry} (hx : x ∈ entries) : Anchored entries x.index := fun _ _ _ => ⟨x, hx, rfl⟩

theorem concat (h : Anchored entries k) {e : LogEntry} (he : k ≤ e.index) : Anchored (entries ++ [e]) k := by
  intro y hy hlt
  have hy' : y ∈ entries := by
    rcases List.mem_append.mp hy with hy | hy
    · exact hy
    · obtain rfl := List.mem_singleton.mp hy
      omega
  obtain ⟨x, hx, hindex⟩ := h y hy' hlt
  exact ⟨x, List.mem_append_left _ hx, hindex⟩

/-- What keeps the entry at the index keeps the anchor. -/
theorem filter (h : Anchored entries k) {p : LogEntry → Bool}
    (hp : ∀ e x : LogEntry, p e = true → e.index < k → x.index = k → p x = true) : Anchored (entries.filter p) k := by
  intro e he hlt
  obtain ⟨hmem, hpe⟩ := List.mem_filter.mp he
  obtain ⟨x, hx, hindex⟩ := h e hmem hlt
  exact ⟨x, List.mem_filter.mpr ⟨hx, hp e x hpe hlt hindex⟩, hindex⟩

theorem append (h : Anchored l.entries k) {e : LogEntry} (he : k ≤ e.index) {l' : IndexedLog}
    (hl : l.append e = .ok l') : Anchored l'.entries k := by
  rw [IndexedLog.append_eq_ok hl]
  exact h.concat he

theorem truncateSuffix (h : Anchored l.entries k) (hordered : l.Ordered) {index : Nat} (hk : k < index) {l' : IndexedLog}
    (hl : l.truncateSuffix index = .ok l') : Anchored l'.entries k := by
  intro e he hlt
  obtain ⟨x, hx, hindex⟩ := h e ((hordered.mem_truncateSuffix hl).mp he).1 hlt
  exact ⟨x, (hordered.mem_truncateSuffix hl).mpr ⟨hx, by omega⟩, hindex⟩

/-- Segments are whole: whatever is left below the index of a truncation reaches up to it. -/
theorem truncateBefore_of_le {index : Nat} (hk : k ≤ index) (keepFrom : Nat) :
    Anchored (l.truncateBefore index keepFrom).entries k := by
  unfold IndexedLog.truncateBefore
  split
  · exact .nil k
  intro e he hlt
  simp only [List.mem_filter, Bool.or_eq_true, Bool.and_eq_true, decide_eq_true_eq] at he ⊢
  obtain ⟨-, hge | ⟨hfrom, hcont⟩⟩ := he
  · omega
  have hhas := hcont
  simp only [IndexedLog.continues, List.all_eq_true, List.mem_range'_1, List.any_eq_true, decide_eq_true_eq] at hhas
  obtain ⟨x, hx, hindex⟩ := hhas k (by omega)
  exact ⟨x, ⟨hx, .inr ⟨by omega, IndexedLog.continues_mono hcont (by omega)⟩⟩, hindex⟩

theorem truncateBefore (h : Anchored l.entries k) (hordered : l.Ordered) (index keepFrom : Nat) :
    Anchored (l.truncateBefore index keepFrom).entries k := by
  rcases Nat.le_total k index with hk | hk
  · exact truncateBefore_of_le hk keepFrom
  intro e he hlt
  obtain ⟨x, hx, hindex⟩ := h e (IndexedLog.mem_of_mem_truncateBefore he) hlt
  exact ⟨x, (hordered.mem_truncateBefore keepFrom (by omega)).mpr hx, hindex⟩

/-- An anchored WAL does not end below the index. -/
theorem le_lastIndex (h : Anchored l.entries k) (hordered : l.Ordered) : l.entries = [] ∨ k ≤ l.lastIndex := by
  refine (List.eq_nil_or_concat' l.entries).imp_right ?_
  rintro ⟨front, e, hsplit⟩
  have he : e ∈ l.entries := by rw [hsplit]; simp
  have hlast := hordered.le_last he
  rcases Nat.lt_or_ge e.index k with hlt | hge
  · obtain ⟨x, hx, rfl⟩ := h e he hlt
    exact hordered.le_last hx
  · omega

end Anchored

end RaftVdb
