import RaftVdb.InstallFaults

/-!
# The text of `snapshot.meta`

`SaveToFile` writes a JSON object with one field to a line. `LoadFromFile` is no JSON
parser: it looks for the first place in the text where the quoted name of a field stands,
and takes what follows the next colon. A character stands for a byte of the file.
-/

namespace RaftVdb

namespace StoredMeta

/-! ## Writing -/

def escapeChar : Char → List Char
  | '\\' => ['\\', '\\']
  | '"' => ['\\', '"']
  | '\n' => ['\\', 'n']
  | '\r' => ['\\', 'r']
  | '\t' => ['\\', 't']
  | ch => [ch]

def escapeJson (input : List Char) : List Char := input.flatMap escapeChar

def quoted (value : String) : List Char := '"' :: (escapeJson value.toList ++ ['"'])

def line (name : String) (value : List Char) (ending : String) : List Char :=
  "  \"".toList ++ name.toList ++ "\": ".toList ++ value ++ ending.toList

/-- What `SaveToFile` writes, with the time at which it does. -/
def text (m : StoredMeta) (created : String) : List Char :=
  "\x7b\n".toList ++
    line "raft_term" (Nat.toDigits 10 m.header.raftTerm) ",\n" ++
    line "raft_index" (Nat.toDigits 10 m.header.raftIndex) ",\n" ++
    line "dim" (Nat.toDigits 10 m.header.dim) ",\n" ++
    line "metric" (quoted m.header.metric) ",\n" ++
    line "data_type" (quoted m.header.dataType) ",\n" ++
    line "created_at" (quoted created) "\n" ++
    "\x7d\n".toList

/-- `CurrentUtcIso8601` is `now`. -/
def saveToFile (m : StoredMeta) (now : String) : Except String (List Char) :=
  match m.check with
  | .error err => .error err
  | .ok () => .ok (m.text (if m.createdAt = "" then now else m.createdAt))

/-! ## Reading -/

def unescapeChar : Char → Option Char
  | '\\' => some '\\'
  | '"' => some '"'
  | 'n' => some '\n'
  | 'r' => some '\r'
  | 't' => some '\t'
  | _ => none

def unescapeJson : List Char → Except String (List Char)
  | [] => .ok []
  | ch :: rest =>
    if ch ≠ '\\' then (unescapeJson rest).map (ch :: ·)
    else match rest with
      | [] => .error "JSON 字符串转义不完整"
      | escaped :: rest =>
        match unescapeChar escaped with
        | none => .error "JSON 包含不支持的转义字符"
        | some ch => (unescapeJson rest).map (ch :: ·)

/-- What follows the first place where the pattern stands. -/
def findAfter (pattern : List Char) : List Char → Option (List Char)
  | [] => if pattern = [] then some [] else none
  | c :: rest => if pattern <+: c :: rest then some ((c :: rest).drop pattern.length) else findAfter pattern rest

def isSpace (c : Char) : Bool := c = ' ' || c = '\t' || c = '\n' || c = '\x0b' || c = '\x0c' || c = '\r'

/-- The text from the value of a field on. -/
def findJsonValueStart (json : List Char) (key : String) : Except String (List Char) :=
  match findAfter ('"' :: (key.toList ++ ['"'])) json with
  | none => .error ("snapshot.meta 缺少字段: " ++ key)
  | some rest => match rest.dropWhile (· ≠ ':') with
    | [] => .error ("snapshot.meta 字段格式非法: " ++ key)
    | _ :: value => match value.dropWhile isSpace with
      | [] => .error ("snapshot.meta 字段值缺失: " ++ key)
      | c :: value => .ok (c :: value)

/-- The text of a string up to the quote that closes it. -/
def rawString (escaping : Bool) : List Char → Option (List Char)
  | [] => none
  | ch :: rest =>
    if escaping = false ∧ ch = '"' then some []
    else (rawString (escaping = false ∧ ch = '\\') rest).map (ch :: ·)

def parseJsonString (json : List Char) (key : String) : Except String String :=
  match findJsonValueStart json key with
  | .error err => .error err
  | .ok [] => .error ("snapshot.meta 字段值缺失: " ++ key)
  | .ok (c :: value) =>
    if c ≠ '"' then .error ("snapshot.meta 字符串字段格式非法: " ++ key)
    else match rawString false value with
      | none => .error ("snapshot.meta 字符串未正确闭合: " ++ key)
      | some raw => (unescapeJson raw).map String.ofList

/-- `ParseJsonUnsigned` for a type of `bits` bits; `std::stoull` reads 64 of them. -/
def parseJsonUnsigned (bits : Nat) (json : List Char) (key : String) : Except String Nat :=
  match findJsonValueStart json key with
  | .error err => .error err
  | .ok value =>
    let digits := value.takeWhile Char.isDigit
    if digits = [] then .error ("snapshot.meta 数字字段格式非法: " ++ key)
    else
      let n := Nat.ofDigitChars 10 digits 0
      if n < 2 ^ 64 then .ok (n % 2 ^ bits) else .error ("snapshot.meta 数字字段超出范围: " ++ key)

def toLower (value : String) : String := String.ofList (value.toList.map Char.toLower)

def loadFromFile (json : List Char) : Except String StoredMeta :=
  match parseJsonUnsigned 64 json "raft_term" with
  | .error err => .error err
  | .ok raftTerm => match parseJsonUnsigned 64 json "raft_index" with
    | .error err => .error err
    | .ok raftIndex => match parseJsonUnsigned 32 json "dim" with
      | .error err => .error err
      | .ok dim => match parseJsonString json "metric" with
        | .error err => .error err
        | .ok metric => match parseJsonString json "data_type" with
          | .error err => .error err
          | .ok dataType => match parseJsonString json "created_at" with
            | .error err => .error err
            | .ok createdAt => .ok
              { header := { raftTerm, raftIndex, dim, metric := toLower metric, dataType := toLower dataType }
                createdAt }

/-! ## Escapes -/

/-- The characters of the field names. -/
def plainChar (c : Char) : Bool := c.isLower || c = '_'

theorem escapeChar_cases (c : Char) :
    (∃ e, escapeChar c = ['\\', e] ∧ plainChar c = false ∧ (e = '"' → c = '"') ∧ unescapeChar e = some c) ∨
    (escapeChar c = [c] ∧ c ≠ '"' ∧ c ≠ '\\') := by
  unfold escapeChar
  split
  · exact .inl ⟨'\\', rfl, by decide, by decide, rfl⟩
  · exact .inl ⟨'"', rfl, by decide, by decide, rfl⟩
  · exact .inl ⟨'n', rfl, by decide, by decide, rfl⟩
  · exact .inl ⟨'r', rfl, by decide, by decide, rfl⟩
  · exact .inl ⟨'t', rfl, by decide, by decide, rfl⟩
  · next hslash hquote _ _ _ => exact .inr ⟨rfl, hquote, hslash⟩

theorem escapeJson_cons (c : Char) (s : List Char) : escapeJson (c :: s) = escapeChar c ++ escapeJson s :=
  List.flatMap_cons

/-- Escapes are undone. -/
theorem unescapeJson_escapeJson (s : List Char) : unescapeJson (escapeJson s) = .ok s := by
  induction s with
  | nil => rfl
  | cons c s ih =>
    rw [escapeJson_cons]
    cases escapeChar_cases c with
    | inl hescaped =>
      obtain ⟨e, he, -, -, hback⟩ := hescaped
      rw [he, List.cons_append, List.singleton_append, unescapeJson]
      simp only [ne_eq, not_true_eq_false, if_false, hback, ih]
      rfl
    | inr hplain =>
      obtain ⟨he, -, hslash⟩ := hplain
      rw [he, List.singleton_append, unescapeJson.eq_def]
      simp only [ne_eq, hslash, not_false_eq_true, if_true, ih]
      rfl

/-- A string ends at the quote behind its escaped text. -/
theorem rawString_escapeJson (s rest : List Char) :
    rawString false (escapeJson s ++ '"' :: rest) = some (escapeJson s) := by
  induction s with
  | nil => simp [escapeJson, rawString]
  | cons c s ih =>
    rw [escapeJson_cons]
    cases escapeChar_cases c with
    | inl hescaped =>
      obtain ⟨e, he, -, -, -⟩ := hescaped
      simp [he, rawString, ih]
    | inr hplain =>
      obtain ⟨he, hquote, hslash⟩ := hplain
      simp [he, rawString, hquote, hslash, ih]

/-! ## Searching -/

/-- The name of a field: it has no quote and starts with none of `,`, `:`. -/
structure Name (key : List Char) : Prop where
  nonempty : key ≠ []
  plain : ∀ c ∈ key, plainChar c = true

instance (key : List Char) : Decidable (Name key) :=
  decidable_of_iff (key.isEmpty = false ∧ key.all plainChar = true)
    ⟨fun h => ⟨List.isEmpty_eq_false_iff.mp h.1, List.all_eq_true.mp h.2⟩,
      fun h => ⟨List.isEmpty_eq_false_iff.mpr h.nonempty, List.all_eq_true.mpr h.plain⟩⟩

variable {key name : List Char} {rest : List Char}

theorem Name.quote_not_mem (h : Name key) : '"' ∉ key := fun hmem => absurd (h.plain _ hmem) (by decide)

/-- A name with its closing quote does not start like this. -/
theorem Name.not_prefix (h : Name key) {c : Char} (hc : plainChar c = false) : ¬ key ++ ['"'] <+: c :: rest := by
  cases key with
  | nil => exact absurd rfl h.nonempty
  | cons k key =>
    intro hpre
    have hk := h.plain k List.mem_cons_self
    rw [List.cons_append, List.cons_prefix_cons] at hpre
    rw [hpre.1, hc] at hk
    cases hk

/-- An unescaped name in quotes is the whole of an escaped string. -/
theorem plain_prefix_iff (hplain : ∀ c ∈ key, plainChar c = true) (s : List Char) :
    key ++ ['"'] <+: escapeJson s ++ '"' :: rest ↔ s = key := by
  induction s generalizing key with
  | nil =>
    cases key with
    | nil => simp [escapeJson]
    | cons k key =>
      have hk := hplain k List.mem_cons_self
      refine iff_of_false (fun hpre => ?_) (by simp)
      rw [List.cons_append] at hpre
      have heq : k = '"' := (List.cons_prefix_cons.mp hpre).1
      rw [heq] at hk
      exact absurd hk (by decide)
  | cons c s ih =>
    rw [escapeJson_cons]
    cases escapeChar_cases c with
    | inl hescaped =>
      obtain ⟨e, he, hc, -, -⟩ := hescaped
      cases key with
      | nil => simp [he]
      | cons k key =>
        have hk := hplain k List.mem_cons_self
        refine iff_of_false (fun hpre => ?_) fun heq => ?_
        · rw [he, List.cons_append] at hpre
          have heq : k = '\\' := (List.cons_prefix_cons.mp hpre).1
          rw [heq] at hk
          exact absurd hk (by decide)
        · rw [(List.cons.inj heq).1, hk] at hc
          cases hc
    | inr hself =>
      obtain ⟨he, hquote, -⟩ := hself
      cases key with
      | nil => simp [he, Ne.symm hquote]
      | cons k key =>
        rw [he, List.cons_append, List.singleton_append, List.cons_append, List.cons_prefix_cons,
          ih fun x hx => hplain x (List.mem_cons_of_mem k hx)]
        simp [eq_comm]

theorem escapeJson_of_plain {s : List Char} (hplain : ∀ c ∈ s, plainChar c = true) : escapeJson s = s := by
  induction s with
  | nil => rfl
  | cons c s ih =>
    rw [escapeJson_cons, ih fun x hx => hplain x (List.mem_cons_of_mem c hx)]
    cases escapeChar_cases c with
    | inl hescaped =>
      obtain ⟨e, -, hc, -, -⟩ := hescaped
      rw [hplain c List.mem_cons_self] at hc
      cases hc
    | inr hself => rw [hself.1, List.singleton_append]

theorem findAfter_cons_of_ne {c : Char} (hc : c ≠ '"') (s : List Char) :
    findAfter ('"' :: (key ++ ['"'])) (c :: s) = findAfter ('"' :: (key ++ ['"'])) s := by
  rw [findAfter, if_neg]
  rw [List.cons_prefix_cons]
  exact fun h => hc h.1.symm

theorem findAfter_quote (s : List Char) :
    findAfter ('"' :: (key ++ ['"'])) ('"' :: s) =
      if key ++ ['"'] <+: s then some (s.drop (key.length + 1)) else findAfter ('"' :: (key ++ ['"'])) s := by
  rw [findAfter]
  simp only [List.cons_prefix_cons, true_and, List.length_cons, List.length_append, List.length_nil,
    List.drop_succ_cons]

/-- Text without a quote is passed over. -/
theorem findAfter_append {s : List Char} (hs : '"' ∉ s) (t : List Char) :
    findAfter ('"' :: (key ++ ['"'])) (s ++ t) = findAfter ('"' :: (key ++ ['"'])) t := by
  induction s with
  | nil => rfl
  | cons c s ih =>
    rw [List.cons_append, findAfter_cons_of_ne (fun heq => hs (heq ▸ List.mem_cons_self))]
    exact ih fun hmem => hs (List.mem_cons_of_mem c hmem)

/-- The search stops in an escaped string only where it ends like a quoted name. -/
theorem findAfter_escapeJson (hkey : Name key) (s : List Char) (hrest : ¬ key ++ ['"'] <+: rest) :
    findAfter ('"' :: (key ++ ['"'])) (escapeJson s ++ '"' :: rest) =
      if '"' :: key <:+ s then some rest else findAfter ('"' :: (key ++ ['"'])) rest := by
  induction s with
  | nil =>
    rw [if_neg (by simp)]
    simp only [escapeJson, List.flatMap_nil, List.nil_append]
    rw [findAfter_quote, if_neg hrest]
  | cons c s ih =>
    rw [escapeJson_cons, List.append_assoc]
    simp only [List.suffix_cons_iff]
    by_cases hquote : c = '"'
    · rw [hquote]
      change findAfter _ ('\\' :: '"' :: (escapeJson s ++ '"' :: rest)) = _
      rw [findAfter_cons_of_ne (by decide), findAfter_quote, ih]
      by_cases hend : s = key
      · rw [if_pos ((plain_prefix_iff hkey.plain s).mpr hend), if_pos (.inl (by rw [hend])), hend,
          escapeJson_of_plain hkey.plain]
        simp [List.drop_append]
      · rw [if_neg fun hpre => hend ((plain_prefix_iff hkey.plain s).mp hpre)]
        have hne : '"' :: key ≠ '"' :: s := fun heq => hend (List.cons.inj heq).2.symm
        simp only [hne, false_or]
    · have hnone : '"' ∉ escapeChar c := by
        cases escapeChar_cases c with
        | inl hescaped =>
          obtain ⟨e, he, -, hback, -⟩ := hescaped
          rw [he]
          simp only [List.mem_cons, List.not_mem_nil, or_false, not_or]
          exact ⟨by decide, fun heq => hquote (hback heq.symm)⟩
        | inr hself =>
          rw [hself.1]
          simp [Ne.symm hquote]
      have hne : '"' :: key ≠ c :: s := fun heq => hquote (List.cons.inj heq).1.symm
      rw [findAfter_append hnone, ih]
      simp only [hne, false_or]

/-! ## Lines -/

/-- The name of another field is passed over. -/
theorem findAfter_name (hkey : Name key) (hname : Name name) (hne : name ≠ key) (t : List Char) :
    findAfter ('"' :: (key ++ ['"'])) ("  \"".toList ++ name ++ "\": ".toList ++ t) =
      findAfter ('"' :: (key ++ ['"'])) t := by
  change findAfter _ (' ' :: ' ' :: '"' :: (name ++ ['"', ':', ' '] ++ t)) = _
  have hsplit : name ++ ['"', ':', ' '] ++ t = escapeJson name ++ '"' :: ':' :: ' ' :: t := by
    simp [escapeJson_of_plain hname.plain]
  rw [findAfter_cons_of_ne (by decide), findAfter_cons_of_ne (by decide), findAfter_quote, hsplit,
    if_neg fun hpre => hne ((plain_prefix_iff hkey.plain name).mp hpre), ← hsplit, List.append_assoc,
    findAfter_append hname.quote_not_mem]
  change findAfter _ ('"' :: ':' :: ' ' :: t) = _
  rw [findAfter_quote, if_neg (hkey.not_prefix (by decide)), findAfter_cons_of_ne (by decide),
    findAfter_cons_of_ne (by decide)]

/-- The line of a field is found by its name. -/
theorem findAfter_line_self {key : String} (hkey : Name key.toList) (value : List Char) (ending : String)
    (rest : List Char) :
    findAfter ('"' :: (key.toList ++ ['"'])) (line key value ending ++ rest) =
      some (':' :: ' ' :: (value ++ ending.toList ++ rest)) := by
  have hsplit : line key value ending ++ rest =
      ' ' :: ' ' :: '"' :: (escapeJson key.toList ++ '"' :: ':' :: ' ' :: (value ++ ending.toList ++ rest)) := by
    rw [escapeJson_of_plain hkey.plain, line]
    simp
  rw [hsplit, findAfter_cons_of_ne (by decide), findAfter_cons_of_ne (by decide), findAfter_quote,
    if_pos ((plain_prefix_iff hkey.plain key.toList).mpr rfl), escapeJson_of_plain hkey.plain]
  simp [List.drop_append]

theorem findAfter_line_digits {name : String} (hkey : Name key) (hname : Name name.toList) (hne : name.toList ≠ key)
    (n : Nat) {ending : String} (hending : '"' ∉ ending.toList) (rest : List Char) :
    findAfter ('"' :: (key ++ ['"'])) (line name (Nat.toDigits 10 n) ending ++ rest) =
      findAfter ('"' :: (key ++ ['"'])) rest := by
  have hdigits : '"' ∉ Nat.toDigits 10 n := fun hmem =>
    absurd (Nat.isDigit_of_mem_toDigits (by decide) (by decide) hmem) (by decide)
  rw [line, List.append_assoc, List.append_assoc, findAfter_name hkey hname hne, findAfter_append hdigits,
    findAfter_append hending]

/-- A string value ends like the quoted name of a field. -/
def EndsLike (key : List Char) (value : String) : Prop := '"' :: key <:+ '"' :: value.toList

instance (key : List Char) (value : String) : Decidable (EndsLike key value) :=
  inferInstanceAs (Decidable (_ <:+ _))

theorem findAfter_line_quoted {name : String} (hkey : Name key) (hname : Name name.toList) (hne : name.toList ≠ key)
    (value : String) (rest : List Char) :
    findAfter ('"' :: (key ++ ['"'])) (line name (quoted value) ",\n" ++ rest) =
      if EndsLike key value then some (",\n".toList ++ rest) else findAfter ('"' :: (key ++ ['"'])) rest := by
  have hstart : ¬ key ++ ['"'] <+: ",\n".toList ++ rest := hkey.not_prefix (c := ',') (by decide)
  rw [line, List.append_assoc, List.append_assoc, findAfter_name hkey hname hne, quoted]
  have hsplit : '"' :: (escapeJson value.toList ++ ['"']) ++ (",\n".toList ++ rest) =
      '"' :: (escapeJson value.toList ++ '"' :: (",\n".toList ++ rest)) := by simp
  rw [hsplit, findAfter_quote, findAfter_escapeJson hkey _ hstart, findAfter_append (by decide)]
  simp only [EndsLike, List.suffix_cons_iff]
  by_cases hwhole : value.toList = key
  · rw [if_pos ((plain_prefix_iff hkey.plain _).mpr hwhole), if_pos (.inl (by rw [hwhole])), hwhole,
      escapeJson_of_plain hkey.plain]
    simp [List.drop_append]
  · rw [if_neg fun hpre => hwhole ((plain_prefix_iff hkey.plain _).mp hpre)]
    have hne : '"' :: key ≠ '"' :: value.toList := fun heq => hwhole (List.cons.inj heq).2.symm
    simp only [hne, false_or]

/-! ## Values -/

/-- Text that does not begin with a blank. -/
def Starts (value : List Char) : Prop := ∃ c rest, value = c :: rest ∧ isSpace c = false

theorem starts_quoted (value : String) (rest : List Char) : Starts (quoted value ++ rest) :=
  ⟨'"', _, rfl, by decide⟩

theorem isSpace_of_isDigit {c : Char} (h : c.isDigit = true) : isSpace c = false := by
  by_contra hspace
  simp only [isSpace, Bool.not_eq_false, Bool.or_eq_true, decide_eq_true_eq] at hspace
  rcases hspace with ((((rfl | rfl) | rfl) | rfl) | rfl) | rfl <;> exact absurd h (by decide)

theorem starts_digits (n : Nat) (rest : List Char) : Starts (Nat.toDigits 10 n ++ rest) := by
  obtain ⟨c, ds, hsplit⟩ := List.exists_cons_of_ne_nil (Nat.toDigits_ne_nil (n := n) (b := 10))
  refine ⟨c, ds ++ rest, by rw [hsplit, List.cons_append], isSpace_of_isDigit ?_⟩
  have hmem : c ∈ Nat.toDigits 10 n := hsplit ▸ List.mem_cons_self
  exact Nat.isDigit_of_mem_toDigits (by decide) (by decide) hmem

/-- The value starts behind the next colon and the blank. -/
theorem findJsonValueStart_of_findAfter {json : List Char} {key : String} {before value : List Char}
    (hfind : findAfter ('"' :: (key.toList ++ ['"'])) json = some (before ++ ':' :: ' ' :: value))
    (hbefore : ':' ∉ before) (hvalue : Starts value) : findJsonValueStart json key = .ok value := by
  obtain ⟨c, rest, rfl, hc⟩ := hvalue
  have hcolon : (before ++ ':' :: ' ' :: c :: rest).dropWhile (· ≠ ':') = ':' :: ' ' :: c :: rest := by
    rw [List.dropWhile_append_of_pos]
    · simp
    · intro x hx
      have hne : x ≠ ':' := fun heq => hbefore (heq ▸ hx)
      simpa using hne
  have hblank : (' ' :: c :: rest).dropWhile isSpace = c :: rest := by
    rw [List.dropWhile_cons_of_pos (by decide), List.dropWhile_cons_of_neg (by simp [hc])]
  unfold findJsonValueStart
  simp only [hfind, hcolon, hblank]

theorem parseJsonString_of_start {json : List Char} {key value : String} {rest : List Char}
    (h : findJsonValueStart json key = .ok (quoted value ++ rest)) : parseJsonString json key = .ok value := by
  have hquoted : quoted value ++ rest = '"' :: (escapeJson value.toList ++ '"' :: rest) := by simp [quoted]
  unfold parseJsonString
  rw [h, hquoted]
  simp only [ne_eq, not_true_eq_false, if_false, rawString_escapeJson, unescapeJson_escapeJson]
  exact congrArg Except.ok (String.ofList_toList)

theorem parseJsonUnsigned_of_start {json : List Char} {key : String} {bits n : Nat} {rest : List Char}
    (h : findJsonValueStart json key = .ok (Nat.toDigits 10 n ++ (",\n".toList ++ rest)))
    (hbits : bits ≤ 64) (hn : n < 2 ^ bits) : parseJsonUnsigned bits json key = .ok n := by
  have hdigits : (Nat.toDigits 10 n ++ (",\n".toList ++ rest)).takeWhile Char.isDigit = Nat.toDigits 10 n := by
    rw [List.takeWhile_append_of_pos fun x hx => Nat.isDigit_of_mem_toDigits (by decide) (by decide) hx]
    change Nat.toDigits 10 n ++ (',' :: '\n' :: rest).takeWhile Char.isDigit = _
    rw [List.takeWhile_cons_of_neg (by decide), List.append_nil]
  have hrange : n < 2 ^ 64 := Nat.lt_of_lt_of_le hn (Nat.pow_le_pow_right (by decide) hbits)
  unfold parseJsonUnsigned
  simp only [h, hdigits, Nat.toDigits_ne_nil, if_false, Nat.ofDigitChars_ten_toDigits, if_pos hrange,
    Nat.mod_eq_of_lt hn]

/-- The search has stopped at the end of the value before a line: the value of that line is
taken. -/
theorem start_behind_line {json : List Char} {key name value : String} {ending : String} {rest : List Char}
    (hname : Name name.toList) (hfind : findAfter ('"' :: (key.toList ++ ['"'])) json =
      some (",\n".toList ++ (line name (quoted value) ending ++ rest))) :
    findJsonValueStart json key = .ok (quoted value ++ (ending.toList ++ rest)) := by
  have hsplit : ",\n".toList ++ (line name (quoted value) ending ++ rest) =
      (',' :: '\n' :: ' ' :: ' ' :: '"' :: (name.toList ++ ['"'])) ++
        ':' :: ' ' :: (quoted value ++ (ending.toList ++ rest)) := by
    simp [line]
  refine findJsonValueStart_of_findAfter (hfind.trans (congrArg some hsplit)) ?_ (starts_quoted value _)
  have hcolon : ':' ∉ name.toList := fun hmem => absurd (hname.plain _ hmem) (by decide)
  simpa using hcolon

theorem start_at_line {json : List Char} {key : String} {value : List Char} {ending : String} {rest : List Char}
    (hfind : findAfter ('"' :: (key.toList ++ ['"'])) json = some (':' :: ' ' :: (value ++ ending.toList ++ rest)))
    (hvalue : Starts (value ++ (ending.toList ++ rest))) :
    findJsonValueStart json key = .ok (value ++ (ending.toList ++ rest)) := by
  rw [List.append_assoc] at hfind
  have hbefore : findAfter ('"' :: (key.toList ++ ['"'])) json =
      some ([] ++ ':' :: ' ' :: (value ++ (ending.toList ++ rest))) := hfind
  exact findJsonValueStart_of_findAfter hbefore List.not_mem_nil hvalue

section

variable (m : StoredMeta) (created : String)

/-- The lines of the strings. -/
def stringLines : List Char :=
  line "metric" (quoted m.header.metric) ",\n" ++ (line "data_type" (quoted m.header.dataType) ",\n" ++
    (line "created_at" (quoted created) "\n" ++ "\x7d\n".toList))

theorem text_eq : m.text created = "\x7b\n".toList ++ (line "raft_term" (Nat.toDigits 10 m.header.raftTerm) ",\n" ++
    (line "raft_index" (Nat.toDigits 10 m.header.raftIndex) ",\n" ++
      (line "dim" (Nat.toDigits 10 m.header.dim) ",\n" ++ stringLines m created))) := by
  simp only [text, stringLines, List.append_assoc]

theorem parse_raftTerm (h : m.header.raftTerm < 2 ^ 64) :
    parseJsonUnsigned 64 (m.text created) "raft_term" = .ok m.header.raftTerm := by
  have hfind := congrArg (findAfter ('"' :: ("raft_term".toList ++ ['"']))) (text_eq m created)
  rw [findAfter_append (by decide), findAfter_line_self (by decide)] at hfind
  exact parseJsonUnsigned_of_start (start_at_line hfind (starts_digits _ _)) (by decide) h

theorem parse_raftIndex (h : m.header.raftIndex < 2 ^ 64) :
    parseJsonUnsigned 64 (m.text created) "raft_index" = .ok m.header.raftIndex := by
  have hfind := congrArg (findAfter ('"' :: ("raft_index".toList ++ ['"']))) (text_eq m created)
  rw [findAfter_append (by decide), findAfter_line_digits (by decide) (by decide) (by decide) _ (by decide),
    findAfter_line_self (by decide)] at hfind
  exact parseJsonUnsigned_of_start (start_at_line hfind (starts_digits _ _)) (by decide) h

theorem parse_dim (h : m.header.dim < 2 ^ 32) : parseJsonUnsigned 32 (m.text created) "dim" = .ok m.header.dim := by
  have hfind := congrArg (findAfter ('"' :: ("dim".toList ++ ['"']))) (text_eq m created)
  rw [findAfter_append (by decide), findAfter_line_digits (by decide) (by decide) (by decide) _ (by decide),
    findAfter_line_digits (by decide) (by decide) (by decide) _ (by decide), findAfter_line_self (by decide)] at hfind
  exact parseJsonUnsigned_of_start (start_at_line hfind (starts_digits _ _)) (by decide) h

/-- The search for a name that is none of the first three goes on in the line of the metric. -/
theorem findAfter_numbers {key : List Char} (hkey : Name key) (hterm : "raft_term".toList ≠ key)
    (hindex : "raft_index".toList ≠ key) (hdim : "dim".toList ≠ key) :
    findAfter ('"' :: (key ++ ['"'])) (m.text created) = findAfter ('"' :: (key ++ ['"'])) (stringLines m created) := by
  rw [text_eq, findAfter_append (by decide), findAfter_line_digits hkey (by decide) hterm _ (by decide),
    findAfter_line_digits hkey (by decide) hindex _ (by decide),
    findAfter_line_digits hkey (by decide) hdim _ (by decide)]

theorem parse_metric : parseJsonString (m.text created) "metric" = .ok m.header.metric := by
  have hname : Name "metric".toList := by decide
  have hfind := findAfter_numbers m created hname (by decide) (by decide) (by decide)
  rw [stringLines, findAfter_line_self hname] at hfind
  exact parseJsonString_of_start (start_at_line hfind (starts_quoted _ _))

/-- The value of the metric may look like the name `data_type`, which comes next anyway. -/
theorem parse_dataType : parseJsonString (m.text created) "data_type" = .ok m.header.dataType := by
  have hname : Name "data_type".toList := by decide
  have hfind := findAfter_numbers m created hname (by decide) (by decide) (by decide)
  rw [stringLines, findAfter_line_quoted hname (by decide) (by decide)] at hfind
  by_cases hends : EndsLike "data_type".toList m.header.metric
  · rw [if_pos hends] at hfind
    exact parseJsonString_of_start (start_behind_line (by decide) hfind)
  · rw [if_neg hends, findAfter_line_self hname] at hfind
    exact parseJsonString_of_start (start_at_line hfind (starts_quoted _ _))

/-- A metric that looks like the name `created_at` makes the data type the time of creation. -/
theorem parse_createdAt : parseJsonString (m.text created) "created_at" =
    .ok (if EndsLike "created_at".toList m.header.metric then m.header.dataType else created) := by
  have hname : Name "created_at".toList := by decide
  have hfind := findAfter_numbers m created hname (by decide) (by decide) (by decide)
  rw [stringLines, findAfter_line_quoted hname (by decide) (by decide)] at hfind
  by_cases hmetric : EndsLike "created_at".toList m.header.metric
  · rw [if_pos hmetric] at hfind ⊢
    exact parseJsonString_of_start (start_behind_line (by decide) hfind)
  rw [if_neg hmetric] at hfind ⊢
  rw [findAfter_line_quoted hname (by decide) (by decide)] at hfind
  by_cases htype : EndsLike "created_at".toList m.header.dataType
  · rw [if_pos htype] at hfind
    exact parseJsonString_of_start (start_behind_line (by decide) hfind)
  · rw [if_neg htype, findAfter_line_self hname] at hfind
    exact parseJsonString_of_start (start_at_line hfind (starts_quoted _ _))

/-- What is read back from the written text. -/
theorem loadFromFile_text (hterm : m.header.raftTerm < 2 ^ 64) (hindex : m.header.raftIndex < 2 ^ 64)
    (hdim : m.header.dim < 2 ^ 32) : loadFromFile (m.text created) = .ok
      { header := { m.header with metric := toLower m.header.metric, dataType := toLower m.header.dataType }
        createdAt := if EndsLike "created_at".toList m.header.metric then m.header.dataType else created } := by
  unfold loadFromFile
  simp only [parse_raftTerm m created hterm, parse_raftIndex m created hindex, parse_dim m created hdim,
    parse_metric, parse_dataType, parse_createdAt]

end

/-- What `SaveToFile` accepts is read back in lower case, with the time of saving where none
was given. -/
theorem loadFromFile_of_saveToFile (m : StoredMeta) (now : String) (json : List Char)
    (hsave : m.saveToFile now = .ok json)
    (hterm : m.header.raftTerm < 2 ^ 64) (hindex : m.header.raftIndex < 2 ^ 64) (hdim : m.header.dim < 2 ^ 32)
    (hmetric : ¬ EndsLike "created_at".toList m.header.metric) : loadFromFile json = .ok
      { header := { m.header with metric := toLower m.header.metric, dataType := toLower m.header.dataType }
        createdAt := if m.createdAt = "" then now else m.createdAt } := by
  unfold saveToFile at hsave
  split at hsave
  · cases hsave
  · cases hsave
    rw [loadFromFile_text m _ hterm hindex hdim, if_neg hmetric]

def cosine : StoredMeta where
  header := { raftTerm := 2, raftIndex := 17, dim := 3, metric := "Cosine", dataType := "\"F32\": x" }
  createdAt := "now: \"created_at\""

/-- Accepted, but without a time of creation. -/
def untimed : StoredMeta where
  header := { raftTerm := 1, raftIndex := 4, dim := 3, metric := "cosine", dataType := "f32" }
  createdAt := ""

/-- A metric that looks like the name of the last field. -/
def misnamed : StoredMeta where
  header := { raftTerm := 1, raftIndex := 4, dim := 3, metric := "created_at", dataType := "f32" }
  createdAt := "2024-05-01T00:00:00Z"

theorem loadFromFile_of_saveToFile_cosine : loadFromFile (cosine.text "now: \"created_at\"") = .ok
    { header := { cosine.header with metric := "cosine", dataType := "\"f32\": x" }
      createdAt := "now: \"created_at\"" } :=
  loadFromFile_of_saveToFile cosine "2024-05-01T00:00:00Z" _ rfl (by decide) (by decide) (by decide) (by decide)

/-- The time of creation is another one if none was given, or if the metric looks like the
name of its field. -/
theorem created_at_not_read_back :
    (∃ json m, untimed.saveToFile "2024-05-01T00:00:00Z" = .ok json ∧ loadFromFile json = .ok m ∧
      m.createdAt = "2024-05-01T00:00:00Z" ∧ untimed.createdAt = "") ∧
    (∃ json m, misnamed.saveToFile "2024-05-02T00:00:00Z" = .ok json ∧ loadFromFile json = .ok m ∧
      m.createdAt = "f32" ∧ misnamed.createdAt = "2024-05-01T00:00:00Z") :=
  ⟨⟨_, _, rfl, loadFromFile_text untimed _ (by decide) (by decide) (by decide), rfl, rfl⟩,
    ⟨_, _, rfl, loadFromFile_text misnamed _ (by decide) (by decide) (by decide), by decide, rfl⟩⟩

end StoredMeta

end RaftVdb
