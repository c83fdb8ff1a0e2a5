import Mathlib.Logic.Function.Basic
import Nitr.Lib.Escape
import Nitr.Lib.Text
import Nitr.Validate.TextForms

/-! # The rule shorthand

`validate/shorthand.rs`: `"string|trim|min_len:1"` is expanded into the rule table it stands
for. The parser of doubles is a parameter. -/

namespace Nitr.Validate.Shorthand

abbrev Text := List Char

/-- A scalar of a rule table. -/
inductive Literal where
  | boolean (b : Bool)
  | integer (i : ℤ)
  | number (n : F64)
  | string (text : Text)

inductive Entry where
  | literal (l : Literal)
  | list (items : List Literal)

/-- A rule table. -/
abbrev Table := Text → Option Entry

def Table.set (t : Table) (key : Text) (entry : Entry) : Table := Function.update t key (some entry)

@[simp]
theorem Table.set_self (t : Table) (key : Text) (entry : Entry) : t.set key entry key = some entry :=
  Function.update_self ..

theorem Table.set_of_ne {t : Table} {key key' : Text} {entry : Entry} (h : key' ≠ key) :
    t.set key entry key' = t key' := Function.update_of_ne h ..

/-! ## The keys -/

/-- Keys whose value is a comma-separated list. -/
def listKeys : List String :=
  ["one_of", "not_one_of", "contains_any", "contains_all", "types", "extensions"]

/-- Keys whose value is a number. -/
def numberKeys : List String :=
  ["min", "max", "exclusive_min", "exclusive_max", "multiple_of", "decimals", "min_len",
    "max_len", "len", "min_items", "max_items", "min_keys", "max_keys", "min_width", "max_width",
    "min_height", "max_height", "max_pixels"]

/-- Keys that are `true` when given without a value. -/
def flagKeys : List String :=
  ["required", "trim", "unique", "utf8", "allow_executables", "match_extension"]

/-- Keys whose literal is typed by the rule's own type. -/
def typedKeys : List String := ["default", "equals", "contains"]

def numericTypes : List String := ["integer", "number"]

def keyIn (keys : List String) (key : Text) : Bool := keys.contains (String.ofList key)

def isKeyChar (c : Char) : Bool := c.isLower || c.isDigit || c == '_'

/-! ## Expansion -/

def bad (shorthand : Text) (msg : String) : String :=
  "invalid rule shorthand `" ++ String.ofList shorthand ++ "`: " ++ msg

def splitEscaped (text : Text) (sep : Char) : List Text := List.splitEscaped '\\' sep [] text

/-- A value nobody splits on `,` still honours the escape. -/
def unescape (raw : Text) : Text := raw.unescape '\\' ','

def signed (sign : ℤ) (digits : Text) : Option ℤ :=
  let n := sign * digitsValue digits
  if digits ≠ [] ∧ digits.all Char.isDigit = true ∧ -2 ^ 63 ≤ n ∧ n < 2 ^ 63 then some n else none

/-- `str::parse::<i64>`. -/
def parseI64 (raw : Text) : Option ℤ :=
  match raw with
  | '-' :: digits => signed (-1) digits
  | '+' :: digits => signed 1 digits
  | digits => signed 1 digits

section

variable (parseF64 : Text → Option F64)

def parseNumber (shorthand key raw : Text) : Except String Literal :=
  match parseI64 raw with
  | some i => .ok (.integer i)
  | none =>
    match (parseF64 raw).filter F64.isFinite with
    | some n => .ok (.number n)
    | none => .error (bad shorthand
        ("`" ++ String.ofList key ++ "` needs a number, got `" ++ String.ofList raw ++ "`"))

def parseBool (shorthand key raw : Text) : Except String Literal :=
  if raw = "true".toList then .ok (.boolean true)
  else if raw = "false".toList then .ok (.boolean false)
  else .error (bad shorthand
    ("`" ++ String.ofList key ++ "` needs true or false, got `" ++ String.ofList raw ++ "`"))

/-- A literal typed by the rule's own type. -/
def parseTyped (shorthand key kind raw : Text) : Except String Literal :=
  if keyIn numericTypes kind then parseNumber parseF64 shorthand key raw
  else if kind = "boolean".toList then parseBool shorthand key raw
  else .ok (.string raw)

def readItems (shorthand key kind : Text) : List Text → Except String (List Literal)
  | [] => .ok []
  | item :: rest => do
      let item := Unicode.trim item
      if item = [] then
        throw (bad shorthand ("`" ++ String.ofList key ++ "` has an empty entry"))
      let typed ←
        if key = "types".toList ∨ key = "extensions".toList then pure (.string item)
        else parseTyped parseF64 shorthand key kind item
      let items ← readItems shorthand key kind rest
      return typed :: items

/-- What a key is set to. -/
def readValue (shorthand key kind : Text) : Option Text → Except String Entry
  | none =>
      if keyIn flagKeys key then .ok (.literal (.boolean true))
      else .error (bad shorthand
        ("`" ++ String.ofList key ++ "` needs a value (`" ++ String.ofList key ++ ":…`)"))
  | some raw =>
      if keyIn flagKeys key then (parseBool shorthand key raw).map .literal
      else if keyIn numberKeys key then (parseNumber parseF64 shorthand key raw).map .literal
      else if keyIn listKeys key then
        (readItems parseF64 shorthand key kind (splitEscaped raw ',')).map .list
      else if keyIn typedKeys key then
        (parseTyped parseF64 shorthand key kind (unescape raw)).map .literal
      else .ok (.literal (.string (unescape raw)))

/-- The key of a token, and what stands behind its first colon. -/
def keyAndRaw (token : Text) : Text × Option Text :=
  match token.splitOnce ':' with
  | some (key, raw) => (Unicode.trim key, some (Unicode.trim raw))
  | none => (token, none)

/-- The tokens behind the type. -/
def readRules (shorthand kind : Text) : List Text → Table → List Text → Except String Table
  | [], table, _ => .ok table
  | token :: rest, table, seen => do
      let token := Unicode.trim token
      if token = [] then throw (bad shorthand "empty token (a stray `|`?)")
      let (key, raw) := keyAndRaw token
      if !key.all isKeyChar || key.isEmpty then
        throw (bad shorthand ("bad token `" ++ String.ofList token ++ "`"))
      if seen.contains key then
        throw (bad shorthand ("`" ++ String.ofList key ++ "` given twice"))
      let value ← readValue parseF64 shorthand key kind raw
      readRules shorthand kind rest (table.set key value) (seen ++ [key])

/-- Expands a shorthand string into the rule table it stands for. -/
def expand (shorthand : Text) : Except String Table :=
  if 4096 < (String.ofList shorthand).utf8ByteSize then
    .error (bad ['…'] "longer than 4096 bytes")
  else
    match splitEscaped shorthand '|' with
    | [] => .ok fun _ => none
    | first :: rest => do
        let token := Unicode.trim first
        if token = [] then throw (bad shorthand "empty token (a stray `|`?)")
        -- The type comes first, bare.
        if token.contains ':' then throw (bad shorthand "the first token must be the type")
        let table : Table := Table.set (fun _ => none) "type".toList (.literal (.string token))
        readRules parseF64 shorthand token rest table []

end

/-! ## The rules a shorthand spells -/

/-- A text with no blank at its ends; a backslash at its end would escape what follows it. -/
structure Bare (text : Text) : Prop where
  head : ∃ c, text.head? = some c ∧ Unicode.isWhitespace c = false
  last : ∃ c, text.getLast? = some c ∧ Unicode.isWhitespace c = false ∧ c ≠ '\\'

abbrev Plain := {text : Text // Bare text}

/-- A type's name or a key. -/
def IsName (text : Text) : Prop := text ≠ [] ∧ text.all isKeyChar = true

inductive RuleValue where
  | flag (b : Bool)
  | integer (i : I64)
  | strings (items : List Plain)
  | text (text : Plain)

/-- A key takes values of one kind. -/
def Takes (key : Text) : RuleValue → Prop
  | .flag _ => keyIn flagKeys key = true
  | .integer _ => keyIn numberKeys key = true
  | .strings items => keyIn listKeys key = true ∧ items ≠ []
  | .text _ => keyIn (flagKeys ++ numberKeys ++ listKeys) key = false

structure Rule where
  key : Text
  value : RuleValue
  name : IsName key
  takes : Takes key value

/-- What a value is in a rule table. -/
def RuleValue.entry : RuleValue → Entry
  | flag b => .literal (.boolean b)
  | integer i => .literal (.integer i.1)
  | strings items => .list (items.map fun item => .string item.1)
  | text s => .literal (.string s.1)

/-- The escaping of the separators inside a string. -/
def escaped (item : Text) : Text := (item.escape '\\' '|').escape '\\' ','

/-- A flag that is set is spelled by its key. -/
def RuleValue.spell : RuleValue → Option Text
  | flag true => none
  | flag false => some "false".toList
  | integer i => some (toString i.1).toList
  | strings items => some ([','].intercalate (items.map fun item => escaped item.1))
  | text s => some (escaped s.1)

def Rule.token (r : Rule) : Text :=
  match r.value.spell with
  | none => r.key
  | some value => r.key ++ ':' :: value

def render (kind : Text) (rules : List Rule) : Text :=
  ['|'].intercalate (kind :: rules.map Rule.token)

/-! ## Texts without blanks at their ends -/

namespace Bare

variable {text : Text}

theorem ne_nil (h : Bare text) : text ≠ [] := by
  rintro rfl
  exact absurd h.head.choose_spec.1 nofun

theorem trim_eq (h : Bare text) : Unicode.trim text = text := by
  have ⟨c, hc, hblank⟩ := h.head
  have ⟨d, hd, hblank', _⟩ := h.last
  refine List.trimBy_of_ends ?_ ?_
  · intro x hx
    rw [Option.some.inj (hx.symm.trans hc), hblank]
  · intro x hx
    rw [Option.some.inj (hx.symm.trans hd), hblank']

theorem getLast?_ne (h : Bare text) : text.getLast? ≠ some '\\' := by
  have ⟨c, hc, _, hne⟩ := h.last
  intro hlast
  exact hne (Option.some.inj (hc.symm.trans hlast))

/-- Only the ends of a text count. -/
theorem append_cons {rest : Text} (h : Bare text) (hrest : Bare rest) (c : Char) :
    Bare (text ++ c :: rest) := by
  have ⟨x, hx, hblank⟩ := h.head
  have ⟨y, hy, hlast⟩ := hrest.last
  refine ⟨⟨x, ?_, hblank⟩, ⟨y, ?_, hlast⟩⟩
  · rw [List.head?_append, hx]
    rfl
  · rw [List.getLast?_append, List.getLast?_cons, hy]
    rfl

/-- Escaping adds at most a backslash at the front. -/
theorem escape (h : Bare text) (sep : Char) : Bare (text.escape '\\' sep) := by
  have ⟨x, hx, hblank⟩ := h.head
  refine ⟨?_, by rw [List.getLast?_escape]; exact h.last⟩
  cases text with
  | nil => cases hx
  | cons c rest =>
      by_cases hc : c = sep
      · rw [hc, List.escape_cons_self]
        exact ⟨'\\', rfl, by decide⟩
      · rw [List.escape_cons_of_ne hc]
        exact ⟨x, hx, hblank⟩

theorem intercalate {sep : Char} {pieces : List Text} (hne : pieces ≠ [])
    (h : ∀ piece ∈ pieces, Bare piece) : Bare ([sep].intercalate pieces) := by
  induction pieces with
  | nil => exact absurd rfl hne
  | cons piece pieces ih =>
      cases pieces with
      | nil =>
          rw [List.intercalate_singleton]
          exact h piece List.mem_cons_self
      | cons next pieces =>
          have hrest := ih (List.cons_ne_nil _ _) fun p hp => h p (List.mem_cons_of_mem _ hp)
          rw [List.intercalate_cons_cons, List.append_assoc, List.singleton_append]
          exact (h piece List.mem_cons_self).append_cons hrest sep

end Bare

/-- A character that neither ends a token nor is trimmed nor escapes. -/
def isInner (c : Char) : Bool := !Unicode.isWhitespace c && !(['\\', '|', ',', ':'].contains c)

/-- Graphic ASCII characters are inner ones, but for the four. -/
theorem isInner_of_graphic {c : Char} (hlow : 0x20 < c.toNat) (hhigh : c.toNat < 0x7F)
    (hne : c.toNat ≠ 0x5C ∧ c.toNat ≠ 0x7C ∧ c.toNat ≠ 0x2C ∧ c.toNat ≠ 0x3A) :
    isInner c = true := by
  have hblank : Unicode.isWhitespace c = false := by
    simp [Unicode.isWhitespace]
    omega
  have hplain : ['\\', '|', ',', ':'].contains c = false := by
    simp only [List.contains_eq_mem, List.mem_cons, List.not_mem_nil, or_false, decide_eq_false_iff_not]
    rintro (rfl | rfl | rfl | rfl) <;> simp at hne
  rw [isInner, hblank, hplain]
  rfl

theorem isInner_of_isDigit {c : Char} (h : c.isDigit = true) : isInner c = true := by
  have hrange : 48 ≤ c.toNat ∧ c.toNat ≤ 57 := Char.isDigit_iff_toNat.mp h
  exact isInner_of_graphic (by omega) (by omega) (by omega)

theorem isInner_of_isKeyChar {c : Char} (h : isKeyChar c = true) : isInner c = true := by
  rw [isKeyChar, Bool.or_eq_true, Bool.or_eq_true, beq_iff_eq] at h
  rcases h with (h | h) | rfl
  · have hrange : 97 ≤ c.toNat ∧ c.toNat ≤ 122 := by
      have hbounds : (decide ('a'.val ≤ c.val) && decide (c.val ≤ 'z'.val)) = true := h
      simpa [UInt32.le_iff_toNat_le] using hbounds
    exact isInner_of_graphic (by omega) (by omega) (by omega)
  · exact isInner_of_isDigit h
  · decide

theorem not_mem_of_inner {text : Text} (h : text.all isInner = true) {c : Char}
    (hc : isInner c = false) : c ∉ text := by
  intro hmem
  rw [List.all_eq_true.mp h c hmem] at hc
  cases hc

theorem bare_of_inner {text : Text} (hne : text ≠ []) (h : text.all isInner = true) :
    Bare text := by
  have hinner : ∀ c ∈ text, Unicode.isWhitespace c = false ∧ c ≠ '\\' := by
    intro c hc
    have := List.all_eq_true.mp h c hc
    rw [isInner, Bool.and_eq_true, Bool.not_eq_true', Bool.not_eq_true'] at this
    exact ⟨this.1, by rintro rfl; exact absurd this.2 (by decide)⟩
  exact ⟨⟨text.head hne, List.head?_eq_some_head hne, (hinner _ (List.head_mem hne)).1⟩,
    ⟨text.getLast hne, List.getLast?_eq_some_getLast hne, hinner _ (List.getLast_mem hne)⟩⟩

theorem IsName.inner {text : Text} (h : IsName text) : text.all isInner = true :=
  List.all_eq_true.mpr fun c hc => isInner_of_isKeyChar (List.all_eq_true.mp h.2 c hc)

theorem IsName.bare {text : Text} (h : IsName text) : Bare text := bare_of_inner h.1 h.inner

/-! ## Values -/

theorem toString_cases (i : I64) : ∃ digits : Text, digits ≠ [] ∧ digits.all Char.isDigit = true ∧
    ((toString i.1).toList = digits ∧ i.1 = digitsValue digits ∨
      (toString i.1).toList = '-' :: digits ∧ i.1 = -digitsValue digits) := by
  have hdigits (n : ℕ) : (Nat.toDigits 10 n).all Char.isDigit = true :=
    List.all_eq_true.mpr fun c hc => isDigit_of_mem_toDigits hc
  cases i.1 with
  | ofNat n =>
      exact ⟨_, Nat.toDigits_ne_nil, hdigits n, .inl ⟨toList_toString_natCast n, by
        rw [digitsValue_toDigits]; rfl⟩⟩
  | negSucc n =>
      exact ⟨_, Nat.toDigits_ne_nil, hdigits (n + 1), .inr ⟨toList_toString_negSucc n, by
        rw [digitsValue_toDigits]; rfl⟩⟩

theorem inner_toString (i : I64) : (toString i.1).toList.all isInner = true := by
  have ⟨digits, _, hall, h⟩ := toString_cases i
  have hinner : digits.all isInner = true :=
    List.all_eq_true.mpr fun c hc => isInner_of_isDigit (List.all_eq_true.mp hall c hc)
  rcases h with ⟨htext, -⟩ | ⟨htext, -⟩
  · rw [htext, hinner]
  · rw [htext, List.all_cons, hinner]
    decide

theorem parseI64_toString (i : I64) : parseI64 (toString i.1).toList = some i.1 := by
  have ⟨digits, hne, hall, h⟩ := toString_cases i
  have hread {sign : ℤ} (hi : i.1 = sign * digitsValue digits) :
      signed sign digits = some i.1 := by
    unfold signed
    rw [← hi]
    exact if_pos ⟨hne, hall, i.2⟩
  rcases h with ⟨htext, hi⟩ | ⟨htext, hi⟩
  · have hplus : signed 1 digits = some i.1 := hread (by rw [hi, one_mul])
    rw [htext, ← hplus]
    unfold parseI64
    split
    · cases hall
    · cases hall
    · rfl
  · rw [htext]
    exact hread (by rw [hi, neg_one_mul])

theorem escaped_eq (item : Text) : escaped item = (item.escape '\\' ',').escape '\\' '|' :=
  List.escape_comm (by decide) (by decide)

/-- The value of a token before its pipes are escaped. -/
def RuleValue.raw : RuleValue → Option Text
  | flag true => none
  | flag false => some "false".toList
  | integer i => some (toString i.1).toList
  | strings items => some ([','].intercalate (items.map fun item => item.1.escape '\\' ','))
  | text s => some (s.1.escape '\\' ',')

def Rule.rawToken (r : Rule) : Text :=
  match r.value.raw with
  | none => r.key
  | some value => r.key ++ ':' :: value

theorem escape_intercalate (pieces : List Text) :
    ([','].intercalate pieces).escape '\\' '|' =
      [','].intercalate (pieces.map (·.escape '\\' '|')) := by
  induction pieces with
  | nil => rfl
  | cons piece pieces ih =>
      cases pieces with
      | nil => simp only [List.map_singleton, List.intercalate_singleton]
      | cons next pieces =>
          rw [List.map_cons, List.map_cons, List.intercalate_cons_cons, List.intercalate_cons_cons,
            List.escape_append, List.escape_append, ih, List.map_cons]
          rfl

theorem escape_of_inner {text : Text} (h : text.all isInner = true) :
    text.escape '\\' '|' = text := List.escape_of_notMem (not_mem_of_inner h (by decide))

theorem spell_eq (v : RuleValue) : v.spell = v.raw.map (·.escape '\\' '|') := by
  cases v with
  | flag b => cases b <;> rfl
  | integer i => exact congrArg some (escape_of_inner (inner_toString i)).symm
  | strings items =>
      refine congrArg some ?_
      simp only [escape_intercalate, List.map_map, Function.comp_def, escaped_eq]
  | text s => exact congrArg some (escaped_eq s.1)

/-- The pipes of a whole token are escaped at once. -/
theorem token_eq (r : Rule) : r.token = r.rawToken.escape '\\' '|' := by
  unfold Rule.token Rule.rawToken
  rw [spell_eq]
  cases r.value.raw with
  | none => exact (escape_of_inner r.name.inner).symm
  | some value =>
      rw [List.escape_append, List.escape_cons_of_ne (by decide), escape_of_inner r.name.inner]
      rfl

theorem bare_raw {r : Rule} {raw : Text} (h : r.value.raw = some raw) : Bare raw := by
  have htakes := r.takes
  cases hv : r.value with
  | flag b =>
      rw [hv] at h
      cases b with
      | false =>
          obtain rfl := Option.some.inj h
          exact bare_of_inner (by decide) (by decide)
      | true => cases h
  | integer i =>
      rw [hv] at h
      obtain rfl := Option.some.inj h
      refine bare_of_inner ?_ (inner_toString i)
      have ⟨digits, hne, _, hcases⟩ := toString_cases i
      rcases hcases with ⟨htext, -⟩ | ⟨htext, -⟩
      · rwa [htext]
      · rw [htext]
        exact List.cons_ne_nil _ _
  | strings items =>
      rw [hv] at h htakes
      obtain rfl := Option.some.inj h
      refine Bare.intercalate (fun hnil => htakes.2 (List.map_eq_nil_iff.mp hnil)) ?_
      intro piece hpiece
      have ⟨item, _, hitem⟩ := List.mem_map.mp hpiece
      rw [← hitem]
      exact item.2.escape ','
  | text s =>
      rw [hv] at h
      obtain rfl := Option.some.inj h
      exact s.2.escape ','

theorem bare_rawToken (r : Rule) : Bare r.rawToken := by
  unfold Rule.rawToken
  cases h : r.value.raw with
  | none => exact r.name.bare
  | some raw => exact r.name.bare.append_cons (bare_raw h) ':'

theorem keyAndRaw_rawToken (r : Rule) : keyAndRaw r.rawToken = (r.key, r.value.raw) := by
  have hcolon : ':' ∉ r.key := not_mem_of_inner r.name.inner (by decide)
  unfold keyAndRaw Rule.rawToken
  cases h : r.value.raw with
  | none =>
      simp only [List.splitOnce_eq_none.mpr hcolon]
  | some raw =>
      simp only [List.splitOnce_append hcolon, r.name.bare.trim_eq, (bare_raw h).trim_eq]

/-! ## Reading a value back -/

theorem keyIn_sublist {keys keys' : List String} (hsub : keys'.all keys.contains = true)
    {key : Text} (h : keyIn keys key = false) : keyIn keys' key = false := by
  rw [keyIn, List.contains_eq_mem, decide_eq_false_iff_not] at h ⊢
  intro hmem
  exact h (by simpa using List.all_eq_true.mp hsub _ hmem)

theorem keyIn_disjoint {keys keys' : List String}
    (hdisjoint : (keys.all fun k => !keys'.contains k) = true)
    {key : Text} (h : keyIn keys key = true) : keyIn keys' key = false := by
  rw [keyIn, List.contains_eq_mem, decide_eq_true_eq] at h
  rw [keyIn, List.contains_eq_mem, decide_eq_false_iff_not]
  simpa using List.all_eq_true.mp hdisjoint _ h

section

variable (parseF64 : Text → Option F64) (shorthand key : Text) {kind : Text}

theorem parseTyped_text (hkind : keyIn ["integer", "number", "boolean"] kind = false)
    (raw : Text) : parseTyped parseF64 shorthand key kind raw = .ok (.string raw) := by
  have hnumeric : keyIn numericTypes kind = false := keyIn_sublist (by decide) hkind
  have hboolean : kind ≠ "boolean".toList := by
    rintro rfl
    exact absurd hkind (by decide)
  rw [parseTyped, hnumeric, if_neg Bool.false_ne_true, if_neg hboolean]

theorem readItems_plain (hkind : keyIn ["integer", "number", "boolean"] kind = false)
    (items : List Plain) :
    readItems parseF64 shorthand key kind (items.map Subtype.val) =
      .ok (items.map fun item => .string item.1) := by
  induction items with
  | nil => rfl
  | cons item items ih =>
      rw [List.map_cons, readItems, ih]
      simp only [item.2.trim_eq, if_neg item.2.ne_nil,
        parseTyped_text parseF64 shorthand key hkind]
      split <;> rfl

theorem splitEscaped_items {items : List Plain} (hne : items ≠ []) :
    splitEscaped ([','].intercalate (items.map fun item => item.1.escape '\\' ',')) ',' =
      items.map Subtype.val := by
  have hmap : (items.map fun item => item.1.escape '\\' ',') =
      (items.map Subtype.val).map (·.escape '\\' ',') := by rw [List.map_map]; rfl
  rw [splitEscaped, hmap]
  refine List.splitEscaped_intercalate_escape (by decide : '\\' ≠ ',')
    (fun hnil => hne (List.map_eq_nil_iff.mp hnil)) ?_
  intro piece hpiece
  have ⟨item, _, hitem⟩ := List.mem_map.mp hpiece
  rw [← hitem]
  exact item.2.getLast?_ne

/-- A value is read back as the kind its key takes. -/
theorem readValue_raw (hkind : keyIn ["integer", "number", "boolean"] kind = false) (r : Rule) :
    readValue parseF64 shorthand r.key kind r.value.raw = .ok r.value.entry := by
  have htakes := r.takes
  cases hv : r.value with
  | flag b =>
      rw [hv] at htakes
      cases b with
      | true => exact if_pos htakes
      | false => exact if_pos htakes
  | integer i =>
      rw [hv] at htakes
      have hnumber : keyIn numberKeys r.key = true := htakes
      have hflag : keyIn flagKeys r.key = false := keyIn_disjoint (by decide) hnumber
      rw [RuleValue.raw, readValue, hflag, if_neg Bool.false_ne_true, if_pos hnumber, parseNumber,
        parseI64_toString]
      rfl
  | strings items =>
      rw [hv] at htakes
      have hflag : keyIn flagKeys r.key = false := keyIn_disjoint (by decide) htakes.1
      have hnumber : keyIn numberKeys r.key = false := keyIn_disjoint (by decide) htakes.1
      rw [RuleValue.raw, readValue, hflag, hnumber, if_neg Bool.false_ne_true,
        if_neg Bool.false_ne_true, if_pos htakes.1, splitEscaped_items htakes.2,
        readItems_plain parseF64 shorthand r.key hkind]
      rfl
  | text s =>
      rw [hv] at htakes
      have hflag : keyIn flagKeys r.key = false := keyIn_sublist (by decide) htakes
      have hnumber : keyIn numberKeys r.key = false := keyIn_sublist (by decide) htakes
      have hlist : keyIn listKeys r.key = false := keyIn_sublist (by decide) htakes
      have hunescape : unescape (s.1.escape '\\' ',') = s.1 := List.unescape_escape (by decide)
      rw [RuleValue.raw, readValue, hflag, hnumber, hlist, if_neg Bool.false_ne_true,
        if_neg Bool.false_ne_true, if_neg Bool.false_ne_true, hunescape,
        parseTyped_text parseF64 shorthand r.key hkind]
      exact ite_self _

/-! ## Reading the rules back -/

/-- The tokens behind the type set one key each. -/
theorem readRules_rawTokens (hkind : keyIn ["integer", "number", "boolean"] kind = false)
    (rules : List Rule) (table : Table) (seen : List Text)
    (hdistinct : (seen ++ rules.map Rule.key).Nodup) :
    readRules parseF64 shorthand kind (rules.map Rule.rawToken) table seen =
      .ok (rules.foldl (fun t r => t.set r.key r.value.entry) table) := by
  induction rules generalizing table seen with
  | nil => rfl
  | cons r rules ih =>
      have hbare := bare_rawToken r
      have hname : (!r.key.all isKeyChar || r.key.isEmpty) = false := by
        rw [r.name.2, List.isEmpty_eq_false_iff.mpr r.name.1]
        rfl
      have hnew : seen.contains r.key = false := by
        rw [List.contains_eq_mem, decide_eq_false_iff_not]
        intro hmem
        exact (List.nodup_append.mp hdistinct).2.2 _ hmem _ List.mem_cons_self rfl
      rw [List.map_cons, readRules, hbare.trim_eq, if_neg hbare.ne_nil, keyAndRaw_rawToken]
      simp only [hname, hnew, Bool.false_eq_true, if_false, readValue_raw parseF64 shorthand hkind]
      refine ih (table.set r.key r.value.entry) (seen ++ [r.key]) ?_
      rwa [List.append_assoc, List.singleton_append]

end

/-- What a run of settings leaves: each key its own value, other keys theirs. -/
theorem foldl_set (rules : List Rule) (table : Table) (hdistinct : (rules.map Rule.key).Nodup) :
    (∀ r ∈ rules, rules.foldl (fun t r => t.set r.key r.value.entry) table r.key =
        some r.value.entry) ∧
      ∀ key, key ∉ rules.map Rule.key →
        rules.foldl (fun t r => t.set r.key r.value.entry) table key = table key := by
  induction rules generalizing table with
  | nil => exact ⟨fun r hr => absurd hr List.not_mem_nil, fun _ _ => rfl⟩
  | cons r rules ih =>
      rw [List.map_cons, List.nodup_cons] at hdistinct
      have ⟨hset, hkeep⟩ := ih (table.set r.key r.value.entry) hdistinct.2
      refine ⟨fun r' hr' => ?_, fun key hkey => ?_⟩
      · cases List.mem_cons.mp hr' with
        | inl heq =>
            rw [heq, List.foldl_cons, hkeep r.key hdistinct.1, Table.set_self]
        | inr hmem => exact hset r' hmem
      · rw [List.map_cons, List.mem_cons, not_or] at hkey
        rw [List.foldl_cons, hkeep key hkey.2, Table.set_of_ne hkey.1]

/-- A shorthand rendered from a type and rules with distinct keys expands to the table of the
type and the rules, whatever stands inside the strings. -/
theorem expand_render (parseF64 : Text → Option F64) {kind : Text} {rules : List Rule}
    (hname : IsName kind) (hkind : keyIn ["integer", "number", "boolean"] kind = false)
    (hdistinct : (rules.map Rule.key).Nodup)
    (hlen : (String.ofList (render kind rules)).utf8ByteSize ≤ 4096) :
    ∃ table, expand parseF64 (render kind rules) = .ok table ∧
      (∀ r ∈ rules, table r.key = some r.value.entry) ∧
      ∀ key, key ∉ rules.map Rule.key →
        table key = if key = "type".toList then some (.literal (.string kind)) else none := by
  have hrender : render kind rules =
      ['|'].intercalate ((kind :: rules.map Rule.rawToken).map (·.escape '\\' '|')) := by
    rw [render, List.map_cons, escape_of_inner hname.inner, List.map_map]
    exact congrArg (fun tokens => ['|'].intercalate (kind :: tokens))
      (List.map_congr_left fun r _ => token_eq r)
  have hsplit : splitEscaped (render kind rules) '|' = kind :: rules.map Rule.rawToken := by
    rw [splitEscaped, hrender]
    refine List.splitEscaped_intercalate_escape (by decide : '\\' ≠ '|') (List.cons_ne_nil _ _) ?_
    intro piece hpiece
    cases List.mem_cons.mp hpiece with
    | inl heq => exact heq ▸ hname.bare.getLast?_ne
    | inr hmem =>
        have ⟨r, _, hr⟩ := List.mem_map.mp hmem
        exact hr ▸ (bare_rawToken r).getLast?_ne
  have hcolon : kind.contains ':' = false := by
    rw [List.contains_eq_mem, decide_eq_false_iff_not]
    exact not_mem_of_inner hname.inner (by decide)
  have ⟨hset, hkeep⟩ := foldl_set rules
    (Table.set (fun _ => none) "type".toList (.literal (.string kind))) hdistinct
  refine ⟨_, ?_, hset, fun key hkey => (hkeep key hkey).trans ?_⟩
  · rw [expand, if_neg (by omega), hsplit]
    simp only [hname.bare.trim_eq, if_neg hname.bare.ne_nil, hcolon, Bool.false_eq_true, if_false]
    exact readRules_rawTokens parseF64 _ hkind rules _ [] hdistinct
  · by_cases hkey : key = "type".toList
    · rw [hkey, if_pos rfl, Table.set_self]
    · rw [if_neg hkey, Table.set_of_ne hkey]

/-- A list of two strings with both separators and a colon in them, a flag and a number. -/
def sampleRules : List Rule :=
  [⟨"one_of".toList,
      .strings [⟨"a,|:b".toList, ⟨⟨'a', rfl, by decide⟩, ⟨'b', rfl, by decide, by decide⟩⟩⟩,
        ⟨"|".toList, ⟨⟨'|', rfl, by decide⟩, ⟨'|', rfl, by decide, by decide⟩⟩⟩],
      ⟨by decide, by decide⟩, ⟨by decide, by decide⟩⟩,
    ⟨"required".toList, .flag true, ⟨by decide, by decide⟩, rfl⟩,
    ⟨"max_len".toList, .integer ⟨-5, by decide⟩, ⟨by decide, by decide⟩, rfl⟩]

theorem expand_render_sample : ∃ table,
    expand (fun _ => none) (render "string".toList sampleRules) = .ok table ∧
      (∀ r ∈ sampleRules, table r.key = some r.value.entry) ∧
      ∀ key, key ∉ sampleRules.map Rule.key →
        table key = if key = "type".toList then some (.literal (.string "string".toList)) else none :=
  expand_render (fun _ => none) ⟨by decide, by decide⟩ (by decide) (by decide) (by decide)

end Nitr.Validate.Shorthand
