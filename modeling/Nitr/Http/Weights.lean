import Nitr.Http.Fresh
import Nitr.Validate.Scalar
import Mathlib.Tactic.Ring
import Mathlib.Tactic.NormNum

/-! # Weights in a list

The weights of `Accept` and `Accept-Encoding`: a number is read as `str::parse::<f32>` reads it,
with its exact value. Then the members of a list as the grammar writes them, and the pieces the
parsers see of each. -/

namespace Nitr.Accept

open Nitr.Http (Text isOws isWhitespace_of_isOws)
open Nitr.Validate (F64)
open Unicode (trim)

/-! ## Numbers -/

def digitsValue (digits : Text) : ℕ :=
  digits.foldl (fun n c => 10 * n + (c.toNat - '0'.toNat)) 0

/-- The sign in front of a number, and the rest. -/
def splitSign : Text → Bool × Text
  | '-' :: rest => (true, rest)
  | '+' :: rest => (false, rest)
  | rest => (false, rest)

/-- The exponent of a number, 0 where none is written. -/
def readExponent : Text → Option ℤ
  | [] => some 0
  | e :: rest =>
      if e = 'e' ∨ e = 'E' then
        let (negative, digits) := splitSign rest
        if digits ≠ [] ∧ digits.all Char.isDigit then
          some (if negative then -(digitsValue digits) else digitsValue digits)
        else none
      else none

/-- The fraction digits, after a dot, and the rest. -/
def splitFraction : Text → Text × Text
  | '.' :: rest => rest.span Char.isDigit
  | rest => ([], rest)

/-- The value of a number without its sign. -/
def readMagnitude (text : Text) : Option ℚ :=
  let (whole, rest) := text.span Char.isDigit
  let (fraction, rest) := splitFraction rest
  if whole = [] ∧ fraction = [] then none
  else
    (readExponent rest).map fun e =>
      let value : ℚ := digitsValue (whole ++ fraction) / (10 ^ fraction.length : ℕ)
      if 0 ≤ e then value * (10 ^ e.toNat : ℕ) else value / (10 ^ e.natAbs : ℕ)

/-- `str::parse::<f32>`, with the exact value of a number. -/
def parseDecimal (text : Text) : Option F64 :=
  let (negative, rest) := splitSign text
  let word := rest.map Char.toLower
  if word = "inf".toList ∨ word = "infinity".toList then some (.infinite negative)
  else if word = "nan".toList then some .nan
  else
    (readMagnitude rest).map fun value =>
      if negative then if value = 0 then .negZero else .finite (-value) else .finite value

/-! ## The grammar of a list -/

/-- A weight: at most three decimals, at most 1. -/
inductive QValue : Text → ℚ → Prop
  | zero : QValue ['0'] 0
  | fraction (digits : Text) (h : digits.all Char.isDigit = true) (short : digits.length ≤ 3) :
      QValue ('0' :: '.' :: digits) (digitsValue digits / (10 ^ digits.length : ℕ))
  | one : QValue ['1'] 1
  | whole (zeros : Text) (h : zeros.all (· = '0') = true) (short : zeros.length ≤ 3) :
      QValue ('1' :: '.' :: zeros) 1

/-- A character of a token. -/
def isTchar (c : Char) : Bool := c.isAlphanum || "!#$%&'*+-.^_`|~".toList.contains c

/-- A written weight: the blanks after the semicolon, the letter's case, the number. -/
structure Weight where
  gap : Text
  upper : Bool
  text : Text
  value : ℚ
  blank : gap.all isOws = true
  qvalue : QValue text value

/-- A member of a list: a name of tokens, and a weight after blanks and a semicolon. -/
structure Member where
  before : Text
  name : Text
  gap : Text
  weight : Option Weight
  after : Text
  blank : (before ++ gap ++ after).all isOws = true
  name_ne_nil : name ≠ []
  plain : name.all (fun c => isTchar c || c = '/') = true

def Weight.spell (w : Weight) : Text := w.gap ++ (if w.upper then 'Q' else 'q') :: '=' :: w.text

def Member.spell (m : Member) : Text :=
  m.before ++ m.name ++ m.gap ++ (m.weight.elim [] fun w => ';' :: w.spell) ++ m.after

/-- The weight of a member, 1 where none is written. -/
def Member.value (m : Member) : ℚ := m.weight.elim 1 Weight.value

/-- The weight as the parsers read it: one that starts with a capital letter is passed over. -/
def Member.readValue (m : Member) : ℚ := m.weight.elim 1 fun w => if w.upper then 1 else w.value

theorem all_isOws_nil : ([] : Text).all isOws = true := rfl

/-- Blanks where a list has no member. -/
abbrev Blank := {text : Text // text.all isOws = true}

/-- A list: the members and the empty places between its commas. -/
abbrev WeightedList := List (Blank ⊕ Member)

def WeightedList.members (l : WeightedList) : List Member := l.filterMap Sum.getRight?

/-- The text of a place between two commas. -/
def spellPlace : Blank ⊕ Member → Text := Sum.elim Subtype.val Member.spell

/-- The text of a list. -/
def WeightedList.spell (l : WeightedList) : Text := [','].intercalate (l.map spellPlace)

/-! ## Reading a number -/

theorem span_digits {digits rest : Text} (h : digits.all Char.isDigit = true)
    (hrest : ∀ c, rest.head? = some c → c.isDigit = false) :
    (digits ++ rest).span Char.isDigit = (digits, rest) := by
  have hall := List.all_eq_true.mp h
  rw [List.span_eq_takeWhile_dropWhile, List.takeWhile_append_of_pos hall,
    List.dropWhile_append_of_pos hall]
  cases rest with
  | nil => simp
  | cons c rest =>
      have hc := hrest c rfl
      rw [List.takeWhile_cons_of_neg (by simp [hc]), List.dropWhile_cons_of_neg (by simp [hc]),
        List.append_nil]

theorem foldl_zeros {zeros : Text} (h : zeros.all (· = '0') = true) (n : ℕ) :
    zeros.foldl (fun n c => 10 * n + (c.toNat - '0'.toNat)) n = n * 10 ^ zeros.length := by
  induction zeros generalizing n with
  | nil => simp
  | cons c zeros ih =>
      simp only [List.all_cons, Bool.and_eq_true, decide_eq_true_eq] at h
      rw [List.foldl_cons, ih (by simpa using h.2), h.1, List.length_cons, Nat.pow_succ]
      simp only [Nat.sub_self, Nat.add_zero]
      ring

theorem foldl_digits_lt {digits : Text} (h : digits.all Char.isDigit = true) (n : ℕ) :
    digits.foldl (fun n c => 10 * n + (c.toNat - '0'.toNat)) n < (n + 1) * 10 ^ digits.length := by
  induction digits generalizing n with
  | nil => simp
  | cons c digits ih =>
      rw [List.all_cons, Bool.and_eq_true, Char.isDigit_iff_toNat] at h
      have hzero : '0'.toNat = 48 := rfl
      have hnine : '9'.toNat = 57 := rfl
      have hstep : 10 * n + (c.toNat - '0'.toNat) + 1 ≤ 10 * (n + 1) := by omega
      rw [List.foldl_cons, List.length_cons, Nat.pow_succ']
      calc _ < (10 * n + (c.toNat - '0'.toNat) + 1) * 10 ^ digits.length := ih h.2 _
        _ ≤ 10 * (n + 1) * 10 ^ digits.length := Nat.mul_le_mul_right _ hstep
        _ = (n + 1) * (10 * 10 ^ digits.length) := by ring

theorem digitsValue_lt {digits : Text} (h : digits.all Char.isDigit = true) :
    digitsValue digits < 10 ^ digits.length := by
  have hlt := foldl_digits_lt h 0
  rwa [Nat.zero_add, Nat.one_mul] at hlt

/-- A number of the grammar has no exponent. -/
theorem readMagnitude_digits {first : Char} {digits rest : Text} (hfirst : first.isDigit = true)
    (hrest : splitFraction rest = (digits, [])) (hdot : ∀ c, rest.head? = some c → c = '.') :
    readMagnitude (first :: rest) =
      some ((digitsValue (first :: digits) : ℚ) / (10 ^ digits.length : ℕ)) := by
  have hwhole : (first :: rest).span Char.isDigit = ([first], rest) :=
    @span_digits [first] rest (by simp [hfirst]) (by
      intro c hc
      rw [hdot c hc]
      decide)
  unfold readMagnitude
  rw [hwhole]
  simp only [hrest, readExponent, Option.map_some, List.cons_append, List.nil_append]
  rw [if_neg (by simp)]
  simp

theorem splitFraction_dot {digits : Text} (h : digits.all Char.isDigit = true) :
    splitFraction ('.' :: digits) = (digits, []) := by
  have := @span_digits digits [] h (by simp)
  rwa [List.append_nil] at this

theorem parseDecimal_digit {first : Char} {rest : Text} (h : first.isDigit = true) :
    parseDecimal (first :: rest) = (readMagnitude (first :: rest)).map F64.finite := by
  have hsign : splitSign (first :: rest) = (false, first :: rest) := by
    unfold splitSign
    split
    · rename_i heq
      cases heq
      cases h
    · rename_i heq
      cases heq
      cases h
    · rfl
  have hlower : first.toLower = first := by
    have hrange : 48 ≤ first.val.toNat ∧ first.val.toNat ≤ 57 := Char.isDigit_iff_toNat.mp h
    refine dif_neg ?_
    rintro ⟨hupper, -⟩
    have hA : ('A'.val : UInt32).toNat = 65 := rfl
    rw [ge_iff_le, UInt32.le_iff_toNat_le, hA] at hupper
    omega
  have hword : ∀ c word, c.isDigit = false → (first :: rest).map Char.toLower ≠ c :: word := by
    intro c word hc heq
    rw [List.map_cons, hlower, List.cons.injEq] at heq
    rw [heq.1, hc] at h
    cases h
  unfold parseDecimal
  rw [hsign]
  simp only
  rw [if_neg, if_neg]
  · simp
  · exact hword 'n' "an".toList (by decide)
  · rintro (hinf | hinf)
    · exact hword 'i' "nf".toList (by decide) hinf
    · exact hword 'i' "nfinity".toList (by decide) hinf

/-- A weight is read as it is written. -/
theorem parseDecimal_qvalue {text : Text} {value : ℚ} (h : QValue text value) :
    parseDecimal text = some (.finite value) := by
  cases h with
  | zero =>
      rw [parseDecimal_digit (by decide), readMagnitude_digits (by decide) rfl (by simp)]
      simp [digitsValue]
  | fraction digits hdigits _ =>
      have hvalue : digitsValue ('0' :: digits) = digitsValue digits := rfl
      rw [parseDecimal_digit (by decide), readMagnitude_digits (by decide)
        (splitFraction_dot hdigits) (by simp), hvalue]
      rfl
  | one =>
      rw [parseDecimal_digit (by decide), readMagnitude_digits (by decide) rfl (by simp)]
      simp [digitsValue]
  | whole zeros hzeros _ =>
      have hdigits : zeros.all Char.isDigit = true := by
        rw [List.all_eq_true] at hzeros ⊢
        intro c hc
        rw [of_decide_eq_true (hzeros c hc)]
        rfl
      have hvalue : digitsValue ('1' :: zeros) = 10 ^ zeros.length := by
        rw [digitsValue, List.foldl_cons, foldl_zeros hzeros]
        simp
      rw [parseDecimal_digit (by decide), readMagnitude_digits (by decide)
        (splitFraction_dot hdigits) (by simp), hvalue, div_self (by positivity)]
      rfl

/-! ## Weights -/

theorem QValue.nonneg {text : Text} {value : ℚ} (h : QValue text value) : 0 ≤ value := by
  cases h with
  | zero => exact le_refl 0
  | fraction digits _ _ => exact div_nonneg (Nat.cast_nonneg _) (Nat.cast_nonneg _)
  | one => exact zero_le_one
  | whole zeros _ _ => exact zero_le_one

theorem Member.value_nonneg (m : Member) : 0 ≤ m.value := by
  unfold Member.value
  cases m.weight with
  | none => exact zero_le_one
  | some w => exact w.qvalue.nonneg

theorem Member.readValue_nonneg (m : Member) : 0 ≤ m.readValue := by
  unfold Member.readValue
  cases m.weight with
  | none => exact zero_le_one
  | some w =>
      rw [Option.elim_some]
      split
      · exact zero_le_one
      · exact w.qvalue.nonneg

theorem QValue.le_one {text : Text} {value : ℚ} (h : QValue text value) : value ≤ 1 := by
  cases h with
  | zero => exact zero_le_one
  | fraction digits hdigits _ =>
      refine div_le_one_of_le₀ ?_ (Nat.cast_nonneg _)
      exact Nat.cast_le.mpr (digitsValue_lt hdigits).le
  | one => exact le_refl 1
  | whole zeros _ _ => exact le_refl 1

theorem Member.value_le_readValue (m : Member) : m.value ≤ m.readValue := by
  unfold Member.value Member.readValue
  cases m.weight with
  | none => exact le_refl 1
  | some w =>
      rw [Option.elim_some, Option.elim_some]
      split
      · exact w.qvalue.le_one
      · exact le_refl _

theorem finite_lt_finite {p q : ℚ} : (F64.finite p).lt (.finite q) = decide (p < q) := by
  have hcmp : (F64.finite p).partialCmp (.finite q) = some (compare p q) := rfl
  rw [F64.lt, hcmp, Bool.eq_iff_iff, decide_eq_true_eq, ← compare_lt_iff_lt]
  simp

theorem finite_eq_finite {p q : ℚ} : (F64.finite p).eq (.finite q) = decide (p = q) := by
  have hcmp : (F64.finite p).partialCmp (.finite q) = some (compare p q) := rfl
  rw [F64.eq, hcmp, Bool.eq_iff_iff, decide_eq_true_eq, ← compare_eq_iff_eq]
  simp

theorem finite_le_finite {p q : ℚ} : (F64.finite p).le (.finite q) = decide (p ≤ q) := by
  have hle : (F64.finite p).le (.finite q) =
      ((F64.finite p).lt (.finite q) || (F64.finite p).eq (.finite q)) := rfl
  rw [hle, finite_lt_finite, finite_eq_finite, Bool.eq_iff_iff, Bool.or_eq_true, decide_eq_true_eq,
    decide_eq_true_eq, decide_eq_true_eq, le_iff_lt_or_eq]

/-! ## The pieces of a list -/

/-- The characters of names and weights: no separator of the list, no blank. -/
structure Inner (text : Text) : Prop where
  comma : ',' ∉ text
  semicolon : ';' ∉ text
  graphic : ∀ c ∈ text, 33 ≤ c.toNat ∧ c.toNat ≤ 126

theorem isWhitespace_of_graphic {c : Char} (h : 33 ≤ c.toNat ∧ c.toNat ≤ 126) :
    Unicode.isWhitespace c = false := by
  by_contra hblank
  simp only [Bool.not_eq_false, Unicode.isWhitespace, Bool.or_eq_true, Bool.and_eq_true,
    decide_eq_true_eq, List.contains_eq_mem, List.mem_cons, List.not_mem_nil, or_false] at hblank
  omega

theorem Inner.append {text text' : Text} (h : Inner text) (h' : Inner text') :
    Inner (text ++ text') := by
  refine ⟨?_, ?_, List.forall_mem_append.mpr ⟨h.graphic, h'.graphic⟩⟩
  · rw [List.mem_append, not_or]
    exact ⟨h.comma, h'.comma⟩
  · rw [List.mem_append, not_or]
    exact ⟨h.semicolon, h'.semicolon⟩

theorem Inner.of_all {text : Text} {p : Char → Bool} (h : text.all p = true)
    (hcomma : p ',' = false) (hsemicolon : p ';' = false)
    (hgraphic : ∀ c, p c = true → 33 ≤ c.toNat ∧ c.toNat ≤ 126) : Inner text := by
  have hnot : ∀ sep, p sep = false → sep ∉ text := by
    intro sep hsep hmem
    rw [List.all_eq_true.mp h sep hmem] at hsep
    cases hsep
  exact ⟨hnot ',' hcomma, hnot ';' hsemicolon, fun c hc => hgraphic c (List.all_eq_true.mp h c hc)⟩

/-- A character of a name or a number. -/
theorem range_of_isTchar {c : Char} (h : (isTchar c || c = '/') = true) :
    33 ≤ c.toNat ∧ c.toNat ≤ 126 := by
  simp only [isTchar, Char.isAlphanum, Bool.or_eq_true, decide_eq_true_eq] at h
  rcases h with ((h | h) | h) | rfl
  · have hcase : (c.isUpper || c.isLower) = true := h
    rcases Bool.or_eq_true _ _ ▸ hcase with hupper | hlower
    · obtain ⟨hlow, hhigh⟩ : 'A'.val ≤ c.val ∧ c.val ≤ 'Z'.val := of_decide_eq_true hupper
      have h65 : 65 ≤ c.toNat := UInt32.le_iff_toNat_le.mp hlow
      have h90 : c.toNat ≤ 90 := UInt32.le_iff_toNat_le.mp hhigh
      omega
    · have hboth : (decide ('a'.val ≤ c.val) && decide (c.val ≤ 'z'.val)) = true := hlower
      rw [Bool.and_eq_true, decide_eq_true_eq, decide_eq_true_eq] at hboth
      have h97 : 97 ≤ c.toNat := UInt32.le_iff_toNat_le.mp hboth.1
      have h122 : c.toNat ≤ 122 := UInt32.le_iff_toNat_le.mp hboth.2
      omega
  · have hdigit : 48 ≤ c.toNat ∧ c.toNat ≤ 57 := Char.isDigit_iff_toNat.mp h
    omega
  · have hall : "!#$%&'*+-.^_`|~".toList.all
        (fun c => decide (33 ≤ c.toNat ∧ c.toNat ≤ 126)) = true := by decide
    exact of_decide_eq_true (List.all_eq_true.mp hall c (by simpa using h))
  · decide

theorem Member.inner (m : Member) : Inner m.name :=
  .of_all m.plain (by decide) (by decide) fun _ => range_of_isTchar

theorem QValue.inner {text : Text} {value : ℚ} (h : QValue text value) : Inner text := by
  have htext : text.all (fun c => isTchar c || c = '/') = true := by
    cases h with
    | zero => decide
    | fraction digits hdigits _ =>
        rw [List.all_cons, List.all_cons, Bool.and_eq_true, Bool.and_eq_true]
        refine ⟨by decide, by decide, ?_⟩
        rw [List.all_eq_true] at hdigits ⊢
        intro c hc
        simp [isTchar, Char.isAlphanum, hdigits c hc]
    | one => decide
    | whole zeros hzeros _ =>
        rw [List.all_cons, List.all_cons, Bool.and_eq_true, Bool.and_eq_true]
        refine ⟨by decide, by decide, ?_⟩
        rw [List.all_eq_true] at hzeros ⊢
        intro c hc
        rw [of_decide_eq_true (hzeros c hc)]
        decide
  exact .of_all htext (by decide) (by decide) fun _ => range_of_isTchar

/-- The letter, the equals sign and the number of a weight. -/
def Weight.body (w : Weight) : Text := (if w.upper then 'Q' else 'q') :: '=' :: w.text

theorem Weight.inner_body (w : Weight) : Inner w.body := by
  have hhead : Inner [if w.upper then 'Q' else 'q', '='] := by
    cases w.upper <;> exact ⟨by decide, by decide, by simp⟩
  exact hhead.append w.qvalue.inner

theorem trim_blanks {pre text post : Text} (hpre : pre.all isOws = true)
    (hpost : post.all isOws = true) (h : Inner text) : trim (pre ++ text ++ post) = text := by
  rw [trim, List.trimBy_blanks (fun c hc => isWhitespace_of_isOws (List.all_eq_true.mp hpre c hc))
    fun c hc => isWhitespace_of_isOws (List.all_eq_true.mp hpost c hc)]
  exact List.trimBy_eq_self fun c hc => isWhitespace_of_graphic (h.graphic c hc)

theorem not_mem_of_isOws {text : Text} {sep : Char} (h : text.all isOws = true)
    (hsep : isOws sep = false) : sep ∉ text := by
  intro hmem
  rw [List.all_eq_true.mp h sep hmem] at hsep
  cases hsep

/-- The pieces of a member between semicolons, trimmed: its name, and its weight. -/
theorem Member.pieces (m : Member) : (m.spell.splitOn ';').map trim =
    m.name :: (m.weight.map Weight.body).toList := by
  obtain ⟨hbefore, hgap, hafter⟩ : m.before.all isOws = true ∧ m.gap.all isOws = true ∧
      m.after.all isOws = true := by
    have := m.blank
    rw [List.all_append, List.all_append, Bool.and_eq_true, Bool.and_eq_true] at this
    exact ⟨this.1.1, this.1.2, this.2⟩
  have hsemi : isOws ';' = false := by decide
  have hfirst : ';' ∉ m.before ++ m.name ++ m.gap := by
    rw [List.mem_append, List.mem_append, not_or, not_or]
    exact ⟨⟨not_mem_of_isOws hbefore hsemi, m.inner.semicolon⟩, not_mem_of_isOws hgap hsemi⟩
  unfold Member.spell
  cases m.weight with
  | none =>
      have hlast : ';' ∉ m.before ++ m.name ++ m.gap ++ [] ++ m.after := by
        rw [List.append_nil, List.mem_append, not_or]
        exact ⟨hfirst, not_mem_of_isOws hafter hsemi⟩
      have htext : m.before ++ m.name ++ m.gap ++ [] ++ m.after =
          m.before ++ m.name ++ (m.gap ++ m.after) := by simp
      rw [Option.elim_none, List.splitOn_eq_singleton hlast, List.map_singleton, htext,
        trim_blanks hbefore (by simp [hgap, hafter]) m.inner]
      rfl
  | some w =>
      have hsecond : ';' ∉ w.gap ++ w.body ++ m.after := by
        rw [List.mem_append, List.mem_append, not_or, not_or]
        exact ⟨⟨not_mem_of_isOws w.blank hsemi, w.inner_body.semicolon⟩,
          not_mem_of_isOws hafter hsemi⟩
      have htext : m.before ++ m.name ++ m.gap ++ ';' :: w.spell ++ m.after =
          (m.before ++ m.name ++ m.gap) ++ ';' :: (w.gap ++ w.body ++ m.after) := by
        simp [Weight.spell, Weight.body]
      rw [Option.elim_some, htext, List.splitOn_append_cons_self_of_not_mem hfirst,
        List.splitOn_eq_singleton hsecond, List.map_cons, List.map_singleton,
        trim_blanks hbefore hgap m.inner, trim_blanks w.blank hafter w.inner_body]
      rfl

theorem comma_not_mem_spellPlace (place : Blank ⊕ Member) : ',' ∉ spellPlace place := by
  have hcomma : isOws ',' = false := by decide
  cases place with
  | inl blank => exact not_mem_of_isOws blank.2 hcomma
  | inr m =>
      have hblank := not_mem_of_isOws m.blank hcomma
      rw [List.mem_append, List.mem_append, not_or, not_or] at hblank
      change ',' ∉ m.spell
      unfold Member.spell
      rw [List.mem_append, List.mem_append, List.mem_append, List.mem_append]
      rintro ((((h | h) | h) | h) | h)
      · exact hblank.1.1 h
      · exact m.inner.comma h
      · exact hblank.1.2 h
      · cases hw : m.weight with
        | none => simp [hw] at h
        | some w =>
            rw [hw, Option.elim_some, List.mem_cons, Weight.spell, List.mem_append] at h
            rcases h with h | h | h
            · cases h
            · exact not_mem_of_isOws w.blank hcomma h
            · exact w.inner_body.comma h
      · exact hblank.2 h

/-- The places of a list are what the parsers see between commas. -/
theorem splitOn_spell (l : WeightedList) (hne : l ≠ []) :
    l.spell.splitOn ',' = l.map spellPlace := by
  refine List.splitOn_intercalate ',' ?_ (by simpa using hne)
  intro text htext
  obtain ⟨place, -, rfl⟩ := List.mem_map.mp htext
  exact comma_not_mem_spellPlace place

theorem visible_of_graphic {c : Char} (h : 33 ≤ c.toNat ∧ c.toNat ≤ 126) :
    Http.visible c = true := by
  have hrange : 32 ≤ c.toNat ∧ c.toNat < 127 := by omega
  simp [Http.visible, hrange]

theorem visible_spellPlace (place : Blank ⊕ Member) : ∀ c ∈ spellPlace place,
    Http.visible c = true := by
  have hows : ∀ {text : Text}, text.all isOws = true → ∀ c ∈ text, Http.visible c = true :=
    fun h c hc => Http.visible_of_isOws (List.all_eq_true.mp h c hc)
  have hinner : ∀ {text : Text}, Inner text → ∀ c ∈ text, Http.visible c = true :=
    fun h c hc => visible_of_graphic (h.graphic c hc)
  cases place with
  | inl blank => exact hows blank.2
  | inr m =>
      have hblank := hows m.blank
      simp only [List.forall_mem_append] at hblank
      have hweight : ∀ c ∈ m.weight.elim [] (fun w => ';' :: w.spell), Http.visible c = true := by
        cases m.weight with
        | none => simp
        | some w =>
            refine List.forall_mem_cons.mpr ⟨by decide, ?_⟩
            exact List.forall_mem_append.mpr ⟨hows w.blank, hinner w.inner_body⟩
      change ∀ c ∈ m.spell, Http.visible c = true
      unfold Member.spell
      simp only [List.forall_mem_append]
      exact ⟨⟨⟨⟨hblank.1.1, hinner m.inner⟩, hblank.1.2⟩, hweight⟩, hblank.2⟩

/-- A list is visible text. -/
theorem visible_spell (l : WeightedList) : l.spell.all Http.visible = true := by
  rw [List.all_eq_true]
  intro c hc
  by_cases hcomma : c = ','
  · rw [hcomma]
    decide
  · cases l with
    | nil => cases hc
    | cons place l =>
        obtain ⟨piece, hpiece, hmem⟩ := (List.mem_iff_splitOn hcomma).mp hc
        rw [splitOn_spell _ (List.cons_ne_nil place l)] at hpiece
        obtain ⟨place', -, rfl⟩ := List.mem_map.mp hpiece
        exact visible_spellPlace place' c hmem

end Nitr.Accept
