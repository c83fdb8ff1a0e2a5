import Nitr.Validate.Strict
import Nitr.Validate.Appends
import Nitr.Lib.Text

/-! # What a form spells

The text of a typed value, what coercion reads back from it, and the table built from the
pairs of a form, group by group. -/

namespace Nitr.Validate

/-! ## Spelling -/

/-- Coercion with the standard library's `trim`; `parseF64` is its `str::parse::<f64>`. -/
def textParsers (parseF64 : String → Option F64) : Parsers where
  trim text := String.ofList (Unicode.trim text.toList)
  parseF64 := parseF64

/-- A 64-bit integer. -/
abbrev I64 := {i : ℤ // -2 ^ 63 ≤ i ∧ i < 2 ^ 63}

/-- A value one pair of a form can spell. -/
inductive FormValue where
  | string (s : String)
  | integer (i : I64)
  | boolean (b : Bool)

namespace FormValue

def kind : FormValue → Kind
  | string _ => .string
  | integer _ => .integer
  | boolean _ => .boolean

def value : FormValue → Value
  | string s => .ofString s
  | integer i => .integer i
  | boolean b => .boolean b

/-- The text of a value: an integer in decimal, `true` or `false`. -/
def spell : FormValue → String
  | string s => s
  | integer i => toString i.1
  | boolean b => if b then "true" else "false"

end FormValue

theorem toList_toString_natCast (n : ℕ) : (toString (n : ℤ)).toList = Nat.toDigits 10 n :=
  Nat.toList_repr

theorem toList_toString_negSucc (n : ℕ) :
    (toString (Int.negSucc n)).toList = '-' :: Nat.toDigits 10 (n + 1) := by
  have htext : toString (Int.negSucc n) = "-" ++ (n + 1).repr := rfl
  rw [htext, String.toList_append, Nat.toList_repr]
  rfl

theorem digitsValue_toDigits (n : ℕ) : digitsValue (Nat.toDigits 10 n) = n := by
  have hfold : ∀ (digits : List Char) (init : ℕ),
      digits.foldl (fun acc c => acc * 10 + (c.toNat - 48)) init =
        Nat.ofDigitChars 10 digits init := by
    intro digits init
    rw [Nat.ofDigitChars_eq_foldl]
    congr 1
    funext acc c
    rw [Nat.mul_comm]
    rfl
  rw [digitsValue, hfold, Nat.ofDigitChars_ten_toDigits]

theorem isDigit_of_mem_toDigits {n : ℕ} {c : Char} (h : c ∈ Nat.toDigits 10 n) :
    c.isDigit = true :=
  Nat.isDigit_of_mem_toDigits (by decide) (by decide) h

theorem stripMinus_toDigits {text : String} {n : ℕ} (h : text.toList = Nat.toDigits 10 n) :
    stripMinus text = (false, Nat.toDigits 10 n) := by
  unfold stripMinus
  rw [h]
  split
  · rename_i digits heq
    have hminus := @isDigit_of_mem_toDigits n '-' (by rw [heq]; exact List.mem_cons_self)
    cases hminus
  · rfl

theorem stripMinus_negSucc (n : ℕ) :
    stripMinus (toString (Int.negSucc n)) = (true, Nat.toDigits 10 (n + 1)) := by
  unfold stripMinus
  split
  · rename_i digits heq
    rw [toList_toString_negSucc] at heq
    rw [(List.cons.inj heq).2]
  · rename_i hne
    exact absurd (toList_toString_negSucc n) (hne _)

/-- A text of digits is read by its value. -/
theorem parseInteger_digits {text : String} {negative : Bool} {n : ℕ} {i : ℤ}
    (hstrip : stripMinus text = (negative, Nat.toDigits 10 n))
    (hi : (if negative then -(n : ℤ) else n) = i) (htext : toString i = text)
    (hlow : -2 ^ 63 ≤ i) (hhigh : i < 2 ^ 63) : parseInteger text = some i := by
  have hdigits : ((Nat.toDigits 10 n).isEmpty || !(Nat.toDigits 10 n).all Char.isDigit) =
      false := by
    rw [Bool.or_eq_false_iff, List.isEmpty_eq_false_iff, Bool.not_eq_false', List.all_eq_true]
    exact ⟨Nat.toDigits_ne_nil, fun c hc => isDigit_of_mem_toDigits hc⟩
  unfold parseInteger
  rw [hstrip]
  simp only [hdigits, Bool.false_eq_true, if_false, digitsValue_toDigits, hi]
  exact if_pos ⟨hlow, hhigh, htext⟩

/-- An integer is read as it is spelled. -/
theorem parseInteger_toString (i : I64) : parseInteger (toString i.1) = some i.1 := by
  obtain ⟨i, hlow, hhigh⟩ := i
  cases i with
  | ofNat n =>
      exact parseInteger_digits (stripMinus_toDigits (toList_toString_natCast n)) rfl rfl hlow hhigh
  | negSucc n => exact parseInteger_digits (stripMinus_negSucc n) rfl rfl hlow hhigh

/-- A text that spells no integer is read as none. -/
theorem parseInteger_eq_none {text : String} (h : ∀ i : I64, text ≠ toString i.1) :
    parseInteger text = none := by
  rw [Option.eq_none_iff_forall_not_mem]
  intro i hi
  unfold parseInteger at hi
  cases hstrip : stripMinus text with
  | mk negative digits =>
      rw [hstrip] at hi
      dsimp only at hi
      generalize (if negative = true then -(digitsValue digits : ℤ) else digitsValue digits) =
        parsed at hi
      split at hi
      · cases hi
      · split at hi
        · rename_i hrange
          exact h ⟨parsed, hrange.1, hrange.2.1⟩ hrange.2.2.symm
        · cases hi

theorem trim_ne_empty {text : String} {c : Char} (hc : c ∈ text.toList)
    (hvisible : Unicode.isWhitespace c = false) :
    String.ofList (Unicode.trim text.toList) ≠ "" := by
  intro h
  have hmem := List.mem_trimBy hc hvisible
  have hnil : Unicode.trim text.toList = [] := by simpa using congrArg String.toList h
  rw [Unicode.trim] at hnil
  rw [hnil] at hmem
  cases hmem

/-- A rule that one pair of a form can answer. -/
def Rule.IsText (rule : Rule) : Prop :=
  rule.kind = .string ∨ rule.kind = .integer ∨ rule.kind = .boolean

/-- A rule that a form can answer: such a rule, or an array of one. -/
def Rule.InForm (rule : Rule) : Prop :=
  rule.IsText ∨ rule.kind = .array ∧ ∃ items, rule.items = some items ∧ items.IsText

section Values

variable {parseF64 : String → Option F64}

/-- A spelled value that is no string is not blank. -/
theorem trim_spell_ne_empty {v : FormValue} (h : v.kind ≠ .string) :
    (textParsers parseF64).trim v.spell ≠ "" := by
  cases v with
  | string s => exact absurd rfl h
  | integer i =>
      obtain ⟨i, hi⟩ := i
      have hhead : ∃ c ∈ (toString i).toList, Unicode.isWhitespace c = false := by
        have hdigit : ∀ c : Char, c.isDigit = true → Unicode.isWhitespace c = false := by
          intro c hc
          have hrange : 48 ≤ c.toNat ∧ c.toNat ≤ 57 := Char.isDigit_iff_toNat.mp hc
          by_contra hblank
          simp only [Bool.not_eq_false, Unicode.isWhitespace, Bool.or_eq_true, Bool.and_eq_true,
            decide_eq_true_eq, List.contains_eq_mem, List.mem_cons, List.not_mem_nil,
            or_false] at hblank
          omega
        cases i with
        | ofNat n =>
            obtain ⟨c, hc⟩ := List.exists_mem_of_ne_nil _ (@Nat.toDigits_ne_nil n 10)
            exact ⟨c, by rw [← toList_toString_natCast] at hc; exact hc,
              hdigit c (isDigit_of_mem_toDigits hc)⟩
        | negSucc n =>
            refine ⟨'-', ?_, by decide⟩
            rw [toList_toString_negSucc]
            exact List.mem_cons_self
      obtain ⟨c, hc, hvisible⟩ := hhead
      exact trim_ne_empty hc hvisible
  | boolean b =>
      cases b with
      | false => exact @trim_ne_empty "false" 'f' (by decide) (by decide)
      | true => exact @trim_ne_empty "true" 't' (by decide) (by decide)

/-- A spelled value is coerced to itself. -/
theorem toValue_spell (v : FormValue) :
    (TextValue.text v.spell).toValue (textParsers parseF64) v.kind = some v.value := by
  have hgiven : blankIsAbsent (textParsers parseF64) v.kind v.spell = false := by
    rw [blankIsAbsent, Bool.and_eq_false_iff]
    by_cases hkind : v.kind = .string
    · exact .inl (by rw [hkind]; rfl)
    · exact .inr (decide_eq_false (trim_spell_ne_empty hkind))
  have hvalue : coerceScalar (textParsers parseF64) v.kind v.spell = v.value := by
    cases v with
    | string s => rfl
    | integer i =>
        simp only [coerceScalar, FormValue.kind, FormValue.spell, parseInteger_toString]
        rfl
    | boolean b => cases b <;> rfl
  rw [TextValue.toValue, hgiven, if_neg Bool.false_ne_true, hvalue]

end Values

/-! ## Groups -/

theorem normalName_brackets (name : String) : normalName (name ++ "[]") = name := by
  have hsuffix : "[]".toList <:+ (name ++ "[]").toList := by
    rw [String.toList_append]
    exact List.suffix_append _ _
  rw [normalName, if_pos hsuffix, String.toList_append]
  have hdrop : (name.toList ++ "[]".toList).dropLast.dropLast = name.toList := by
    change (name.toList ++ ['[', ']']).dropLast.dropLast = name.toList
    rw [List.dropLast_append_of_ne_nil (by simp)]
    simp
  rw [hdrop, String.ofList_toList]

/-- The name ends like the key of a list, and a form takes its last two characters off. -/
def Marked (name : String) : Prop := "[]".toList <:+ name.toList

instance (name : String) : Decidable (Marked name) := inferInstanceAs (Decidable (_ <:+ _))

theorem normalName_of_not_marked {name : String} (h : ¬Marked name) : normalName name = name :=
  if_neg h

theorem normalName_of_marked {name : String} (h : Marked name) : normalName name ≠ name := by
  obtain ⟨base, hbase⟩ := h
  have hname : name = String.ofList base ++ "[]" := by
    rw [← String.toList_inj, String.toList_append, String.toList_ofList, hbase]
  rw [hname, normalName_brackets]
  intro heq
  have := congrArg (fun s : String => s.toList.length) heq
  simp at this

/-- The keys of a field are its name and its name with the mark of a list. -/
theorem normalName_eq_iff {name : String} (h : ¬Marked name) (key : String) :
    normalName key = name ↔ key = name ∨ key = name ++ "[]" := by
  constructor
  · rintro rfl
    by_cases hkey : Marked key
    · obtain ⟨base, hbase⟩ := hkey
      have hsplit : key = String.ofList base ++ "[]" := by
        rw [← String.toList_inj, String.toList_append, String.toList_ofList, hbase]
      rw [hsplit, normalName_brackets]
      exact .inr rfl
    · exact .inl (normalName_of_not_marked hkey).symm
  · rintro (rfl | rfl)
    · exact normalName_of_not_marked h
    · exact normalName_brackets _

/-- The values of a name, in arrival order. -/
def valuesOf (name : String) (pairs : List (String × TextValue)) : List TextValue :=
  (pairs.filter fun p => normalName p.1 = name).map (·.2)

/-- The groups are the names that have values, each once, with its values. -/
structure GroupsOf (pairs : List (String × TextValue)) (grouped : List (String × List TextValue)) :
    Prop where
  nodup : (grouped.map (·.1)).Nodup
  values : ∀ g ∈ grouped, g.2 = valuesOf g.1 pairs
  nonempty : ∀ g ∈ grouped, g.2 ≠ []
  complete : ∀ name, valuesOf name pairs ≠ [] → name ∈ grouped.map (·.1)

theorem valuesOf_concat (name : String) (pairs : List (String × TextValue))
    (p : String × TextValue) : valuesOf name (pairs ++ [p]) =
      if normalName p.1 = name then valuesOf name pairs ++ [p.2] else valuesOf name pairs := by
  rw [valuesOf, List.filter_append, List.map_append]
  by_cases h : normalName p.1 = name
  · simp [h, valuesOf]
  · simp [h, valuesOf]

theorem map_fst_addPair (name : String) (value : TextValue)
    (grouped : List (String × List TextValue)) : (addPair name value grouped).map (·.1) =
      if name ∈ grouped.map (·.1) then grouped.map (·.1) else grouped.map (·.1) ++ [name] := by
  induction grouped with
  | nil => rfl
  | cons g rest ih =>
      obtain ⟨n, values⟩ := g
      rw [addPair]
      by_cases hname : n = name
      · rw [if_pos hname, if_pos (by simp [hname])]
        rfl
      · have hiff : name ∈ ((n, values) :: rest).map (·.1) ↔ name ∈ rest.map (·.1) := by
          rw [List.map_cons, List.mem_cons, or_iff_right (Ne.symm hname)]
        rw [if_neg hname, List.map_cons, ih]
        by_cases hmem : name ∈ rest.map (·.1)
        · rw [if_pos hmem, if_pos (hiff.mpr hmem), List.map_cons]
        · rw [if_neg hmem, if_neg (mt hiff.mp hmem), List.map_cons, List.cons_append]

theorem mem_addPair_iff {name : String} {value : TextValue}
    {grouped : List (String × List TextValue)} (hnodup : (grouped.map (·.1)).Nodup)
    {g : String × List TextValue} (h : g ∈ addPair name value grouped) :
    (g ∈ grouped ∧ g.1 ≠ name) ∨ (g.1 = name ∧ ∃ values, g.2 = values ++ [value] ∧
      ((name, values) ∈ grouped ∨ values = [] ∧ name ∉ grouped.map (·.1))) := by
  induction grouped with
  | nil =>
      rw [addPair, List.mem_singleton] at h
      exact .inr ⟨by rw [h], [], by rw [h, List.nil_append], .inr ⟨rfl, by simp⟩⟩
  | cons g' rest ih =>
      obtain ⟨n, values⟩ := g'
      rw [List.map_cons, List.nodup_cons] at hnodup
      rw [addPair] at h
      by_cases hname : n = name
      · rw [if_pos hname] at h
        rcases List.mem_cons.mp h with rfl | h
        · exact .inr ⟨hname, values, rfl, .inl (by rw [← hname]; exact List.mem_cons_self)⟩
        · refine .inl ⟨List.mem_cons_of_mem _ h, ?_⟩
          intro hg
          exact hnodup.1 (List.mem_map.mpr ⟨g, h, hg.trans hname.symm⟩)
      · rw [if_neg hname] at h
        rcases List.mem_cons.mp h with rfl | h
        · exact .inl ⟨List.mem_cons_self, hname⟩
        · rcases ih hnodup.2 h with ⟨hmem, hne⟩ | ⟨hg, values', hvalues, hcase⟩
          · exact .inl ⟨List.mem_cons_of_mem _ hmem, hne⟩
          · refine .inr ⟨hg, values', hvalues, ?_⟩
            rcases hcase with hmem | ⟨hnil, hnot⟩
            · exact .inl (List.mem_cons_of_mem _ hmem)
            · refine .inr ⟨hnil, ?_⟩
              rw [List.map_cons, List.mem_cons, not_or]
              exact ⟨Ne.symm hname, hnot⟩

/-- One more pair goes into the group of its name. -/
theorem GroupsOf.addPair {pairs : List (String × TextValue)}
    {grouped : List (String × List TextValue)} (h : GroupsOf pairs grouped)
    (p : String × TextValue) :
    GroupsOf (pairs ++ [p]) (addPair (normalName p.1) p.2 grouped) := by
  refine ⟨?_, ?_, fun g hg => mem_addPair hg h.nonempty, ?_⟩
  · rw [map_fst_addPair]
    split
    · exact h.nodup
    · rename_i hnot
      exact h.nodup.append (List.nodup_singleton _) (by simpa using hnot)
  · intro g hg
    rw [valuesOf_concat]
    rcases mem_addPair_iff h.nodup hg with ⟨hmem, hne⟩ | ⟨hname, values, hvalues, hcase⟩
    · rw [if_neg (Ne.symm hne), h.values g hmem]
    · rw [if_pos hname.symm, hvalues, hname]
      rcases hcase with hmem | ⟨hnil, hnot⟩
      · rw [← h.values _ hmem]
      · rw [hnil]
        by_contra hne
        refine hnot (h.complete _ ?_)
        intro hempty
        rw [hempty] at hne
        exact hne rfl
  · intro name hname
    rw [map_fst_addPair]
    rw [valuesOf_concat] at hname
    by_cases hp : normalName p.1 = name
    · rw [hp]
      split
      · assumption
      · exact List.mem_append_right _ (List.mem_singleton_self _)
    · rw [if_neg hp] at hname
      have hmem := h.complete name hname
      split
      · exact hmem
      · exact List.mem_append_left _ hmem

theorem groupPairs_groupsOf (pairs : List (String × TextValue)) :
    GroupsOf pairs (groupPairs pairs) := by
  induction pairs using List.reverseRecOn with
  | nil => exact ⟨List.nodup_nil, by simp [groupPairs], by simp [groupPairs], fun _ h => absurd rfl h⟩
  | append_singleton pairs p ih =>
      have hlast : groupPairs (pairs ++ [p]) =
          Nitr.Validate.addPair (normalName p.1) p.2 (groupPairs pairs) := by
        rw [groupPairs, List.foldl_append]
        rfl
      rw [hlast]
      exact ih.addPair p

/-! ## The built table -/

section Built

variable {parsers : Parsers} {schema : SchemaDef}

/-- Every rule of an array has its items. -/
def HasItems (schema : SchemaDef) : Prop :=
  ∀ name rule, schema.rule name = some rule → rule.kind = .array → rule.items.isSome = true

theorem groupValue_ok (h : HasItems schema) (pointer : ℕ) (name : String)
    (values : List TextValue) : ∃ value, groupValue parsers schema pointer name values = .ok value := by
  unfold groupValue
  cases hrule : schema.rule name with
  | none => exact ⟨_, rfl⟩
  | some rule =>
      by_cases harray : rule.kind = .array
      · obtain ⟨items, hitems⟩ := Option.isSome_iff_exists.mp (h name rule hrule harray)
        simp only [harray, if_true, hitems]
        exact ⟨_, rfl⟩
      · simp only [harray, if_false]
        exact ⟨_, rfl⟩

/-- Each group sets its own field. -/
theorem buildEntries_fields (h : HasItems schema) {grouped : List (String × List TextValue)}
    (hnodup : (grouped.map (·.1)).Nodup) (next : ℕ) (out : Entries) :
    ∃ es after, buildEntries parsers schema grouped next out = .ok (es, after) ∧
      (∀ name, name ∉ grouped.map (·.1) → es.field name = out.field name) ∧
      (∀ g ∈ grouped, ∃ pointer value, groupValue parsers schema pointer g.1 g.2 = .ok value ∧
        es.field g.1 = value.getD (out.field g.1)) ∧
      ∀ e ∈ es, e ∈ out ∨ ∃ g ∈ grouped, e.1 = .ofString g.1 := by
  induction grouped generalizing next out with
  | nil => exact ⟨out, next, rfl, fun _ _ => rfl, by simp, fun e he => .inl he⟩
  | cons g rest ih =>
      obtain ⟨name, values⟩ := g
      rw [List.map_cons, List.nodup_cons] at hnodup
      obtain ⟨value, hvalue⟩ := @groupValue_ok parsers schema h next name values
      -- the table after the first group
      let out' := value.elim out (out.set (.ofString name))
      have hfirst : out'.field name = value.getD (out.field name) := by
        cases value with
        | none => rfl
        | some v => exact Entries.get_set_self (groupValue_shaped hvalue).1 out (.ofString name)
      have hothers : ∀ n, n ≠ name → out'.field n = out.field n := by
        intro n hn
        cases value with
        | none => rfl
        | some v =>
            refine Entries.get_set_ne ?_ out v
            exact fun heq => hn (Key.ofString_inj.mp heq).symm
      have hmem : ∀ e ∈ out', e ∈ out ∨ e.1 = .ofString name := by
        intro e he
        cases value with
        | none => exact .inl he
        | some v => exact (Entries.mem_set he).imp id fun heq => by rw [heq]
      obtain ⟨es, after, hbuild, hkept, hset, hkeys⟩ := ih hnodup.2 (next + 1) out'
      refine ⟨es, after, ?_, ?_, ?_, ?_⟩
      · rw [buildEntries, hvalue]
        cases value with
        | none => exact hbuild
        | some v => exact hbuild
      · intro n hn
        rw [List.map_cons, List.mem_cons, not_or] at hn
        rw [hkept n hn.2, hothers n hn.1]
      · intro g hg
        rcases List.mem_cons.mp hg with rfl | hg
        · exact ⟨next, value, hvalue, (hkept name hnodup.1).trans hfirst⟩
        · obtain ⟨pointer, value', hvalue', hfield⟩ := hset g hg
          refine ⟨pointer, value', hvalue', ?_⟩
          rw [hfield, hothers]
          intro heq
          exact hnodup.1 (List.mem_map.mpr ⟨g, hg, heq⟩)
      · intro e he
        rcases hkeys e he with he | ⟨g, hg, heq⟩
        · rcases hmem e he with he | heq
          · exact .inl he
          · exact .inr ⟨(name, values), List.mem_cons_self, heq⟩
        · exact .inr ⟨g, List.mem_cons_of_mem _ hg, heq⟩

end Built

end Nitr.Validate
