import Nitr.Validate.TextAlike

/-! # Text forms and typed tables

A form and a JSON body reach one schema by two ways. For rules a form can spell, the table built
from the pairs of a form is checked like the table of its values. -/

namespace Nitr.Validate

section Main

variable {parseF64 : String → Option F64} {host : Host} {scripts : Scripts} (schema : TextSchema)

/-- The table built from a form is checked like the form's own table, where no name is taken for
a list's. -/
theorem run_buildTable (form : Form schema.schema) (enc : Encoding form)
    (hplain : ∀ piece ∈ enc.pieces, piece.2.1 = false → ¬Marked piece.1) (next : ℕ) :
    ∃ table after,
      buildTable (textParsers parseF64) schema.schema enc.pairs next = .ok (table, after) ∧
        ∀ start, run host scripts schema.schema table start =
          run host scripts schema.schema form.table start := by
  have hgroups := groupPairs_groupsOf enc.pairs
  have hvalues := enc.valuesOf_pairs hplain
  obtain ⟨es, after, hbuild, hkept, hset, hkeys⟩ := @buildEntries_fields
    (textParsers parseF64) _ schema.hasItems _ hgroups.nodup (next + 1) []
  refine ⟨.table next 0 es, after, ?_, fun start => ?_⟩
  · unfold buildTable
    rw [hbuild]
    rfl
  -- a name has a group just when the form gives it a value
  have hnames : ∀ g ∈ groupPairs enc.pairs, (form.given g.1).isSome = true := by
    intro g hg
    have hne := hgroups.nonempty g hg
    rw [hgroups.values g hg, hvalues] at hne
    by_contra hnone
    refine hne ?_
    rw [List.map_eq_nil_iff, List.map_eq_nil_iff, List.filter_eq_nil_iff]
    intro piece hpiece hname
    exact hnone (of_decide_eq_true hname ▸ enc.declared piece hpiece)
  refine run_same schema.inForm ?_ ?_ _ _ _ _ _
  · intro f _
    refine sameValue_of_shown ?_ (form.field f.1)
    cases hgiven : form.given f.1 with
    | none =>
        refine hkept f.1 ?_
        intro hmem
        obtain ⟨g, hg, hname⟩ := List.mem_map.mp hmem
        have := hnames g hg
        rw [hname, hgiven] at this
        cases this
    | some g =>
        have hpairs : valuesOf f.1 enc.pairs =
            (g.values.map FormValue.spell).map TextValue.text := by
          rw [hvalues, enc.spelled f.1 g hgiven]
        have hmem := hgroups.complete f.1 (by
          rw [hpairs]
          cases g <;> simp [Given.values])
        obtain ⟨group, hgroup, hname⟩ := List.mem_map.mp hmem
        obtain ⟨pointer, value, hvalue, hfield⟩ := hset group hgroup
        rw [hgroups.values group hgroup, hname, hpairs] at hvalue
        rw [hname] at hfield
        obtain ⟨rule, hrule, hfits⟩ := form.fits f.1 g hgiven
        rw [hfield]
        exact groupValue_given hrule hfits hvalue
  · rw [unknownKeys_eq_nil, unknownKeys_eq_nil]
    · intro e he
      obtain ⟨name, hkey, hgiven⟩ := form.keys e he
      exact ⟨name, hkey, form.rule_isSome hgiven⟩
    · intro e he
      rcases hkeys e he with he | ⟨g, hg, hkey⟩
      · cases he
      · exact ⟨g.1, hkey, form.rule_isSome (hnames g hg)⟩

/-! ## Texts that are no integers -/

/-- The error of a field whose value has another type. -/
def typeEntry (host : Host) (owner : SchemaOptions) (name : String) (rule : Rule) : ErrorEntry :=
  let failure : Failure :=
    { path := FieldPath.render [.field name], field := name, rule := "type", kind := rule.kind,
      params := [("type", .str rule.kind.name)], fieldRule := some rule.toRuleKeys, owner,
      fallback := none, reason := none }
  { path := failure.path, field := name, rule := "type", message := host.resolve failure,
    params := failure.params, label := rule.label }

/-- An integer field that is given no number is reported. -/
theorem checkFieldList_mistyped {fields : List (String × Rule)} {owner : SchemaOptions}
    {input : Entries} {f : String × Rule} (hf : f ∈ fields) (hkind : f.2.kind = .integer)
    (hgiven : (input.field f.1).isNil = false) (hmistyped : (input.field f.1).toF64 = none)
    {pointer : ℕ} {ok : Bool} {out : Entries} {ctx ctx' : Ctx} {r : Bool × Entries}
    (h : checkFieldList host fields owner input [] pointer ok out ctx = .ok (r, ctx')) :
    typeEntry host owner f.1 f.2 ∈ ctx'.errors := by
  have hrest : ∀ (fields : List (String × Rule)) ok out,
      Check.Appends (checkFieldList host fields owner input [] pointer ok out) :=
    fun fields => checkFieldList_appends (fun f _ => checkValue_appends host f.2) owner input []
      pointer
  induction fields generalizing ok out ctx with
  | nil => cases hf
  | cons f' rest ih =>
      rw [List.mem_cons] at hf
      by_cases hfirst : f = f'
      · subst hfirst
        obtain ⟨name, rule⟩ := f
        have hvalue : fieldValue rule.toRuleKeys input name = input.field name := by
          unfold fieldValue
          generalize input.field name = v at hgiven
          cases v <;> first | rfl | cases hgiven
        have hcheck : ∀ site : Site, checkValue host rule (input.field name) site =
            rejectType host rule.toRuleKeys site := by
          intro site
          have hkey : rule.toRuleKeys.kind = .integer := hkind
          rw [checkValue_eq]
          unfold checkKind
          rw [hkey]
          simp only [checkNumber, hmistyped]
          rfl
        unfold checkFieldList at h
        simp only [hvalue, hgiven, Bool.false_eq_true, if_false, hcheck] at h
        obtain ⟨value, c, hreject, h⟩ := Check.bind_eq_ok.mp h
        cases hreject
        have hprefix := hrest rest _ _ _ _ _ h
        exact hprefix.subset (List.mem_append_right _ (List.mem_singleton_self _))
      · have hmem : f ∈ rest := hf.resolve_left hfirst
        obtain ⟨name, rule⟩ := f'
        unfold checkFieldList at h
        dsimp only at h
        split at h
        · split at h
          · obtain ⟨_, _, -, h⟩ := Check.bind_eq_ok.mp h
            exact ih hmem h
          · exact ih hmem h
        · obtain ⟨value, _, -, h⟩ := Check.bind_eq_ok.mp h
          cases value with
          | none => exact ih hmem h
          | some value => exact ih hmem h

/-- The last text a form gives a field, under its name or its name with the mark of a list. -/
def lastText (name : String) (pairs : List (String × TextValue)) : Option TextValue :=
  ((pairs.filter fun p => p.1 = name ∨ p.1 = name ++ "[]").map (·.2)).getLast?

theorem lastText_eq {name : String} (h : ¬Marked name) (pairs : List (String × TextValue)) :
    lastText name pairs = (valuesOf name pairs).getLast? := by
  simp only [lastText, valuesOf, normalName_eq_iff h]

/-- What becomes of an integer field whose text is no integer's spelling: a blank text leaves the
field absent, and any other is reported under the rule `type`. Where another field of the same name
comes first the text is coerced by that one's rule, and may be reported even if it is blank. -/
def Refused (parseF64 : String → Option F64) (host : Host) (scripts : Scripts)
    (schema : SchemaDef) (f : String × Rule) (text : String) (table : Value) : Prop :=
  ∃ (p : ℕ) (es : Entries), table = .table p 0 es ∧
    ((textParsers parseF64).trim text = "" → schema.rule f.1 = some f.2 → es.field f.1 = .nil) ∧
    (es.field f.1 = .nil → (textParsers parseF64).trim text = "") ∧
    (es.field f.1 ≠ .nil → ∀ start verdict, run host scripts schema table start = .ok verdict →
      ∃ errors, verdict = .error errors ∧
        ∃ e ∈ errors, e.path = FieldPath.render [.field f.1] ∧ e.field = f.1 ∧ e.rule = "type")

/-- Coercion makes no number of a text that spells no integer. -/
theorem coerceScalar_mistyped {kind : Kind} {text : String} (hkind : kind ≠ .number)
    (hnone : ∀ i : I64, text ≠ toString i.1) :
    (coerceScalar (textParsers parseF64) kind text).isNil = false ∧
      (coerceScalar (textParsers parseF64) kind text).toF64 = none := by
  cases kind with
  | number => exact absurd rfl hkind
  | integer =>
      simp only [coerceScalar, parseInteger_eq_none hnone]
      exact ⟨rfl, rfl⟩
  | boolean =>
      simp only [coerceScalar]
      cases parseBoolean text with
      | none => exact ⟨rfl, rfl⟩
      | some b => exact ⟨rfl, rfl⟩
  | string => exact ⟨rfl, rfl⟩
  | array => exact ⟨rfl, rfl⟩
  | table => exact ⟨rfl, rfl⟩
  | map => exact ⟨rfl, rfl⟩
  | any => exact ⟨rfl, rfl⟩
  | file => exact ⟨rfl, rfl⟩

/-- The group of such a text has no value, or one that is no number. -/
theorem groupValue_mistyped {name : String} {rule : Rule} {pointer : ℕ} {values : List TextValue}
    {text : String} {value : Option Value} (hrule : schema.schema.rule name = some rule)
    (htext : values.getLast? = some (.text text)) (hnone : ∀ i : I64, text ≠ toString i.1)
    (h : groupValue (textParsers parseF64) schema.schema pointer name values = .ok value) :
    (value = none ∧ (textParsers parseF64).trim text = "") ∨
      ∃ v, value = some v ∧ v.isNil = false ∧ v.toF64 = none := by
  unfold groupValue at h
  rw [hrule] at h
  rcases schema.inForm _ (mem_of_rule hrule) with htextual | ⟨harray, items, hitems, -⟩
  · have harray : rule.kind ≠ .array := by
      rcases htextual with hkind | hkind | hkind <;> rw [hkind] <;> decide
    have hnumber : rule.kind ≠ .number := by
      rcases htextual with hkind | hkind | hkind <;> rw [hkind] <;> decide
    simp only [if_neg harray, htext, Option.bind_some, Except.ok.injEq] at h
    rw [← h, TextValue.toValue]
    by_cases hblank : blankIsAbsent (textParsers parseF64) rule.kind text = true
    · rw [if_pos hblank]
      rw [blankIsAbsent, Bool.and_eq_true, decide_eq_true_eq] at hblank
      exact .inl ⟨rfl, hblank.2⟩
    · rw [if_neg hblank]
      exact .inr ⟨_, rfl, coerceScalar_mistyped hnumber hnone⟩
  · dsimp only at h
    rw [if_pos harray, hitems] at h
    exact .inr ⟨_, (Except.ok.inj h).symm, rfl, rfl⟩

theorem refused_of_text {f : String × Rule} (hf : f ∈ schema.schema.fields)
    (hkind : f.2.kind = .integer) (hplain : ¬Marked f.1) {pairs : List (String × TextValue)}
    {text : String} (htext : lastText f.1 pairs = some (.text text))
    (hnone : ∀ i : I64, text ≠ toString i.1) (next : ℕ) : ∃ table after,
      buildTable (textParsers parseF64) schema.schema pairs next = .ok (table, after) ∧
        Refused parseF64 host scripts schema.schema f text table := by
  rw [lastText_eq hplain] at htext
  have hgroups := groupPairs_groupsOf pairs
  obtain ⟨es, after, hbuild, -, hset, -⟩ := @buildEntries_fields
    (textParsers parseF64) _ schema.hasItems _ hgroups.nodup (next + 1) []
  have hmem := hgroups.complete f.1 (by
    intro hempty
    rw [hempty] at htext
    cases htext)
  obtain ⟨group, hgroup, hname⟩ := List.mem_map.mp hmem
  obtain ⟨pointer, value, hvalue, hfield⟩ := hset group hgroup
  rw [hgroups.values group hgroup, hname] at hvalue
  rw [hname] at hfield
  obtain ⟨rule, hrule⟩ := Option.isSome_iff_exists.mp (schema.schema.rule_isSome_of_mem hf)
  have hcases := groupValue_mistyped schema hrule htext hnone hvalue
  refine ⟨.table next 0 es, after, ?_, next, es, rfl, ?_, ?_, ?_⟩
  · unfold buildTable
    rw [hbuild]
    rfl
  · intro hblank hfirst
    unfold groupValue at hvalue
    rw [hfirst] at hvalue
    have harray : f.2.kind ≠ .array := by
      rw [hkind]
      decide
    have habsent : (TextValue.text text).toValue (textParsers parseF64) f.2.kind = none := by
      rw [hkind, TextValue.toValue, blankIsAbsent, hblank]
      rfl
    simp only [if_neg harray, htext, Option.bind_some, habsent, Except.ok.injEq] at hvalue
    rw [hfield, ← hvalue]
    rfl
  · intro hnil
    rcases hcases with ⟨-, hblank⟩ | ⟨v, rfl, hgiven, -⟩
    · exact hblank
    · rw [hfield, Option.getD_some] at hnil
      rw [hnil] at hgiven
      cases hgiven
  · intro hne start verdict hrun
    obtain ⟨hgiven, hmistyped⟩ : (es.field f.1).isNil = false ∧ (es.field f.1).toF64 = none := by
      rcases hcases with ⟨rfl, -⟩ | ⟨v, rfl, hv⟩
      · exact absurd hfield hne
      · rw [hfield, Option.getD_some]
        exact hv
    have hwalk : ∀ fresh out ctx, walk host schema.schema (.table next 0 es) fresh = .ok (out, ctx) →
        typeEntry host schema.schema.options f.1 f.2 ∈ ctx.errors := by
      intro fresh out ctx hwalk
      unfold walk at hwalk
      obtain ⟨_, _, -, hwalk⟩ := Check.bind_eq_ok.mp hwalk
      obtain ⟨⟨_, _⟩, c, hfields, hwalk⟩ := Check.bind_eq_ok.mp hwalk
      cases hwalk
      obtain ⟨⟨fields, options⟩, _⟩ := schema
      unfold checkFields at hfields
      obtain ⟨⟨_, _⟩, c', hlist, hfields⟩ := Check.bind_eq_ok.mp hfields
      have hin := checkFieldList_mistyped hf hkind hgiven hmistyped hlist
      obtain ⟨_, _, hfinish, hfields⟩ := Check.bind_eq_ok.mp hfields
      cases hfields
      exact (finishFields_appends _ _ _ _ _ _ _ _ _ hfinish).subset hin
    obtain ⟨errors, hverdict, hentry⟩ := run_reports hwalk hrun
    exact ⟨errors, hverdict, _, hentry, rfl, rfl, rfl⟩

end Main

/-- The schema does not tell a form from a table: a form is checked like the table of its values,
and a text that spells no integer is never an integer field's value. -/
def TextAlike (parseF64 : String → Option F64) (schema : SchemaDef) : Prop :=
  ∀ (host : Host) (scripts : Scripts),
    (∀ (form : Form schema) (enc : Encoding form) next, ∃ table after,
      buildTable (textParsers parseF64) schema enc.pairs next = .ok (table, after) ∧
        ∀ start, run host scripts schema table start = run host scripts schema form.table start) ∧
    ∀ f ∈ schema.fields, f.2.kind = .integer → ∀ pairs text,
      lastText f.1 pairs = some (.text text) → (∀ i : I64, text ≠ toString i.1) →
        ∀ next, ∃ table after,
          buildTable (textParsers parseF64) schema pairs next = .ok (table, after) ∧
            Refused parseF64 host scripts schema f text table

theorem TextSchema.alike (schema : TextSchema) (parseF64 : String → Option F64)
    (hplain : ∀ f ∈ schema.schema.fields, ¬Marked f.1) : TextAlike parseF64 schema.schema := by
  intro host scripts
  refine ⟨fun form enc next => run_buildTable schema form enc ?_ next, ?_⟩
  · intro piece hpiece _
    obtain ⟨rule, hrule⟩ := Option.isSome_iff_exists.mp
      (form.rule_isSome (enc.declared piece hpiece))
    exact hplain _ (mem_of_rule hrule)
  · intro f hf hkind pairs text htext hnone next
    exact refused_of_text schema hf hkind (hplain f hf) htext hnone next

/-! ## A marked name -/

/-- `{ type = "string", required = true }`. -/
def requiredText : Value :=
  .table 0 0 [(.ofString "type", .ofString "string"), (.ofString "required", .boolean true)]

/-- A schema of one required string. -/
def oneText (name : String) : SchemaDef :=
  ⟨[(name, Rule.ofKeys { kind := .string, required := true })], {}⟩

/-- `schema({}):extend({ [name] = { type = "string", required = true } })`. -/
theorem Built.oneText (name : String) : Built (fun _ => True) (oneText name) := by
  have hempty : Built (fun _ => True) ⟨[], {}⟩ := by
    refine @Built.call _ Library.bare (.schema [] none) _ ?_ trivial rfl
    rintro s ⟨e, he, -⟩
    cases he
  refine @Built.call _ Library.bare (.extend ⟨[], {}⟩ [(.ofString name, requiredText)]) _
    ?_ trivial ?_
  · rintro s (rfl | ⟨e, he, hs⟩)
    · exact hempty
    · rw [List.mem_singleton] at he
      subst he
      cases hs with
      | entry mem inner =>
          simp only [List.mem_cons, List.not_mem_nil, or_false, Prod.mk.injEq] at mem
          obtain ⟨-, rfl⟩ | ⟨-, rfl⟩ := mem
          · cases inner
          · cases inner
  · change SchemaDef.extend Library.bare ⟨[], {}⟩ [(.string (.ofString name), requiredText)] = _
    unfold SchemaDef.extend SchemaDef.extendFields
    rw [LuaString.toStringLossy_ofString]
    rfl

theorem oneText_inForm (name : String) : ∀ f ∈ (oneText name).fields, f.2.InForm := by
  intro f hf
  rw [List.mem_singleton.mp hf]
  exact .inl (.inl rfl)

section Lost

variable {name : String} {p : ℕ} {es : Entries} {parseF64 : String → Option F64}

theorem run_oneText_given (scripts : Scripts) (h : es.field name = .ofString "x") :
    run Host.ascii scripts (oneText name) (.table p 0 es) ⟨none, 1⟩ =
      .ok (.ok (.table 1 0 [(.ofString name, .ofString "x")])) := by
  have hvalue : fieldValue { kind := .string, required := true } es name = .ofString "x" := by
    rw [fieldValue, h]
    rfl
  unfold run walk
  simp only [oneText, checkFields, checkFieldList, Rule.ofKeys, hvalue]
  rfl

theorem run_oneText_absent (scripts : Scripts) (h : es.field name = .nil) :
    ∃ e, run Host.ascii scripts (oneText name) (.table p 0 es) ⟨none, 1⟩ = .ok (.error [e]) := by
  have hvalue : fieldValue { kind := .string, required := true } es name = .nil := by
    rw [fieldValue, h]
  unfold run walk
  simp only [oneText, checkFields, checkFieldList, Rule.ofKeys, hvalue]
  exact ⟨_, rfl⟩

/-- The form that gives the field `x`. -/
def oneTextForm (name : String) : Form (oneText name) where
  given n := if n = name then some (.scalar (.string "x")) else none
  fits n g hg := by
    split at hg
    · rename_i hn
      cases hg
      refine ⟨Rule.ofKeys { kind := .string, required := true }, ?_, rfl⟩
      simp [oneText, SchemaDef.rule, hn]
    · cases hg
  pointer := 0
  entries := [(.ofString name, .ofString "x")]
  keys e he := by
    rw [List.mem_singleton.mp he]
    exact ⟨name, rfl, by rw [if_pos rfl]; rfl⟩
  field n := by
    split
    · rename_i hn
      rw [hn]
      simp [Given.Shown, Entries.field, Entries.get, FormValue.value]
    · rename_i hn
      simp [Given.Shown, Entries.field, Entries.get, Key.ofString_inj, Ne.symm hn]

/-- The field's one key, without brackets. -/
def oneTextEncoding (name : String) : Encoding (oneTextForm name) where
  pieces := [(name, false, "x")]
  declared piece hpiece := by
    rw [List.mem_singleton.mp hpiece]
    simp [oneTextForm]
  spelled n g hg := by
    simp only [oneTextForm] at hg
    split at hg
    · rename_i hn
      cases hg
      simp [hn, Given.values, FormValue.spell]
    · cases hg

/-- A field with a marked name is lost: its value goes to the name without the mark. -/
theorem not_textAlike (h : Marked name) : ¬TextAlike parseF64 (oneText name) := by
  intro halike
  obtain ⟨hforms, -⟩ := halike Host.ascii ⟨fun _ _ => .ok []⟩
  obtain ⟨table, after, hbuild, hrun⟩ := hforms (oneTextForm name) (oneTextEncoding name) 0
  have hrule : (oneText name).rule (normalName name) = none := by
    simp [oneText, SchemaDef.rule, Ne.symm (normalName_of_marked h)]
  have htable : buildTable (textParsers parseF64) (oneText name) (oneTextEncoding name).pairs 0 =
      .ok (.table 0 0 [(.ofString (normalName name), .ofString "x")], 2) := by
    have hgroups : groupPairs (oneTextEncoding name).pairs = [(normalName name, [.text "x"])] := rfl
    rw [buildTable, hgroups]
    unfold buildEntries groupValue
    rw [hrule]
    rfl
  rw [htable] at hbuild
  cases hbuild
  obtain ⟨e, habsent⟩ := @run_oneText_absent name 0
    [(.ofString (normalName name), .ofString "x")] ⟨fun _ _ => .ok []⟩ (by
      simp [Entries.field, Entries.get, Key.ofString_inj, normalName_of_marked h])
  have hgiven := @run_oneText_given name 0 (oneTextForm name).entries ⟨fun _ _ => .ok []⟩ (by
    simp [oneTextForm, Entries.field, Entries.get])
  have hsame := hrun ⟨none, 1⟩
  rw [habsent] at hsame
  cases hsame.trans hgiven

end Lost

/-- Schemas do not tell a form from a table exactly if none of their names ends like the key of a
list. -/
theorem text_forms (parseF64 : String → Option F64) (names : Set String) :
    (∀ schema : TextSchema, Built (fun _ => True) schema.schema →
      (∀ f ∈ schema.schema.fields, f.1 ∈ names) → TextAlike parseF64 schema.schema) ↔
    ∀ name ∈ names, ¬Marked name := by
  constructor
  · intro halike name hname hmarked
    refine not_textAlike hmarked (halike ⟨oneText name, oneText_inForm name⟩ (.oneText name) ?_)
    intro f hf
    rw [List.mem_singleton.mp hf]
    exact hname
  · intro hplain schema _ hnames
    exact schema.alike parseF64 fun f hf => hplain _ (hnames f hf)

/-- `schema({}):extend({ ["a[]"] = { type = "string", required = true } })`: the form `a[]=x` is a
table with `a`, and the field is missing; the table with `a[]` is accepted. -/
theorem text_forms_marked :
    Built (fun _ => True) (oneText "a[]") ∧
      buildTable (textParsers fun _ => none) (oneText "a[]") [("a[]", .text "x")] 0 =
        .ok (.table 0 0 [(.ofString "a", .ofString "x")], 2) ∧
      (∃ e, run Host.ascii ⟨fun _ _ => .ok []⟩ (oneText "a[]")
          (.table 0 0 [(.ofString "a", .ofString "x")]) ⟨none, 2⟩ = .ok (.error [e]) ∧
        e.path = "a[]" ∧ e.rule = "required") ∧
      run Host.ascii ⟨fun _ _ => .ok []⟩ (oneText "a[]")
          (.table 0 0 [(.ofString "a[]", .ofString "x")]) ⟨none, 2⟩ =
        .ok (.ok (.table 2 0 [(.ofString "a[]", .ofString "x")])) ∧
      ¬∀ schema : TextSchema, Built (fun _ => True) schema.schema →
        TextAlike (fun _ => none) schema.schema := by
  refine ⟨.oneText _, rfl, ⟨_, rfl, rfl, rfl⟩, rfl, ?_⟩
  intro h
  exact not_textAlike (by decide) (h ⟨oneText "a[]", oneText_inForm _⟩ (.oneText _))

end Nitr.Validate
