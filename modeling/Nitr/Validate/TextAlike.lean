import Nitr.Validate.Spelling

/-! # Forms and their tables

Tables that differ in the identity of their lists are checked alike, and the pairs of a
form give each field the value the form has for it. -/

namespace Nitr.Validate

/-! ## Runs over alike tables -/

/-- The same value, or two lists of the same items. -/
inductive SameValue : Value → Value → Prop where
  | refl (v : Value) : SameValue v v
  | list {p q len : ℕ} {es es' : Entries} (first : isSequence len es = true)
      (second : isSequence len es' = true) (items : itemsOf len es = itemsOf len es') :
      SameValue (.table p len es) (.table q len es')

/-- A rule of a form does not tell such values apart. -/
theorem checkValue_same {host : Host} {rule : Rule} (hrule : rule.InForm) {v w : Value}
    (h : SameValue v w) (site : Site) : checkValue host rule v site = checkValue host rule w site := by
  cases h with
  | refl => rfl
  | list first second items =>
      rw [checkValue_eq, checkValue_eq]
      congr 1
      unfold checkKind
      rcases hrule with (hkind | hkind | hkind) | ⟨hkind, -⟩
      · rw [hkind]
        rfl
      · rw [hkind]
        rfl
      · rw [hkind]
        rfl
      · rw [hkind]
        simp only [checkArray, first, second, items]

theorem fieldValue_same {rule : RuleKeys} {input input' : Entries} {name : String}
    (h : SameValue (input.field name) (input'.field name)) :
    SameValue (fieldValue rule input name) (fieldValue rule input' name) := by
  unfold fieldValue
  generalize input.field name = v at h ⊢
  generalize input'.field name = w at h ⊢
  cases h with
  | refl => exact .refl _
  | list first second items => exact .list first second items

theorem isNil_same {v w : Value} (h : SameValue v w) : v.isNil = w.isNil := by
  cases h <;> rfl

section Run

variable {host : Host} {scripts : Scripts} {input input' : Entries}

theorem checkFieldList_same {fields : List (String × Rule)} (hrules : ∀ f ∈ fields, f.2.InForm)
    (h : ∀ f ∈ fields, SameValue (input.field f.1) (input'.field f.1)) (owner : SchemaOptions)
    (path : FieldPath) (pointer : ℕ) (ok : Bool) (out : Entries) :
    checkFieldList host fields owner input path pointer ok out =
      checkFieldList host fields owner input' path pointer ok out := by
  induction fields generalizing ok out with
  | nil =>
      unfold checkFieldList
      rfl
  | cons f rest ih =>
      obtain ⟨name, rule⟩ := f
      have hrest := ih (fun f hf => hrules f (List.mem_cons_of_mem _ hf))
        fun f hf => h f (List.mem_cons_of_mem _ hf)
      have hsame := @fieldValue_same rule.toRuleKeys _ _ _ (h (name, rule) List.mem_cons_self)
      have hcheck := fun site =>
        @checkValue_same host rule (hrules (name, rule) List.mem_cons_self) _ _ hsame site
      unfold checkFieldList
      simp only [isNil_same hsame, hcheck, hrest]

theorem checkFields_same {schema : SchemaDef} (hrules : ∀ f ∈ schema.fields, f.2.InForm)
    (h : ∀ f ∈ schema.fields, SameValue (input.field f.1) (input'.field f.1))
    (hknown : unknownKeys schema input = unknownKeys schema input') (path : FieldPath)
    (pointer : ℕ) :
    checkFields host schema input path pointer = checkFields host schema input' path pointer := by
  obtain ⟨fields, options⟩ := schema
  have hfinish : ∀ ok out, finishFields host ⟨fields, options⟩ input path pointer ok out =
      finishFields host ⟨fields, options⟩ input' path pointer ok out := by
    intro ok out
    have hreport : reportUnknown host ⟨fields, options⟩ input path =
        reportUnknown host ⟨fields, options⟩ input' path := by
      unfold reportUnknown
      rw [hknown]
    unfold finishFields checkKnown
    rw [hreport]
  unfold checkFields
  rw [checkFieldList_same hrules h]
  simp only [hfinish]

/-- Tables with the same fields and no others have the same run. -/
theorem run_same {schema : SchemaDef} (hrules : ∀ f ∈ schema.fields, f.2.InForm)
    (h : ∀ f ∈ schema.fields, SameValue (input.field f.1) (input'.field f.1))
    (hknown : unknownKeys schema input = unknownKeys schema input') (p q len len' : ℕ)
    (start : Start) : run host scripts schema (.table p len input) start =
      run host scripts schema (.table q len' input') start := by
  have hwalk : walk host schema (.table p len input) = walk host schema (.table q len' input') := by
    unfold walk
    simp only [checkFields_same hrules h hknown]
  unfold run
  rw [hwalk]

end Run

/-! ## Forms -/

/-- What a form gives a field: one value, or a list that is not empty. -/
inductive Given where
  | scalar (v : FormValue)
  | list (first : FormValue) (rest : List FormValue)

namespace Given

def values : Given → List FormValue
  | scalar v => [v]
  | list first rest => first :: rest

/-- The value has the type the rule asks for. -/
def Fits : Given → Rule → Prop
  | scalar v, rule => rule.kind = v.kind
  | list first rest, rule => rule.kind = .array ∧
      ∃ items, rule.items = some items ∧ ∀ v ∈ first :: rest, v.kind = items.kind

/-- The Lua value is that of the field. -/
def Shown : Option Given → Value → Prop
  | none, w => w = .nil
  | some (scalar v), w => w = v.value
  | some (list first rest), w => ∃ p es, w = .table p (rest.length + 1) es ∧
      isSequence (rest.length + 1) es = true ∧
        itemsOf (rest.length + 1) es = (first :: rest).map FormValue.value

end Given

/-- A schema of rules that a form can answer. -/
structure TextSchema where
  schema : SchemaDef
  inForm : ∀ f ∈ schema.fields, f.2.InForm

/-- A table that gives fields of a schema values of their types. -/
structure Form (schema : SchemaDef) where
  given : String → Option Given
  fits : ∀ name g, given name = some g → ∃ rule, schema.rule name = some rule ∧ g.Fits rule
  pointer : ℕ
  entries : Entries
  keys : ∀ e ∈ entries, ∃ name, e.1 = .ofString name ∧ (given name).isSome = true
  field : ∀ name, Given.Shown (given name) (entries.field name)

def Form.table {schema : SchemaDef} (form : Form schema) : Value :=
  .table form.pointer 0 form.entries

/-- A form as text: each piece has a name, whether its key is written with brackets, and a text. -/
structure Encoding {schema : SchemaDef} (form : Form schema) where
  pieces : List (String × Bool × String)
  declared : ∀ piece ∈ pieces, (form.given piece.1).isSome = true
  spelled : ∀ name g, form.given name = some g →
    (pieces.filter (·.1 = name)).map (·.2.2) = g.values.map FormValue.spell

/-- The raw pairs of a form. -/
def Encoding.pairs {schema : SchemaDef} {form : Form schema} (enc : Encoding form) :
    List (String × TextValue) :=
  enc.pieces.map fun piece =>
    (if piece.2.1 then piece.1 ++ "[]" else piece.1, .text piece.2.2)

section Forms

variable {schema : SchemaDef}

theorem mem_of_rule {name : String} {rule : Rule} (h : schema.rule name = some rule) :
    (name, rule) ∈ schema.fields := by
  obtain ⟨f, hf, rfl⟩ := Option.map_eq_some_iff.mp h
  have hname : f.1 = name := by simpa using List.find?_some hf
  rw [← hname]
  exact List.mem_of_find?_eq_some hf

theorem TextSchema.hasItems (schema : TextSchema) : HasItems schema.schema := by
  intro name rule hrule harray
  rcases schema.inForm _ (mem_of_rule hrule) with (hkind | hkind | hkind) | ⟨-, items, hitems, -⟩
  · rw [harray] at hkind
    cases hkind
  · rw [harray] at hkind
    cases hkind
  · rw [harray] at hkind
    cases hkind
  · rw [hitems]
    rfl

theorem SchemaDef.rule_isSome_of_mem (schema : SchemaDef) {f : String × Rule}
    (h : f ∈ schema.fields) : (schema.rule f.1).isSome = true := by
  rw [SchemaDef.rule, Option.isSome_map, List.find?_isSome]
  exact ⟨f, h, by simp⟩

theorem unknownKeys_eq_nil {entries : Entries} (h : ∀ e ∈ entries, ∃ name,
    e.1 = .ofString name ∧ (schema.rule name).isSome = true) : unknownKeys schema entries = [] := by
  rw [unknownKeys, List.filterMap_eq_nil_iff]
  intro e he
  obtain ⟨name, hkey, hrule⟩ := h e he
  rw [hkey]
  simp [Key.ofString, hrule]

variable {form : Form schema}

theorem Form.rule_isSome (form : Form schema) {name : String}
    (h : (form.given name).isSome = true) : (schema.rule name).isSome = true := by
  obtain ⟨g, hg⟩ := Option.isSome_iff_exists.mp h
  obtain ⟨rule, hrule, -⟩ := form.fits name g hg
  rw [hrule]
  rfl

/-- The values the pairs of a form have under a name. -/
theorem Encoding.valuesOf_pairs (enc : Encoding form)
    (hplain : ∀ piece ∈ enc.pieces, piece.2.1 = false → ¬Marked piece.1) (name : String) :
    valuesOf name enc.pairs =
      ((enc.pieces.filter (·.1 = name)).map (·.2.2)).map TextValue.text := by
  have hname : ∀ piece ∈ enc.pieces,
      normalName (if piece.2.1 then piece.1 ++ "[]" else piece.1) = piece.1 := by
    intro piece hpiece
    split
    · exact normalName_brackets _
    · rename_i hbare
      exact normalName_of_not_marked (hplain piece hpiece (Bool.eq_false_iff.mpr hbare))
  rw [valuesOf, Encoding.pairs, List.filter_map, List.map_map, List.map_map]
  congr 1
  refine List.filter_congr ?_
  intro piece hpiece
  simp only [Function.comp_apply, hname piece hpiece]

/-- The entries of a list under `1`, `2`, …. -/
def listEntries (list : List Value) : Entries := list.zipIdx.map fun e => (.integer (e.2 + 1), e.1)

theorem isSequence_listEntries (list : List Value) :
    isSequence list.length (listEntries list) = true :=
  isSequence_zipIdx list

theorem itemsOf_listEntries (list : List Value) :
    itemsOf list.length (listEntries list) = list := by
  have hkeys : (listEntries list).keys =
      (list.zipIdx.map Prod.snd).map fun i => .integer (i + 1) := by
    rw [Entries.keys, listEntries, List.map_map, List.map_map]
    rfl
  have hnodup : (listEntries list).keys.Nodup := by
    rw [hkeys]
    rw [List.zipIdx_map_snd]
    refine List.Nodup.map ?_ List.nodup_range'
    intro i j hij
    have : ((i : ℤ) + 1) = j + 1 := Key.integer.inj hij
    omega
  apply List.ext_getElem
  · simp [itemsOf]
  · intro i hi hi'
    have hmem : (Key.integer (i + 1), list[i]) ∈ listEntries list := by
      refine List.mem_map.mpr ⟨(list[i], i), ?_, rfl⟩
      rw [List.mem_zipIdx_iff_getElem?]
      exact List.getElem?_eq_getElem hi'
    have hget := Entries.get_of_mem hnodup hmem
    simpa [itemsOf] using hget

/-- The group of a field is coerced to the value of the field. -/
theorem groupValue_given {parseF64 : String → Option F64} {name : String} {rule : Rule} {g : Given}
    (hrule : schema.rule name = some rule) (hfits : g.Fits rule) {pointer : ℕ}
    {value : Option Value} (h : groupValue (textParsers parseF64) schema pointer name
      ((g.values.map FormValue.spell).map TextValue.text) = .ok value) :
    Given.Shown (some g) (value.getD .nil) := by
  unfold groupValue at h
  rw [hrule] at h
  cases g with
  | scalar v =>
      have hkind : rule.kind = v.kind := hfits
      have harray : rule.kind ≠ .array := by
        rw [hkind]
        intro hv
        cases v <;> cases hv
      simp only [if_neg harray, Given.values, List.map_cons, List.map_nil,
        List.getLast?_singleton, Option.bind_some] at h
      rw [hkind, toValue_spell, Except.ok.injEq] at h
      rw [← h]
      rfl
  | list first rest =>
      obtain ⟨harray, items, hitems, hkinds⟩ := hfits
      have hlist : (((first :: rest).map FormValue.spell).map TextValue.text).filterMap
          (TextValue.toValue (textParsers parseF64) items.kind) =
            (first :: rest).map FormValue.value := by
        rw [List.map_map, List.filterMap_map, ← List.filterMap_eq_map]
        refine List.filterMap_congr ?_
        intro v hv
        change (TextValue.text v.spell).toValue (textParsers parseF64) items.kind = some v.value
        rw [← hkinds v hv, toValue_spell]
      simp only [harray, if_true, hitems, Given.values, hlist, Except.ok.injEq] at h
      rw [← h]
      have hlength : ((first :: rest).map FormValue.value).length = rest.length + 1 := by simp
      have hseq := isSequence_listEntries ((first :: rest).map FormValue.value)
      have hitems := itemsOf_listEntries ((first :: rest).map FormValue.value)
      rw [hlength] at hseq hitems
      exact ⟨pointer, _, by rw [Option.getD_some, ← hlength]; rfl, hseq, hitems⟩

theorem sameValue_of_shown {g : Option Given} {v w : Value} (hv : Given.Shown g v)
    (hw : Given.Shown g w) : SameValue v w := by
  match g, hv, hw with
  | none, hv, hw =>
      rw [show v = .nil from hv, show w = .nil from hw]
      exact .refl _
  | some (.scalar s), hv, hw =>
      rw [show v = s.value from hv, show w = s.value from hw]
      exact .refl _
  | some (.list first rest), hv, hw =>
      obtain ⟨p, es, rfl, hseq, hitems⟩ := hv
      obtain ⟨q, es', rfl, hseq', hitems'⟩ := hw
      exact .list hseq hseq' (hitems.trans hitems'.symm)

end Forms

end Nitr.Validate
