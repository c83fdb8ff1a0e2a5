import Nitr.Lib.Ensures
import Nitr.Validate.Derive

/-! # Well-formed schemas

What the checker and the exporter rely on in a compiled schema, at every depth,
and that compilation establishes it. -/

namespace Nitr.Validate

/-! ## The invariant -/

/-- A rule carries the parts its kind needs, and only strings have formats. -/
structure Rule.Complete (rule : Rule) : Prop where
  items : rule.kind = .array → rule.items.isSome
  fields : rule.kind = .table → rule.fields.isSome
  values : rule.kind = .map → rule.values.isSome
  anyBytes : rule.kind = .any → rule.maxBytes.isSome
  fileBytes : rule.kind = .file → rule.maxBytes.isSome
  file : rule.kind = .file → rule.file.isSome
  format : rule.kind ≠ .string → rule.format = none

namespace SchemaDef

/-- The fields are sorted under distinct, usable names, and each is found under
its own. -/
structure Named (schema : SchemaDef) : Prop where
  sorted : (schema.fields.map (·.1)).Pairwise (· < ·)
  nonempty : ∀ f ∈ schema.fields, f.1 ≠ ""
  plain : ∀ f ∈ schema.fields, '.' ∉ f.1.toList ∧ '[' ∉ f.1.toList ∧ ']' ∉ f.1.toList
  found : ∀ f ∈ schema.fields, schema.rule f.1 = some f.2

/-- All of the named fields are numbers, or all are strings of one temporal
format. -/
def Comparable (schema : SchemaDef) (names : List String) : Prop :=
  (∀ n ∈ names, ∃ r, schema.rule n = some r ∧ r.kind.isNumeric) ∨
    ∃ format ∈ ["date", "datetime", "time"], ∀ n ∈ names, ∃ r, schema.rule n = some r ∧
      r.kind = .string ∧ r.format.map (·.name) = some format

/-- Groups name declared fields only, and `ordered` groups comparable ones. -/
structure Grouped (schema : SchemaDef) : Prop where
  declared : ∀ g ∈ schema.options.groups, ∀ n ∈ g.2.fields, ∃ f ∈ schema.fields, f.1 = n
  comparable : ∀ g ∈ schema.options.ordered, schema.Comparable g.fields

end SchemaDef

mutual

inductive Rule.WellFormed : Rule → Prop where
  | intro {rule : Rule} (complete : rule.Complete)
      (items : ∀ r, rule.items = some r → r.WellFormed)
      (keys : ∀ r, rule.keys = some r → r.WellFormed)
      (values : ∀ r, rule.values = some r → r.WellFormed)
      (filename : ∀ r, rule.filename = some r → r.WellFormed)
      (fields : ∀ s, rule.fields = some s → s.WellFormed) : rule.WellFormed

inductive SchemaDef.WellFormed : SchemaDef → Prop where
  | intro {schema : SchemaDef} (named : schema.Named) (grouped : schema.Grouped)
      (rules : ∀ f ∈ schema.fields, f.2.WellFormed) : schema.WellFormed

end

/-! ## Tidy arguments

Rule values nest other rules under these keys, field tables under `fields`, and
compiled schemas in either place. -/

def nestedKeys : List String := ["items", "keys", "values", "filename"]

/-- The schema occurs in the value. -/
inductive Value.Has (schema : SchemaDef) : Value → Prop where
  | here : Has schema (.schema schema)
  | entry {pointer len : ℕ} {entries : Entries} {key : Key} {value : Value}
      (mem : (key, value) ∈ entries) (inner : Has schema value) :
      Has schema (.table pointer len entries)

/-- The table is one that compiling the rule value reads as a table of fields. -/
inductive FieldTable (fields : Entries) : Value → Prop where
  | here {pointer len p l : ℕ} {entries : Entries}
      (mem : (.ofString "fields", .table p l fields) ∈ entries) :
      FieldTable fields (.table pointer len entries)
  | field {pointer len p l : ℕ} {entries inner : Entries} {key : Key} {value : Value}
      (mem : (.ofString "fields", .table p l inner) ∈ entries) (field : (key, value) ∈ inner)
      (below : FieldTable fields value) : FieldTable fields (.table pointer len entries)
  | nested {pointer len : ℕ} {entries : Entries} {key : String} {value : Value}
      (named : key ∈ nestedKeys) (mem : (.ofString key, value) ∈ entries)
      (below : FieldTable fields value) : FieldTable fields (.table pointer len entries)

/-- The field name a key spells. -/
def Key.text : Key → Option String
  | .string s => some s.toStringLossy
  | _ => none

/-- No two keys of a field table decode to one name. -/
def DistinctNames (fields : Entries) : Prop := (fields.filterMap (·.1.text)).Nodup

instance (fields : Entries) : Decidable (DistinctNames fields) :=
  inferInstanceAs (Decidable (List.Nodup _))

/-- Every schema in the value is well formed, every field table in it has distinct
names. -/
structure Value.Sound (value : Value) : Prop where
  schemas : ∀ s, value.Has s → s.WellFormed
  tables : ∀ t, FieldTable t value → DistinctNames t

/-- What the `fields` key of a rule may hold. -/
structure Value.SoundFields (value : Value) : Prop where
  schema : ∀ s, value = .schema s → s.WellFormed
  names : ∀ p l t, value = .table p l t → DistinctNames t
  rules : ∀ p l t, value = .table p l t → ∀ e ∈ t, e.2.Sound

structure Entries.Sound (rule : Entries) : Prop where
  nested : ∀ key ∈ nestedKeys, (rule.field key).Sound
  fields : (rule.field "fields").SoundFields

/-! ## What the compiler establishes of one rule -/

open Except

theorem badSchema_ensures {α : Type} {path msg : String} {p : α → Prop} :
    Ensures (badSchema path msg) p := Ensures.error

theorem refuseIf_eq_ok {condition : Bool} {path msg : String} {u : Unit}
    (h : refuseIf condition path msg = .ok u) : condition = false := by
  unfold refuseIf badSchema at h
  cases condition with
  | false => rfl
  | true => simp at h

section Compiled

variable {lib : Library} {left : ℕ} {nested : Value → String → Except String Rule}

theorem compileCommon_ensures (rule : Entries) (kind : Kind) (path : String) :
    Ensures (compileCommon lib rule kind path)
      (fun out => out.kind = kind ∧ out.format = none) := by
  unfold compileCommon
  iterate 15 (apply Ensures.bind; intro _ _)
  exact Ensures.pure ⟨rfl, rfl⟩

theorem compileString_ensures (rule : Entries) (out : RuleKeys) (path : String) :
    Ensures (compileString lib rule out path) (fun keys => keys.kind = out.kind) := by
  unfold compileString
  iterate 13 (apply Ensures.bind; intro _ _)
  exact Ensures.pure rfl

theorem compileNumber_ensures (rule : Entries) (out : RuleKeys) (path : String) :
    Ensures (compileNumber lib rule out path)
      (fun keys => keys.kind = out.kind ∧ keys.format = out.format) := by
  unfold compileNumber
  iterate 8 (apply Ensures.bind; intro _ _)
  exact Ensures.pure ⟨rfl, rfl⟩

/-- A rule that nests nothing is well formed once complete. -/
theorem wellFormed_ofKeys {keys : RuleKeys} (h : (Rule.ofKeys keys).Complete) :
    (Rule.ofKeys keys).WellFormed := by
  refine .intro h ?_ ?_ ?_ ?_ ?_ <;> intro _ hr <;> simp [Rule.ofKeys] at hr

/-- Well-formedness ignores the keys that no kind requires. -/
theorem Rule.WellFormed.relabel {rule : Rule} (h : rule.WellFormed) (label : Option String) :
    Rule.WellFormed { rule with label } := by
  obtain ⟨hc, hi, hk, hv, hn, hf⟩ := h
  exact .intro ⟨hc.items, hc.fields, hc.values, hc.anyBytes, hc.fileBytes, hc.file, hc.format⟩
    hi hk hv hn hf

theorem Rule.WellFormed.optional {rule : Rule} (h : rule.WellFormed) :
    Rule.WellFormed { rule with required := false, default := none } := by
  obtain ⟨hc, hi, hk, hv, hn, hf⟩ := h
  exact .intro ⟨hc.items, hc.fields, hc.values, hc.anyBytes, hc.fileBytes, hc.file, hc.format⟩
    hi hk hv hn hf

theorem compileStringRule_ensures {value : Value} {path sub refusal : String}
    (hn : ∀ v sub, v.Sound → Ensures (nested v sub) Rule.WellFormed) (hs : value.Sound) :
    Ensures (compileStringRule nested value path sub refusal)
      (fun out => ∀ r, out = some r → r.WellFormed) := by
  unfold compileStringRule
  split
  · apply Ensures.pure
    intro r hr
    cases hr
  · apply Ensures.bind
    intro rule hrule
    apply Ensures.bind
    intro _ _
    apply Ensures.pure
    intro r hr
    cases hr
    exact hn _ _ hs _ hrule

theorem compileArray_ensures {rule : Entries} {out : RuleKeys} {path : String}
    (hk : out.kind = .array) (hf : out.format = none)
    (hn : ∀ v sub, v.Sound → Ensures (nested v sub) Rule.WellFormed) (hs : rule.Sound) :
    Ensures (compileArray lib nested rule out path) Rule.WellFormed := by
  unfold compileArray
  apply Ensures.bind
  intro _ _
  apply Ensures.bind
  intro items hitems
  iterate 9 (apply Ensures.bind; intro _ _)
  apply Ensures.pure
  refine .intro ?_ ?_ ?_ ?_ ?_ ?_
  · constructor <;> simp [Rule.ofKeys, hk, hf]
  · intro r hr
    cases hr
    exact hn _ _ (hs.nested "items" (by decide)) _ hitems
  all_goals
    intro r hr
    simp [Rule.ofKeys] at hr

theorem compileMap_ensures {rule : Entries} {out : RuleKeys} {path : String}
    (hk : out.kind = .map) (hf : out.format = none)
    (hn : ∀ v sub, v.Sound → Ensures (nested v sub) Rule.WellFormed) (hs : rule.Sound) :
    Ensures (compileMap lib nested rule out path) Rule.WellFormed := by
  unfold compileMap
  apply Ensures.bind
  intro keys hkeys
  apply Ensures.bind
  intro _ _
  apply Ensures.bind
  intro values hvalues
  iterate 3 (apply Ensures.bind; intro _ _)
  apply Ensures.pure
  refine .intro ?_ ?_ ?_ ?_ ?_ ?_
  · constructor <;> simp [Rule.ofKeys, hk, hf]
  · intro r hr
    simp [Rule.ofKeys] at hr
  · intro r hr
    cases hr
    exact compileStringRule_ensures hn (hs.nested "keys" (by decide)) _ hkeys _ rfl
  · intro r hr
    cases hr
    exact hn _ _ (hs.nested "values" (by decide)) _ hvalues
  all_goals
    intro r hr
    simp [Rule.ofKeys] at hr

theorem compileAny_ensures {rule : Entries} {out : RuleKeys} {path : String}
    (hk : out.kind = .any) (hf : out.format = none) :
    Ensures (compileAny lib rule out path) Rule.WellFormed := by
  unfold compileAny
  apply Ensures.bind
  intro maxBytes _
  apply Ensures.bind
  intro _ hbytes
  apply Ensures.pure
  have hb : maxBytes.isSome := by simpa using refuseIf_eq_ok hbytes
  apply wellFormed_ofKeys
  constructor <;> simp [Rule.ofKeys, hk, hf, hb]

theorem compileFileRule_ensures {rule : Entries} {path : String}
    (hn : ∀ v sub, v.Sound → Ensures (nested v sub) Rule.WellFormed) (hs : rule.Sound) :
    Ensures (compileFileRule lib nested rule path)
      (fun out => ∀ r, out.2 = some r → r.WellFormed) := by
  unfold compileFileRule
  iterate 4 (apply Ensures.bind; intro _ _)
  apply Ensures.bind
  intro filename hname
  iterate 10 (apply Ensures.bind; intro _ _)
  apply Ensures.pure
  intro r hr
  obtain ⟨inner, hinner, rfl⟩ := Option.map_eq_some_iff.mp hr
  have hw := compileStringRule_ensures hn (hs.nested "filename" (by decide)) _ hname inner hinner
  exact hw.relabel _

theorem compileFile_ensures {rule : Entries} {out : RuleKeys} {path : String}
    (hk : out.kind = .file) (hf : out.format = none)
    (hn : ∀ v sub, v.Sound → Ensures (nested v sub) Rule.WellFormed) (hs : rule.Sound) :
    Ensures (compileFile lib nested rule out path) Rule.WellFormed := by
  unfold compileFile
  apply Ensures.bind
  intro maxBytes _
  apply Ensures.bind
  intro _ hbytes
  apply Ensures.bind
  intro file hfile
  have hb : maxBytes.isSome := by simpa using refuseIf_eq_ok hbytes
  apply Ensures.pure
  refine .intro ?_ ?_ ?_ ?_ ?_ ?_
  · constructor <;> simp [Rule.ofKeys, hk, hf, hb]
  · intro r hr
    simp [Rule.ofKeys] at hr
  · intro r hr
    simp [Rule.ofKeys] at hr
  · intro r hr
    simp [Rule.ofKeys] at hr
  · intro r hr
    exact compileFileRule_ensures hn hs _ hfile r hr
  · intro r hr
    simp [Rule.ofKeys] at hr

end Compiled

/-! ## Field names -/

theorem perm_sortFields (fields : List (String × Rule)) : (sortFields fields).Perm fields :=
  List.perm_insertionSort _ _

theorem sorted_sortFields (fields : List (String × Rule)) :
    (sortFields fields).Pairwise (fun a b => a.1 ≤ b.1) := by
  have : Std.Total (fun a b : String × Rule => a.1 ≤ b.1) := ⟨fun a b => le_total a.1 b.1⟩
  have : IsTrans (String × Rule) (fun a b => a.1 ≤ b.1) := ⟨fun _ _ _ => le_trans⟩
  exact List.pairwise_insertionSort _ _

/-- Under distinct names the first field of a name is the only one. -/
theorem SchemaDef.rule_of_mem {schema : SchemaDef} (hd : (schema.fields.map (·.1)).Nodup)
    {f : String × Rule} (hf : f ∈ schema.fields) : schema.rule f.1 = some f.2 := by
  unfold SchemaDef.rule
  generalize schema.fields = fields at hd hf
  induction fields with
  | nil => simp at hf
  | cons g rest ih =>
    simp only [List.map_cons, List.nodup_cons] at hd
    rw [List.find?_cons]
    rcases List.mem_cons.mp hf with rfl | hr
    · simp
    · have hne : g.1 ≠ f.1 := by
        intro he
        apply hd.1
        rw [he]
        exact List.mem_map_of_mem hr
      simp only [hne, decide_false]
      exact ih hd.2 hr

theorem validFieldName_iff {name : String} :
    validFieldName name = true ↔
      name ≠ "" ∧ '.' ∉ name.toList ∧ '[' ∉ name.toList ∧ ']' ∉ name.toList := by
  unfold validFieldName
  simp only [Bool.and_eq_true, Bool.not_eq_true', decide_eq_false_iff_not, List.any_eq_false,
    Bool.or_eq_true, decide_eq_true_eq]
  constructor
  · rintro ⟨hne, hc⟩
    refine ⟨hne, ?_, ?_, ?_⟩ <;> intro hm <;> exact hc _ hm (by simp)
  · rintro ⟨hne, h₁, h₂, h₃⟩
    refine ⟨hne, fun c hm he => ?_⟩
    rcases he with (rfl | rfl) | rfl
    · exact h₁ hm
    · exact h₂ hm
    · exact h₃ hm

/-- Sorting fields of distinct, valid names gives a named schema. -/
theorem SchemaDef.named_of_sorted {schema : SchemaDef}
    (hs : schema.fields.Pairwise (fun a b => a.1 ≤ b.1))
    (hd : (schema.fields.map (·.1)).Nodup)
    (hv : ∀ f ∈ schema.fields, validFieldName f.1 = true) : schema.Named := by
  refine ⟨?_, ?_, ?_, fun f hf => rule_of_mem hd hf⟩
  · have hle : (schema.fields.map (·.1)).Pairwise (· ≤ ·) := List.pairwise_map.mpr hs
    exact (hle.and hd).imp (fun ⟨h₁, h₂⟩ => lt_of_le_of_ne h₁ h₂)
  · intro f hf
    exact (validFieldName_iff.mp (hv f hf)).1
  · intro f hf
    exact (validFieldName_iff.mp (hv f hf)).2

theorem SchemaDef.Named.nodup {schema : SchemaDef} (h : schema.Named) :
    (schema.fields.map (·.1)).Nodup := h.sorted.imp (fun hlt => ne_of_lt hlt)

theorem SchemaDef.Named.valid {schema : SchemaDef} (h : schema.Named) {f : String × Rule}
    (hf : f ∈ schema.fields) : validFieldName f.1 = true :=
  validFieldName_iff.mpr ⟨h.nonempty f hf, h.plain f hf⟩

theorem SchemaDef.Named.sorted_le {schema : SchemaDef} (h : schema.Named) :
    schema.fields.Pairwise (fun a b => a.1 ≤ b.1) :=
  (List.pairwise_map.mp h.sorted).imp (fun hlt => le_of_lt hlt)

/-- Without options there are no groups to satisfy. -/
theorem SchemaDef.grouped_default (fields : List (String × Rule)) :
    SchemaDef.Grouped ⟨fields, {}⟩ := by
  constructor <;> simp [SchemaOptions.groups]

section Compiled

variable {lib : Library} {left : ℕ} {nested : Value → String → Except String Rule}

theorem compileField_ensures {path : String} {e : Key × Value}
    (hn : ∀ v sub, v.Sound → Ensures (nested v sub) Rule.WellFormed) (hs : e.2.Sound) :
    Ensures (compileField nested path e)
      (fun f => e.1.text = some f.1 ∧ validFieldName f.1 = true ∧ f.2.WellFormed) := by
  obtain ⟨key, value⟩ := e
  cases key with
  | string name =>
      unfold compileField
      apply Ensures.bind
      intro _ hvalid
      apply Ensures.bind
      intro rule hrule
      apply Ensures.pure
      refine ⟨rfl, ?_, hn _ _ hs _ hrule⟩
      simpa using refuseIf_eq_ok hvalid
  | integer i => exact badSchema_ensures
  | other p => exact badSchema_ensures

/-- The compiled fields carry the decoded names in order. -/
theorem names_of_forall₂ {fields : Entries} {compiled : List (String × Rule)}
    (h : List.Forall₂ (fun (e : Key × Value) (f : String × Rule) => e.1.text = some f.1)
      fields compiled) :
    fields.filterMap (·.1.text) = compiled.map (·.1) := by
  induction h with
  | nil => rfl
  | cons he _ ih => simp [he, ih]

theorem compileFields_ensures {fields : Entries} {path : String}
    (hn : ∀ v sub, v.Sound → Ensures (nested v sub) Rule.WellFormed)
    (hs : ∀ e ∈ fields, e.2.Sound) (hd : DistinctNames fields) :
    Ensures (compileFields left nested fields path)
      (fun fs => SchemaDef.Named ⟨fs, {}⟩ ∧ ∀ f ∈ fs, f.2.WellFormed) := by
  unfold compileFields
  apply Ensures.bind
  intro _ _
  apply Ensures.bind
  intro compiled hc
  apply Ensures.pure
  have hall : List.Forall₂ (fun (e : Key × Value) (f : String × Rule) =>
      e.1.text = some f.1 ∧ validFieldName f.1 = true ∧ f.2.WellFormed) fields compiled := by
    have hm := Ensures.mapM fields compiled hc
    rw [List.forall₂_iff_get] at hm ⊢
    refine ⟨hm.1, fun i h₁ h₂ => ?_⟩
    exact compileField_ensures hn (hs _ (List.get_mem fields ⟨i, h₁⟩)) _ (hm.2 i h₁ h₂)
  have hnames : fields.filterMap (·.1.text) = compiled.map (·.1) :=
    names_of_forall₂ (hall.imp fun _ _ h => h.1)
  have hright : ∀ f ∈ compiled, validFieldName f.1 = true ∧ f.2.WellFormed := by
    intro f hf
    obtain ⟨i, hi, rfl⟩ := List.getElem_of_mem hf
    have hlen := hall.length_eq
    exact (hall.get (hlen ▸ hi) hi).2
  have hp := perm_sortFields compiled
  refine ⟨SchemaDef.named_of_sorted (sorted_sortFields compiled) ?_ ?_, ?_⟩
  · apply ((hp.map (·.1)).nodup_iff).mpr
    rw [← hnames]
    exact hd
  · intro f hf
    exact (hright f (hp.mem_iff.mp hf)).1
  · intro f hf
    exact (hright f (hp.mem_iff.mp hf)).2

theorem compileTable_ensures {rule : Entries} {out : RuleKeys} {path : String}
    (hk : out.kind = .table) (hf : out.format = none)
    (hn : ∀ v sub, v.Sound → Ensures (nested v sub) Rule.WellFormed) (hs : rule.Sound) :
    Ensures (compileTable left nested rule out path) Rule.WellFormed := by
  unfold compileTable
  apply Ensures.bind
  intro schema hschema
  apply Ensures.pure
  refine .intro ?_ ?_ ?_ ?_ ?_ ?_
  · constructor <;> simp [Rule.ofKeys, hk, hf]
  · intro r hr
    simp [Rule.ofKeys] at hr
  · intro r hr
    simp [Rule.ofKeys] at hr
  · intro r hr
    simp [Rule.ofKeys] at hr
  · intro r hr
    simp [Rule.ofKeys] at hr
  · intro s hr
    cases hr
    have hv := hs.fields
    revert hschema hv
    generalize rule.field "fields" = value
    intro hschema hv
    cases value with
    | table p l fields =>
        refine (Ensures.map ?_ : Ensures ((⟨·, {}⟩) <$> compileFields left nested fields path)
          SchemaDef.WellFormed) _ hschema
        intro fs hfs
        obtain ⟨hnamed, hrules⟩ := compileFields_ensures hn (hv.rules p l fields rfl)
          (hv.names p l fields rfl) fs hfs
        exact .intro hnamed (SchemaDef.grouped_default fs) hrules
    | schema =>
        cases hschema
        exact hv.schema _ rfl
    | _ => exact absurd hschema (by simp [compileNestedFields, badSchema])

theorem compileRule_ensures {rule : Entries} {path : String}
    (hn : ∀ v sub, v.Sound → Ensures (nested v sub) Rule.WellFormed) (hs : rule.Sound) :
    Ensures (compileRule lib left nested rule path) Rule.WellFormed := by
  unfold compileRule
  apply Ensures.bind
  intro kind _
  apply Ensures.bind
  intro _ _
  apply Ensures.bind
  intro out hout
  obtain ⟨hk, hf⟩ := compileCommon_ensures rule kind path out hout
  have hnum : out.kind = .number ∨ out.kind = .integer →
      Ensures (Rule.ofKeys <$> compileNumber lib rule out path) Rule.WellFormed := by
    intro hkind
    apply Ensures.map
    intro keys hkeys
    obtain ⟨hk', hf'⟩ := compileNumber_ensures rule out path keys hkeys
    apply wellFormed_ofKeys
    rcases hkind with hkind | hkind <;> constructor <;> simp [Rule.ofKeys, hk', hf', hf, hkind]
  cases kind with
  | string =>
      apply Ensures.map
      intro keys hkeys
      have hk' := compileString_ensures rule out path keys hkeys
      apply wellFormed_ofKeys
      constructor <;> simp [Rule.ofKeys, hk', hk]
  | number => exact hnum (.inl hk)
  | integer => exact hnum (.inr hk)
  | boolean =>
      apply Ensures.ok
      apply wellFormed_ofKeys
      constructor <;> simp [Rule.ofKeys, hk, hf]
  | array => exact compileArray_ensures hk hf hn hs
  | table => exact compileTable_ensures hk hf hn hs
  | map => exact compileMap_ensures hk hf hn hs
  | any => exact compileAny_ensures hk hf
  | file => exact compileFile_ensures hk hf hn hs

end Compiled

/-! ## Rule values -/

theorem Entries.get_eq_nil_or_mem (entries : Entries) (key : Key) :
    entries.get key = .nil ∨ (key, entries.get key) ∈ entries := by
  unfold Entries.get
  cases h : entries.find? (fun e => e.1 = key) with
  | none => exact .inl rfl
  | some e =>
      right
      have hk : e.1 = key := by simpa using List.find?_some h
      have hm := List.mem_of_find?_eq_some h
      rw [← hk]
      exact hm

/-- A value that is neither a table nor a schema holds nothing to check. -/
theorem Value.Sound.of_atom {value : Value} (ht : ∀ p l t, value ≠ .table p l t)
    (hs : ∀ s, value ≠ .schema s) : value.Sound := by
  constructor
  · intro s h
    cases h with
    | here => exact absurd rfl (hs _)
    | entry mem inner => exact absurd rfl (ht _ _ _)
  · intro t h
    cases h with
    | here mem => exact absurd rfl (ht _ _ _)
    | field mem field below => exact absurd rfl (ht _ _ _)
    | nested named mem below => exact absurd rfl (ht _ _ _)

theorem Value.sound_nil : Value.nil.Sound :=
  .of_atom (fun _ _ _ h => by cases h) (fun _ h => by cases h)

/-- Rule entries are sound when every entry under a nesting key is. -/
theorem Entries.sound_of_mem {rule : Entries}
    (hn : ∀ key ∈ nestedKeys, ∀ v, (Key.ofString key, v) ∈ rule → v.Sound)
    (hf : ∀ v, (Key.ofString "fields", v) ∈ rule → v.SoundFields) : rule.Sound := by
  constructor
  · intro key hk
    rcases rule.get_eq_nil_or_mem (.ofString key) with h | h
    · rw [Entries.field, h]
      exact Value.sound_nil
    · exact hn key hk _ h
  · rcases rule.get_eq_nil_or_mem (.ofString "fields") with h | h
    · rw [Entries.field, h]
      constructor <;> simp
    · exact hf _ h

theorem Value.Sound.of_nested {p l : ℕ} {rule : Entries} (h : Value.Sound (.table p l rule))
    {key : String} (hk : key ∈ nestedKeys) {v : Value} (hm : (Key.ofString key, v) ∈ rule) :
    v.Sound :=
  ⟨fun s hs => h.schemas s (.entry hm hs), fun t ht => h.tables t (.nested hk hm ht)⟩

theorem Value.Sound.of_fields {p l : ℕ} {rule : Entries} (h : Value.Sound (.table p l rule))
    {v : Value} (hm : (Key.ofString "fields", v) ∈ rule) : v.SoundFields := by
  refine ⟨?_, ?_, ?_⟩
  · rintro s rfl
    exact h.schemas s (.entry hm .here)
  · rintro p' l' t rfl
    exact h.tables t (.here hm)
  · rintro p' l' t rfl e he
    exact ⟨fun s hs => h.schemas s (.entry hm (.entry he hs)),
      fun t' ht => h.tables t' (.field hm he ht)⟩

theorem Scalar.sound_toValue (x : Scalar) : x.toValue.Sound := by
  apply Value.Sound.of_atom <;> intros <;> cases x <;> simp [Scalar.toValue, Value.ofString]

/-- The entries of a shorthand list are scalars under integer keys. -/
theorem Token.mem_list {items : List Scalar} {e : Key × Value}
    (h : e ∈ (items.zipIdx 1).map fun (x, i) => (Key.integer i, x.toValue)) :
    e.1.text = none ∧ (∀ k, e.1 ≠ .ofString k) ∧ e.2.Sound := by
  obtain ⟨⟨x, i⟩, _, rfl⟩ := List.mem_map.mp h
  exact ⟨rfl, fun k hk => by simp [Key.ofString] at hk, x.sound_toValue⟩

theorem Token.sound_toValue (token : Token) : token.toValue.Sound := by
  cases token with
  | one x => exact x.sound_toValue
  | list p items =>
      constructor
      · intro s hs
        cases hs with
        | entry mem inner => exact (Token.mem_list mem).2.2.schemas s inner
      · intro t ht
        cases ht with
        | here mem => exact absurd rfl ((Token.mem_list mem).2.1 _)
        | field mem field below => exact absurd rfl ((Token.mem_list mem).2.1 _)
        | nested named mem below => exact absurd rfl ((Token.mem_list mem).2.1 _)

theorem Token.soundFields_toValue (token : Token) : token.toValue.SoundFields := by
  cases token with
  | one x => constructor <;> intros <;> cases x <;> simp_all [Token.toValue, Scalar.toValue,
      Value.ofString]
  | list p items =>
      refine ⟨?_, ?_, ?_⟩
      · intro s hs
        cases hs
      · intro p' l' t ht
        cases ht
        have hnone : ((items.zipIdx 1).map fun (x, i) =>
            (Key.integer i, x.toValue)).filterMap (·.1.text) = [] := by
          apply List.filterMap_eq_nil_iff.mpr
          intro e he
          exact (Token.mem_list he).1
        unfold DistinctNames
        rw [hnone]
        exact List.nodup_nil
      · intro p' l' t ht e he
        cases ht
        exact (Token.mem_list he).2.2

/-- The mixed form holds entries of its shorthand and of the table only. -/
theorem overlay_ensures (path : String) (base table : Entries) :
    Ensures (overlay path base table) (fun es => ∀ e ∈ es, e ∈ base ∨ e ∈ table) := by
  fun_induction overlay path base table with
  | case1 base => exact Ensures.ok (fun e he => .inl he)
  | case2 base value rest ih =>
      exact ih.mono fun es h e he => (h e he).imp_right (List.mem_cons_of_mem _)
  | case3 base key value rest ih =>
      refine ih.mono fun es h e he => ?_
      rcases h e he with hb | ht
      · rcases Entries.mem_set hb with hm | rfl
        · exact .inl hm
        · exact .inr (List.mem_cons_self ..)
      · exact .inr (List.mem_cons_of_mem _ ht)
  | case4 => exact badSchema_ensures

theorem expandAt_ensures (lib : Library) (shorthand : LuaString) (path : String) :
    Ensures (expandAt lib shorthand path)
      (fun es => ∀ e ∈ es, e.2.Sound ∧ e.2.SoundFields) := by
  unfold expandAt
  split
  · apply Ensures.ok
    intro e he
    obtain ⟨⟨name, token⟩, _, rfl⟩ := List.mem_map.mp he
    exact ⟨token.sound_toValue, token.soundFields_toValue⟩
  · exact badSchema_ensures

/-- A rule compiled from a sound value is well formed, whatever its spelling. -/
theorem compileRuleValue_ensures (lib : Library) (left : ℕ) {value : Value} {path : String}
    (hs : value.Sound) : Ensures (compileRuleValue lib left value path) Rule.WellFormed := by
  induction left generalizing value path with
  | zero => exact badSchema_ensures
  | succ left ih =>
    have hn : ∀ v sub, v.Sound → Ensures (compileRuleValue lib left v sub) Rule.WellFormed :=
      fun v sub hv => ih hv
    unfold compileRuleValue
    cases value with
    | string shorthand =>
        apply Ensures.bind
        intro base hbase
        have hb := expandAt_ensures lib shorthand path base hbase
        exact compileRule_ensures hn (Entries.sound_of_mem (fun _ _ v hm => (hb _ hm).1)
          (fun v hm => (hb _ hm).2))
    | table p l table =>
        have hown : Entries.Sound table := Entries.sound_of_mem (fun _ hk v hm => hs.of_nested hk hm)
          (fun v hm => hs.of_fields hm)
        dsimp only
        split
        · exact compileRule_ensures hn hown
        · rename_i shorthand _
          apply Ensures.bind
          intro base hbase
          have hb := expandAt_ensures lib shorthand path base hbase
          apply Ensures.bind
          intro es hes
          have hm := overlay_ensures path base table es hes
          refine compileRule_ensures hn (Entries.sound_of_mem ?_ ?_)
          · intro key hk v hv
            rcases hm _ hv with h | h
            · exact (hb _ h).1
            · exact hs.of_nested hk h
          · intro v hv
            rcases hm _ hv with h | h
            · exact (hb _ h).2
            · exact hs.of_fields h
        · exact badSchema_ensures
    | schema s =>
        apply Ensures.ok
        refine .intro ?_ ?_ ?_ ?_ ?_ ?_
        · constructor <;> simp [nestedSchemaRule, Rule.ofKeys]
        · intro r hr
          simp [nestedSchemaRule, Rule.ofKeys] at hr
        · intro r hr
          simp [nestedSchemaRule, Rule.ofKeys] at hr
        · intro r hr
          simp [nestedSchemaRule, Rule.ofKeys] at hr
        · intro r hr
          simp [nestedSchemaRule, Rule.ofKeys] at hr
        · intro d hd
          cases hd
          exact hs.schemas s .here
    | _ => exact badSchema_ensures

end Nitr.Validate
