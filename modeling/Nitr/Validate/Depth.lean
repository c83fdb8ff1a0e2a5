import Nitr.Validate.Safe

/-! # How deep compiled schemas nest

The compiler counts the levels of its own argument; a compiled schema inside it is taken
over as it is, with all the levels it brings. -/

namespace Nitr.Validate

/-! ## Depth of a rule tree -/

mutual

/-- The levels of rules below this one, which the checker and the exporter recurse through. -/
def Rule.depth : Rule → ℕ
  | ⟨_, items, fields, keys, values, filename⟩ =>
    max (Rule.depthOption items) (max (SchemaDef.depthOption fields) (max (Rule.depthOption keys)
      (max (Rule.depthOption values) (Rule.depthOption filename))))
  termination_by structural r => r

def Rule.depthOption : Option Rule → ℕ
  | none => 0
  | some rule => rule.depth + 1
  termination_by structural r => r

def SchemaDef.depthOption : Option SchemaDef → ℕ
  | none => 0
  | some ⟨fields, _⟩ => Rule.depthList fields + 1
  termination_by structural s => s

def Rule.depthList : List (String × Rule) → ℕ
  | [] => 0
  | (_, rule) :: rest => max rule.depth (Rule.depthList rest)
  termination_by structural f => f

end

/-- The levels of rules below the fields of the schema. -/
def SchemaDef.depth (schema : SchemaDef) : ℕ := Rule.depthList schema.fields

theorem Rule.depthList_le_iff {fields : List (String × Rule)} {n : ℕ} :
    Rule.depthList fields ≤ n ↔ ∀ f ∈ fields, f.2.depth ≤ n := by
  induction fields with
  | nil => simp [Rule.depthList]
  | cons f fields ih =>
      rw [show Rule.depthList (f :: fields) = max f.2.depth (Rule.depthList fields) from rfl,
        max_le_iff, ih]
      simp

theorem Rule.depthOption_le_iff {rule : Option Rule} {n : ℕ} :
    Rule.depthOption rule ≤ n ↔ ∀ r, rule = some r → r.depth < n := by
  cases rule with
  | none => simp [Rule.depthOption]
  | some r =>
      refine ⟨fun h r' hr => Option.some.inj hr ▸ h, fun h => ?_⟩
      exact h r rfl

theorem SchemaDef.depthOption_some (schema : SchemaDef) :
    SchemaDef.depthOption (some schema) = schema.depth + 1 := by
  obtain ⟨fields, options⟩ := schema
  rfl

theorem SchemaDef.depthOption_le_iff {schema : Option SchemaDef} {n : ℕ} :
    SchemaDef.depthOption schema ≤ n ↔ ∀ s, schema = some s → s.depth < n := by
  cases schema with
  | none => simp [SchemaDef.depthOption]
  | some s =>
      rw [SchemaDef.depthOption_some]
      refine ⟨fun h s' hs => Option.some.inj hs ▸ h, fun h => ?_⟩
      exact h s rfl

theorem Rule.depth_eq (rule : Rule) :
    rule.depth = max (Rule.depthOption rule.items) (max (SchemaDef.depthOption rule.fields)
      (max (Rule.depthOption rule.keys) (max (Rule.depthOption rule.values)
        (Rule.depthOption rule.filename)))) := by
  obtain ⟨ruleKeys, items, fields, keys, values, filename⟩ := rule
  rfl

theorem Rule.depth_le_iff {rule : Rule} {n : ℕ} :
    rule.depth ≤ n ↔ (∀ r, rule.items = some r → r.depth < n) ∧
      (∀ s, rule.fields = some s → s.depth < n) ∧ (∀ r, rule.keys = some r → r.depth < n) ∧
      (∀ r, rule.values = some r → r.depth < n) ∧ ∀ r, rule.filename = some r → r.depth < n := by
  rw [Rule.depth_eq]
  simp only [max_le_iff, Rule.depthOption_le_iff, SchemaDef.depthOption_le_iff]

/-! ## Compiled schemas inside rule values -/

/-- A compiled schema stands in the rule value, so many levels down. -/
inductive Value.Splices (schema : SchemaDef) : ℕ → Value → Prop where
  | here : Splices schema 0 (.schema schema)
  | fields {pointer len : ℕ} {entries : Entries}
      (mem : (.ofString "fields", .schema schema) ∈ entries) :
      Splices schema 0 (.table pointer len entries)
  | field {pointer len p l d : ℕ} {entries inner : Entries} {key : Key} {value : Value}
      (mem : (.ofString "fields", .table p l inner) ∈ entries) (field : (key, value) ∈ inner)
      (below : Splices schema d value) : Splices schema (d + 1) (.table pointer len entries)
  | nested {pointer len d : ℕ} {entries : Entries} {key : String} {value : Value}
      (named : key ∈ nestedKeys) (mem : (.ofString key, value) ∈ entries)
      (below : Splices schema d value) : Splices schema (d + 1) (.table pointer len entries)

/-- Every compiled schema in the value ends within the levels left for it. -/
def Value.Shallow (left : ℕ) (value : Value) : Prop :=
  ∀ s d, value.Splices s d → d + 1 + s.depth < left

/-- What the `fields` key of a rule may hold. -/
structure Value.ShallowFields (left : ℕ) (value : Value) : Prop where
  schema : ∀ s, value = .schema s → s.depth < left
  rules : ∀ p l t, value = .table p l t → ∀ e ∈ t, e.2.Shallow left

structure Entries.Shallow (left : ℕ) (rule : Entries) : Prop where
  nested : ∀ key ∈ nestedKeys, (rule.field key).Shallow left
  fields : (rule.field "fields").ShallowFields left

theorem Value.shallow_of_atom {left : ℕ} {value : Value} (ht : ∀ p l t, value ≠ .table p l t)
    (hs : ∀ s, value ≠ .schema s) : value.Shallow left := by
  intro s d h
  cases h with
  | here => exact absurd rfl (hs _)
  | fields mem => exact absurd rfl (ht _ _ _)
  | field mem field below => exact absurd rfl (ht _ _ _)
  | nested named mem below => exact absurd rfl (ht _ _ _)

theorem Entries.shallow_of_mem {left : ℕ} {rule : Entries}
    (hn : ∀ key ∈ nestedKeys, ∀ v, (Key.ofString key, v) ∈ rule → v.Shallow left)
    (hf : ∀ v, (Key.ofString "fields", v) ∈ rule → v.ShallowFields left) : rule.Shallow left := by
  constructor
  · intro key hk
    rcases rule.get_eq_nil_or_mem (.ofString key) with h | h
    · rw [Entries.field, h]
      exact Value.shallow_of_atom (by simp) (by simp)
    · exact hn key hk _ h
  · rcases rule.get_eq_nil_or_mem (.ofString "fields") with h | h
    · rw [Entries.field, h]
      constructor <;> simp
    · exact hf _ h

theorem Value.Shallow.of_nested {left p l : ℕ} {rule : Entries}
    (h : Value.Shallow (left + 1) (.table p l rule)) {key : String} (hk : key ∈ nestedKeys)
    {v : Value} (hm : (Key.ofString key, v) ∈ rule) : v.Shallow left := by
  intro s d hs
  have := h s (d + 1) (.nested hk hm hs)
  omega

theorem Value.Shallow.of_fields {left p l : ℕ} {rule : Entries}
    (h : Value.Shallow (left + 1) (.table p l rule)) {v : Value}
    (hm : (Key.ofString "fields", v) ∈ rule) : v.ShallowFields left := by
  refine ⟨?_, ?_⟩
  · rintro s rfl
    have := h s 0 (.fields hm)
    omega
  · rintro p' l' t rfl e he s d hs
    have := h s (d + 1) (.field hm he hs)
    omega

/-- Shorthand holds no schema. -/
theorem Token.shallow_toValue (left : ℕ) (token : Token) :
    token.toValue.Shallow left ∧ token.toValue.ShallowFields left := by
  have hscalar : ∀ x : Scalar, x.toValue.Shallow left := by
    intro x
    apply Value.shallow_of_atom <;> intros <;> cases x <;> simp [Scalar.toValue, Value.ofString]
  cases token with
  | one x =>
      refine ⟨hscalar x, ?_⟩
      constructor <;> intros <;> cases x <;>
        simp_all [Token.toValue, Scalar.toValue, Value.ofString]
  | list p items =>
      have hitem : ∀ p' l es, (Token.list p items).toValue = .table p' l es → ∀ e ∈ es,
          (∀ k, e.1 ≠ .ofString k) ∧ e.2.Shallow left := by
        intro p' l es heq e he
        cases heq
        obtain ⟨⟨x, i⟩, -, rfl⟩ := List.mem_map.mp he
        exact ⟨fun k hk => by simp [Key.ofString] at hk, hscalar x⟩
      refine ⟨?_, ?_⟩
      · intro s d h
        cases h with
        | fields mem => exact absurd rfl ((hitem _ _ _ rfl _ mem).1 _)
        | field mem field below => exact absurd rfl ((hitem _ _ _ rfl _ mem).1 _)
        | nested named mem below => exact absurd rfl ((hitem _ _ _ rfl _ mem).1 _)
      · refine ⟨?_, ?_⟩
        · intro s hs
          cases hs
        · intro p' l' t ht e he
          cases ht
          exact (hitem _ _ _ rfl e he).2

/-! ## The compiler's own levels -/

open Except

section Compiled

variable {lib : Library} {left : ℕ} {nested : Value → String → Except String Rule}

/-- Rules nested in a value that leaves its schemas room stay within the levels left. -/
def NestsWithin (left : ℕ) (nested : Value → String → Except String Rule) : Prop :=
  ∀ v sub, v.Shallow left → Ensures (nested v sub) fun r => r.depth < left

theorem compileStringRule_depth {value : Value} {path sub refusal : String}
    (hn : NestsWithin left nested) (hs : value.Shallow left) :
    Ensures (compileStringRule nested value path sub refusal)
      (fun out => ∀ r, out = some r → r.depth < left) := by
  unfold compileStringRule
  split
  · apply Ensures.pure
    intro r hr
    cases hr
  · apply Ensures.bind
    intro rule hrule
    apply Ensures.bind
    intro _ _
    apply Ensures.pure
    intro r hr
    cases hr
    exact hn _ _ hs _ hrule

theorem compileArray_depth {rule : Entries} {out : RuleKeys} {path : String}
    (hn : NestsWithin left nested) (hs : rule.Shallow left) :
    Ensures (compileArray lib nested rule out path) fun r => r.depth ≤ left := by
  unfold compileArray
  apply Ensures.bind
  intro _ _
  apply Ensures.bind
  intro items hitems
  iterate 9 (apply Ensures.bind; intro _ _)
  apply Ensures.pure
  rw [Rule.depth_le_iff]
  refine ⟨fun r hr => ?_, ?_, ?_, ?_, ?_⟩
  · cases hr
    exact hn _ _ (hs.nested "items" (by decide)) _ hitems
  all_goals
    intro r hr
    simp [Rule.ofKeys] at hr

theorem compileMap_depth {rule : Entries} {out : RuleKeys} {path : String}
    (hn : NestsWithin left nested) (hs : rule.Shallow left) :
    Ensures (compileMap lib nested rule out path) fun r => r.depth ≤ left := by
  unfold compileMap
  apply Ensures.bind
  intro keys hkeys
  apply Ensures.bind
  intro _ _
  apply Ensures.bind
  intro values hvalues
  iterate 3 (apply Ensures.bind; intro _ _)
  apply Ensures.pure
  rw [Rule.depth_le_iff]
  refine ⟨?_, ?_, fun r hr => ?_, fun r hr => ?_, ?_⟩
  · intro r hr
    simp [Rule.ofKeys] at hr
  · intro r hr
    simp [Rule.ofKeys] at hr
  · cases hr
    exact compileStringRule_depth hn (hs.nested "keys" (by decide)) _ hkeys _ rfl
  · cases hr
    exact hn _ _ (hs.nested "values" (by decide)) _ hvalues
  · intro r hr
    simp [Rule.ofKeys] at hr

theorem Rule.depth_label (rule : Rule) (label : Option String) :
    Rule.depth { rule with label := label } = rule.depth := by
  rw [Rule.depth_eq, Rule.depth_eq rule]

theorem Rule.depth_optional (rule : Rule) :
    Rule.depth { rule with required := false, default := none } = rule.depth := by
  rw [Rule.depth_eq, Rule.depth_eq rule]

theorem compileFile_depth {rule : Entries} {out : RuleKeys} {path : String}
    (hn : NestsWithin left nested) (hs : rule.Shallow left) :
    Ensures (compileFile lib nested rule out path) fun r => r.depth ≤ left := by
  have hfile : Ensures (compileFileRule lib nested rule path)
      (fun out => ∀ r, out.2 = some r → r.depth < left) := by
    unfold compileFileRule
    iterate 4 (apply Ensures.bind; intro _ _)
    apply Ensures.bind
    intro filename hname
    iterate 10 (apply Ensures.bind; intro _ _)
    apply Ensures.pure
    intro r hr
    obtain ⟨inner, hinner, rfl⟩ := Option.map_eq_some_iff.mp hr
    rw [Rule.depth_label]
    exact compileStringRule_depth hn (hs.nested "filename" (by decide)) _ hname inner hinner
  unfold compileFile
  apply Ensures.bind
  intro maxBytes _
  apply Ensures.bind
  intro _ _
  apply Ensures.bind
  intro file hf
  apply Ensures.pure
  rw [Rule.depth_le_iff]
  refine ⟨?_, ?_, ?_, ?_, fun r hr => hfile _ hf r hr⟩
  all_goals
    intro r hr
    simp [Rule.ofKeys] at hr

theorem compileField_depth {path : String} {e : Key × Value} (hn : NestsWithin left nested)
    (hs : e.2.Shallow left) : Ensures (compileField nested path e) fun f => f.2.depth < left := by
  obtain ⟨key, value⟩ := e
  cases key with
  | string name =>
      unfold compileField
      apply Ensures.bind
      intro _ _
      apply Ensures.bind
      intro rule hrule
      apply Ensures.pure
      exact hn _ _ hs _ hrule
  | integer i => exact badSchema_ensures
  | other p => exact badSchema_ensures

theorem compileFields_depth {fields : Entries} {path : String} (hn : NestsWithin left nested)
    (hs : ∀ e ∈ fields, e.2.Shallow left) :
    Ensures (compileFields left nested fields path) fun fs => Rule.depthList fs < left := by
  unfold compileFields
  apply Ensures.bind
  intro _ hleft
  apply Ensures.bind
  intro compiled hc
  apply Ensures.pure
  have hpos : left ≠ 0 := by simpa using refuseIf_eq_ok hleft
  have hall : ∀ f ∈ compiled, f.2.depth < left := by
    have hm := Ensures.mapM fields compiled hc
    intro f hf
    obtain ⟨i, hi, rfl⟩ := List.getElem_of_mem hf
    have hlen := hm.length_eq
    exact compileField_depth hn (hs _ (List.get_mem fields ⟨i, hlen ▸ hi⟩)) _
      (hm.get (hlen ▸ hi) hi)
  have hle : Rule.depthList (sortFields compiled) ≤ left - 1 := by
    rw [Rule.depthList_le_iff]
    intro f hf
    have := hall f ((perm_sortFields compiled).mem_iff.mp hf)
    omega
  omega

theorem compileTable_depth {rule : Entries} {out : RuleKeys} {path : String}
    (hn : NestsWithin left nested) (hs : rule.Shallow left) :
    Ensures (compileTable left nested rule out path) fun r => r.depth ≤ left := by
  unfold compileTable
  apply Ensures.bind
  intro schema hschema
  apply Ensures.pure
  rw [Rule.depth_le_iff]
  refine ⟨?_, fun s hr => ?_, ?_, ?_, ?_⟩
  · intro r hr
    simp [Rule.ofKeys] at hr
  · cases hr
    have hv := hs.fields
    revert hschema hv
    generalize rule.field "fields" = value
    intro hschema hv
    cases value with
    | table p l fields =>
        refine (Ensures.map ?_ : Ensures ((⟨·, {}⟩) <$> compileFields left nested fields path)
          fun s : SchemaDef => s.depth < left) _ hschema
        exact compileFields_depth hn (hv.rules p l fields rfl)
    | schema =>
        cases hschema
        exact hv.schema _ rfl
    | _ => exact absurd hschema (by simp [compileNestedFields, badSchema])
  all_goals
    intro r hr
    simp [Rule.ofKeys] at hr

theorem compileRule_depth {rule : Entries} {path : String} (hn : NestsWithin left nested)
    (hs : rule.Shallow left) :
    Ensures (compileRule lib left nested rule path) fun r => r.depth ≤ left := by
  have hflat : ∀ keys : RuleKeys, (Rule.ofKeys keys).depth ≤ left := fun keys => Nat.zero_le _
  unfold compileRule
  apply Ensures.bind
  intro kind _
  apply Ensures.bind
  intro _ _
  apply Ensures.bind
  intro out _
  cases kind with
  | string => exact Ensures.map fun keys _ => hflat keys
  | number => exact Ensures.map fun keys _ => hflat keys
  | integer => exact Ensures.map fun keys _ => hflat keys
  | boolean => exact Ensures.ok (hflat out)
  | array => exact compileArray_depth hn hs
  | table => exact compileTable_depth hn hs
  | map => exact compileMap_depth hn hs
  | any =>
      unfold compileAny
      iterate 2 (apply Ensures.bind; intro _ _)
      exact Ensures.pure (hflat _)
  | file => exact compileFile_depth hn hs

end Compiled

/-- A rule value compiled with some levels left nests fewer. -/
theorem compileRuleValue_depth (lib : Library) (left : ℕ) :
    NestsWithin left (compileRuleValue lib left) := by
  induction left with
  | zero => exact fun _ _ _ => badSchema_ensures
  | succ left ih =>
      intro value path hs
      have hlt : ∀ {rule : Entries}, rule.Shallow left →
          Ensures (compileRule lib left (compileRuleValue lib left) rule path)
            fun r => r.depth < left + 1 :=
        fun hrule => (compileRule_depth ih hrule).mono fun _ h => Nat.lt_succ_of_le h
      have hexpand : ∀ shorthand, Ensures (expandAt lib shorthand path)
          (fun es => ∀ e ∈ es, e.2.Shallow left ∧ e.2.ShallowFields left) := by
        intro shorthand
        unfold expandAt
        split
        · apply Ensures.ok
          intro e he
          obtain ⟨⟨name, token⟩, -, rfl⟩ := List.mem_map.mp he
          exact token.shallow_toValue left
        · exact badSchema_ensures
      unfold compileRuleValue
      cases value with
      | string shorthand =>
          apply Ensures.bind
          intro base hbase
          have hb := hexpand shorthand base hbase
          exact hlt (Entries.shallow_of_mem (fun _ _ v hm => (hb _ hm).1)
            (fun v hm => (hb _ hm).2))
      | table p l table =>
          dsimp only
          split
          · exact hlt (Entries.shallow_of_mem (fun _ hk v hm => hs.of_nested hk hm)
              (fun v hm => hs.of_fields hm))
          · rename_i shorthand _
            apply Ensures.bind
            intro base hbase
            have hb := hexpand shorthand base hbase
            apply Ensures.bind
            intro es hes
            have hm := overlay_ensures path base table es hes
            refine hlt (Entries.shallow_of_mem ?_ ?_)
            · intro key hk v hv
              rcases hm _ hv with h | h
              · exact (hb _ h).1
              · exact hs.of_nested hk h
            · intro v hv
              rcases hm _ hv with h | h
              · exact (hb _ h).2
              · exact hs.of_fields h
          · exact badSchema_ensures
      | schema s =>
          apply Ensures.ok
          have hroom := hs s 0 .here
          refine Nat.lt_succ_of_le (Rule.depth_le_iff.mpr ⟨?_, ?_, ?_, ?_, ?_⟩)
          · simp [nestedSchemaRule, Rule.ofKeys]
          · intro d hd
            cases hd
            omega
          all_goals simp [nestedSchemaRule, Rule.ofKeys]
      | _ => exact badSchema_ensures

/-! ## Build histories -/

/-- The compiled schemas inside the rules of the call's argument end within the levels a
rule has there. -/
def Call.Shallow : Call → Prop
  | .schema fields _ => ∀ e ∈ fields, e.2.Shallow (maxDepth + 1)
  | .extend _ extra => ∀ e ∈ extra, e.2.Shallow (maxDepth + 1)
  | _ => True

theorem SchemaDef.depth_le_iff {schema : SchemaDef} {n : ℕ} :
    schema.depth ≤ n ↔ ∀ f ∈ schema.fields, f.2.depth ≤ n :=
  Rule.depthList_le_iff

theorem SchemaDef.derive_depth {schema : SchemaDef} {fields : List (String × Rule)}
    (h : ∀ f ∈ fields, f.2.depth ≤ maxDepth) :
    Ensures (schema.derive fields) fun s => s.depth ≤ maxDepth := by
  unfold SchemaDef.derive
  apply Ensures.bind
  intro _ _
  exact Ensures.pure (SchemaDef.depth_le_iff.mpr h)

theorem SchemaDef.applyOptions_depth {lib : Library} {schema : SchemaDef} {opts : Entries}
    {what : String} (h : schema.depth ≤ maxDepth) :
    Ensures (schema.applyOptions lib opts what) fun s => s.depth ≤ maxDepth := by
  unfold SchemaDef.applyOptions
  apply Ensures.bind
  intro options _
  apply Ensures.bind
  intro _ _
  exact Ensures.pure h

theorem SchemaDef.extendFields_depth {lib : Library} {fields : List (String × Rule)}
    {extra : Entries} (h : ∀ f ∈ fields, f.2.depth ≤ maxDepth)
    (hs : ∀ e ∈ extra, e.2.Shallow (maxDepth + 1)) :
    Ensures (SchemaDef.extendFields lib fields extra) fun fs => ∀ f ∈ fs, f.2.depth ≤ maxDepth := by
  induction extra generalizing fields with
  | nil => exact Ensures.ok h
  | cons e rest ih =>
      obtain ⟨key, value⟩ := e
      have hrest : ∀ e ∈ rest, e.2.Shallow (maxDepth + 1) :=
        fun e he => hs e (List.mem_cons_of_mem _ he)
      have hothers : ∀ name, ∀ f ∈ fields.filter (fun f => f.1 ≠ name), f.2.depth ≤ maxDepth :=
        fun name f hf => h f (List.mem_of_mem_filter hf)
      cases key with
      | integer i => exact Ensures.error
      | other p => exact Ensures.error
      | string name =>
          unfold SchemaDef.extendFields
          dsimp only
          split
          · exact ih (hothers _) hrest
          · apply Ensures.bind
            intro rule hrule
            have hdepth := compileRuleValue_depth lib (maxDepth + 1) value _
              (hs _ (List.mem_cons_self ..)) rule hrule
            refine ih (fun f hf => ?_) hrest
            rcases List.mem_append.mp hf with hf | hf
            · exact hothers _ f hf
            · rw [List.mem_singleton.mp hf]
              exact Nat.le_of_lt_succ hdepth

theorem Call.run_depth {lib : Library} {c : Call} (hc : c.Shallow)
    (hu : ∀ s, c.Uses s → s.depth ≤ maxDepth) :
    Ensures (c.run lib) fun s => s.depth ≤ maxDepth := by
  cases c with
  | schema fields opts =>
      change Ensures (compileSchema lib fields opts) _
      unfold compileSchema
      apply Ensures.bind
      intro fs hfs
      have hlt := compileFields_depth (compileRuleValue_depth lib (maxDepth + 1)) hc fs hfs
      have hdepth : SchemaDef.depth ⟨fs, {}⟩ ≤ maxDepth := Nat.le_of_lt_succ hlt
      cases opts with
      | none => exact Ensures.pure hdepth
      | some opts => exact SchemaDef.applyOptions_depth hdepth
  | partialFields base =>
      have hbase := SchemaDef.depth_le_iff.mp (hu base rfl)
      refine SchemaDef.derive_depth fun f hf => ?_
      obtain ⟨g, hg, rfl⟩ := List.mem_map.mp hf
      rw [Rule.depth_optional]
      exact hbase g hg
  | pick base names =>
      have hbase := SchemaDef.depth_le_iff.mp (hu base rfl)
      change Ensures (base.select "pick" true names) _
      unfold SchemaDef.select
      split
      · exact Ensures.error
      · exact SchemaDef.derive_depth fun f hf => hbase f (List.mem_of_mem_filter hf)
  | omitFields base names =>
      have hbase := SchemaDef.depth_le_iff.mp (hu base rfl)
      change Ensures (base.select "omit" false names) _
      unfold SchemaDef.select
      split
      · exact Ensures.error
      · exact SchemaDef.derive_depth fun f hf => hbase f (List.mem_of_mem_filter hf)
  | extend base extra =>
      have hbase := SchemaDef.depth_le_iff.mp (hu base (.inl rfl))
      change Ensures (base.extend lib extra) _
      unfold SchemaDef.extend
      apply Ensures.bind
      intro fs hfs
      have hall := SchemaDef.extendFields_depth hbase hc fs hfs
      exact SchemaDef.derive_depth fun f hf => hall f ((perm_sortFields fs).mem_iff.mp hf)
  | withOptions base opts => exact SchemaDef.applyOptions_depth (hu base rfl)

/-- Along a history of calls that leave every nested schema room, no schema nests deeper
than the compiler's bound. -/
theorem Built.depth_le_maxDepth {schema : SchemaDef} (h : Built Call.Shallow schema) :
    schema.depth ≤ maxDepth := by
  induction h with
  | call uses admitted returns ih => exact Call.run_depth admitted ih _ returns

/-! ## Schemas nested one in another -/

/-- A schema of one field that is a schema of one field, and so on. -/
def chain : ℕ → SchemaDef
  | 0 => ⟨[], {}⟩
  | n + 1 => ⟨[("a", nestedSchemaRule (chain n))], {}⟩

theorem chain_depth (n : ℕ) : (chain n).depth = n := by
  induction n with
  | zero => rfl
  | succ n ih =>
      have hrule : (nestedSchemaRule (chain n)).depth = (chain n).depth + 1 := by
        rw [Rule.depth_eq]
        simp [nestedSchemaRule, Rule.ofKeys, Rule.depthOption, SchemaDef.depthOption_some]
      rw [show (chain (n + 1)).depth = max (nestedSchemaRule (chain n)).depth 0 from rfl, hrule, ih]
      exact Nat.max_zero _

/-- Each link compiles, whatever the library. -/
theorem chain_built (lib : Library) (n : ℕ) : Built (fun _ => True) (chain n) := by
  induction n with
  | zero =>
      refine @Built.call _ lib (.schema [] none) _ (fun s hs => ?_) trivial rfl
      obtain ⟨e, he, -⟩ := hs
      cases he
  | succ n ih =>
      refine @Built.call _ lib (.schema [(.ofString "a", .schema (chain n))] none) _
        (fun s hs => ?_) trivial rfl
      obtain ⟨e, he, hhas⟩ := hs
      rw [List.mem_singleton.mp he] at hhas
      cases hhas
      exact ih

/-- One schema inside another leaves room. -/
theorem Built.depth_le_maxDepth_nested :
    Built Call.Shallow (chain 1) ∧ (chain 1).depth ≤ maxDepth := by
  have hempty : Built Call.Shallow (chain 0) := by
    refine @Built.call _ Library.bare (.schema [] none) _ (fun s hs => ?_) (fun e he => ?_) rfl
    · obtain ⟨e, he, -⟩ := hs
      cases he
    · cases he
  have hnested : Built Call.Shallow (chain 1) := by
    refine @Built.call _ Library.bare (.schema [(.ofString "a", .schema (chain 0))] none) _
      (fun s hs => ?_) (fun e he => ?_) rfl
    · obtain ⟨e, he, hhas⟩ := hs
      rw [List.mem_singleton.mp he] at hhas
      cases hhas
      exact hempty
    · rw [List.mem_singleton.mp he]
      intro s d hs
      cases hs
      decide
  exact ⟨hnested, hnested.depth_le_maxDepth⟩

/-- Thirty-four calls, each with the schema of the one before it as its only field, build a
schema one level deeper than the bound. -/
theorem Built.exceeds_maxDepth :
    ¬∀ schema : SchemaDef, Built (fun _ => True) schema → schema.depth ≤ maxDepth := by
  intro h
  have hdepth := h (chain 33) (chain_built Library.bare 33)
  rw [chain_depth] at hdepth
  exact absurd hdepth (by decide)

end Nitr.Validate
