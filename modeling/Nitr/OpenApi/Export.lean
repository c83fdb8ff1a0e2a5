import Nitr.OpenApi.Keywords
import Nitr.Validate.Sound
import Mathlib.Data.Set.Card

/-! # Exporting a schema

`export`, `object_schema` and `rule_schema` of `schema_json.rs`. The walk is written over any way
to place a titled object, in any monad: the exporter places it among the components, and placing
it nowhere gives the schema each reference stands for. -/

namespace Nitr.OpenApi

open Validate Keywords

/-! ## The walk -/

section

variable {m : Type → Type} [Monad m] (place : SchemaDef → String → JsonValue → m JsonValue)

/-- `export`, once the object schema is known. -/
def settle (schema : SchemaDef) (object : JsonValue) : m JsonValue :=
  match schema.options.title with
  | none => pure object
  | some title => place schema title object

def optionally : Option (m JsonValue) → m (Option JsonValue)
  | none => pure none
  | some schema => do
      let schema ← schema
      return some schema

/-- The `match rule.kind`: the first keys of the schema, or a whole schema to return. -/
def kindSchema (rule : RuleKeys) (fields keys values filename : Option (m JsonValue)) :
    m (JsonValue ⊕ Keywords) :=
  match rule.kind with
  | .any => pure (.inr .empty)
  | .table =>
      match fields with
      | none => pure (.inr (OrdMap.empty.insert "type" (.str "object")))
      | some nested => do
          let nested ← nested
          match nested with
          | .obj entries => return .inr (extend entries .empty)
          | other => return .inl other
  | .map => do
      let out : Keywords := OrdMap.empty.insert "type" (.str "object")
      let keys ← optionally keys
      let values ← optionally values
      return .inr (put "additionalProperties" values (put "propertyNames" keys out))
  | .file => do
      let filename ← optionally (if rule.file.isSome then filename else none)
      return .inr (fileSchema rule filename)
  | kind => pure (.inr (OrdMap.empty.insert "type" (.str kind.name)))

mutual

/-- One rule as a JSON Schema. -/
def ruleSchema : Rule → m JsonValue
  | ⟨rule, items, fields, keys, values, filename⟩ => do
      let itemKind := match items with
        | some items => items.kind
        | none => .any
      let items := match items with
        | some items => some (ruleSchema items)
        | none => none
      let fields := match fields with
        | some schema => some (do
            let object ← objectSchema schema
            settle place schema object)
        | none => none
      let keys := match keys with
        | some keys => some (ruleSchema keys)
        | none => none
      let values := match values with
        | some values => some (ruleSchema values)
        | none => none
      let filename := match filename with
        | some filename => some (ruleSchema filename)
        | none => none
      let base ← kindSchema rule fields keys values filename
      match base with
      | .inl other => return withCommon other rule
      | .inr out => do
          let out := numberKeywords rule (stringKeywords rule (valueKeywords rule out))
          let items ← optionally items
          let out := mapKeywords rule (arrayKeywords rule itemKind items out)
          return withCommon (.ofMap out) rule
  termination_by structural r => r

/-- The object schema, without the reference to it. -/
def objectSchema : SchemaDef → m JsonValue
  | ⟨fields, options⟩ => do
      let properties ← propertySchemas fields .empty
      return .ofMap (objectKeywords ⟨fields, options⟩ properties)
  termination_by structural s => s

def propertySchemas : List (String × Rule) → Keywords → m Keywords
  | [], properties => pure properties
  | (name, rule) :: rest, properties => do
      let schema ← ruleSchema rule
      propertySchemas rest (properties.insert name schema)
  termination_by structural f => f

end

/-- Exports a schema: a titled one is placed, an untitled one stays inline. -/
def exportWith (schema : SchemaDef) : m JsonValue := do
  let object ← objectSchema place schema
  settle place schema object

end

section

variable {m : Type → Type} [Monad m] {place : SchemaDef → String → JsonValue → m JsonValue}

theorem ruleSchema_eq (rule : Rule) :
    ruleSchema place rule = do
      let base ← kindSchema rule.toRuleKeys (rule.fields.map (exportWith place))
        (rule.keys.map (ruleSchema place)) (rule.values.map (ruleSchema place))
        (rule.filename.map (ruleSchema place))
      match base with
      | .inl other => return withCommon other rule.toRuleKeys
      | .inr out => do
          let out := numberKeywords rule.toRuleKeys (stringKeywords rule.toRuleKeys
            (valueKeywords rule.toRuleKeys out))
          let items ← optionally (rule.items.map (ruleSchema place))
          let itemKind := match rule.items with
            | some items => items.kind
            | none => .any
          let out := mapKeywords rule.toRuleKeys (arrayKeywords rule.toRuleKeys itemKind items out)
          return withCommon (.ofMap out) rule.toRuleKeys := by
  cases rule with
  | mk rule items fields keys values filename =>
      cases items <;> cases fields <;> cases keys <;> cases values <;> cases filename <;> rfl

end

/-! ## Two ways to place the same schemas -/

theorem rel_map {α β γ : Type} {R : β → γ → Prop} {x : Option α} {f : α → β} {g : α → γ}
    (hx : ∀ a, x = some a → R (f a) (g a)) : Option.Rel R (x.map f) (x.map g) := by
  cases x with
  | none => exact .none
  | some a => exact .some (hx a rfl)

section

variable {m₁ m₂ : Type → Type} [Monad m₁] [Monad m₂]
  {place₁ : SchemaDef → String → JsonValue → m₁ JsonValue}
  {place₂ : SchemaDef → String → JsonValue → m₂ JsonValue}

/-- A relation between computations that two walks over the same schema keep. -/
structure Walks (place₁ : SchemaDef → String → JsonValue → m₁ JsonValue)
    (place₂ : SchemaDef → String → JsonValue → m₂ JsonValue)
    (R : ∀ α : Type, m₁ α → m₂ α → Prop) : Prop where
  pure : ∀ {α : Type} (a : α), R α (pure a) (pure a)
  bind : ∀ {α β : Type} {x : m₁ α} {y : m₂ α} {f : α → m₁ β} {g : α → m₂ β},
    R α x y → (∀ a, R β (f a) (g a)) → R β (x >>= f) (y >>= g)
  settle : ∀ schema, R JsonValue (objectSchema place₁ schema) (objectSchema place₂ schema) →
    R JsonValue (exportWith place₁ schema) (exportWith place₂ schema)

namespace Walks

variable {R : ∀ α : Type, m₁ α → m₂ α → Prop} (h : Walks place₁ place₂ R)

include h

theorem optionally {x : Option (m₁ JsonValue)} {y : Option (m₂ JsonValue)}
    (hxy : Option.Rel (R JsonValue) x y) : R _ (optionally x) (optionally y) := by
  cases hxy with
  | none => exact h.pure none
  | some hxy => exact h.bind hxy fun a => h.pure (some a)

theorem kindSchema (rule : RuleKeys) {fields keys values filename : Option (m₁ JsonValue)}
    {fields' keys' values' filename' : Option (m₂ JsonValue)}
    (hfields : Option.Rel (R JsonValue) fields fields')
    (hkeys : Option.Rel (R JsonValue) keys keys')
    (hvalues : Option.Rel (R JsonValue) values values')
    (hfilename : Option.Rel (R JsonValue) filename filename') :
    R _ (kindSchema rule fields keys values filename)
      (kindSchema rule fields' keys' values' filename') := by
  unfold OpenApi.kindSchema
  cases rule.kind with
  | table =>
      cases hfields with
      | none => exact h.pure _
      | some hnested =>
          refine h.bind hnested fun nested => ?_
          cases nested <;> exact h.pure _
  | map => exact h.bind (h.optionally hkeys) fun _ => h.bind (h.optionally hvalues) fun _ => h.pure _
  | file =>
      refine h.bind (h.optionally ?_) fun _ => h.pure _
      cases rule.file.isSome with
      | false => exact .none
      | true => exact hfilename
  | _ => exact h.pure _

theorem propertySchemas {fields : List (String × Rule)}
    (hfields : ∀ f ∈ fields, R _ (ruleSchema place₁ f.2) (ruleSchema place₂ f.2))
    (properties : Keywords) :
    R _ (propertySchemas place₁ fields properties) (propertySchemas place₂ fields properties) := by
  induction fields generalizing properties with
  | nil => exact h.pure properties
  | cons f rest ih =>
      exact h.bind (hfields f List.mem_cons_self) fun schema =>
        ih (fun f hf => hfields f (List.mem_cons_of_mem _ hf)) _

theorem objectSchema {schema : SchemaDef}
    (hfields : ∀ f ∈ schema.fields, R _ (ruleSchema place₁ f.2) (ruleSchema place₂ f.2)) :
    R _ (objectSchema place₁ schema) (objectSchema place₂ schema) := by
  cases schema with
  | mk fields options => exact h.bind (h.propertySchemas hfields .empty) fun _ => h.pure _

theorem ruleSchema (rule : Rule) : R _ (ruleSchema place₁ rule) (ruleSchema place₂ rule) := by
  refine Rule.induct (P := fun rule => R _ (OpenApi.ruleSchema place₁ rule)
    (OpenApi.ruleSchema place₂ rule)) (fun rule hitems hkeys hvalues hfilename hfields => ?_) rule
  have hnested : ∀ schema, rule.fields = some schema →
      R _ (OpenApi.exportWith place₁ schema) (OpenApi.exportWith place₂ schema) :=
    fun schema heq => h.settle schema (h.objectSchema (hfields schema heq))
  have hitems := rel_map hitems
  have hbase := h.kindSchema rule.toRuleKeys (rel_map hnested) (rel_map hkeys) (rel_map hvalues)
    (rel_map hfilename)
  rw [ruleSchema_eq, ruleSchema_eq]
  refine h.bind hbase fun base => ?_
  cases base with
  | inl other => exact h.pure _
  | inr out => exact h.bind (h.optionally hitems) fun items => h.pure _

theorem exportWith (schema : SchemaDef) :
    R _ (exportWith place₁ schema) (exportWith place₂ schema) :=
  h.settle schema (h.objectSchema fun f _ => h.ruleSchema f.2)

end Walks

end

/-! ## Components -/

/-- Component schemas collected while exporting, by name. -/
abbrev Components := OrdMap String JsonValue

def referenceText (name : String) : String := "#/components/schemas/" ++ name

/-- The `$ref` a component is reached through. -/
def reference (name : String) : JsonValue := object [("$ref", .str (referenceText name))]

/-- The names tried for a title: the title itself, then with a number behind it. -/
def componentName (title : String) (n : ℕ) : String :=
  if n = 1 then title else title ++ "_" ++ toString n

theorem componentName_injective (title : String) : Function.Injective (componentName title) := by
  have happend : ∀ n : ℕ, title ++ "_" ++ toString n ≠ title := by
    intro n h
    have hlen := congrArg String.length h
    rw [String.length_append, String.length_append] at hlen
    have hone : "_".length = 1 := rfl
    omega
  intro m n h
  rw [componentName, componentName] at h
  by_cases hm : m = 1
  · by_cases hn : n = 1
    · rw [hm, hn]
    · rw [if_pos hm, if_neg hn] at h
      exact absurd h.symm (happend n)
  · by_cases hn : n = 1
    · rw [if_neg hm, if_pos hn] at h
      exact absurd h (happend m)
    · rw [if_neg hm, if_neg hn] at h
      have hlist := congrArg String.toList h
      have htext : ∀ i : ℕ, (toString i).toList = Nat.toDigits 10 i := fun i => Nat.toList_repr
      simp only [String.toList_append, htext] at hlist
      rw [← @Nat.ofDigitChars_ten_toDigits m, List.append_cancel_left hlist,
        Nat.ofDigitChars_ten_toDigits]

theorem finite_taken (components : Components) (title : String) (n : ℕ) :
    {m | n ≤ m ∧ (components.get (componentName title m)).isSome = true}.Finite := by
  refine ((components.entries.map Prod.fst).finite_toSet.preimage
    (componentName_injective title).injOn).subset fun m hm => ?_
  have ⟨stored, hstored⟩ := Option.isSome_iff_exists.mp hm.2
  exact List.mem_map.mpr ⟨_, (components.get_eq_some_iff _ _).mp hstored, rfl⟩

/-- The loop of `export`: the name that holds the object already, or the first free one, which
then holds it under its new title. -/
def allocate (components : Components) (title : String) (object : JsonValue) (n : ℕ) :
    String × Components :=
  match hget : components.get (componentName title n) with
  | some existing =>
      if existing = object then (componentName title n, components)
      else allocate components title object (n + 1)
  | none => (componentName title n, components.insert (componentName title n)
      (object.set "title" (.str (componentName title n))))
  termination_by {m | n ≤ m ∧ (components.get (componentName title m)).isSome = true}.ncard
  decreasing_by
    refine Set.ncard_lt_ncard ⟨fun m hm => ⟨Nat.le_of_succ_le hm.1, hm.2⟩, fun hsub => ?_⟩
      (finite_taken components title n)
    exact Nat.not_succ_le_self n (hsub ⟨le_rfl, Option.isSome_iff_exists.mpr ⟨_, hget⟩⟩).1

/-- A reference handed out: for which schema, with which object, under which name, and the
components as they were then. -/
structure Handed where
  schema : SchemaDef
  object : JsonValue
  name : String
  components : Components

/-- The components, and beside them what was handed out so far, which no step reads. -/
structure Walk where
  components : Components
  handed : List Handed

/-- The walk once a reference is handed out. -/
def Walk.push (walk : Walk) (h : Handed) : Walk := ⟨h.components, walk.handed ++ [h]⟩

abbrev Exporter := StateT Walk (Except String)

/-- The reference handed out for an object placed among these components. -/
def handOut (components : Components) (schema : SchemaDef) (title : String) (object : JsonValue) :
    Handed :=
  let placed := allocate components title object 1
  ⟨schema, object, placed.1, placed.2⟩

def register (schema : SchemaDef) (title : String) (object : JsonValue) : Exporter JsonValue :=
  fun walk =>
    let handed := handOut walk.components schema title object
    .ok (reference handed.name, walk.push handed)

/-- `export`. -/
def exportSchema (schema : SchemaDef) : Exporter JsonValue := exportWith register schema

/-! ## What a schema is exported as -/

/-- A titled schema where the walk comes upon it, with its object. -/
structure Entry where
  schema : SchemaDef
  title : String
  object : JsonValue

/-- A result and the titled schemas come upon on the way to it. -/
structure Noted (α : Type) where
  value : α
  found : List Entry

instance : Monad Noted where
  pure a := ⟨a, []⟩
  bind x f := ⟨(f x.value).value, x.found ++ (f x.value).found⟩

/-- Every schema is referred to by its own title. -/
def note (schema : SchemaDef) (title : String) (object : JsonValue) : Noted JsonValue :=
  ⟨reference title, [⟨schema, title, object⟩]⟩

/-- The schema with every reference by title. -/
def plainSchema (schema : SchemaDef) : Noted JsonValue := exportWith note schema

/-- The object schema with every reference by title. -/
def plainObject (schema : SchemaDef) : JsonValue := (objectSchema note schema).value

/-- The titled schemas in a schema, itself included. -/
def entries (schema : SchemaDef) : List Entry := (plainSchema schema).found

end Nitr.OpenApi
