import Nitr.Lib.JsonPointer
import Nitr.Validate.Data

/-! # The keywords of a rule

What `schema_json.rs` writes for one rule or one schema, given the schemas of what is nested in
it. The keys of an object are kept sorted, as in the `BTreeMap` of the source. -/

namespace Nitr.OpenApi

open Validate

/-- The keys written so far of an object. -/
abbrev Keywords := OrdMap String JsonValue

/-- `json!({ … })`. -/
def object (entries : List (String × JsonValue)) : JsonValue :=
  .ofMap (entries.foldl (fun m e => m.insert e.1 e.2) .empty)

def strings (texts : List String) : JsonValue := .arr (texts.map .str)

namespace Keywords

/-- Sets a key where there is a value for it. -/
def put (key : String) (value : Option JsonValue) (out : Keywords) : Keywords :=
  match value with
  | none => out
  | some value => out.insert key value

def putIf (key : String) (condition : Bool) (value : JsonValue) (out : Keywords) : Keywords :=
  if condition then out.insert key value else out

/-- `extend`. -/
def extend (entries : List (String × JsonValue)) (out : Keywords) : Keywords :=
  entries.foldl (fun out e => out.insert e.1 e.2) out

end Keywords

open Keywords

/-! ## Literals -/

/-- A whole number of an integer rule is written as an integer; a double that is not finite
becomes `null`. -/
def number (n : F64) (kind : Kind) : JsonValue :=
  if kind = .integer ∧ n.isWhole ∧ n.absLt 9000000000000000 then .int n.toInt
  else match n.exact with
    | some q => .float q
    | none => .null

def literal (value : Literal) (kind : Kind) : JsonValue :=
  match value with
  | .str s => .str s
  | .num n => number n kind
  | .bool b => .bool b

def literals (values : List Literal) (kind : Kind) : JsonValue :=
  .arr (values.map (literal · kind))

def timeBound : TimeBound → JsonValue
  | .now => .str "now"
  | .literal s => .str s

/-! ## Texts -/

def regexEscape (text : String) : String :=
  .ofList (text.toList.flatMap fun c => if c ∈ "\\.+*?()|[]\x7b\x7d^$/".toList then ['\\', c] else [c])

/-- The formats the standard names. -/
def standardFormat : Format → Option String
  | .email => some "email"
  | .uuid => some "uuid"
  | .url => some "uri"
  | .datetime => some "date-time"
  | .date => some "date"
  | .time => some "time"
  | .ipv4 => some "ipv4"
  | .ipv6 => some "ipv6"
  | .hostname => some "hostname"
  | _ => none

def formatKeywords (format : FormatRule) (out : Keywords) : Keywords :=
  match format with
  | .builtin format =>
      match standardFormat format with
      | some name => out.insert "format" (.str name)
      | none => out.insert "x-nitr-format" (.str format.name)
  | .custom custom =>
      let out := out.insert "x-nitr-format" (.str custom.name)
      let out := out.insert "description" (.str custom.description)
      let out := put "pattern" (custom.pattern.map .str) out
      let out := put "example" (custom.sample.map .str) out
      out.insert "x-nitr-enforced" (.str "custom")

/-- Adds clauses to an `allOf`, creating or extending it. -/
def mergeAllOf (clauses : List JsonValue) (out : Keywords) : Keywords :=
  if clauses = [] then out
  else
    match out.get "allOf" with
    | some (.arr existing) => out.insert "allOf" (.arr (existing ++ clauses))
    | _ => out.insert "allOf" (.arr clauses)

/-- The literal text rules as anchored, escaped patterns. -/
def patterns (rule : RuleKeys) (out : Keywords) : Keywords :=
  let all := (rule.startsWith.map fun s => "^" ++ regexEscape s).toList ++
    (rule.endsWith.map fun s => regexEscape s ++ "$").toList ++
    (rule.contains.map regexEscape).toList
  let not := rule.doesNotContain.map fun s => object [("not", object [("pattern", .str (regexEscape s))])]
  match all, not with
  | [], none => out
  | [pattern], none => out.insert "pattern" (.str pattern)
  | all, not => mergeAllOf (all.map (fun p => object [("pattern", .str p)]) ++ not.toList) out

def transforms (rule : RuleKeys) : List String :=
  (if rule.trim then ["trim"] else []) ++
    (match rule.case with
      | some .lower => ["lower"]
      | some .upper => ["upper"]
      | none => []) ++
    (if rule.transform.isSome then ["custom"] else [])

/-! ## The keys of a rule, in the order they are written -/

def valueKeywords (rule : RuleKeys) (out : Keywords) : Keywords :=
  let out := put "default" (rule.default.map (literal · rule.kind)) out
  let out := put "const" (rule.equals.map (literal · rule.kind)) out
  let out := put "enum" (rule.oneOf.map (literals · rule.kind)) out
  put "not" (rule.notOneOf.map fun list => object [("enum", literals list rule.kind)]) out

def stringKeywords (rule : RuleKeys) (out : Keywords) : Keywords :=
  let out := putIf "x-nitr-transform" (transforms rule ≠ []) (strings (transforms rule)) out
  let out := put "minLength" (rule.len.map fun n => .int n) out
  let out := put "maxLength" (rule.len.map fun n => .int n) out
  let out := put "minLength" (rule.minLen.map fun n => .int n) out
  let out := put "maxLength" (rule.maxLen.map fun n => .int n) out
  let out := match rule.format with
    | some format => formatKeywords format out
    | none => out
  let out := patterns rule out
  let out := put "x-nitr-after" (rule.after.map timeBound) out
  put "x-nitr-before" (rule.before.map timeBound) out

def numberKeywords (rule : RuleKeys) (out : Keywords) : Keywords :=
  let out := put "minimum" (rule.min.map (number · rule.kind)) out
  let out := put "maximum" (rule.max.map (number · rule.kind)) out
  let out := put "exclusiveMinimum" (rule.exclusiveMin.map (number · rule.kind)) out
  let out := put "exclusiveMaximum" (rule.exclusiveMax.map (number · rule.kind)) out
  let out := put "multipleOf" (rule.multipleOf.map (number · rule.kind)) out
  put "x-nitr-decimals" (rule.decimals.map fun n => .int n) out

/-- The `contains` clauses, whose literals are those of the item rule. -/
def containsClauses (rule : RuleKeys) (itemKind : Kind) : List JsonValue :=
  let const v := object [("contains", object [("const", literal v itemKind)])]
  (rule.containsItem.map const).toList ++
    (rule.containsAny.map fun list =>
      object [("contains", object [("enum", literals list itemKind)])]).toList ++
    (rule.containsAll.getD []).map const

def arrayKeywords (rule : RuleKeys) (itemKind : Kind) (items : Option JsonValue) (out : Keywords) :
    Keywords :=
  let out := put "items" items out
  let out := put "minItems" (rule.minItems.map fun n => .int n) out
  let out := put "maxItems" (rule.maxItems.map fun n => .int n) out
  let out := putIf "uniqueItems" rule.unique (.bool true) out
  let out := mergeAllOf (containsClauses rule itemKind) out
  put "x-nitr-max-total-bytes" (rule.maxTotalBytes.map fun n => .int n) out

def mapKeywords (rule : RuleKeys) (out : Keywords) : Keywords :=
  let out := put "minProperties" (rule.minKeys.map fun n => .int n) out
  let out := put "maxProperties" (rule.maxKeys.map fun n => .int n) out
  if rule.kind = .file then out
  else put "x-nitr-max-bytes" (rule.maxBytes.map fun n => .int n) out

/-- Title, description and the custom-check marker, last so that a reference carries them too. -/
def withCommon (schema : JsonValue) (rule : RuleKeys) : JsonValue :=
  let schema := match rule.label with
    | some label => schema.set "title" (.str label)
    | none => schema
  let schema := match rule.description with
    | some description =>
        let merged := match (schema.get "description").bind JsonValue.asStr with
          | some existing =>
              if existing = description then description else description ++ "\n\n" ++ existing
          | none => description
        schema.set "description" (.str merged)
    | none => schema
  if rule.check.isSome then schema.set "x-nitr-enforced" (.str "custom") else schema

/-! ## Files -/

def TypePattern.text : TypePattern → String
  | .any => "*/*"
  | .family name => name ++ "/*"
  | .exact name => name

/-- A single exact type is the content type; anything else is a binary string. -/
def fileTypes (types : List TypePattern) (out : Keywords) : Keywords :=
  match types with
  | [.exact name] => out.insert "contentMediaType" (.str name)
  | _ =>
      putIf "x-nitr-types" (types ≠ []) (strings (types.map TypePattern.text))
        (out.insert "format" (.str "binary"))

/-- A `file` rule: a binary string, typed by its media types. -/
def fileSchema (rule : RuleKeys) (filename : Option JsonValue) : Keywords :=
  match rule.file with
  | none => (OrdMap.empty.insert "type" (.str "string")).insert "format" (.str "binary")
  | some file =>
      let out := fileTypes file.types (OrdMap.empty.insert "type" (.str "string"))
      let out := put "x-nitr-max-bytes" (rule.maxBytes.map fun n => .int n) out
      let out := putIf "x-nitr-min-bytes" (0 < file.minBytes) (.int file.minBytes) out
      let out := putIf "x-nitr-extensions" (file.extensions ≠ []) (strings file.extensions) out
      let out := putIf "x-nitr-match-extension" file.matchExtension (.bool true) out
      let out := putIf "x-nitr-allow-executables" file.allowExecutables (.bool true) out
      let out := put "x-nitr-min-width" (file.minWidth.map fun n => .int n) out
      let out := put "x-nitr-max-width" (file.maxWidth.map fun n => .int n) out
      let out := put "x-nitr-min-height" (file.minHeight.map fun n => .int n) out
      let out := put "x-nitr-max-height" (file.maxHeight.map fun n => .int n) out
      let out := put "x-nitr-max-pixels" (file.maxPixels.map fun n => .int n) out
      let out := put "x-nitr-aspect" (file.aspect.map fun aspect => .str aspect.label) out
      let out := putIf "x-nitr-utf8" file.utf8 (.bool true) out
      put "x-nitr-filename" filename out

/-! ## Schemas -/

/-- The declarative cross-field rules: standard keywords where there are some. -/
def crossField (options : SchemaOptions) (out : Keywords) : Keywords :=
  let anyOfs := options.atLeastOne.map fun group =>
    ("anyOf", JsonValue.arr (group.fields.map fun f => object [("required", strings [f])]))
  let out := match anyOfs with
    | [] => out
    | [one] => extend [one] out
    | anyOfs => out.insert "allOf" (.arr (anyOfs.map fun one => object [one]))
  let dependents := options.dependentRequired.map fun dependent =>
    (dependent.1, strings (dependent.2.fields.filter (· ≠ dependent.1)))
  let groups (list : List Group) := JsonValue.arr (list.map fun group => strings group.fields)
  let out := putIf "dependentRequired" (options.dependentRequired ≠ []) (object dependents) out
  let out := putIf "x-nitr-mutually-exclusive" (options.mutuallyExclusive ≠ [])
    (groups options.mutuallyExclusive) out
  let out := putIf "x-nitr-equal-fields" (options.equalFields ≠ []) (groups options.equalFields) out
  putIf "x-nitr-ordered" (options.ordered ≠ []) (groups options.ordered) out

/-- The schema-level checks, by their descriptions. -/
def checkKeywords (checks : List CheckDef) (out : Keywords) : Keywords :=
  if checks = [] then out
  else
    let description := checks.foldl (fun text check => text ++ "\n- " ++ check.description) "Constraints:"
    let out := out.insert "description" (.str description)
    let out := out.insert "x-nitr-checks" (strings (checks.map CheckDef.description))
    out.insert "x-nitr-enforced" (.str "custom")

/-- `object_schema`, once the schemas of the fields are known. -/
def objectKeywords (schema : SchemaDef) (properties : Keywords) : Keywords :=
  let required := (schema.fields.filter fun field => field.2.required).map Prod.fst
  let out : Keywords := OrdMap.empty.insert "type" (.str "object")
  let out := put "title" (schema.options.title.map .str) out
  let out := out.insert "properties" (.ofMap properties)
  let out := putIf "required" (required ≠ []) (strings required) out
  let out := out.insert "additionalProperties" (.bool false)
  let out := crossField schema.options out
  checkKeywords schema.options.checks out

/-! ## Lookups in an object schema -/

theorem get_put (key : String) (value : Option JsonValue) (out : Keywords) (k : String) :
    (put key value out).get k = if k = key then value.or (out.get k) else out.get k := by
  cases value with
  | none => simp [put]
  | some value => rw [put, OrdMap.get_insert, Option.some_or]

theorem get_put_of_ne {key k : String} (h : k ≠ key) (value : Option JsonValue) (out : Keywords) :
    (put key value out).get k = out.get k := by
  rw [get_put, if_neg h]

theorem get_putIf_of_ne {key k : String} (h : k ≠ key) (condition : Bool) (value : JsonValue)
    (out : Keywords) : (putIf key condition value out).get k = out.get k := by
  cases condition with
  | false => rfl
  | true => exact (OrdMap.get_insert out key value k).trans (if_neg h)

theorem get_insert_of_ne {key k : String} (h : k ≠ key) (value : JsonValue) (out : Keywords) :
    (out.insert key value).get k = out.get k := by
  rw [OrdMap.get_insert, if_neg h]

theorem get_foldl_insert_of_notMem {k : String} (entries : List (String × JsonValue))
    (hk : k ∉ entries.map Prod.fst) (out : Keywords) :
    (entries.foldl (fun m e => m.insert e.1 e.2) out).get k = out.get k := by
  induction entries generalizing out with
  | nil => rfl
  | cons e rest ih =>
      rw [List.map_cons, List.mem_cons, not_or] at hk
      rw [List.foldl_cons, ih hk.2, get_insert_of_ne hk.1]

theorem get_object_of_notMem {k : String} {entries : List (String × JsonValue)}
    (hk : k ∉ entries.map Prod.fst) : (object entries).get k = none :=
  get_foldl_insert_of_notMem entries hk .empty

/-- The keys of the cross-field rules and of the schema-level checks. -/
def extraKeys : List String :=
  ["anyOf", "allOf", "dependentRequired", "x-nitr-mutually-exclusive", "x-nitr-equal-fields",
    "x-nitr-ordered", "description", "x-nitr-checks", "x-nitr-enforced"]

theorem ne_of_notMem_extraKeys {k key : String} (hk : k ∉ extraKeys) (hkey : key ∈ extraKeys) :
    k ≠ key := fun h => hk (h ▸ hkey)

theorem get_crossField {k : String} (hk : k ∉ extraKeys) (options : SchemaOptions)
    (out : Keywords) : (crossField options out).get k = out.get k := by
  have hne : ∀ key ∈ extraKeys, k ≠ key := fun _ => ne_of_notMem_extraKeys hk
  rw [crossField, get_putIf_of_ne (hne _ (by decide)), get_putIf_of_ne (hne _ (by decide)),
    get_putIf_of_ne (hne _ (by decide)), get_putIf_of_ne (hne _ (by decide))]
  cases options.atLeastOne with
  | nil => rfl
  | cons group rest =>
      cases rest with
      | nil => exact get_insert_of_ne (hne "anyOf" (by decide)) _ _
      | cons next rest => exact get_insert_of_ne (hne "allOf" (by decide)) _ _

theorem get_checkKeywords {k : String} (hk : k ∉ extraKeys) (checks : List CheckDef)
    (out : Keywords) : (checkKeywords checks out).get k = out.get k := by
  have hne : ∀ key ∈ extraKeys, k ≠ key := fun _ => ne_of_notMem_extraKeys hk
  rw [checkKeywords]
  by_cases h : checks = []
  · rw [if_pos h]
  · rw [if_neg h, get_insert_of_ne (hne _ (by decide)), get_insert_of_ne (hne _ (by decide)),
      get_insert_of_ne (hne _ (by decide))]

/-- An object schema carries the title of the schema and no other. -/
theorem title_objectKeywords (schema : SchemaDef) (properties : Keywords) :
    (objectKeywords schema properties).get "title" = schema.options.title.map .str := by
  rw [objectKeywords, get_checkKeywords (by decide), get_crossField (by decide),
    get_insert_of_ne (by decide), get_putIf_of_ne (by decide), get_insert_of_ne (by decide),
    get_put, if_pos rfl]
  cases schema.options.title with
  | none => rfl
  | some title => rfl

theorem properties_objectKeywords (schema : SchemaDef) (properties : Keywords) :
    (objectKeywords schema properties).get "properties" = some (.ofMap properties) := by
  rw [objectKeywords, get_checkKeywords (by decide), get_crossField (by decide),
    get_insert_of_ne (by decide), get_putIf_of_ne (by decide), OrdMap.get_insert, if_pos rfl]

/-- An object schema is no reference. -/
theorem ref_objectKeywords (schema : SchemaDef) (properties : Keywords) :
    (objectKeywords schema properties).get "$ref" = none := by
  rw [objectKeywords, get_checkKeywords (by decide), get_crossField (by decide),
    get_insert_of_ne (by decide), get_putIf_of_ne (by decide), get_insert_of_ne (by decide),
    get_put_of_ne (by decide), get_insert_of_ne (by decide), OrdMap.get_empty]

end Nitr.OpenApi
