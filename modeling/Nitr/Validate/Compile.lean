import Mathlib.Data.String.Basic
import Mathlib.Data.List.Sort
import Nitr.Validate.Value

/-! # Schema compilation

A Lua rule table (or shorthand string, or compiled schema) becomes a `Rule`
once at load time, with typos and contradictions rejected there. What the
compiler asks of the rest of the library, the shorthand expander, the message
templates, the format registry and the media table, is a parameter. -/

namespace Nitr.Validate

/-- A scalar a shorthand token can spell. -/
inductive Scalar where
  | boolean (b : Bool)
  | integer (i : ℤ)
  | number (n : F64)
  | text (s : String)

def Scalar.toValue : Scalar → Value
  | boolean b => .boolean b
  | integer i => .integer i
  | number n => .number n
  | text s => .ofString s

/-- What a shorthand token sets its key to: a scalar, or a list of them. -/
inductive Token where
  | one (s : Scalar)
  | list (pointer : ℕ) (items : List Scalar)

def Token.toValue : Token → Value
  | one s => s.toValue
  | list pointer items =>
    .table pointer items.length
      ((items.zipIdx 1).map fun (s, i) => (.integer i, s.toValue))

/-- What compilation asks of the modules around it. -/
structure Library where
  /-- `shorthand::expand`: the keys of the rule table a pipe shorthand stands for. -/
  expand : String → Except String (List (String × Token))
  /-- The state's registry of script-defined formats. -/
  customFormat : String → Option CustomFormat
  formatNames : List String
  /-- `Format::check`. -/
  formatCheck : Format → String → Bool
  /-- `str::parse::<f64>`. -/
  parseF64 : String → Option F64
  /-- `{}` of a double. -/
  displayF64 : F64 → String
  parseSize : String → Option ℕ
  /-- `Template::compile`: text, allowed placeholders, site. -/
  compileTemplate : String → List String → String → Except String Template
  compileMessages : Entries → String → Except String (List (String × Template))
  compileTypes : Entries → String → Except String (List TypePattern)
  compileAspect : Entries → String → Except String (Option Aspect)
  /-- `media::lookup(name).is_some_and(has_dimensions)`. -/
  hasDimensions : String → Bool
  /-- `mlua`'s conversion to a Rust string, which takes numbers too. -/
  coerceString : Value → Except String String

/-- Deepest rule nesting accepted. -/
def maxDepth : ℕ := 32

/-- Raises a schema-compilation error naming the field it is about. -/
def badSchema {α : Type} (path msg : String) : Except String α :=
  .error ("invalid schema for `" ++ path ++ "`: " ++ msg)

/-- Refuses the schema where the condition holds. -/
def refuseIf (condition : Bool) (path msg : String) : Except String Unit :=
  if condition then badSchema path msg else .ok ()

/-! ## Typed readers for rule-table keys -/

section Getters

variable (lib : Library)

def describeValue : Value → String
  | .integer i => toString i
  | .number n => lib.displayF64 n
  | .boolean b => toString b
  | .string s => "\"" ++ s.toStringLossy ++ "\""
  | other => other.typeName

def getString (rule : Entries) (key path : String) : Except String (Option String) :=
  match rule.field key with
  | .nil => .ok none
  | .string s => .ok (some s.toStringLossy)
  | other => badSchema path ("`" ++ key ++ "` must be a string, got " ++ other.typeName)

def getBool (rule : Entries) (key path : String) : Except String (Option Bool) :=
  match rule.field key with
  | .nil => .ok none
  | .boolean b => .ok (some b)
  | other => badSchema path ("`" ++ key ++ "` must be true or false, got " ++ other.typeName)

def getF64 (rule : Entries) (key path : String) : Except String (Option F64) :=
  match rule.field key with
  | .nil => .ok none
  | .integer i => .ok (some (F64.ofInt i))
  | .number n =>
    if n.isFinite then .ok (some n)
    else badSchema path ("`" ++ key ++ "` must be a number, got number")
  | other => badSchema path ("`" ++ key ++ "` must be a number, got " ++ other.typeName)

/-- A non-negative count (`min_len`, `max_items`, …). -/
def getCount (rule : Entries) (key path : String) : Except String (Option ℕ) :=
  let refuse (v : Value) : Except String (Option ℕ) :=
    badSchema path ("`" ++ key ++ "` must be a non-negative integer, got " ++ describeValue lib v)
  match rule.field key with
  | .nil => .ok none
  | .integer i => if 0 ≤ i then .ok (some i.toNat) else refuse (.integer i)
  | .number n =>
    if n.isWhole && (F64.finite 0).le n then .ok (some n.toInt.toNat) else refuse (.number n)
  | other => refuse other

/-- A byte size: an integer, or `"512kb"`, `"2mb"`. -/
def getSize (rule : Entries) (key path : String) : Except String (Option ℕ) :=
  let hint := "`" ++ key ++ "` must be a size like 512, \"512kb\" or \"2mb\""
  match rule.field key with
  | .nil => .ok none
  | .integer i =>
    if 0 ≤ i then .ok (some i.toNat)
    else badSchema path (hint ++ ", got " ++ describeValue lib (.integer i))
  | .string s =>
    match lib.parseSize s.toStringLossy with
    | some n => .ok (some n)
    | none => badSchema path hint
  | other => badSchema path (hint ++ ", got " ++ describeValue lib other)

def literalOf (value : Value) (key path : String) : Except String Literal :=
  let refuse (v : Value) : Except String Literal :=
    badSchema path
      ("`" ++ key ++ "` entries must be strings, numbers or booleans, got " ++ v.typeName)
  match value with
  | .string s => .ok (.str s.toStringLossy)
  | .integer n => .ok (.num (F64.ofInt n))
  | .number n => if n.isFinite then .ok (.num n) else refuse (.number n)
  | .boolean b => .ok (.bool b)
  | other => refuse other

def Literal.fits : Literal → Kind → Bool
  | .str _, .string => true
  | .num _, .number | .num _, .integer => true
  | .bool _, .boolean => true
  | _, .any => true
  | _, _ => false

/-- A literal must fit the rule's type; text that spells a value of the type is
that value. -/
def fitLiteral (lit : Literal) (kind : Kind) (key path : String) : Except String Literal :=
  let fitted : Literal :=
    match lit, kind with
    | .str text, .number | .str text, .integer =>
      match lib.parseF64 text with
      | some n => if n.isFinite then .num n else .str text
      | none => .str text
    | .str text, .boolean =>
      if text = "true" then .bool true
      else if text = "false" then .bool false
      else .str text
    | lit, _ => lit
  if fitted.fits kind then .ok fitted
  else badSchema path
    ("`" ++ key ++ "` holds a value that a `" ++ kind.name ++ "` field can never equal")

def getLiteral (rule : Entries) (key : String) (kind : Kind) (path : String) :
    Except String (Option Literal) :=
  match rule.field key with
  | .nil => .ok none
  | value => do
    let lit ← literalOf value key path
    let lit ← fitLiteral lib lit kind key path
    .ok (some lit)

/-- `Option<Table>`: what `mlua` converts. -/
def getTable (rule : Entries) (key : String) : Except String (Option Entries) :=
  match rule.field key with
  | .nil => .ok none
  | .table _ _ entries => .ok (some entries)
  | other => .error ("error converting Lua " ++ other.typeName ++ " to table")

def getLiterals (rule : Entries) (key : String) (kind : Kind) (path : String) :
    Except String (Option (List Literal)) := do
  let some (list : Entries) ← getTable rule key | return none
  let literals ← list.sequence.mapM fun value => do
    fitLiteral lib (← literalOf value key path) kind key path
  refuseIf literals.isEmpty path ("`" ++ key ++ "` must not be empty")
  return some literals

def getStrings (rule : Entries) (key path : String) : Except String (Option (List String)) :=
  match rule.field key with
  | .nil => .ok none
  | .table _ _ list => do
    let out ← (Entries.sequence list).mapM fun value =>
      match value with
      | .string s => .ok s.toStringLossy
      | other =>
        badSchema path ("`" ++ key ++ "` entries must be strings, got " ++ other.typeName)
    refuseIf out.isEmpty path ("`" ++ key ++ "` must not be empty")
    return some out
  | other => badSchema path ("`" ++ key ++ "` must be a list of strings, got " ++ other.typeName)

/-- An `after`/`before` bound, which needs a temporal format to compare in. -/
def getTimeBound (rule : Entries) (key path : String) (format : Option FormatRule) :
    Except String (Option TimeBound) := do
  let some raw ← getString rule key path | return none
  let refuse : Except String (Option TimeBound) :=
    badSchema path ("`" ++ key ++ "` needs `format = \"date\"`, `\"datetime\"` or `\"time\"`")
  match format with
  | some (.builtin f) =>
    if f.isTemporal then
      if raw = "now" then return some .now
      else if lib.formatCheck f raw then return some (.literal raw)
      else
        badSchema path ("`" ++ key ++ "` must be \"now\" or a value in the field's format, got \""
          ++ raw ++ "\"")
    else refuse
  | _ => refuse

end Getters

/-! ## Keys -/

/-- Keys every type accepts. -/
def commonKeys : List String :=
  ["type", "required", "default", "equals", "one_of", "not_one_of", "description", "example",
   "label", "message", "messages", "check", "transform"]

/-- Which rule keys apply to which type. -/
def allowedKeys : Kind → List String
  | .string =>
    ["trim", "case", "min_len", "max_len", "len", "format", "starts_with", "ends_with", "contains",
     "does_not_contain", "after", "before"]
  | .number => ["min", "max", "exclusive_min", "exclusive_max", "multiple_of", "decimals"]
  | .integer => ["min", "max", "exclusive_min", "exclusive_max", "multiple_of"]
  | .boolean => []
  | .array =>
    ["items", "min_items", "max_items", "unique", "contains", "contains_any", "contains_all",
     "max_total_bytes"]
  | .table => ["fields"]
  | .map => ["keys", "values", "min_keys", "max_keys"]
  | .any => ["max_bytes"]
  | .file =>
    ["max_bytes", "min_bytes", "types", "allow_executables", "extensions", "match_extension",
     "filename", "min_width", "max_width", "min_height", "max_height", "max_pixels", "aspect",
     "utf8"]

/-- Refuses keys the type does not accept. -/
def checkKeys (kind : Kind) (path : String) : Entries → Except String Unit
  | [] => .ok ()
  | (.string key, _) :: rest =>
    let key := key.toStringLossy
    if key ∈ commonKeys ∨ key ∈ allowedKeys kind then checkKeys kind path rest
    else badSchema path
      ("unknown rule `" ++ key ++ "` for type `" ++ kind.name ++ "` (allowed: "
        ++ ", ".intercalate (commonKeys ++ allowedKeys kind) ++ ")")
  | _ :: _ => badSchema path "rule keys must be strings"

/-- The placeholders a rule exposes, by rule code. -/
def ruleParams (rule : String) : List String :=
  if rule = "type" then ["type"]
  else if rule ∈ ["min_len", "min", "exclusive_min", "min_items", "min_keys", "min_bytes",
      "min_width", "min_height"] then ["min"]
  else if rule ∈ ["max_len", "max", "exclusive_max", "max_items", "max_keys", "max_bytes",
      "max_total_bytes", "max_width", "max_height", "max_pixels"] then ["max"]
  else if rule = "len" then ["len"]
  else if rule = "multiple_of" then ["step"]
  else if rule = "decimals" then ["decimals"]
  else if rule = "format" then ["format"]
  else if rule ∈ ["one_of", "not_one_of", "contains_any", "contains_all"] then ["choices"]
  else if rule = "equals" then ["expected"]
  else if rule ∈ ["starts_with", "ends_with", "does_not_contain"] then ["text"]
  else if rule = "contains" then ["text", "item"]
  else if rule ∈ ["after", "before"] then ["limit"]
  else if rule = "types" then ["types"]
  else if rule = "extensions" then ["extensions"]
  else if rule = "filename" then ["text"]
  else if rule = "aspect" then ["aspect"]
  else if rule ∈ ["at_least_one", "mutually_exclusive", "dependent_required"] then ["fields"]
  else if rule ∈ ["equal_fields", "ordered"] then ["field"]
  else []

/-- The placeholders a field-wide `message` may use. -/
def fieldPlaceholders (rule : Entries) : List String :=
  rule.foldl (fun names e =>
    match e.1 with
    | .string key =>
      (ruleParams key.toStringLossy).foldl
        (fun names name => if name ∈ names then names else names ++ [name]) names
    | _ => names) ["type"]

/-! ## One rule -/

section Rules

variable (lib : Library)

/-- A key that holds a function: `check`, `transform`. -/
def getFunction (rule : Entries) (key path : String) : Except String (Option Function) :=
  match rule.field key with
  | .nil => .ok none
  | .function f => .ok (some f)
  | other => badSchema path ("`" ++ key ++ "` must be a function, got " ++ other.typeName)

def isPlain : Value → Bool
  | .function _ | .schema _ | .file .. | .other _ => false
  | _ => true

/-- A `messages` table, or what stands where there is none. -/
def getMessages (rule : Entries) (what : String) (current : List (String × Template)) :
    Except String (List (String × Template)) := do
  let some table ← getTable rule "messages" | return current
  lib.compileMessages table what

/-- The field-wide `message`. -/
def getMessage (rule : Entries) (path : String) : Except String (Option Template) := do
  let some text ← getString rule "message" path | return none
  some <$> lib.compileTemplate text (fieldPlaceholders rule) ("`" ++ path ++ "`")

/-- The keys every type shares. -/
def compileCommon (rule : Entries) (kind : Kind) (path : String) : Except String RuleKeys := do
  let required := (← getBool rule "required" path).getD false
  let label ← getString rule "label" path
  let description ← getString rule "description" path
  refuseIf (!isPlain (rule.field "example")) path "`example` must be a plain value"
  let equals ← getLiteral lib rule "equals" kind path
  let oneOf ← getLiterals lib rule "one_of" kind path
  let notOneOf ← getLiterals lib rule "not_one_of" kind path
  let default ← getLiteral lib rule "default" kind path
  refuseIf (default.isSome && required) path "`default` and `required` contradict each other"
  let check ← getFunction rule "check" path
  refuseIf (check.isSome && description.isNone) path
    "a `check` needs a `description` saying what it enforces"
  let transform ← getFunction rule "transform" path
  let messages ← getMessages lib rule ("`" ++ path ++ "`") []
  refuseIf (messages.any (fun m => m.1 = "summary")) path
    "`summary` is an app-level message, not a field one"
  let message ← getMessage lib rule path
  return { kind, required, label, description, equals, oneOf, notOneOf, default, check, transform,
           messages, message }

/-- `FormatRule::resolve`: built-ins first, then the state's registry. -/
def FormatRule.resolve (name : String) : Option FormatRule :=
  match Format.parse name with
  | some format => some (.builtin format)
  | none => (lib.customFormat name).map .custom

/-- One of the literal text rules, which must not be empty. -/
def getText (rule : Entries) (key path : String) : Except String (Option String) := do
  let text ← getString rule key path
  refuseIf (text = some "") path ("`" ++ key ++ "` must not be empty")
  return text

def getCase (rule : Entries) (path : String) : Except String (Option Case) := do
  match ← getString rule "case" path with
  | none => return none
  | some "lower" => return some .lower
  | some "upper" => return some .upper
  | some other =>
    badSchema path ("`case` must be \"lower\" or \"upper\", got \"" ++ other ++ "\"")

def getFormat (rule : Entries) (path : String) : Except String (Option FormatRule) := do
  match ← getString rule "format" path with
  | none => return none
  | some name =>
    match FormatRule.resolve lib name with
    | some format => return some format
    | none =>
      badSchema path ("unknown format `" ++ name ++ "` (expected one of: "
        ++ ", ".intercalate lib.formatNames ++ ")")

/-- `min > max`, where both are given. -/
def exceeds {α : Type} (lt : α → α → Bool) (min max : Option α) : Bool :=
  match min, max with
  | some min, some max => lt max min
  | _, _ => false

def compileString (rule : Entries) (out : RuleKeys) (path : String) : Except String RuleKeys := do
  let trim := (← getBool rule "trim" path).getD false
  let case ← getCase rule path
  let minLen ← getCount lib rule "min_len" path
  let maxLen ← getCount lib rule "max_len" path
  let len ← getCount lib rule "len" path
  refuseIf (exceeds (fun a b => decide (a < b)) minLen maxLen) path
    "`min_len` is greater than `max_len`"
  let format ← getFormat lib rule path
  let startsWith ← getText rule "starts_with" path
  let endsWith ← getText rule "ends_with" path
  let contains ← getText rule "contains" path
  let doesNotContain ← getText rule "does_not_contain" path
  let after ← getTimeBound lib rule "after" path format
  let before ← getTimeBound lib rule "before" path format
  return { out with trim, case, minLen, maxLen, len, format, startsWith, endsWith, contains,
                    doesNotContain, after, before }

def getDecimals (rule : Entries) (out : RuleKeys) (path : String) : Except String (Option ℕ) :=
  if out.kind = .number then (Option.map (Nat.min 20)) <$> getCount lib rule "decimals" path
  else .ok out.decimals

def compileNumber (rule : Entries) (out : RuleKeys) (path : String) : Except String RuleKeys := do
  let min ← getF64 rule "min" path
  let max ← getF64 rule "max" path
  let exclusiveMin ← getF64 rule "exclusive_min" path
  let exclusiveMax ← getF64 rule "exclusive_max" path
  let multipleOf ← getF64 rule "multiple_of" path
  refuseIf (exceeds F64.lt min max) path "`min` is greater than `max`"
  refuseIf (multipleOf.any (fun step => step.le (.finite 0))) path
    "`multiple_of` must be positive"
  let decimals ← getDecimals lib rule out path
  return { out with min, max, exclusiveMin, exclusiveMax, multipleOf, decimals }

def compileDim (rule : Entries) (key path : String) : Except String (Option ℕ) := do
  return (← getCount lib rule key path).map (Nat.min (2 ^ 32 - 1))

end Rules

/-! ## Nested rules

`left` counts the nesting levels still allowed, `maxDepth + 1` at the top; at a
given level `nested` compiles a rule one level deeper. -/

section Nested

variable (lib : Library) (left : ℕ) (nested : Value → String → Except String Rule)

/-- A nested rule that must be a `string` one: `filename`, `keys`. -/
def compileStringRule (value : Value) (path sub refusal : String) :
    Except String (Option Rule) := do
  if value.isNil then return none
  let rule ← nested value sub
  refuseIf (rule.kind != .string) path refusal
  return some rule

/-- The `file`-only keys, with the nested filename rule. -/
def compileFileRule (rule : Entries) (path : String) :
    Except String (FileRule × Option Rule) := do
  let types ← lib.compileTypes rule path
  let extensions := ((← getStrings rule "extensions" path).getD []).map fun e =>
    String.ofList ((e.toList.dropWhile (· = '.')).map Char.toLower)
  refuseIf (extensions.any (· = "")) path "`extensions` entries must not be empty"
  let matchExtension := (← getBool rule "match_extension" path).getD
    (!types.isEmpty && !extensions.isEmpty)
  let filename ← compileStringRule nested (rule.field "filename") path (path ++ ".filename")
    "`filename` must be a `string` rule"
  let filename := filename.map fun r => { r with label := some (r.label.getD "filename") }
  let minBytes := (← getSize lib rule "min_bytes" path).getD 1
  let allowExecutables := (← getBool rule "allow_executables" path).getD false
  let minWidth ← compileDim lib rule "min_width" path
  let maxWidth ← compileDim lib rule "max_width" path
  let minHeight ← compileDim lib rule "min_height" path
  let maxHeight ← compileDim lib rule "max_height" path
  let maxPixels ← getSize lib rule "max_pixels" path
  let aspect ← lib.compileAspect rule path
  let utf8 := (← getBool rule "utf8" path).getD false
  let file : FileRule := { minBytes, types, allowExecutables, extensions, matchExtension, minWidth,
                           maxWidth, minHeight, maxHeight, maxPixels, aspect, utf8 }
  let allImages := !types.isEmpty && types.all fun
    | .family f => f = "image"
    | .exact name => lib.hasDimensions name
    | .any => false
  refuseIf (file.wantsDimensions && !allImages) path
    ("image dimension rules need `types` naming only image types with readable "
      ++ "headers (png, jpeg, gif, webp, bmp, tiff or image/*)")
  return (file, filename)

/-- A rule that nests no other. -/
def Rule.ofKeys (keys : RuleKeys) : Rule := ⟨keys, none, none, none, none, none⟩

/-- A compiled schema nested as a field: a `table` rule with its fields. -/
def nestedSchemaRule (schema : SchemaDef) : Rule :=
  { Rule.ofKeys { kind := .table } with fields := some schema }

def validFieldName (name : String) : Bool :=
  !(name = "") && !name.toList.any (fun c => c = '.' || c = '[' || c = ']')

/-- One `name = rule` pair of a field table. -/
def compileField (path : String) : Key × Value → Except String (String × Rule)
  | (.string name, rule) => do
    let name := name.toStringLossy
    refuseIf (!validFieldName name) path ("`" ++ name ++ "` is not a valid field name")
    let fieldPath := if path = "" then name else path ++ "." ++ name
    return (name, ← nested rule fieldPath)
  | _ => badSchema path "field names must be strings"

/-- `sort_by` on the names: stable. -/
def sortFields (fields : List (String × Rule)) : List (String × Rule) :=
  fields.insertionSort (fun a b => a.1 ≤ b.1)

/-- Compiles a `{ name = rule, ... }` map, sorted so error output and
validation order are deterministic. -/
def compileFields (fields : Entries) (path : String) : Except String (List (String × Rule)) := do
  refuseIf (left = 0) path "nested deeper than 32 levels"
  let compiled ← fields.mapM (compileField nested path)
  return sortFields compiled

def compileArray (rule : Entries) (out : RuleKeys) (path : String) : Except String Rule := do
  refuseIf (rule.field "items").isNil path "type `array` requires `items`"
  let items ← nested (rule.field "items") (path ++ "[]")
  let minItems ← getCount lib rule "min_items" path
  let maxItems ← getCount lib rule "max_items" path
  refuseIf (exceeds (fun a b => decide (a < b)) minItems maxItems) path
    "`min_items` is greater than `max_items`"
  let unique := (← getBool rule "unique" path).getD false
  -- Literal keys on an array describe its items.
  let containsItem ← getLiteral lib rule "contains" items.kind path
  let containsAny ← getLiterals lib rule "contains_any" items.kind path
  let containsAll ← getLiterals lib rule "contains_all" items.kind path
  let maxTotalBytes ← getSize lib rule "max_total_bytes" path
  refuseIf (maxTotalBytes.isSome && items.kind != .file) path
    "`max_total_bytes` applies to an array of `file` rules"
  let keys := { out with minItems, maxItems, unique, containsItem, containsAny, containsAll,
                         maxTotalBytes }
  return { Rule.ofKeys keys with items := some items }

/-- The `fields` of a table rule: a table of rules, or a compiled schema. -/
def compileNestedFields (value : Value) (path : String) : Except String SchemaDef :=
  match value with
  | .nil => badSchema path "type `table` requires `fields`"
  | .table _ _ fields => (⟨·, {}⟩) <$> compileFields left nested fields path
  | .schema schema => .ok schema
  | .file .. | .other _ => badSchema path "`fields` must be a table of rules or a schema"
  | other => badSchema path ("`fields` must be a table of rules, got " ++ other.typeName)

def compileTable (rule : Entries) (out : RuleKeys) (path : String) : Except String Rule := do
  let fields ← compileNestedFields left nested (rule.field "fields") path
  return { Rule.ofKeys out with fields := some fields }

def compileMap (rule : Entries) (out : RuleKeys) (path : String) : Except String Rule := do
  let keys ← compileStringRule nested (rule.field "keys") path (path ++ "\x7bkey\x7d")
    "`keys` must be a `string` rule (JSON keys are strings)"
  refuseIf (rule.field "values").isNil path "type `map` requires `values`"
  let values ← nested (rule.field "values") (path ++ "\x7b\x7d")
  let minKeys ← getCount lib rule "min_keys" path
  let maxKeys ← getCount lib rule "max_keys" path
  refuseIf maxKeys.isNone path
    "type `map` requires `max_keys`: an unbounded map is an unbounded allocation"
  return { Rule.ofKeys { out with minKeys, maxKeys } with keys, values := some values }

def compileAny (rule : Entries) (out : RuleKeys) (path : String) : Except String Rule := do
  let maxBytes ← getSize lib rule "max_bytes" path
  refuseIf maxBytes.isNone path
    ("type `any` requires `max_bytes`: a value the schema does not describe must "
      ++ "say how large it may be")
  return Rule.ofKeys { out with maxBytes }

def compileFile (rule : Entries) (out : RuleKeys) (path : String) : Except String Rule := do
  let maxBytes ← getSize lib rule "max_bytes" path
  refuseIf maxBytes.isNone path "type `file` requires `max_bytes`"
  let (file, filename) ← compileFileRule lib nested rule path
  return { Rule.ofKeys { out with maxBytes, file := some file } with filename }

def getKind (rule : Entries) (path : String) : Except String Kind := do
  let some typeName ← getString rule "type" path | badSchema path "missing `type`"
  let some kind := Kind.parse typeName
    | badSchema path ("unknown type `" ++ typeName ++ "` (expected string, number, integer, "
        ++ "boolean, array, table, map, any or file)")
  return kind

def compileRule (rule : Entries) (path : String) : Except String Rule := do
  let kind ← getKind rule path
  checkKeys kind path rule
  let out ← compileCommon lib rule kind path
  match kind with
  | .string => Rule.ofKeys <$> compileString lib rule out path
  | .number | .integer => Rule.ofKeys <$> compileNumber lib rule out path
  | .boolean => .ok (Rule.ofKeys out)
  | .array => compileArray lib nested rule out path
  | .table => compileTable left nested rule out path
  | .map => compileMap lib nested rule out path
  | .any => compileAny lib rule out path
  | .file => compileFile lib nested rule out path

/-- The mixed form: the keys of the table over those of its shorthand. -/
def overlay (path : String) : Entries → Entries → Except String Entries
  | base, [] => .ok base
  | base, (.integer 1, _) :: rest => overlay path base rest
  | base, (.string key, value) :: rest => overlay path (base.set (.string key) value) rest
  | _, _ :: _ => badSchema path "rule keys must be strings"

/-- `shorthand::expand`, its refusal named after the field. -/
def expandAt (shorthand : LuaString) (path : String) : Except String Entries :=
  match lib.expand shorthand.toStringLossy with
  | .ok table => .ok (table.map fun e => (.ofString e.1, e.2.toValue))
  | .error err => badSchema path err

end Nested

/-- Compiles one field rule from whatever spelling the script used: a table, a
shorthand string, the mixed `{ "<shorthand>", ... }` form, or a compiled schema. -/
def compileRuleValue (lib : Library) : ℕ → Value → String → Except String Rule
  | 0, _, path => badSchema path "nested deeper than 32 levels"
  | left + 1, value, path =>
    let nested := compileRuleValue lib left
    match value with
    | .string shorthand => do
      compileRule lib left nested (← expandAt lib shorthand path) path
    | .table _ _ table =>
      match Entries.get table (.integer 1) with
      | .nil => compileRule lib left nested table path
      | .string shorthand => do
        let base ← expandAt lib shorthand path
        compileRule lib left nested (← overlay path base table) path
      | other => badSchema path
          ("a rule table may start with a shorthand string only, got " ++ other.typeName)
    | .schema schema => .ok (nestedSchemaRule schema)
    | .file .. | .other _ =>
      badSchema path "the rule must be a table, a shorthand string or a schema"
    | other => badSchema path
        ("the rule must be a table, a shorthand string or a schema, got " ++ other.typeName)

end Nitr.Validate
