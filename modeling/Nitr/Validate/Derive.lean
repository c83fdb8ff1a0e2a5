import Nitr.Validate.Compile

/-! # Schemas and their derivations

The schema options with the consistency rules every cross-field group must
satisfy, and the calls of the Lua surface that build a schema: `schema`,
`partial`, `pick`, `omit`, `extend` and `with`. -/

namespace Nitr.Validate

/-! ## Schema options -/

def optionKeys : List String :=
  ["title", "strict", "messages", "at_least_one", "mutually_exclusive", "dependent_required",
   "equal_fields", "ordered", "checks"]

def optionError {α : Type} (what msg : String) : Except String α := .error (what ++ ": " ++ msg)

section Options

variable (lib : Library)

/-- An optional `message` on a group or check entry. -/
def groupMessage (table : Entries) (rule what : String) : Except String (Option Template) :=
  match table.field "message" with
  | .nil => .ok none
  | .string s =>
    some <$> lib.compileTemplate s.toStringLossy (ruleParams rule) (what ++ " (`" ++ rule ++ "`)")
  | _ => optionError what ("a `" ++ rule ++ "` message must be a string")

/-- A `{ "a", "b", message = "..." }` group. -/
def compileGroup (key what : String) (value : Value) : Except String Group := do
  let .table _ _ table := value
    | optionError what ("`" ++ key ++ "` entries must be lists of field names")
  let fields ← (Entries.sequence table).mapM fun
    | .string s => .ok s.toStringLossy
    | other =>
      optionError what ("`" ++ key ++ "` entries must be field names, got " ++ other.typeName)
  if fields.length < 2 then
    optionError what ("a `" ++ key ++ "` group needs at least two fields")
  let message ← groupMessage lib table key what
  return { fields, message }

/-- One entry of `dependent_required`: the group lists the trigger field first. -/
def compileDependency (what : String) : Key × Value → Except String (String × Group)
  | (.string field, deps) => do
    let field := field.toStringLossy
    let .table _ _ deps := deps
      | optionError what ("`dependent_required." ++ field ++ "` must be a list of field names")
    let names ← (Entries.sequence deps).mapM lib.coerceString
    if names.isEmpty then
      optionError what ("`dependent_required." ++ field ++ "` needs at least one field")
    let message ← groupMessage lib deps "dependent_required" what
    return (field, { fields := field :: names, message })
  | _ => optionError what "`dependent_required` keys must be field names"

def compileDependent (map : Entries) (what : String) : Except String (List (String × Group)) := do
  let out ← map.mapM (compileDependency lib what)
  return out.insertionSort (fun a b => a.1 ≤ b.1)

def compileCheck (what : String) (entry : Value) : Except String CheckDef := do
  let .table _ _ entry := entry | .error ("error converting Lua " ++ entry.typeName ++ " to table")
  let some description ← getString entry "description" what
    | optionError what "every entry of `checks` needs a `description` saying what it enforces"
  let func ← match Entries.field entry "check" with
    | .nil => optionError what "every entry of `checks` needs a `check` function"
    | .function f => pure f
    | other => .error ("error converting Lua " ++ other.typeName ++ " to function")
  let message ← groupMessage lib entry "check" what
  return { description, func, message }

/-- Refuses option keys the schema does not know. -/
def checkOptionKeys (what : String) : Entries → Except String Unit
  | [] => .ok ()
  | (.string key, _) :: rest =>
    let key := key.toStringLossy
    if key ∈ optionKeys then checkOptionKeys what rest
    else optionError what
      ("unknown option `" ++ key ++ "` (allowed: " ++ ", ".intercalate optionKeys ++ ")")
  | _ :: _ => optionError what "option keys must be strings"

/-- The groups under `key`, where the options give them. -/
def getGroups (opts : Entries) (key what : String) (current : List Group) :
    Except String (List Group) := do
  let some (list : Entries) ← getTable opts key | return current
  list.sequence.mapM (compileGroup lib key what)

def getDependent (opts : Entries) (what : String) (current : List (String × Group)) :
    Except String (List (String × Group)) := do
  let some map ← getTable opts "dependent_required" | return current
  compileDependent lib map what

def getChecks (opts : Entries) (what : String) (current : List CheckDef) :
    Except String (List CheckDef) := do
  let some (list : Entries) ← getTable opts "checks" | return current
  list.sequence.mapM (compileCheck lib what)

def SchemaOptions.update (current : SchemaOptions) (opts : Entries) (what : String) :
    Except String SchemaOptions := do
  checkOptionKeys what opts
  let title := (← getString opts "title" what).or current.title
  let strict := (← getBool opts "strict" what).getD current.strict
  let messages ← getMessages lib opts what current.messages
  let atLeastOne ← getGroups lib opts "at_least_one" what current.atLeastOne
  let mutuallyExclusive ←
    getGroups lib opts "mutually_exclusive" what current.mutuallyExclusive
  let equalFields ← getGroups lib opts "equal_fields" what current.equalFields
  let ordered ← getGroups lib opts "ordered" what current.ordered
  let dependentRequired ← getDependent lib opts what current.dependentRequired
  let checks ← getChecks lib opts what current.checks
  return { title, strict, messages, atLeastOne, mutuallyExclusive, equalFields, ordered,
           dependentRequired, checks }

end Options

/-! ## Group consistency -/

/-- Every cross-field group of a schema, under its option key. -/
def SchemaOptions.groups (options : SchemaOptions) : List (String × Group) :=
  options.atLeastOne.map (Prod.mk "at_least_one")
    ++ options.mutuallyExclusive.map (Prod.mk "mutually_exclusive")
    ++ options.equalFields.map (Prod.mk "equal_fields")
    ++ options.ordered.map (Prod.mk "ordered")
    ++ options.dependentRequired.map (fun d => ("dependent_required", d.2))

/-- What `ordered` compares a field by: its kind and its format's name. -/
def Rule.orderKey (rule : Rule) : Kind × Option String := (rule.kind, rule.format.map (·.name))

def isOrderable (k : Kind × Option String) : Bool :=
  k.1.isNumeric ||
    (k.1 = .string && (k.2 = some "date" || k.2 = some "datetime" || k.2 = some "time"))

/-- The windows of two. -/
def adjacent {α : Type} (p : α → α → Bool) : List α → Bool
  | a :: b :: rest => p a b && adjacent p (b :: rest)
  | _ => true

namespace SchemaDef

def groupComparable (schema : SchemaDef) (group : Group) : Bool :=
  let kinds := (group.fields.filterMap schema.rule).map Rule.orderKey
  kinds.all isOrderable &&
    adjacent (fun a b => (a.1.isNumeric && b.1.isNumeric) || a.2 = b.2) kinds

/-- The first field a group names that the schema does not declare. -/
def unknownField (schema : SchemaDef) (group : Group) : Option String :=
  group.fields.find? (fun name => (schema.rule name).isNone)

/-- Every cross-field group must name declared fields, and `ordered` groups must
be comparable. -/
def checkGroups (schema : SchemaDef) (what : String) : Except String Unit :=
  let unknown := schema.options.groups.findSome? fun g =>
    (schema.unknownField g.2).map (Prod.mk g.1)
  match unknown with
  | some (key, name) =>
    optionError what ("`" ++ key ++ "` names an unknown field `" ++ name ++ "`")
  | none =>
    if schema.options.ordered.all schema.groupComparable then .ok ()
    else optionError what
      ("an `ordered` group needs numbers, or strings sharing a date, datetime or time format")

/-- Applies (or replaces) the schema options on a definition. -/
def applyOptions (lib : Library) (schema : SchemaDef) (opts : Entries) (what : String) :
    Except String SchemaDef := do
  let options ← schema.options.update lib opts what
  let schema : SchemaDef := { schema with options }
  schema.checkGroups what
  return schema

end SchemaDef

/-! ## The Lua surface -/

section Surface

variable (lib : Library)

/-- `nitr.validate.schema(fields, opts?)`. -/
def compileSchema (fields : Entries) (opts : Option Entries) : Except String SchemaDef := do
  let fields ← compileFields (maxDepth + 1) (compileRuleValue lib (maxDepth + 1)) fields ""
  let schema : SchemaDef := ⟨fields, {}⟩
  match opts with
  | none => return schema
  | some opts => schema.applyOptions lib opts "the schema options"

namespace SchemaDef

/-- A derived schema with the fields replaced. -/
def derive (schema : SchemaDef) (fields : List (String × Rule)) : Except String SchemaDef := do
  let schema : SchemaDef := { schema with fields }
  schema.checkGroups "a derived schema"
  return schema

/-- Every top-level field optional, and none defaulted. -/
def partialFields (schema : SchemaDef) : Except String SchemaDef :=
  schema.derive (schema.fields.map fun f => (f.1, { f.2 with required := false, default := none }))

/-- `pick` keeps the named fields, `omit` the others. -/
def select (schema : SchemaDef) (call : String) (keep : Bool) (names : List String) :
    Except String SchemaDef :=
  match names.find? (fun name => (schema.rule name).isNone) with
  | some wanted => .error ("schema:" ++ call ++ "(): unknown field `" ++ wanted ++ "`")
  | none => schema.derive (schema.fields.filter fun f => decide (f.1 ∈ names) == keep)

def pick (schema : SchemaDef) (names : List String) : Except String SchemaDef :=
  schema.select "pick" true names

def omitFields (schema : SchemaDef) (names : List String) : Except String SchemaDef :=
  schema.select "omit" false names

/-- The fields after each pair of the `extend` table: `false` removes a field,
anything else adds or replaces it. -/
def extendFields (fields : List (String × Rule)) :
    Entries → Except String (List (String × Rule))
  | [] => .ok fields
  | (.string key, value) :: rest => do
    let name := key.toStringLossy
    let others := fields.filter (fun f => f.1 ≠ name)
    match value with
    | .boolean false => extendFields others rest
    | value =>
      let rule ← compileRuleValue lib (maxDepth + 1) value name
      extendFields (others ++ [(name, rule)]) rest
  | _ :: _ => .error "schema:extend(): field names must be strings"

def extend (schema : SchemaDef) (extra : Entries) : Except String SchemaDef := do
  schema.derive (sortFields (← extendFields lib schema.fields extra))

/-- `schema:with({ title = ..., strict = ..., messages = ... })`. -/
def withOptions (schema : SchemaDef) (opts : Entries) : Except String SchemaDef :=
  schema.applyOptions lib opts "schema:with()"

end SchemaDef

end Surface

end Nitr.Validate
