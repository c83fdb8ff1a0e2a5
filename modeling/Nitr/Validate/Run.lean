import Mathlib.Data.List.Sort
import Mathlib.Data.String.Basic
import Nitr.Validate.Walk

/-! # Validation runs

The walk, then the script checks it deferred: field-level ones in arrival order,
and the schema-level ones when nothing else failed. Output tables are references
while this happens: a transform writes through its slot, and every later reader
sees the replacement. -/

namespace Nitr.Validate

/-! ## Output tables as references -/

/-- The replacements written through slots, newest first. -/
abbrev Writes := List (Slot × Value)

/-- The entries of the table after the writes to it, oldest first. -/
def Writes.apply (writes : Writes) (table : ℕ) (entries : Entries) : Entries :=
  writes.foldr (fun w es => if w.1.table = table then es.set w.1.key w.2 else es) entries

mutual

/-- What a reference to the value shows after the writes. -/
def Value.deref (writes : Writes) : Value → Value
  | .table pointer len entries =>
    .table pointer len (writes.apply pointer (Value.derefEntries writes entries))
  | .nil => .nil
  | .boolean b => .boolean b
  | .integer i => .integer i
  | .number n => .number n
  | .string s => .string s
  | .function f => .function f
  | .schema s => .schema s
  | .file p info => .file p info
  | .other p => .other p

def Value.derefEntries (writes : Writes) : List (Key × Value) → List (Key × Value)
  | [] => []
  | (key, value) :: rest => (key, value.deref writes) :: Value.derefEntries writes rest

end

/-! ## Scripts -/

/-- What the script functions do: the values a call returns, or an error it raises. -/
structure Scripts where
  call : Function → Value → Except Fault (List Value)

/-- Whether a replacement has the type its rule demands. -/
def matchesKind (value : Value) (kind : Kind) : Bool :=
  match kind, value with
  | .string, .string _ => true
  | .integer, .integer _ => true
  | .number, .integer _ | .number, .number _ => true
  | .boolean, .boolean _ => true
  | .array, .table .. | .table, .table .. | .map, .table .. => true
  | .any, _ => true
  | .file, .schema _ | .file, .file .. | .file, .other _ => true
  | _, _ => false

inductive Verdict where
  | pass
  | fail (reason : Option Value)

/-- What a check returned: `true`, or `false`/`nil` and a reason. -/
def verdict (results : List Value) (what : String) : Except Fault Verdict :=
  let second := results[1]?.filter (fun v => !v.isNil)
  match results.headD .nil with
  | .boolean true => .ok .pass
  | .boolean false | .nil => .ok (.fail second)
  | other => .error (.raised
      (what ++ " must return true, or false/nil and a reason; got " ++ other.typeName))

/-- The reason a field check may give. -/
def fieldReason (reason : Option Value) (what : String) : Except Fault (Option String) :=
  match reason with
  | none => .ok none
  | some (.string s) => .ok (some s.toStringLossy)
  | some other => .error (.raised
      (what ++ " returned a reason of type " ++ other.typeName ++ "; a reason is a string"))

section Deferred

variable (host : Host) (scripts : Scripts)

/-- A custom check or format: its function, how errors name it, and the rule code. -/
def PendingCheck.script (check : PendingCheck) (path : String) : Function × String × String :=
  match check with
  | .custom f => (f, "the check for `" ++ path ++ "`", "check")
  | .format c => (c.check, "the format `" ++ c.name ++ "` check for `" ++ path ++ "`", "format")
  | .transform f => (f, "the transform for `" ++ path ++ "`", "transform")

def PendingCheck.params : PendingCheck → Params
  | .format c => [("format", .str ("a valid " ++ c.name))]
  | _ => []

def PendingCheck.fallback : PendingCheck → Option Template
  | .format c => c.message
  | _ => none

/-- Calls a transform and checks the type of what it returned. -/
def runTransform (f : Function) (path : String) (kind : Kind) (value : Value) :
    Except Fault Value := do
  let replacement := (← scripts.call f value).headD .nil
  if matchesKind replacement kind then return replacement
  else .error (.raised ("the transform for `" ++ path ++ "` returned a " ++ replacement.typeName
    ++ ", but the field is a `" ++ kind.name ++ "`"))

/-- Runs the deferred field-level checks, in arrival order; `failed` holds the paths
whose check failed. Returns the schema-level checks and the writes made. -/
def runFieldChecks :
    List Pending → List String → Writes → Check (List Pending × Writes)
  | [], _, writes => pure ([], writes)
  | .schema table root schema index :: rest, failed, writes => do
    let (schemas, writes) ← runFieldChecks rest failed writes
    return (.schema table root schema index :: schemas, writes)
  | .field slot path field rule owner value check :: rest, failed, writes => do
    match check with
    | .transform f =>
      -- A transform runs only for a field whose checks all passed.
      if path ∈ failed then runFieldChecks rest failed writes
      else
        let replacement ← Check.lift (runTransform scripts f path rule.kind (value.deref writes))
        runFieldChecks rest failed ((slot, replacement) :: writes)
    | _ =>
      let (f, what, code) := check.script path
      let results ← Check.lift (scripts.call f (value.deref writes))
      match ← Check.lift (verdict results what) with
      | .pass => runFieldChecks rest failed writes
      | .fail reason =>
        let reason ← Check.lift (fieldReason reason what)
        Check.fail host
          { path, field, rule := code, kind := rule.kind, params := check.params,
            fieldRule := some rule, owner, fallback := check.fallback, reason }
        runFieldChecks rest (path :: failed) writes

/-- The failures a schema check's reason table names. -/
def reasonFailures (schema : SchemaDef) (root : String) (check : CheckDef) (what : String) :
    Entries → Except Fault (List Failure)
  | [] => .ok []
  | (.string key, .string reason) :: rest => do
    let field := key.toStringLossy
    match schema.rule field with
    | none => .error (.raised
        (what ++ " named `" ++ field ++ "`, which is not a field of the schema"))
    | some rule =>
      let path := if root = "$" then field else root ++ "." ++ field
      let rest ← reasonFailures schema root check what rest
      return { path, field, rule := "check", kind := rule.kind, params := [],
               fieldRule := some rule.toRuleKeys, owner := schema.options,
               fallback := check.message, reason := some reason.toStringLossy } :: rest
  | _ :: _ => .error (.raised
      (what ++ " returned a reason table whose entries are not field = \"reason\""))

/-- What a failed schema check reports. -/
def schemaFailures (schema : SchemaDef) (root : String) (check : CheckDef) (what : String)
    (reason : Option Value) : Except Fault (List Failure) :=
  let whole (reason : Option String) : Failure :=
    { path := root, field := "", rule := "check", kind := .table, params := [],
      fieldRule := none, owner := schema.options, fallback := check.message, reason }
  match reason with
  | none => .ok [whole none]
  | some (.string s) => .ok [whole (some s.toStringLossy)]
  | some (.table _ _ map) => reasonFailures schema root check what map
  | some other => .error (.raised
      (what ++ " returned a reason of type " ++ other.typeName
        ++ "; a reason is a string or a table"))

/-- Runs the schema-level checks, only reached when nothing else failed. -/
def runSchemaChecks (writes : Writes) : List Pending → Check Unit
  | [] => pure ()
  | .field .. :: rest => runSchemaChecks writes rest
  | .schema table root schema index :: rest => do
    match schema.options.checks[index]? with
    | none => Check.throw (.panicked "index out of bounds")
    | some check =>
      let what := "schema check " ++ toString (index + 1) ++ " (\"" ++ check.description ++ "\")"
      let results ← Check.lift (scripts.call check.func (table.deref writes))
      match ← Check.lift (verdict results what) with
      | .pass => runSchemaChecks writes rest
      | .fail reason =>
        Check.failAll host (← Check.lift (schemaFailures schema root check what reason))
        runSchemaChecks writes rest

end Deferred

/-! ## A run -/

/-- How deep validations may nest through their own script checks. -/
def maxNesting : ℕ := 8

/-- The pointers of the tables a run builds start above those of its input. -/
structure Start where
  strict : Option Bool
  next : ℕ

/-- The walk from the root: the output table. -/
def walk (host : Host) (schema : SchemaDef) (value : Value) : Check Value := do
  let pointer ← Check.createTable
  match value with
  | .table _ _ input =>
    let (_, out) ← checkFields host schema input [] pointer
    return .table pointer 0 out
  | other =>
    Check.fail host
      { path := FieldPath.render [], field := "", rule := "body", kind := .table,
        params := [("type", .str other.typeName)], fieldRule := none, owner := schema.options,
        fallback := none, reason := none }
    return .table pointer 0 []

/-- The field-level checks, then the schema-level ones where nothing failed: the
writes the transforms made. -/
def runDeferred (host : Host) (scripts : Scripts) : Check Writes := do
  let pending := (← get).pending
  modify fun ctx => { ctx with pending := [] }
  let (schemas, writes) ← runFieldChecks host scripts pending [] []
  if (← get).errors.isEmpty then runSchemaChecks host scripts writes schemas
  return writes

/-- Runs one validation: the walk, then the deferred script checks. The verdict is
the output, or every failure sorted by path. -/
def run (host : Host) (scripts : Scripts) (schema : SchemaDef) (value : Value) (start : Start) :
    Except Fault (Except (List ErrorEntry) Value) :=
  if maxNesting ≤ host.nesting then .error (.raised "validation nested deeper than 8 levels")
  else
    let fresh : Ctx :=
      { strict := start.strict.getD false, next := start.next, errors := [], pending := [] }
    match walk host schema value fresh with
    | .error fault => .error fault
    | .ok (out, ctx) =>
      match runDeferred host scripts ctx with
      | .error fault => .error fault
      | .ok (writes, ctx) =>
        if ctx.errors.isEmpty then .ok (.ok (out.deref writes))
        else .ok (.error (ctx.errors.insertionSort (fun a b => a.path ≤ b.path)))

end Nitr.Validate
