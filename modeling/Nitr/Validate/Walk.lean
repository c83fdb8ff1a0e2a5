import Nitr.Validate.Engine

/-! # The walk

One synchronous walk applies every Rust rule and collects the script checks it
must run later. An output table is known by its pointer: a `Slot` names one of
its keys, so that a deferred transform can replace the value there. -/

namespace Nitr.Validate

/-! ## Deferred checks -/

/-- Where a checked value landed in the output. -/
structure Slot where
  table : ℕ
  key : Key
deriving DecidableEq

inductive PendingCheck where
  | custom (f : Function)
  | format (format : CustomFormat)
  | transform (f : Function)
deriving DecidableEq

/-- A script-side check the walk deferred. -/
inductive Pending where
  | field (slot : Slot) (path : String) (field : String) (rule : RuleKeys) (owner : SchemaOptions)
      (value : Value) (check : PendingCheck)
  | schema (table : Value) (root : String) (schema : SchemaDef) (index : ℕ)

/-! ## The context -/

/-- One validation's state; `next` is the next unused pointer. -/
structure Ctx where
  strict : Bool
  next : ℕ
  errors : List ErrorEntry
  pending : List Pending

abbrev Check := StateT Ctx (Except Fault)

namespace Check

def throw {α : Type} (fault : Fault) : Check α := fun _ => .error fault

def lift {α : Type} (x : Except Fault α) : Check α := fun ctx =>
  match x with
  | .ok a => .ok (a, ctx)
  | .error fault => .error fault

/-- `lua.create_table()`: a pointer no other table has. -/
def createTable : Check ℕ := fun ctx => .ok (ctx.next, { ctx with next := ctx.next + 1 })

def defer (item : Pending) : Check Unit := fun ctx =>
  .ok ((), { ctx with pending := ctx.pending ++ [item] })

def push (entry : ErrorEntry) : Check Unit := fun ctx =>
  .ok ((), { ctx with errors := ctx.errors ++ [entry] })

/-- `Ctx::fail`. -/
def fail (host : Host) (f : Failure) : Check Unit :=
  push { path := f.path, field := f.field, rule := f.rule, message := host.resolve f,
         params := f.params, label := f.fieldRule.bind (·.label) }

def failAll (host : Host) : List Failure → Check Unit
  | [] => pure ()
  | f :: rest => do
    fail host f
    failAll host rest

end Check

/-- What `check_value` is told about the value besides its rule. -/
structure Site where
  owner : SchemaOptions
  path : FieldPath
  slot : Slot

/-- A rule applied to a value somewhere in the input. -/
abbrev Checker := Value → Site → Check (Option Value)

section Kinds

variable (host : Host)

/-- The `fail!` macro: records the failure and returns no value. -/
def reject (rule : RuleKeys) (site : Site) (code : String) (params : Params)
    (reason : Option String) : Check (Option Value) := do
  Check.fail host
    { path := site.path.render, field := site.path.fieldName, rule := code, kind := rule.kind,
      params, fieldRule := some rule, owner := site.owner, fallback := none, reason }
  return none

def rejectType (rule : RuleKeys) (site : Site) : Check (Option Value) :=
  reject host rule site "type" [("type", .str rule.kind.name)] none

/-- Rejects on the first violated test, else goes on. -/
def applyTests (rule : RuleKeys) (site : Site) (tests : List Test)
    (next : Check (Option Value)) : Check (Option Value) :=
  match firstViolated tests with
  | some test => reject host rule site test.rule test.params none
  | none => next

def deferCheck (rule : RuleKeys) (site : Site) (value : Value) (check : PendingCheck) :
    Check Unit :=
  Check.defer (.field site.slot site.path.render site.path.fieldName rule site.owner value check)

/-- A custom format runs with the other script checks. -/
def deferFormat (rule : RuleKeys) (site : Site) (value : Value) : Check Unit :=
  match rule.format with
  | some (.custom custom) => deferCheck rule site value (.format custom)
  | _ => pure ()

/-! ## Scalars -/

def checkString (rule : RuleKeys) : Checker := fun value site =>
  match value with
  | .string s =>
    let text := host.normalise rule s.toStringLossy
    applyTests host rule site (stringTests host rule text) do
      deferFormat rule site (.ofString text)
      return some (.ofString text)
  | _ => rejectType host rule site

def checkNumber (rule : RuleKeys) : Checker := fun value site =>
  match value.toF64 with
  | some n =>
    if !n.isFinite || (rule.kind = .integer && !n.isWhole) then rejectType host rule site
    else applyTests host rule site (numberTests host rule value n) (pure (some value))
  | none => rejectType host rule site

def checkBoolean (rule : RuleKeys) : Checker := fun value site =>
  match value with
  | .boolean b => applyTests host rule site (commonTests rule value) (pure (some (.boolean b)))
  | _ => rejectType host rule site

/-- A value the schema does not describe, bounded in size. -/
def checkAny (rule : RuleKeys) : Checker := fun value site =>
  match host.checkJsonBounds value.erase with
  | .error msg => Check.throw (.raised msg)
  | .ok () =>
    match rule.maxBytes with
    | none => Check.throw (.panicked "any rules carry `max_bytes`")
    | some max =>
      match host.toJson value.erase with
      | none => rejectType host rule site
      | some json =>
        if json.utf8ByteSize > max then
          reject host rule site "max_bytes" [("max", .size max)] none
        else pure (some value)

/-! ## Arrays -/

/-- `t.raw_get(i)` for `i` in `1..=len`. -/
def itemsOf (len : ℕ) (entries : Entries) : List Value :=
  (List.range len).map fun (i : ℕ) => entries.get (.integer (i + 1))

/-- What the item loop has accumulated. -/
structure ItemState where
  seen : List Canonical
  out : Entries
  ok : Bool
  totalBytes : ℕ

/-- The canonical forms seen with this item's added; `none` for a duplicate. -/
def noteUnique (rule : RuleKeys) (seen : List Canonical) (item : Value) :
    Except Fault (Option (List Canonical)) :=
  if rule.unique then
    match canonical host item with
    | .error fault => .error fault
    | .ok canon => .ok (if canon ∈ seen then none else some (seen ++ [canon]))
  else .ok (some seen)

/-- A file's size, saturating in 64 bits. -/
def addBytes (total : ℕ) : Value → ℕ
  | .file _ info => min (total + info.size) (2 ^ 64 - 1)
  | _ => total

/-- The item loop; `none` where `unique` failed and the loop stopped. -/
def checkItems (rule : RuleKeys) (check : Checker) (site : Site) (out : ℕ) :
    ℕ → List Value → ItemState → Check (Option ItemState)
  | _, [], state => pure (some state)
  | i, item :: rest, state => do
    match ← Check.lift (noteUnique host rule state.seen item) with
    | none =>
      let _ ← reject host rule site "unique" [] none
      return none
    | some seen =>
      let totalBytes := addBytes state.totalBytes item
      let itemSite := { site with path := .index i :: site.path, slot := ⟨out, .integer i⟩ }
      match ← check item itemSite with
      | some value =>
        checkItems rule check site out (i + 1) rest
          { seen, out := state.out.set (.integer i) value, ok := state.ok, totalBytes }
      | none =>
        checkItems rule check site out (i + 1) rest
          { seen, out := state.out, ok := false, totalBytes }

def checkArray (rule : RuleKeys) (items : Option Checker) : Checker := fun value site =>
  match value with
  | .table _ len entries =>
    if !isSequence len entries then rejectType host rule site
    else applyTests host rule site (lengthTests rule len) do
      match items with
      | none => Check.throw (.panicked "array rules carry `items`")
      | some check =>
        let out ← Check.createTable
        match ← checkItems host rule check site out 1 (itemsOf len entries) ⟨[], [], true, 0⟩ with
        | none => return none
        | some state =>
          if !state.ok then return none
          else
            applyTests host rule site (itemTests rule state.totalBytes (itemsOf len state.out))
              (pure (some (.table out len state.out)))
  | _ => rejectType host rule site

/-! ## Maps -/

/-- The key of an entry through the key rule, if any. Its slot is a scratch table. -/
def checkPairKey (keys : Option Checker) (site : Site) (key : LuaString) :
    Check (Option Value) :=
  match keys with
  | none => pure (some (.string key))
  | some check => do
    let scratch ← Check.createTable
    check (.string key) { site with slot := ⟨scratch, .integer 1⟩ }

/-- The entry loop: every key through the key rule, every value through the value
rule, under the checked key. -/
def checkPairs (rule : RuleKeys) (keys : Option Checker) (check : Checker) (site : Site)
    (out : ℕ) : Entries → Bool → Entries → Check (Bool × Entries)
  | [], ok, built => pure (ok, built)
  | (.string key, item) :: rest, ok, built => do
    let entrySite := { site with path := .key key.toStringLossy :: site.path }
    match ← checkPairKey keys entrySite key with
    | some (.string checked) =>
      match ← check item { entrySite with slot := ⟨out, .string checked⟩ } with
      | some value => checkPairs rule keys check site out rest ok (built.set (.string checked) value)
      | none => checkPairs rule keys check site out rest false built
    | _ => checkPairs rule keys check site out rest false built
  | _ :: rest, _, built => do
    let _ ← reject host rule site "keys" [] (some "keys must be strings")
    checkPairs rule keys check site out rest false built

def checkMap (rule : RuleKeys) (keys values : Option Checker) : Checker := fun value site =>
  match value with
  | .table _ _ entries =>
    applyTests host rule site (countTests rule entries.length) do
      match values with
      | none => Check.throw (.panicked "map rules carry `values`")
      | some check =>
        let out ← Check.createTable
        let (ok, built) ← checkPairs host rule keys check site out entries true []
        return if ok then some (.table out 0 built) else none
  | _ => rejectType host rule site

/-! ## Files -/

def suffixMatch (extensions : List String) (name : String) : Bool :=
  extensions.any fun e => decide (('.' :: e.toList) <:+ name.toList.map Char.toLower)

/-- The file rules up to the filename, in order. -/
def fileTests (file : FileRule) (maxBytes : ℕ) (info : FileInfo) : List Test :=
  let family := String.ofList (info.effectiveType.toList.takeWhile (· ≠ '/'))
  let typed := file.types.any fun
    | .any => true
    -- `image/*` means pictures, not an SVG with a script.
    | .family f => f = family && !host.isActiveContent info.effectiveType
    | .exact name => name = info.effectiveType
  let named := info.extension.isSome &&
    suffixMatch file.extensions (info.safeFilename.getD "")
  [⟨decide (maxBytes < info.size), "max_bytes", [("max", .size maxBytes)]⟩,
   ⟨decide (info.size < file.minBytes), "min_bytes", [("min", .size file.minBytes)]⟩,
   ⟨info.isExecutable && !file.allowExecutables, "executable", []⟩,
   ⟨!file.types.isEmpty && !typed, "types", [("types", .str (host.describeTypes file.types))]⟩,
   ⟨!file.extensions.isEmpty && !named, "extensions",
    [("extensions", .list (file.extensions.map Param.str))]⟩,
   ⟨file.matchExtension && info.extension.any (host.extensionMismatch info.effectiveType),
    "match_extension", []⟩]

def dimensionTests (file : FileRule) (info : FileInfo) : List Test :=
  match info.width, info.height with
  | some w, some h =>
    [demand file.minWidth (fun b => decide (b ≤ w)) "min_width" (fun b => [("min", .count b)]),
     demand file.maxWidth (fun b => decide (w ≤ b)) "max_width" (fun b => [("max", .count b)]),
     demand file.minHeight (fun b => decide (b ≤ h)) "min_height" (fun b => [("min", .count b)]),
     demand file.maxHeight (fun b => decide (h ≤ b)) "max_height" (fun b => [("max", .count b)]),
     demand file.maxPixels (fun b => decide (w * h ≤ b)) "max_pixels"
      (fun b => [("max", .count b)]),
     demand file.aspect (fun a => host.aspectOk a w h) "aspect"
      (fun a => [("aspect", .str a.label)])]
  | _, _ => [⟨true, "dimensions", []⟩]

/-- The file rules after the filename. -/
def contentTests (file : FileRule) (info : FileInfo) : List Test :=
  (if file.wantsDimensions then dimensionTests host file info else [])
    ++ [⟨file.utf8 && info.utf8 != some true, "utf8", []⟩]

/-- The nested filename check, in a scratch context that records nothing into the
parent: its errors give the reason, its deferred checks are dropped. -/
def checkFilename (check : Checker) (name : String) : Check (Option String) := fun ctx =>
  let scratch : Ctx := { strict := false, next := ctx.next + 1, errors := [], pending := [] }
  let site : Site :=
    { owner := {}, path := [.field "filename"], slot := ⟨ctx.next, .integer 1⟩ }
  match check (.ofString name) site scratch with
  | .error fault => .error fault
  | .ok (some _, sub) => .ok (none, { ctx with next := sub.next })
  | .ok (none, sub) =>
    .ok (some ((sub.errors.head?.map (·.message)).getD ""), { ctx with next := sub.next })

/-- The filename rule: `none` where it passes. -/
def filenameFailure (info : FileInfo) (filename : Option (Bool × Checker)) :
    Check (Option Params) :=
  match filename, info.safeFilename with
  | none, _ => pure none
  | some (required, _), none => pure (if required then some [] else none)
  | some (_, check), some name => do
    match ← checkFilename check name with
    | none => return none
    | some reason => return some [("text", .str reason)]

def checkFile (rule : RuleKeys) (filename : Option (Bool × Checker)) : Checker :=
  fun value site =>
    match value with
    | .file _ info =>
      match rule.file, rule.maxBytes with
      | some file, some maxBytes =>
        applyTests host rule site (fileTests host file (min maxBytes info.cap) info) do
          match ← filenameFailure info filename with
          | some params => reject host rule site "filename" params none
          | none => applyTests host rule site (contentTests host file info) (pure (some value))
      | none, _ => Check.throw (.panicked "file rules carry their file part")
      | some _, none => Check.throw (.panicked "file rules carry `max_bytes`")
    | _ => rejectType host rule site

end Kinds

/-! ## Cross-field rules -/

section Cross

variable (host : Host)

/-- A value an `ordered` group can compare. -/
inductive Comparable where
  | num (n : F64)
  | date (d : ℤ)
  | datetime (d : ℤ)
  | time (t : ℤ)

def comparable (value : Value) (format : Option FormatRule) : Option Comparable :=
  match value with
  | .integer i => some (.num (F64.ofInt i))
  | .number n => some (.num n)
  | .string s =>
    match format with
    | some (.builtin .date) => (host.parseDate s.toStringLossy).map .date
    | some (.builtin .datetime) => (host.parseDatetime s.toStringLossy).map .datetime
    | some (.builtin .time) => (host.parseTime s.toStringLossy).map .time
    | _ => none
  | _ => none

/-- `before.partial_cmp(&current) == Some(Less)`; variants compare in order. -/
def Comparable.lt : Comparable → Comparable → Bool
  | .num a, .num b => a.lt b
  | .date a, .date b | .datetime a, .datetime b | .time a, .time b => a < b
  | .num _, _ => true
  | .date _, .datetime _ | .date _, .time _ | .datetime _, .time _ => true
  | _, _ => false

def present (out : Entries) (name : String) : Bool := !(out.field name).isNil

/-- A cross-field failure, reported at one field of the table. -/
def crossFailure (schema : SchemaDef) (path : FieldPath) (field rule : String) (params : Params)
    (group : Group) : Failure :=
  { path := FieldPath.render (.field field :: path), field, rule, kind := .any, params,
    fieldRule := none, owner := schema.options, fallback := group.message, reason := none }

def fieldsParam (names : List String) : Params := [("fields", .list (names.map Param.str))]

def atLeastOneFailure (schema : SchemaDef) (out : Entries) (path : FieldPath) (group : Group) :
    Option Failure :=
  if group.fields.any (present out) then none
  else some (crossFailure schema path (group.fields.getLastD "") "at_least_one"
    (fieldsParam group.fields) group)

def mutuallyExclusiveFailure (schema : SchemaDef) (out : Entries) (path : FieldPath)
    (group : Group) : Option Failure :=
  if (group.fields.filter (present out)).length ≤ 1 then none
  else some (crossFailure schema path (group.fields.getLastD "") "mutually_exclusive"
    (fieldsParam group.fields) group)

def dependentRequiredFailure (schema : SchemaDef) (out : Entries) (path : FieldPath)
    (dependent : String × Group) : Option Failure :=
  let missing := (dependent.2.fields.drop 1).filter (fun dep => !present out dep)
  if !present out dependent.1 || missing.isEmpty then none
  else some (crossFailure schema path dependent.1 "dependent_required" (fieldsParam missing)
    dependent.2)

/-- The first present field whose canonical form is not the first one's. -/
def equalFieldsFailure (schema : SchemaDef) (out : Entries) (path : FieldPath) (group : Group) :
    List String → Option (String × Canonical) → Except Fault (Option Failure)
  | [], _ => .ok none
  | name :: rest, first =>
    if !present out name then equalFieldsFailure schema out path group rest first
    else
      match canonical host (out.field name), first with
      | .error fault, _ => .error fault
      | .ok canon, none => equalFieldsFailure schema out path group rest (some (name, canon))
      | .ok canon, some (other, expected) =>
        if expected = canon then equalFieldsFailure schema out path group rest first
        else .ok (some (crossFailure schema path name "equal_fields" [("field", .str other)] group))

/-- The first present field that is not greater than the comparable one before it. -/
def orderedFailure (schema : SchemaDef) (out : Entries) (path : FieldPath) (group : Group) :
    List String → Option (String × Comparable) → Option Failure
  | [], _ => none
  | name :: rest, prev =>
    match comparable host (out.field name) ((schema.rule name).bind (·.format)) with
    | none => orderedFailure schema out path group rest prev
    | some current =>
      match prev with
      | none => orderedFailure schema out path group rest (some (name, current))
      | some (other, before) =>
        if before.lt current then orderedFailure schema out path group rest (some (name, current))
        else some (crossFailure schema path name "ordered" [("field", .str other)] group)

/-- The cross-field rules of a table, on its validated output: every failure. -/
def crossFailures (schema : SchemaDef) (out : Entries) (path : FieldPath) :
    Except Fault (List Failure) := do
  let equal ← schema.options.equalFields.mapM fun group =>
    equalFieldsFailure host schema out path group group.fields none
  return schema.options.atLeastOne.filterMap (atLeastOneFailure schema out path)
    ++ schema.options.mutuallyExclusive.filterMap (mutuallyExclusiveFailure schema out path)
    ++ schema.options.dependentRequired.filterMap (dependentRequiredFailure schema out path)
    ++ equal.filterMap id
    ++ schema.options.ordered.filterMap
        (fun group => orderedFailure host schema out path group group.fields none)

end Cross

/-! ## Tables -/

/-- Unknown fields listed per table under `strict`. -/
def maxUnknownListed : ℕ := 32

section Fields

variable (host : Host)

/-- The input keys, decoded, that no rule of the schema declares. -/
def unknownKeys (schema : SchemaDef) (input : Entries) : List String :=
  input.filterMap fun e =>
    match e.1 with
    | .string key =>
      let key := key.toStringLossy
      if (schema.rule key).isSome then none else some key
    | _ => none

/-- One entry for the unknown fields past the listed ones. -/
def reportExtra (path : FieldPath) (extra : ℕ) : Check Unit :=
  if extra = 0 then pure ()
  else Check.push
    { path := path.render, field := path.fieldName, rule := "unknown",
      message := "has " ++ toString extra ++ " more unknown fields",
      params := [("count", .count extra)], label := none }

/-- `strict`: every undeclared key is an error, bounded in number. -/
def reportUnknown (schema : SchemaDef) (input : Entries) (path : FieldPath) : Check Bool := do
  let unknown := unknownKeys schema input
  Check.failAll host ((unknown.take maxUnknownListed).map fun key =>
    { path := FieldPath.render (.key key :: path), field := key, rule := "unknown", kind := .any,
      params := [], fieldRule := none, owner := schema.options, fallback := none, reason := none })
  reportExtra path (unknown.length - maxUnknownListed)
  return unknown.isEmpty

/-- `check_cross`: whether every group held. -/
def checkCross (schema : SchemaDef) (out : Entries) (path : FieldPath) : Check Bool := do
  let failures ← Check.lift (crossFailures host schema out path)
  Check.failAll host failures
  return failures.isEmpty

def deferSchemaChecks (schema : SchemaDef) (table : Value) (path : FieldPath) :
    List ℕ → Check Unit
  | [] => pure ()
  | index :: rest => do
    Check.defer (.schema table path.render schema index)
    deferSchemaChecks schema table path rest

/-- Whether every key is declared, where that is asked for. -/
def checkKnown (schema : SchemaDef) (input : Entries) (path : FieldPath) : Check Bool := fun ctx =>
  if ctx.strict || schema.options.strict then reportUnknown host schema input path ctx
  else .ok (true, ctx)

/-- What follows the field loop: unknown keys, the cross-field rules, and the
schema checks to defer. -/
def finishFields (schema : SchemaDef) (input : Entries) (path : FieldPath) (pointer : ℕ)
    (ok : Bool) (out : Entries) : Check Bool := do
  match ok && (← checkKnown host schema input path) with
  | false => return false
  | true =>
    match ← checkCross host schema out path with
    | false => return false
    | true =>
      deferSchemaChecks schema (.table pointer 0 out) path
        (List.range schema.options.checks.length)
      return true

/-- The input value of a field, or its default. -/
def fieldValue (rule : RuleKeys) (input : Entries) (name : String) : Value :=
  match input.field name, rule.default with
  | .nil, some default => default.toLua
  | value, _ => value

def deferAll (rule : RuleKeys) (site : Site) (value : Value) : List PendingCheck → Check Unit
  | [] => pure ()
  | check :: rest => do
    deferCheck rule site value check
    deferAll rule site value rest

/-- The script checks of a rule, the transform last. -/
def RuleKeys.hooks (rule : RuleKeys) : List PendingCheck :=
  (rule.check.map .custom).toList ++ (rule.transform.map .transform).toList

/-- Defers the script checks of a value that passed. -/
def deferHooks (rule : RuleKeys) (site : Site) : Option Value → Check (Option Value)
  | none => pure none
  | some checked => do
    deferAll rule site checked rule.hooks
    return some checked

end Fields

mutual

/-- Validates one value against a rule. On success returns the value to place in
the output; on failure records the message and returns `none`. -/
def checkValue (host : Host) : Rule → Checker
  | ⟨rule, items, fields, keys, values, filename⟩, value, site => do
    let items : Option Checker := match items with
      | some r => some (checkValue host r)
      | none => none
    let keys : Option Checker := match keys with
      | some r => some (checkValue host r)
      | none => none
    let values : Option Checker := match values with
      | some r => some (checkValue host r)
      | none => none
    let filename : Option (Bool × Checker) := match filename with
      | some r => some (r.required, checkValue host r)
      | none => none
    let checked : Check (Option Value) := match rule.kind with
      | .string => checkString host rule value site
      | .number | .integer => checkNumber host rule value site
      | .boolean => checkBoolean host rule value site
      | .array => checkArray host rule items value site
      | .table => checkTable host rule fields value site
      | .map => checkMap host rule keys values value site
      | .any => checkAny host rule value site
      | .file => checkFile host rule filename value site
    deferHooks rule site (← checked)
  termination_by structural r => r

def checkTable (host : Host) (rule : RuleKeys) : Option SchemaDef → Checker
  | fields, value, site =>
    match value with
    | .table _ len input =>
      if len > 0 then rejectType host rule site
      else match fields with
        | none => Check.throw (.panicked "table rules carry `fields`")
        | some schema => do
          let pointer ← Check.createTable
          let (ok, out) ← checkFields host schema input site.path pointer
          return if ok then some (.table pointer 0 out) else none
    | _ => rejectType host rule site
  termination_by structural r => r

/-- Validates a table against a schema, building the output with only the declared
fields. Returns whether every field, group and key passed. -/
def checkFields (host : Host) : SchemaDef → Entries → FieldPath → ℕ → Check (Bool × Entries)
  | ⟨fields, options⟩, input, path, pointer => do
    let (ok, out) ← checkFieldList host fields options input path pointer true []
    let ok ← finishFields host ⟨fields, options⟩ input path pointer ok out
    return (ok, out)
  termination_by structural s => s

def checkFieldList (host : Host) :
    List (String × Rule) → SchemaOptions → Entries → FieldPath → ℕ → Bool → Entries →
      Check (Bool × Entries)
  | [], _, _, _, _, ok, out => pure (ok, out)
  | (name, rule) :: rest, owner, input, path, pointer, ok, out => do
    let value := fieldValue rule.toRuleKeys input name
    let site : Site := { owner, path := .field name :: path, slot := ⟨pointer, .ofString name⟩ }
    if value.isNil then
      if rule.required then
        let _ ← reject host rule.toRuleKeys site "required" [] none
        checkFieldList host rest owner input path pointer false out
      else checkFieldList host rest owner input path pointer ok out
    else
      match ← checkValue host rule value site with
      | some value =>
        checkFieldList host rest owner input path pointer ok (out.set (.ofString name) value)
      | none => checkFieldList host rest owner input path pointer false out
  termination_by structural f => f

end

/-- `check_value` up to the deferred script checks. -/
def checkKind (host : Host) (rule : Rule) : Checker := fun value site =>
  match rule.kind with
  | .string => checkString host rule.toRuleKeys value site
  | .number | .integer => checkNumber host rule.toRuleKeys value site
  | .boolean => checkBoolean host rule.toRuleKeys value site
  | .array => checkArray host rule.toRuleKeys (rule.items.map (checkValue host)) value site
  | .table => checkTable host rule.toRuleKeys rule.fields value site
  | .map =>
    checkMap host rule.toRuleKeys (rule.keys.map (checkValue host))
      (rule.values.map (checkValue host)) value site
  | .any => checkAny host rule.toRuleKeys value site
  | .file =>
    checkFile host rule.toRuleKeys
      (rule.filename.map fun r => (r.required, checkValue host r)) value site

theorem checkValue_eq (host : Host) (rule : Rule) (value : Value) (site : Site) :
    checkValue host rule value site =
      checkKind host rule value site >>= deferHooks rule.toRuleKeys site := by
  obtain ⟨keys, items, fields, mapKeys, values, filename⟩ := rule
  cases items <;> cases mapKeys <;> cases values <;> cases filename <;> rfl

end Nitr.Validate
