import Mathlib.Data.List.Infix
import Nitr.Validate.Value

/-! # The checker's context

What one validation carries along, the errors it records and the script checks
it defers, and the rules that look at one value without descending into it. -/

namespace Nitr.Validate

/-! ## Errors -/

/-- A parameter of a failed rule. -/
inductive Param where
  | str (s : String)
  | num (n : F64)
  | bool (b : Bool)
  | size (bytes : ℕ)
  | list (items : List Param)

abbrev Params := List (String × Param)

def Literal.param : Literal → Param
  | .str s => .str s
  | .num n => .num n
  | .bool b => .bool b

def choices (list : List Literal) : Param := .list (list.map Literal.param)

def Param.count (n : ℕ) : Param := .num (.finite n)

/-- Everything the message of a failed rule is resolved from. -/
structure Failure where
  path : String
  field : String
  rule : String
  kind : Kind
  params : Params
  fieldRule : Option RuleKeys
  owner : SchemaOptions
  fallback : Option Template
  reason : Option String

/-- One failed rule, as reported. -/
structure ErrorEntry where
  path : String
  field : String
  rule : String
  message : String
  params : Params
  label : Option String

/-- How a validation ends without a verdict: a raised Lua error, or a Rust panic
where an `expect` does not hold. -/
inductive Fault where
  | raised (msg : String)
  | panicked (msg : String)
deriving DecidableEq

/-! ## Positions -/

inductive Segment where
  | field (name : String)
  | index (i : ℕ)
  | key (name : String)
deriving DecidableEq

/-- A field's position, innermost segment first. -/
abbrev FieldPath := List Segment

namespace FieldPath

def write : FieldPath → String
  | [] => ""
  | .field name :: parent | .key name :: parent =>
    let out := write parent
    if out = "" then name else out ++ "." ++ name
  | .index i :: parent => write parent ++ "[" ++ toString i ++ "]"

/-- The path text; `$` for the root. -/
def render (path : FieldPath) : String := if path.write = "" then "$" else path.write

/-- The nearest named field on the path. -/
def fieldName : FieldPath → String
  | [] => ""
  | .field name :: _ => name
  | _ :: parent => fieldName parent

end FieldPath

/-! ## The environment -/

/-- The instant `"now"` stands for, in the three temporal formats. -/
structure Instant where
  date : ℤ
  datetime : ℤ
  time : ℤ

/-- What a validation asks of the platform and of the modules around it. One
instant is read per check. -/
structure Host where
  trim : String → String
  toLowercase : String → String
  toUppercase : String → String
  formatCheck : Format → String → Bool
  describeFormat : Format → String
  parseDate : String → Option ℤ
  parseDatetime : String → Option ℤ
  parseTime : String → Option ℤ
  now : Instant
  /-- Whether `n / step` is whole up to the tolerance of `multiple_of`. -/
  isMultiple : F64 → F64 → Bool
  fractionDigits : F64 → ℕ
  /-- `{}` of a double. -/
  displayF64 : F64 → String
  /-- `check_json_bounds`, which reads contents only. -/
  checkJsonBounds : Value → Except String Unit
  /-- `bounded::to_json_string`, which reads contents only; `none` where the value
  has no JSON form. -/
  toJson : Value → Option String
  isActiveContent : String → Bool
  /-- Whether the media type is known and its extensions exclude this one. -/
  extensionMismatch : String → String → Bool
  describeTypes : List TypePattern → String
  aspectOk : Aspect → ℕ → ℕ → Bool
  /-- `Ctx::resolve`: the message of a failed rule. -/
  resolve : Failure → String
  /-- Validations already running on this Lua state. -/
  nesting : ℕ

/-! ## Contents of a value -/

mutual

/-- The value without the identities of its tables. -/
def Value.erase : Value → Value
  | .table _ len entries => .table 0 len (Value.eraseEntries entries)
  | .nil => .nil
  | .boolean b => .boolean b
  | .integer i => .integer i
  | .number n => .number n
  | .string s => .string s
  | .function f => .function f
  | .schema s => .schema s
  | .file p info => .file p info
  | .other p => .other p

def Value.eraseEntries : List (Key × Value) → List (Key × Value)
  | [] => []
  | (k, v) :: rest => (k, v.erase) :: Value.eraseEntries rest

end

/-- A canonical form for equality (`unique`, `equal_fields`): scalars by type and
value, tables by their JSON, anything else by identity. The constructors are the
tags of the source's strings; a pointer is told apart from those of other objects. -/
inductive Canonical where
  | string (text : String)
  | number (text : String)
  | boolean (b : Bool)
  | json (text : String)
  | table (pointer : ℕ)
  | other (pointer : ℕ)
deriving DecidableEq

def canonical (host : Host) (value : Value) : Except Fault Canonical :=
  match value with
  | .string s => .ok (.string s.toStringLossy)
  | .integer i =>
    -- The double form where it is exact, so `1` equals `1.0`.
    if F64.ofInt i = .finite i then .ok (.number (host.displayF64 (F64.ofInt i)))
    else .ok (.number (toString i))
  | .number n => .ok (.number (host.displayF64 n))
  | .boolean b => .ok (.boolean b)
  | .table pointer _ _ =>
    match host.checkJsonBounds value.erase with
    | .error msg => .error (.raised msg)
    | .ok () =>
      match host.toJson value.erase with
      | some json => .ok (.json json)
      | none => .ok (.table pointer)
  | .nil | .schema _ => .ok (.other 0)
  | .function pointer | .file pointer _ | .other pointer => .ok (.other pointer)

/-- Whether the entries are a list: their keys are exactly `1..=len`. -/
def isSequence (len : ℕ) (entries : Entries) : Bool :=
  entries.all fun e =>
    match e.1 with
    | .integer i => decide (1 ≤ i ∧ i ≤ len)
    | _ => false

/-! ## Rules on one value

Each kind checks its rules in the documented order and reports the first that
is violated. -/

structure Test where
  violated : Bool
  rule : String
  params : Params

def firstViolated (tests : List Test) : Option Test := tests.find? (·.violated)

/-- A rule is violated where it is declared and does not hold. -/
def demand {α : Type} (declared : Option α) (holds : α → Bool) (rule : String)
    (params : α → Params) : Test :=
  match declared with
  | some a => ⟨!holds a, rule, params a⟩
  | none => ⟨false, rule, []⟩

def commonTests (rule : RuleKeys) (value : Value) : List Test :=
  [demand rule.equals (·.matchesValue value) "equals" (fun l => [("expected", l.param)]),
   demand rule.oneOf (·.any (·.matchesValue value)) "one_of" (fun l => [("choices", choices l)]),
   demand rule.notOneOf (fun l => !l.any (·.matchesValue value)) "not_one_of"
    (fun l => [("choices", choices l)])]

/-- `trim`, then `case`. -/
def Host.normalise (host : Host) (rule : RuleKeys) (text : String) : String :=
  let text := if rule.trim then host.trim text else text
  match rule.case with
  | some .lower => host.toLowercase text
  | some .upper => host.toUppercase text
  | none => text

/-- The value of a text in a temporal format. -/
def Host.instant (host : Host) (format : Format) (text : String) : Option ℤ :=
  match format with
  | .date => host.parseDate text
  | .datetime => host.parseDatetime text
  | _ => host.parseTime text

def Instant.value (now : Instant) : Format → ℤ
  | .date => now.date
  | .datetime => now.datetime
  | _ => now.time

/-- `after`/`before` against a literal or the clock. -/
def Host.withinBound (host : Host) (format : Format) (text : String) (bound : TimeBound)
    (after : Bool) : Bool :=
  let limit := match bound with
    | .now => some (host.now.value format)
    | .literal l => host.instant format l
  match host.instant format text, limit with
  | some v, some limit => if after then limit < v else v < limit
  | _, _ => false

def TimeBound.text : TimeBound → String
  | .now => "now"
  | .literal l => l

def formatTests (host : Host) (rule : RuleKeys) (text : String) : List Test :=
  match rule.format with
  | some (.builtin format) =>
    [⟨!host.formatCheck format text, "format", [("format", .str (host.describeFormat format))]⟩,
     demand rule.after (host.withinBound format text · true) "after"
      (fun b => [("limit", .str b.text)]),
     demand rule.before (host.withinBound format text · false) "before"
      (fun b => [("limit", .str b.text)])]
  | _ => []

def stringTests (host : Host) (rule : RuleKeys) (text : String) : List Test :=
  commonTests rule (.ofString text)
    ++ [demand rule.minLen (fun min => decide (min ≤ text.length)) "min_len"
          (fun min => [("min", .count min)]),
        demand rule.maxLen (fun max => decide (text.length ≤ max)) "max_len"
          (fun max => [("max", .count max)]),
        demand rule.len (fun exact => decide (text.length = exact)) "len"
          (fun exact => [("len", .count exact)]),
        demand rule.startsWith (fun t => decide (t.toList <+: text.toList)) "starts_with"
          (fun t => [("text", .str t)]),
        demand rule.endsWith (fun t => decide (t.toList <:+ text.toList)) "ends_with"
          (fun t => [("text", .str t)]),
        demand rule.contains (fun t => decide (t.toList <:+: text.toList)) "contains"
          (fun t => [("text", .str t)]),
        demand rule.doesNotContain (fun t => !decide (t.toList <:+: text.toList))
          "does_not_contain" (fun t => [("text", .str t)])]
    ++ formatTests host rule text

/-- The double a number value is checked as. -/
def Value.toF64 : Value → Option F64
  | .integer i => some (F64.ofInt i)
  | .number n => some n
  | _ => none

def numberTests (host : Host) (rule : RuleKeys) (value : Value) (n : F64) : List Test :=
  commonTests rule value
    ++ [demand rule.min (fun min => !n.lt min) "min" (fun min => [("min", .num min)]),
        demand rule.max (fun max => !max.lt n) "max" (fun max => [("max", .num max)]),
        demand rule.exclusiveMin (fun min => !n.le min) "exclusive_min"
          (fun min => [("min", .num min)]),
        demand rule.exclusiveMax (fun max => !max.le n) "exclusive_max"
          (fun max => [("max", .num max)]),
        demand rule.multipleOf (fun step => host.isMultiple n step) "multiple_of"
          (fun step => [("step", .num step)]),
        demand rule.decimals (fun d => decide (host.fractionDigits n ≤ d)) "decimals"
          (fun d => [("decimals", .count d)])]

/-- The literal is one of the items. -/
def hasItem (items : List Value) (l : Literal) : Bool := items.any l.matchesValue

def lengthTests (rule : RuleKeys) (len : ℕ) : List Test :=
  [demand rule.minItems (fun min => decide (min ≤ len)) "min_items"
    (fun min => [("min", .count min)]),
   demand rule.maxItems (fun max => decide (len ≤ max)) "max_items"
    (fun max => [("max", .count max)])]

/-- What an array's items must satisfy together, after each was checked. -/
def itemTests (rule : RuleKeys) (totalBytes : ℕ) (items : List Value) : List Test :=
  [demand rule.maxTotalBytes (fun max => decide (totalBytes ≤ max)) "max_total_bytes"
    (fun max => [("max", .size max)]),
   demand rule.containsItem (hasItem items) "contains" (fun l => [("item", l.param)]),
   demand rule.containsAny (·.any (hasItem items)) "contains_any"
    (fun l => [("choices", choices l)]),
   demand rule.containsAll (·.all (hasItem items)) "contains_all"
    (fun l => [("choices", choices l)])]

def countTests (rule : RuleKeys) (count : ℕ) : List Test :=
  [demand rule.minKeys (fun min => decide (min ≤ count)) "min_keys"
    (fun min => [("min", .count min)]),
   demand rule.maxKeys (fun max => decide (count ≤ max)) "max_keys"
    (fun max => [("max", .count max)])]

end Nitr.Validate
