import Nitr.Validate.Run

/-! # Text inputs

`validate/coerce.rs`: the raw pairs of a form become the typed table the checker
expects. A value that does not parse stays the string it was. -/

namespace Nitr.Validate

/-- One text-part value: a string field, or a spooled upload. -/
inductive TextValue where
  | text (s : String)
  | file (pointer : ℕ) (info : FileInfo)

/-- The text without a leading `-`, and whether there was one. -/
def stripMinus (text : String) : Bool × List Char :=
  match text.toList with
  | '-' :: digits => (true, digits)
  | digits => (false, digits)

def digitsValue (digits : List Char) : ℕ :=
  digits.foldl (fun acc c => acc * 10 + (c.toNat - 48)) 0

/-- Strict decimal integer: the text must be the integer's own spelling, in 64 bits. -/
def parseInteger (text : String) : Option ℤ :=
  let (negative, digits) := stripMinus text
  if digits.isEmpty || !digits.all Char.isDigit then none
  else
    let parsed : ℤ := if negative then -(digitsValue digits : ℤ) else digitsValue digits
    if -2 ^ 63 ≤ parsed ∧ parsed < 2 ^ 63 ∧ toString parsed = text then some parsed else none

/-- What coercion asks of the standard library. -/
structure Parsers where
  /-- `str::trim`. -/
  trim : String → String
  /-- `str::parse::<f64>`. -/
  parseF64 : String → Option F64

def parseBoolean (text : String) : Option Bool :=
  if text = "true" ∨ text = "1" ∨ text = "on" then some true
  else if text = "false" ∨ text = "0" then some false
  else none

section Coerce

variable (parsers : Parsers)

def parseNumber (text : String) : Option F64 :=
  if text = "" || text.toList.head? = some '+' || parsers.trim text != text then none
  else if text.toList.any (· ∈ ['x', 'X', 'n', 'N', 'i', 'I', 'e', 'E']) then none
  else (parsers.parseF64 text).filter F64.isFinite

/-- Coerces one text value to the rule's scalar kind. -/
def coerceScalar (kind : Kind) (text : String) : Value :=
  match kind with
  | .integer =>
    match parseInteger text with
    | some i => .integer i
    | none => .ofString text
  | .number =>
    match parseNumber parsers text with
    | some n => if n.isWhole && n.absLt 9000000000000000 then .integer n.toInt else .number n
    | none => .ofString text
  | .boolean =>
    match parseBoolean text with
    | some b => .boolean b
    | none => .ofString text
  | _ => .ofString text

/-- Whether a blank text means "not given" for a rule of this kind. -/
def blankIsAbsent (kind : Kind) (text : String) : Bool :=
  kind != .string && parsers.trim text = ""

/-- The value of a pair for a rule of this kind; `none` where it is not given. -/
def TextValue.toValue (kind : Kind) : TextValue → Option Value
  | .text s => if blankIsAbsent parsers kind s then none else some (coerceScalar parsers kind s)
  | .file pointer info => some (.file pointer info)

/-- The value of a pair no rule describes. -/
def TextValue.raw : TextValue → Value
  | .text s => .ofString s
  | .file pointer info => .file pointer info

/-- `name[]` as `name`. -/
def normalName (name : String) : String :=
  if "[]".toList <:+ name.toList then String.ofList (name.toList.dropLast.dropLast) else name

/-- The pairs grouped by name, in arrival order within a name. -/
def addPair (name : String) (value : TextValue) :
    List (String × List TextValue) → List (String × List TextValue)
  | [] => [(name, [value])]
  | (n, values) :: rest =>
    if n = name then (n, values ++ [value]) :: rest else (n, values) :: addPair name value rest

def groupPairs (pairs : List (String × TextValue)) : List (String × List TextValue) :=
  pairs.foldl (fun grouped p => addPair (normalName p.1) p.2 grouped) []

/-- The typed value of one group; `none` where the field is not given. -/
def groupValue (schema : SchemaDef) (pointer : ℕ) (name : String) (values : List TextValue) :
    Except Fault (Option Value) :=
  match schema.rule name with
  | some rule =>
    if rule.kind = .array then
      match rule.items with
      | none => .error (.panicked "array rules carry `items`")
      | some items =>
        let list := values.filterMap (TextValue.toValue parsers items.kind)
        .ok (some (.table pointer list.length (list.zipIdx.map fun e => (.integer (e.2 + 1), e.1))))
    else .ok (values.getLast?.bind (TextValue.toValue parsers rule.kind))
  | none => .ok (values.getLast?.map TextValue.raw)

/-- Builds the typed table; `next` are pointers no other table has. -/
def buildEntries (schema : SchemaDef) :
    List (String × List TextValue) → ℕ → Entries → Except Fault (Entries × ℕ)
  | [], next, out => .ok (out, next)
  | (name, values) :: rest, next, out => do
    let value ← groupValue parsers schema next name values
    buildEntries schema rest (next + 1)
      (match value with
        | some value => out.set (.ofString name) value
        | none => out)

def buildTable (schema : SchemaDef) (pairs : List (String × TextValue)) (next : ℕ) :
    Except Fault (Value × ℕ) := do
  let (out, after) ← buildEntries parsers schema (groupPairs pairs) (next + 1) []
  return (.table next 0 out, after)

/-- `CompiledSchema::check_text`. -/
def checkText (host : Host) (scripts : Scripts) (schema : SchemaDef)
    (pairs : List (String × TextValue)) (start : Start) :
    Except Fault (Except (List ErrorEntry) Value) := do
  let (value, next) ← buildTable parsers schema pairs start.next
  run host scripts schema value { start with next }

end Coerce

end Nitr.Validate
