import Nitr.Validate.Scalar

/-! # Lua data as JSON

`bounded.rs`: how a script's value drives a serializer (`LuaData`), and the bounds checked on
the way (`Bounded`). Then the walking guard of `utils.rs`. A value is a finite tree; a shared
table stands once for each path to it. -/

namespace Nitr.Json

open Nitr.Validate (LuaString F64)

/-- A scalar key. A whole double in range is an integer key to Lua, and no key is a NaN. -/
inductive Key where
  | boolean (b : Bool)
  | integer (i : ℤ)
  | number (n : F64)
  | string (s : LuaString)
  | null
deriving DecidableEq

/-- Plain data. A table has its border (`raw_len`), whether it has the array metatable, and
its entries in iteration order. -/
inductive Data where
  | nil
  | null
  | boolean (b : Bool)
  | integer (i : ℤ)
  | number (n : F64)
  | string (s : LuaString)
  | table (len : ℕ) (array : Bool) (entries : List (Key × Data))

/-- Why a value is refused. -/
inductive JsonError where
  | depth
  | nodes
  | utf8
  | mixed
  | keyMustBeAString
  | floatKeyMustBeFinite
deriving DecidableEq

def maxJsonDepth : ℕ := 128

def maxJsonNodes : ℕ := 1000000

/-- `LuaString::to_str`. -/
def toStr (s : LuaString) : Option String :=
  if h : s.bytes.IsValidUTF8 then some (String.ofByteArray s.bytes h) else none

/-! ## The calls a value makes on a serializer -/

/-- A call for a scalar. A string that is not UTF-8 is passed as bytes. -/
inductive Scalar where
  | unit
  | bool (b : Bool)
  | i64 (i : ℤ)
  | f64 (n : F64)
  | str (s : String)
  | bytes (s : LuaString)

/-- The calls for a value; `mixed` is the error for a table with list items and other keys. -/
inductive Calls where
  | scalar (call : Scalar)
  | seq (items : List Calls)
  | map (entries : List (Scalar × Calls))
  | mixed

def stringCall (s : LuaString) : Scalar :=
  match toStr s with
  | some text => .str text
  | none => .bytes s

def Key.call : Key → Scalar
  | .boolean b => .bool b
  | .integer i => .i64 i
  | .number n => .f64 n
  | .string s => stringCall s
  | .null => .unit

section Tables

variable {α : Type}

/-- `raw_get`. -/
def rawGet (entries : List (Key × α)) (key : Key) : Option α :=
  (entries.find? fun e => e.1 = key).map Prod.snd

/-- A positive integer key. -/
def Key.position : Key → Option ℕ
  | .integer i => if 1 ≤ i then some i.toNat else none
  | _ => none

/-- The highest position among the keys. -/
def highest (entries : List (Key × α)) : ℕ :=
  (entries.filterMap fun e => e.1.position).foldr max 0

/-- `sequence_values`: the values at `1, 2, …` up to the first absent one. -/
def sequenceFrom (entries : List (Key × α)) : ℕ → ℕ → List α
  | 0, _ => []
  | more + 1, i =>
      match rawGet entries (.integer i) with
      | some value => value :: sequenceFrom entries more (i + 1)
      | none => []

/-- The values at `1..=n`, with a default for the absent ones. -/
def itemsUpTo (entries : List (Key × α)) (hole : α) (n : ℕ) : List α :=
  (List.range' 1 n).map fun i : ℕ => (rawGet entries (.integer i)).getD hole

end Tables

def mapCalls (entries : List (Key × Calls)) : Calls :=
  .map (entries.map fun e => (e.1.call, e.2))

/-- A table with a list part: a list with holes if its positions are dense, else a map. -/
def listCalls (entries : List (Key × Calls)) : Calls :=
  if entries.any fun e => e.1.position.isNone then .mixed
  else
    let count := entries.length
    if highest entries > 2 * count then mapCalls entries
    else if count = highest entries then .seq (sequenceFrom entries count 1)
    else .seq (itemsUpTo entries (.scalar .unit) (highest entries))

def tableCalls (len : ℕ) (array : Bool) (entries : List (Key × Calls)) : Calls :=
  if len = 0 then
    if entries = [] then (if array then .seq [] else .map []) else mapCalls entries
  else listCalls entries

mutual

/-- `LuaData::serialize`. -/
def Data.calls : Data → Calls
  | .nil => .scalar .unit
  | .null => .scalar .unit
  | .boolean b => .scalar (.bool b)
  | .integer i => .scalar (.i64 i)
  | .number n => .scalar (.f64 n)
  | .string s => .scalar (stringCall s)
  | .table len array entries => tableCalls len array (entryCalls entries)

def entryCalls : List (Key × Data) → List (Key × Calls)
  | [] => []
  | e :: rest => (e.1, e.2.calls) :: entryCalls rest

end

/-! ## The document a serializer writes -/

/-- A JSON document as written; an object may repeat a key. -/
inductive Doc where
  | null
  | boolean (b : Bool)
  | integer (i : ℤ)
  | number (n : F64)
  | string (s : String)
  | array (items : List Doc)
  | object (entries : List (String × Doc))

section

-- The decimal text of a finite double.
variable (decimal : F64 → String)

/-- A scalar as `serde_json` writes it: a double that is not finite is `null`, bytes are an
array of numbers. -/
def Scalar.doc : Scalar → Doc
  | .unit => .null
  | .bool b => .boolean b
  | .i64 i => .integer i
  | .f64 n => if n.isFinite then .number n else .null
  | .str s => .string s
  | .bytes s => .array (s.bytes.data.toList.map fun b => .integer b.toNat)

/-- A key as `serde_json` writes it. -/
def Scalar.key : Scalar → Except JsonError String
  | .unit => .error .keyMustBeAString
  | .bool b => .ok (if b then "true" else "false")
  | .i64 i => .ok (toString i)
  | .f64 n => if n.isFinite then .ok (decimal n) else .error .floatKeyMustBeFinite
  | .str s => .ok s
  | .bytes _ => .error .keyMustBeAString

mutual

/-- The plain serializer. -/
def Calls.plain : Calls → Except JsonError Doc
  | .scalar call => .ok call.doc
  | .seq items => do
      let docs ← plainItems items
      return .array docs
  | .map entries => do
      let docs ← plainEntries entries
      return .object docs
  | .mixed => .error .mixed

def plainItems : List Calls → Except JsonError (List Doc)
  | [] => .ok []
  | item :: items => do
      let doc ← item.plain
      let docs ← plainItems items
      return doc :: docs

def plainEntries : List (Scalar × Calls) → Except JsonError (List (String × Doc))
  | [] => .ok []
  | entry :: entries => do
      let key ← entry.1.key decimal
      let doc ← entry.2.plain
      let docs ← plainEntries entries
      return (key, doc) :: docs

end

/-! ## The bounds in the pass -/

/-- `Bounds::visit`: one unit of the budget. -/
def visit (budget : ℕ) : Except JsonError ℕ :=
  if budget = 0 then .error .nodes else .ok (budget - 1)

/-- `Bounds::enter`: one level deeper. -/
def enter (depth : ℕ) : Except JsonError ℕ :=
  if depth + 1 > maxJsonDepth then .error .depth else .ok (depth + 1)

/-- A scalar under the bounds: bytes are refused. -/
def Scalar.guard (call : Scalar) (budget : ℕ) : Except JsonError ℕ := do
  let budget ← visit budget
  match call with
  | .bytes _ => throw .utf8
  | _ => return budget

mutual

/-- The serializer under the bounds, at a depth and with the budget left. -/
def Calls.guarded (depth : ℕ) : Calls → ℕ → Except JsonError (Doc × ℕ)
  | .scalar call, budget => do
      let budget ← call.guard budget
      return (call.doc, budget)
  | .seq items, budget => do
      let budget ← visit budget
      let depth ← enter depth
      let (docs, budget) ← guardedItems depth items budget
      return (.array docs, budget)
  | .map entries, budget => do
      let budget ← visit budget
      let depth ← enter depth
      let (docs, budget) ← guardedEntries depth entries budget
      return (.object docs, budget)
  | .mixed, _ => .error .mixed

def guardedItems (depth : ℕ) : List Calls → ℕ → Except JsonError (List Doc × ℕ)
  | [], budget => .ok ([], budget)
  | item :: items, budget => do
      let (doc, budget) ← item.guarded depth budget
      let (docs, budget) ← guardedItems depth items budget
      return (doc :: docs, budget)

def guardedEntries (depth : ℕ) :
    List (Scalar × Calls) → ℕ → Except JsonError (List (String × Doc) × ℕ)
  | [], budget => .ok ([], budget)
  | entry :: entries, budget => do
      let budget ← entry.1.guard budget
      let key ← entry.1.key decimal
      let (doc, budget) ← entry.2.guarded depth budget
      let (docs, budget) ← guardedEntries depth entries budget
      return ((key, doc) :: docs, budget)

end

/-- `to_json_string` up to the text: the document it writes. -/
def toJson (value : Data) : Except JsonError Doc := do
  let (doc, _) ← value.calls.guarded decimal 0 maxJsonNodes
  return doc

end

/-! ## The walking guard -/

/-- The walk at a string, strict about UTF-8. -/
def walkString (s : LuaString) (budget : ℕ) : Except JsonError ℕ := do
  let budget ← visit budget
  match toStr s with
  | some _ => return budget
  | none => throw .utf8

/-- The walk at a key, which is a scalar. -/
def walkKey : Key → (budget : ℕ) → Except JsonError ℕ
  | .string s, budget => walkString s budget
  | _, budget => visit budget

mutual

/-- `depth_walk`, strict about UTF-8: the budget left. -/
def depthWalk : Data → (remaining budget : ℕ) → Except JsonError ℕ
  | .table _ _ entries, remaining, budget => do
      let budget ← visit budget
      match remaining with
      | 0 => throw .depth
      | remaining + 1 => walkEntries entries remaining budget
  | .string s, _, budget => walkString s budget
  | _, _, budget => visit budget

def walkEntries : List (Key × Data) → (remaining budget : ℕ) → Except JsonError ℕ
  | [], _, budget => .ok budget
  | e :: rest, remaining, budget => do
      let budget ← walkKey e.1 budget
      let budget ← depthWalk e.2 remaining budget
      walkEntries rest remaining budget

end

/-- `check_json_bounds`. -/
def checkJsonBounds (value : Data) : Except JsonError Unit := do
  let _ ← depthWalk value maxJsonDepth maxJsonNodes
  return ()

end Nitr.Json
