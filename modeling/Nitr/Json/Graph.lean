import Mathlib.Logic.Relation
import Nitr.Json.Lists
import Nitr.Lib.Runs

/-! # Table graphs as JSON

`bounded.rs` on a heap of tables that may share and contain each other, through values and
through keys: `LuaData` drives the bounded serializer, with the stack of the tables being
serialized. The recursion is given a number of nested tables. -/

namespace Nitr.Json

open Nitr.Validate (LuaString F64)

/-! ## The heap -/

section

variable (Ptr : Type)

inductive GraphKey where
  | scalar (key : Key)
  | table (p : Ptr)
  | other (typeName : String)
deriving DecidableEq

inductive GraphValue where
  | nil
  | null
  | boolean (b : Bool)
  | integer (i : ℤ)
  | number (n : F64)
  | string (s : LuaString)
  | table (p : Ptr)
  | other (typeName : String)

/-- A table with its border, whether it has the array metatable, and its entries in iteration
order. -/
structure LuaTable where
  len : ℕ
  array : Bool
  entries : List (GraphKey Ptr × GraphValue Ptr)
  nodup : (entries.map Prod.fst).Nodup

abbrev Heap := Ptr → LuaTable Ptr

end

inductive GraphError where
  | json (e : JsonError)
  | recursiveTable
  | unsupported (typeName : String)

/-- The running bounds and the tables being serialized, innermost first. `visited` counts the
values charged to the budget, and `values` has the stack each value was serialized under. -/
structure Pass (Ptr : Type) where
  depth : ℕ
  budget : ℕ
  path : List Ptr
  visited : ℕ
  values : List (List Ptr)

/-- Fresh bounds over a stack. -/
def Pass.start {Ptr : Type} (path : List Ptr) : Pass Ptr := ⟨0, maxJsonNodes, path, 0, []⟩

/-- A serializer behind the bounds: the documents of the elements make its result. -/
structure Inner (Ok : Type) where
  scalar : Scalar → Except GraphError Ok
  seq : Except GraphError (List Doc → Ok)
  map : Except GraphError (List (String × Doc) → Ok)

def docInner : Inner Doc where
  scalar call := .ok call.doc
  seq := .ok .array
  map := .ok .object

/-- The serializer of keys refuses what has elements. -/
def keyInner (decimal : F64 → String) : Inner String where
  scalar call := (call.key decimal).mapError .json
  seq := .error (.json .keyMustBeAString)
  map := .error (.json .keyMustBeAString)

section

variable {Ptr : Type}

def Key.graphValue : Key → GraphValue Ptr
  | .boolean b => .boolean b
  | .integer i => .integer i
  | .number n => .number n
  | .string s => .string s
  | .null => .null

def GraphKey.value : GraphKey Ptr → GraphValue Ptr
  | .scalar key => key.graphValue
  | .table p => .table p
  | .other typeName => .other typeName

def GraphKey.position : GraphKey Ptr → Option ℕ
  | .scalar key => key.position
  | _ => none

/-! ## The bounds -/

namespace Pass

/-- Charged for every visited value. -/
def visit : Run (Pass Ptr) GraphError Unit := fun s =>
  if s.budget = 0 then some (.error (.json .nodes), s)
  else some (.ok (), { s with budget := s.budget - 1, visited := s.visited + 1 })

/-- Entering a sequence or map. -/
def enter : Run (Pass Ptr) GraphError Unit := fun s =>
  if maxJsonDepth < s.depth + 1 then some (.error (.json .depth), s)
  else some (.ok (), { s with depth := s.depth + 1 })

def leave : Run (Pass Ptr) GraphError Unit := fun s =>
  some (.ok (), { s with depth := s.depth - 1 })

def note : Run (Pass Ptr) GraphError Unit := fun s =>
  some (.ok (), { s with values := s.values ++ [s.path] })

/-- `LuaData::table`: the pointer is on the stack while its table is serialized, and popped
whatever comes of it. -/
def within [DecidableEq Ptr] {α : Type} (p : Ptr) (body : Run (Pass Ptr) GraphError α) :
    Run (Pass Ptr) GraphError α := fun s =>
  if p ∈ s.path then some (.error .recursiveTable, s)
  else
    match body { s with path := p :: s.path } with
    | none => none
    | some (result, s) => some (result, { s with path := s.path.tail })

end Pass

section

variable {Ok : Type} (inner : Inner Ok)

/-- A scalar under the bounds: bytes are refused. -/
def serializeScalar (call : Scalar) : Run (Pass Ptr) GraphError Ok := do
  Pass.visit
  match call with
  | .bytes _ => Run.fail (.json .utf8)
  | call => Run.lift (inner.scalar call)

/-- A sequence or a map: it is entered, its elements are serialized, and it is left. -/
def compound {Docs : Type} (make : Except GraphError (Docs → Ok))
    (loop : Run (Pass Ptr) GraphError Docs) : Run (Pass Ptr) GraphError Ok := do
  Pass.visit
  Pass.enter
  let finish ← Run.lift make
  let docs ← loop
  Pass.leave
  return finish docs

/-- How a value is serialized by any serializer. -/
abbrev Child (Ptr : Type) := ∀ Ok : Type, Inner Ok → GraphValue Ptr → Run (Pass Ptr) GraphError Ok

variable (decimal : F64 → String) (child : Child Ptr)

def elements : List (GraphValue Ptr) → Run (Pass Ptr) GraphError (List Doc)
  | [] => pure []
  | item :: items => do
      let doc ← child Doc docInner item
      let docs ← elements items
      return doc :: docs

def members : List (GraphKey Ptr × GraphValue Ptr) →
    Run (Pass Ptr) GraphError (List (String × Doc))
  | [] => pure []
  | e :: entries => do
      let key ← child String (keyInner decimal) e.1.value
      let doc ← child Doc docInner e.2
      let rest ← members entries
      return (key, doc) :: rest

def serializeSeq (items : List (GraphValue Ptr)) : Run (Pass Ptr) GraphError Ok :=
  compound inner.seq (elements child items)

/-- `LuaData::map`. -/
def serializeMap (entries : List (GraphKey Ptr × GraphValue Ptr)) :
    Run (Pass Ptr) GraphError Ok :=
  compound inner.map (members decimal child entries)

/-- The entries with a scalar key. -/
def listed (entries : List (GraphKey Ptr × GraphValue Ptr)) : List (Key × GraphValue Ptr) :=
  entries.filterMap fun e =>
    match e.1 with
    | .scalar key => some (key, e.2)
    | _ => none

/-- `LuaData::list`: a list with holes if its positions are dense, else a map. -/
def serializeList (entries : List (GraphKey Ptr × GraphValue Ptr)) :
    Run (Pass Ptr) GraphError Ok :=
  if entries.any fun e => e.1.position.isNone then Run.fail (.json .mixed)
  else
    let items := listed entries
    let count := items.length
    if highest items > 2 * count then serializeMap inner decimal child entries
    else if count = highest items then serializeSeq inner child (sequenceFrom items count 1)
    else serializeSeq inner child (itemsUpTo items .nil (highest items))

def serializeTable (table : LuaTable Ptr) : Run (Pass Ptr) GraphError Ok :=
  if table.len = 0 then
    if table.entries = [] then
      if table.array then serializeSeq inner child [] else serializeMap inner decimal child []
    else serializeMap inner decimal child table.entries
  else serializeList inner decimal child table.entries

end

variable [DecidableEq Ptr] (decimal : F64 → String) (heap : Heap Ptr)

/-- `LuaData::serialize` through so many nested tables. -/
def serialize : ℕ → Child Ptr
  | nested, _, inner, value => do
      Pass.note
      match value with
      | .nil => serializeScalar inner .unit
      | .null => serializeScalar inner .unit
      | .boolean b => serializeScalar inner (.bool b)
      | .integer i => serializeScalar inner (.i64 i)
      | .number n => serializeScalar inner (.f64 n)
      | .string s => serializeScalar inner (stringCall s)
      | .other typeName => Run.fail (.unsupported typeName)
      | .table p =>
          match nested with
          | 0 => fun _ => none
          | nested + 1 =>
              Pass.within p (serializeTable inner decimal (serialize nested) (heap p))

end

end Nitr.Json
