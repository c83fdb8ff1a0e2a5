import Nitr.Validate.Data

/-! # Lua values

A table is a reference: it carries its identity, its border (`raw_len`) and its
entries in iteration order. A table the engine builds iterates in insertion
order. -/

namespace Nitr.Validate

/-- Table keys: the validator tells strings and integers from everything else. -/
inductive Key where
  | string (s : LuaString)
  | integer (i : ℤ)
  | other (pointer : ℕ)
deriving DecidableEq

/-- The key a Rust string names. -/
def Key.ofString (s : String) : Key := .string (LuaString.ofString s)

@[simp] theorem Key.ofString_inj {s t : String} : Key.ofString s = Key.ofString t ↔ s = t := by
  simp [Key.ofString]

/-- What the spooler learned about an upload. -/
structure FileInfo where
  size : ℕ
  /-- The most bytes the spool stores. -/
  cap : ℕ
  effectiveType : String
  isExecutable : Bool
  safeFilename : Option String
  extension : Option String
  width : Option ℕ
  height : Option ℕ
  utf8 : Option Bool
deriving DecidableEq

inductive Value where
  | nil
  | boolean (b : Bool)
  | integer (i : ℤ)
  | number (n : F64)
  | string (s : LuaString)
  | table (pointer len : ℕ) (entries : List (Key × Value))
  | function (f : Function)
  /-- A `nitr.validate.schema` value. -/
  | schema (schema : SchemaDef)
  | file (pointer : ℕ) (info : FileInfo)
  /-- Threads and other userdata, the JSON `null` among them: only identity counts. -/
  | other (pointer : ℕ)

namespace Value

def isNil : Value → Bool
  | nil => true
  | _ => false

@[simp] theorem isNil_eq_true {v : Value} : v.isNil = true ↔ v = nil := by
  cases v <;> simp [isNil]

@[simp] theorem isNil_eq_false {v : Value} : v.isNil = false ↔ v ≠ nil := by
  cases v <;> simp [isNil]

def ofString (s : String) : Value := string (LuaString.ofString s)

/-- `type_name`. -/
def typeName : Value → String
  | nil => "nil"
  | boolean _ => "boolean"
  | integer _ => "integer"
  | number _ => "number"
  | string _ => "string"
  | table .. => "table"
  | function _ => "function"
  | schema _ | file .. | other _ => "userdata"

end Value

/-! ## Tables -/

/-- The entries of a table, in iteration order. -/
abbrev Entries := List (Key × Value)

namespace Entries

/-- `table.get(key)`: `nil` where the key is absent. -/
def get (entries : Entries) (key : Key) : Value :=
  match entries.find? (fun e => e.1 = key) with
  | some e => e.2
  | none => .nil

/-- `table.get(name)` for a Rust string. -/
def field (entries : Entries) (name : String) : Value := entries.get (.ofString name)

/-- `table.set(key, value)`: in place where the key is present, appended where
it is not; `nil` removes. -/
def set : Entries → Key → Value → Entries
  | [], key, value => if value.isNil then [] else [(key, value)]
  | e :: rest, key, value =>
    if e.1 = key then (if value.isNil then rest else (key, value) :: rest)
    else e :: set rest key value

theorem mem_set {es : Entries} {key : Key} {value : Value} {e : Key × Value}
    (h : e ∈ es.set key value) : e ∈ es ∨ e = (key, value) := by
  induction es with
  | nil =>
      unfold set at h
      split at h
      · cases h
      · exact .inr (List.mem_singleton.mp h)
  | cons e' es ih =>
      unfold set at h
      split at h
      · split at h
        · exact .inl (List.mem_cons_of_mem _ h)
        · obtain rfl | h := List.mem_cons.mp h
          · exact .inr rfl
          · exact .inl (List.mem_cons_of_mem _ h)
      · obtain rfl | h := List.mem_cons.mp h
        · exact .inl (List.mem_cons_self ..)
        · exact (ih h).imp (List.mem_cons_of_mem _) id

/-- `sequence_values`: the values at `1, 2, …` up to the first `nil`. -/
def sequenceFrom (entries : Entries) : ℕ → ℕ → List Value
  | 0, _ => []
  | more + 1, i =>
    match entries.get (.integer i) with
    | .nil => []
    | value => value :: sequenceFrom entries more (i + 1)

def sequence (entries : Entries) : List Value := entries.sequenceFrom entries.length 1

end Entries

/-! ## Literals against values -/

namespace Literal

/-- `Literal::matches`: an integer is compared through its double. -/
def matchesValue : Literal → Value → Bool
  | str s, .string v => v = LuaString.ofString s
  | num n, .integer i => n.eq (F64.ofInt i)
  | num n, .number f => n.eq f
  | bool b, .boolean v => b = v
  | _, _ => false

/-- `to_lua`: a whole number below `9.0e15` becomes an integer. -/
def toLua : Literal → Value
  | str s => Value.ofString s
  | num n => if n.isWhole && n.absLt 9000000000000000 then .integer n.toInt else .number n
  | bool b => .boolean b

theorem toLua_ne_nil (l : Literal) : l.toLua ≠ .nil := by
  cases l with
  | str s => simp [toLua, Value.ofString]
  | num n =>
      simp only [toLua]
      split <;> simp
  | bool b => simp [toLua]

end Literal

end Nitr.Validate
