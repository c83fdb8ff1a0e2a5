import Nitr.Json.Lists

/-! # Reading JSON back

`json:decode` and `cache:get`: `serde_json` reads the text into a document, mlua turns that into
Lua data. The text stands as the document written. Then what it means that a value read back
kept everything. -/

namespace Nitr.Json

open Nitr.Validate (LuaString F64)

/-- What `serde_json` does with a double and how deep it reads. -/
structure SerdeJson where
  /-- The text of a finite double. -/
  decimal : F64 → String
  /-- The double that text is read as. -/
  reread : F64 → F64
  maxDepth : ℕ

mutual

/-- How deep a document nests. -/
def Doc.depth : Doc → ℕ
  | .array items => 1 + docsDepth items
  | .object entries => 1 + membersDepth entries
  | _ => 0

def docsDepth : List Doc → ℕ
  | [] => 0
  | doc :: docs => max doc.depth (docsDepth docs)

def membersDepth : List (String × Doc) → ℕ
  | [] => 0
  | e :: rest => max e.2.depth (membersDepth rest)

end

section

variable (serde : SerdeJson)

mutual

/-- The document as read: of the values under one key the last stays. -/
def Doc.parsed : Doc → Doc
  | .number n => .number (serde.reread n)
  | .array items => .array (parsedItems items)
  | .object entries => .object (parsedEntries entries)
  | .null => .null
  | .boolean b => .boolean b
  | .integer i => .integer i
  | .string s => .string s

def parsedItems : List Doc → List Doc
  | [] => []
  | doc :: docs => doc.parsed :: parsedItems docs

def parsedEntries : List (String × Doc) → List (String × Doc)
  | [] => []
  | e :: rest =>
      if e.1 ∈ rest.map Prod.fst then parsedEntries rest
      else (e.1, e.2.parsed) :: parsedEntries rest

end

/-- `serde_json::from_slice`. -/
def SerdeJson.fromSlice (doc : Doc) : Option Doc :=
  if doc.depth ≤ serde.maxDepth then some (doc.parsed serde) else none

end

mutual

/-- `lua.to_value`. -/
def Doc.toValue : Doc → Data
  | .null => .null
  | .boolean b => .boolean b
  | .integer i => .integer i
  | .number n => .number n
  | .string s => .string (.ofString s)
  | .array items => .table items.length true (itemValues items 1)
  | .object entries => .table 0 false (entryValues entries)

def itemValues : List Doc → ℕ → List (Key × Data)
  | [], _ => []
  | doc :: docs, i => (.integer i, doc.toValue) :: itemValues docs (i + 1)

def entryValues : List (String × Doc) → List (Key × Data)
  | [] => []
  | e :: rest => (.string (.ofString e.1), e.2.toValue) :: entryValues rest

end

/-- `json:decode`. -/
def decode (serde : SerdeJson) (doc : Doc) : Option Data :=
  (serde.fromSlice doc).map Doc.toValue

/-! ## What is kept -/

/-- Whether a table is written as a list. -/
def isListed (len : ℕ) (entries : List (Key × Data)) : Bool :=
  len ≠ 0 && highest entries ≤ 2 * entries.length

/-- The key an entry is read back under: its own in a list, its text in an object. -/
def Key.place (decimal : F64 → String) (listed : Bool) (key : Key) : Key :=
  if listed then key
  else
    match key with
    | .boolean b => .string (.ofString (if b then "true" else "false"))
    | .integer i => .string (.ofString (toString i))
    | .number n => .string (.ofString (decimal n))
    | .string s => .string s
    | .null => .null

section

variable (decimal : F64 → String)

mutual

/-- Every scalar is its original, and every entry of every table is there once, in its place,
apart from the others. -/
def Kept : Data → Data → Prop
  | .table len _ entries, back =>
      ∃ len' array' entries', back = .table len' array' entries' ∧
        (entries'.map Prod.fst).Nodup ∧
        ∃ kept, kept.Subperm entries' ∧ KeptEntries (isListed len entries) entries kept
  | .nil, back => back = .nil
  | .null, back => back = .null
  | .boolean b, back => back = .boolean b
  | .integer i, back => back = .integer i
  | .number n, back => back = .number n
  | .string s, back => back = .string s

def KeptEntries (listed : Bool) : List (Key × Data) → List (Key × Data) → Prop
  | [], kept => kept = []
  | e :: rest, kept =>
      ∃ value more, kept = (e.1.place decimal listed, value) :: more ∧ Kept e.2 value ∧
        KeptEntries listed rest more

end

end

section

variable (serde : SerdeJson)

mutual

/-- Nothing in the value is lost on the way: no `nil`, every double finite and read as it was
written, and no two keys of a table written as an object with one text. -/
def Data.Lossless : Data → Prop
  | .table len _ entries =>
      (isListed len entries = false →
        (entries.map fun e => e.1.place serde.decimal false).Nodup) ∧ losslessEntries entries
  | .nil => False
  | .number n => n.isFinite = true ∧ serde.reread n = n
  | .null | .boolean _ | .integer _ | .string _ => True

def losslessEntries : List (Key × Data) → Prop
  | [] => True
  | e :: rest => e.2.Lossless ∧ losslessEntries rest

end

end

mutual

/-- A table has each key once. -/
def Data.Proper : Data → Prop
  | .table _ _ entries => (entries.map Prod.fst).Nodup ∧ properEntries entries
  | _ => True

def properEntries : List (Key × Data) → Prop
  | [] => True
  | e :: rest => e.2.Proper ∧ properEntries rest

end

end Nitr.Json
