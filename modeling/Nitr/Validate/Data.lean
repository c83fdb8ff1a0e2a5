import Nitr.Validate.Scalar

/-! # The data model

Rules and schemas as `validate/mod.rs` declares them, and the Lua values they
are compiled from and checked against. Script functions are handles; what a
handle does is for the engine's environment to say. -/

namespace Nitr.Validate

/-- The value types a rule can require. -/
inductive Kind where
  | string | number | integer | boolean | array | table | map | any | file
deriving DecidableEq, Repr

namespace Kind

def name : Kind → String
  | string => "string"
  | number => "number"
  | integer => "integer"
  | boolean => "boolean"
  | array => "array"
  | table => "table"
  | map => "map"
  | any => "any"
  | file => "file"

def parse (name : String) : Option Kind :=
  match name with
  | "string" => some string
  | "number" => some number
  | "integer" => some integer
  | "boolean" => some boolean
  | "array" => some array
  | "table" => some table
  | "map" => some map
  | "any" => some any
  | "file" => some file
  | _ => none

def isNumeric : Kind → Bool
  | number | integer => true
  | _ => false

end Kind

/-- A literal a rule can compare against (`one_of`, `equals`, `default`). -/
inductive Literal where
  | str (s : String)
  | num (n : F64)
  | bool (b : Bool)
deriving DecidableEq

inductive Case where
  | lower | upper
deriving DecidableEq, Repr

/-- An `after`/`before` bound: a literal in the field's format, or `"now"`. -/
inductive TimeBound where
  | now
  | literal (text : String)
deriving DecidableEq, Repr

/-- A Lua function, by handle. -/
abbrev Function := ℕ

/-! ## Formats -/

inductive Format where
  | email | uuid | ulid | url | domain | ip | ipv4 | ipv6 | cidr | mac | hostname
  | date | datetime | time | hex | base64 | base64Url | alphanumeric | alpha | numeric
  | alphaDash | lowercase | uppercase | ascii | printable | slug | semver | phone
  | countryCode | currencyCode | languageTag | creditCard | iban | hexColor | json | jwt
deriving DecidableEq, Repr

namespace Format

/-- `FORMATS`: every built-in format under its configuration name. -/
def table : List (String × Format) :=
  [("alpha", alpha), ("alpha_dash", alphaDash), ("alphanumeric", alphanumeric),
   ("ascii", ascii), ("base64", base64), ("base64url", base64Url), ("cidr", cidr),
   ("country_code", countryCode), ("credit_card", creditCard),
   ("currency_code", currencyCode), ("date", date), ("datetime", datetime),
   ("domain", domain), ("email", email), ("hex", hex), ("hex_color", hexColor),
   ("hostname", hostname), ("iban", iban), ("ip", ip), ("ipv4", ipv4), ("ipv6", ipv6),
   ("json", json), ("jwt", jwt), ("language_tag", languageTag),
   ("lowercase", lowercase), ("mac", mac), ("numeric", numeric), ("phone", phone),
   ("printable", printable), ("semver", semver), ("slug", slug), ("time", time),
   ("ulid", ulid), ("uppercase", uppercase), ("url", url), ("uuid", uuid)]

def parse (name : String) : Option Format :=
  (table.find? (fun p => p.1 = name)).map (·.2)

def name (format : Format) : String :=
  ((table.find? (fun p => p.2 = format)).map (·.1)).getD "format"

/-- The formats `after`, `before` and `ordered` compare in. -/
def isTemporal : Format → Bool
  | date | datetime | time => true
  | _ => false

end Format

/-- A compiled message template: literal text and placeholders. -/
structure Template where
  segs : List (String ⊕ String)
deriving DecidableEq

/-- A script-defined format (`nitr.validate.format`). -/
structure CustomFormat where
  name : String
  description : String
  message : Option Template
  check : Function
  pattern : Option String
  sample : Option String
deriving DecidableEq

inductive FormatRule where
  | builtin (format : Format)
  | custom (format : CustomFormat)
deriving DecidableEq

def FormatRule.name : FormatRule → String
  | builtin format => format.name
  | custom format => format.name

/-! ## Rules and schemas -/

/-- A media type a `file` rule accepts. -/
inductive TypePattern where
  | any
  | family (name : String)
  | exact (name : String)
deriving DecidableEq

structure Aspect where
  min : F64
  max : F64
  label : String
deriving DecidableEq

/-- The `file`-only part of a rule; its `filename` rule is a field of `Rule`. -/
structure FileRule where
  minBytes : ℕ
  types : List TypePattern
  allowExecutables : Bool
  extensions : List String
  matchExtension : Bool
  minWidth : Option ℕ
  maxWidth : Option ℕ
  minHeight : Option ℕ
  maxHeight : Option ℕ
  maxPixels : Option ℕ
  aspect : Option Aspect
  utf8 : Bool
deriving DecidableEq

def FileRule.wantsDimensions (file : FileRule) : Bool :=
  file.minWidth.isSome || file.maxWidth.isSome || file.minHeight.isSome ||
    file.maxHeight.isSome || file.maxPixels.isSome || file.aspect.isSome

/-- The keys of a rule that nest no other rule. -/
structure RuleKeys where
  kind : Kind
  required : Bool := false
  default : Option Literal := none
  equals : Option Literal := none
  oneOf : Option (List Literal) := none
  notOneOf : Option (List Literal) := none
  label : Option String := none
  /-- The per-field override for every rule. -/
  message : Option Template := none
  /-- Per-field, per-rule overrides. -/
  messages : List (String × Template) := []
  check : Option Function := none
  transform : Option Function := none
  description : Option String := none
  -- Strings.
  trim : Bool := false
  case : Option Case := none
  minLen : Option ℕ := none
  maxLen : Option ℕ := none
  len : Option ℕ := none
  format : Option FormatRule := none
  startsWith : Option String := none
  endsWith : Option String := none
  contains : Option String := none
  doesNotContain : Option String := none
  after : Option TimeBound := none
  before : Option TimeBound := none
  -- Numbers.
  min : Option F64 := none
  max : Option F64 := none
  exclusiveMin : Option F64 := none
  exclusiveMax : Option F64 := none
  multipleOf : Option F64 := none
  decimals : Option ℕ := none
  -- Arrays.
  minItems : Option ℕ := none
  maxItems : Option ℕ := none
  unique : Bool := false
  containsItem : Option Literal := none
  containsAny : Option (List Literal) := none
  containsAll : Option (List Literal) := none
  maxTotalBytes : Option ℕ := none
  -- Maps.
  minKeys : Option ℕ := none
  maxKeys : Option ℕ := none
  -- `any` and `file`.
  maxBytes : Option ℕ := none
  file : Option FileRule := none
deriving DecidableEq

/-- A group of field names for a cross-field rule, with its message. -/
structure Group where
  fields : List String
  message : Option Template
deriving DecidableEq

/-- One schema-level custom check. -/
structure CheckDef where
  description : String
  func : Function
  message : Option Template
deriving DecidableEq

/-- Everything of a schema but its fields. -/
structure SchemaOptions where
  /-- The component name for the API description. -/
  title : Option String := none
  strict : Bool := false
  messages : List (String × Template) := []
  atLeastOne : List Group := []
  mutuallyExclusive : List Group := []
  dependentRequired : List (String × Group) := []
  equalFields : List Group := []
  ordered : List Group := []
  checks : List CheckDef := []
deriving DecidableEq

mutual

/-- One compiled field rule. -/
structure Rule extends RuleKeys where
  items : Option Rule
  fields : Option SchemaDef
  keys : Option Rule
  values : Option Rule
  filename : Option Rule

/-- A compiled schema: the field rules and the cross-field rules. -/
structure SchemaDef where
  fields : List (String × Rule)
  options : SchemaOptions

end

/-- `SchemaDef::rule`: the first field of that name. -/
def SchemaDef.rule (schema : SchemaDef) (name : String) : Option Rule :=
  (schema.fields.find? (fun f => f.1 = name)).map (·.2)

end Nitr.Validate
