import Nitr.Validate.Coerce

/-! # Request bodies

`body_part` and the part loop of `validation/multipart.rs`: a JSON value, a urlencoded
form or a multipart stream against a schema. The multipart parser and the spool files
are parameters. -/

namespace Nitr.Validate

/-! ## Multipart -/

/-- A part as the parser yields it. -/
structure Part where
  name : Option String
  filename : Option String
  contentType : Option String
  chunks : List (List UInt8)
  /-- Whether its last chunk was read without an error. -/
  complete : Bool

/-- How a stream ends: after its last part, with a failed read, or with malformed bytes. -/
inductive Ending where
  | done
  | failed (msg : String)
  | malformed

structure Stream where
  /-- Whether the `Content-Type` names a boundary. -/
  boundary : Bool
  parts : List Part
  ending : Ending

structure Limits where
  maxParts : ℕ
  maxFieldBytes : ℕ
  maxFileBytes : ℕ

/-- Where uploads go. -/
structure Uploads where
  /-- `[multipart] upload_dir` is set. -/
  root : Bool
  /-- The request has a spool directory. -/
  spoolDir : Bool
  /-- A `Spooler` of this index and cap over the chunks, finished with the file name and the
  declared type. -/
  spool : (index cap : ℕ) → List (List UInt8) → (filename contentType : Option String) →
    Except Fault FileInfo

/-- `is_file_field`: a `file` rule, or an array of them. -/
def SchemaDef.isFileField (schema : SchemaDef) (name : String) : Bool :=
  match schema.rule name with
  | some rule => rule.kind = .file || (rule.items.map (·.kind)) = some .file
  | none => false

def SchemaDef.fileMaxBytes (schema : SchemaDef) (name : String) : Option ℕ :=
  (schema.rule name).bind fun rule =>
    match rule.kind with
    | .file => rule.maxBytes
    | .array => rule.items.bind (·.maxBytes)
    | _ => none

/-- The chunk loop of a text part: what fits, and whether a chunk did not. -/
def readField (limit : ℕ) : List (List UInt8) → List UInt8 → Bool → List UInt8 × Bool
  | [], buf, exceeded => (buf, exceeded)
  | chunk :: rest, buf, exceeded =>
    if limit < buf.length + chunk.length then readField limit rest buf true
    else readField limit rest (buf ++ chunk) exceeded

def readText (limits : Limits) (name : String) (part : Part) : Except Fault TextValue :=
  let (buf, exceeded) := readField limits.maxFieldBytes part.chunks [] false
  if !part.complete then .error (.raised "the body could not be read")
  else if exceeded then
    .error (.raised ("multipart field `" ++ name ++ "` exceeds the "
      ++ toString limits.maxFieldBytes ++ " byte limit"))
  else .ok (.text (LuaString.toStringLossy ⟨⟨buf.toArray⟩⟩))

/-- A file part of a declared field; `none` for an empty file input. -/
def readFile (schema : SchemaDef) (limits : Limits) (uploads : Uploads) (index : ℕ)
    (name filename : String) (part : Part) : Except Fault (Option TextValue) := do
  let cap := min ((schema.fileMaxBytes name).getD limits.maxFileBytes) limits.maxFileBytes
  if !part.complete then .error (.raised "the body could not be read")
  else
    let named := if filename = "" then none else some filename
    let info ← uploads.spool index cap part.chunks named part.contentType
    return if filename = "" ∧ info.size = 0 then none else some (.file index info)

section Read

variable (schema : SchemaDef) (limits : Limits) (uploads : Uploads) (ending : Ending)

/-- The part loop; `none` for a malformed body. -/
def readParts : List Part → (count index : ℕ) → List (String × TextValue) →
    Except Fault (Option (List (String × TextValue)))
  | [], _, _, out =>
    match ending with
    | .done => .ok (some out)
    | .failed msg => .error (.raised msg)
    | .malformed => .ok none
  | part :: rest, count, index, out =>
    if limits.maxParts < count + 1 then
      .error (.raised ("multipart body has more than " ++ toString limits.maxParts ++ " parts"))
    else
      let name := part.name.getD ""
      match part.filename with
      | none => do
        let value ← readText limits name part
        readParts rest (count + 1) index (out ++ [(name, value)])
      | some filename =>
        -- Undeclared: drained, never stored.
        if !schema.isFileField name then
          if part.complete then readParts rest (count + 1) index out
          else .error (.raised "the body could not be read")
        else do
          match ← readFile schema limits uploads (index + 1) name filename part with
          | none => readParts rest (count + 1) (index + 1) out
          | some value => readParts rest (count + 1) (index + 1) (out ++ [(name, value)])

end Read

/-- `multipart::read`. -/
def readMultipart (schema : SchemaDef) (limits : Limits) (uploads : Uploads) (stream : Stream) :
    Except Fault (Option (List (String × TextValue))) :=
  if !stream.boundary then .ok none
  else if !uploads.root then .error (.raised "validated uploads need `[multipart] upload_dir`")
  else if !uploads.spoolDir then .error (.raised "no spool directory for this request")
  else readParts schema limits uploads stream.ending stream.parts 0 0 []

/-! ## Bodies -/

inductive Body where
  /-- The Lua value of a JSON text; `none` for bytes that are no JSON. -/
  | json (value : Option Value)
  | form (pairs : List (String × String))
  | multipart (stream : Stream)

/-- A body that is not even of its content type: the rule and the message. -/
def malformedBody (rule message : String) : ErrorEntry :=
  { path := "$", field := "", rule, message, params := [], label := none }

/-- `body_part` for a body schema: the validated body, or its errors. -/
def checkBody (host : Host) (scripts : Scripts) (parsers : Parsers) (limits : Limits)
    (uploads : Uploads) (schema : SchemaDef) (start : Start) :
    Body → Except Fault (Except (List ErrorEntry) Value)
  | .json none => .ok (.error [malformedBody "json" "must be valid JSON"])
  | .json (some value) => run host scripts schema value start
  | .form pairs =>
    checkText parsers host scripts schema (pairs.map fun p => (p.1, .text p.2)) start
  | .multipart stream => do
    match ← readMultipart schema limits uploads stream with
    | none =>
      .ok (.error [malformedBody "multipart" "must be a well-formed multipart body"])
    | some pairs => checkText parsers host scripts schema pairs start

end Nitr.Validate
