import Nitr.App.OperationIds
import Nitr.Media.Types
import Nitr.OpenApi.Components

/-! # The document

`build` of `openapi/spec.rs`, from what `collect` of `app/meta.rs` gathered. Operation ids and
path templates are those of `collect`; the custom formats are those of the bootstrap state,
sorted by name. -/

namespace Nitr.OpenApi.Spec

open Validate Keywords
open Nitr.App (Method)

/-! ## What the document is built from -/

/-- The schema of a single rule, as a field of that name. -/
def wrapper (name : String) (rule : Rule) : SchemaDef := ⟨[(name, rule)], {}⟩

inductive Content where
  | json | form | multipart | raw
deriving DecidableEq

inductive BodyRule where
  | schema (schema : SchemaDef)
  /-- One `file` rule over the whole body. -/
  | file (rule : Rule)

structure InputSchemas where
  body : Option (BodyRule × List Content)
  query : Option SchemaDef
  params : Option SchemaDef
  headers : Option SchemaDef

/-- A schema given for documentation only. -/
inductive DocSchema where
  | fields (schema : SchemaDef)
  | rule (rule : Rule)

structure ResponseDoc where
  description : String
  schema : Option DocSchema
  content : List String

/-- A route's `doc` table; the responses are sorted by code. -/
structure RouteDoc where
  summary : Option String
  description : Option String
  tags : List String
  responses : List (ℕ × ResponseDoc)
  security : Option (List String)
  deprecated : Bool
  hidden : Bool

/-- A route as `collect` leaves it: a path with no template was refused. -/
structure RouteMeta where
  method : Method
  path : Text
  doc : Option RouteDoc
  input : Option InputSchemas
  operationId : String
  documentable : (toOpenapiPath path).isOk = true

structure TagDoc where
  name : String
  description : Option String

structure ApiDoc where
  title : String
  version : String
  description : Option String
  termsOfService : Option String
  contact : Option JsonValue
  license : Option JsonValue
  tags : List TagDoc
  security : List (String × JsonValue)
  externalDocs : Option JsonValue

structure AppMeta where
  api : Option ApiDoc
  routes : List RouteMeta

structure OpenApiConfig where
  includeUndocumented : Bool
  servers : List String

/-! ## Parameters -/

/-- The last segment of a reference. -/
def lastSegment (reference : String) : String :=
  .ofList ((reference.toList.splitOn '/').getLastD [])

/-- The component of that name, which must be there. -/
def component (title : String) : Exporter JsonValue := fun walk =>
  match walk.components.get title with
  | some object => .ok (object, walk)
  | none => .error ("component `" ++ title ++ "` was referenced before being defined")

/-- The properties and the required names of an object schema. -/
def partOf (object : JsonValue) : List (String × JsonValue) × List String :=
  (((object.get "properties").bind JsonValue.asObject).getD [],
    (((object.get "required").bind JsonValue.asArray).getD []).filterMap JsonValue.asStr)

/-- The part of an exported schema, looked up where that is a reference. -/
def readPart (exported : JsonValue) : Exporter (List (String × JsonValue) × List String) :=
  match (exported.get "$ref").bind JsonValue.asStr with
  | some reference => do
      let object ← component (lastSegment reference)
      return partOf object
  | none => return partOf exported

/-- The properties and the required names of a text-part schema. -/
def partObject (schema : SchemaDef) : Exporter (List (String × JsonValue) × List String) := do
  let exported ← exportSchema schema
  readPart exported

/-- Moves a property's description up to the parameter that carries it. -/
def splitDescription (schema : JsonValue) : JsonValue × Option String :=
  match schema with
  | .obj entries => (.obj (entries.filter fun e => e.1 ≠ "description"),
      (schema.get "description").bind JsonValue.asStr)
  | other => (other, none)

def enforcedMarker (schema : JsonValue) : JsonValue :=
  if schema.get "x-nitr-enforced" = some (.str "custom") then .str "custom" else .bool true

def pathParameter (declared : Option (List (String × JsonValue) × List String))
    (param : PathParam) : JsonValue :=
  let name := String.ofList param.name
  let prop := declared.bind fun part => (JsonValue.obj part.1).get name
  let split := (prop.map splitDescription).getD (object [("type", .str "string")], none)
  let p : Keywords := OrdMap.empty.insert "name" (.str name)
  let p := p.insert "in" (.str "path")
  let p := p.insert "required" (.bool true)
  let p := put "description" (split.2.map .str) p
  let p := p.insert "x-nitr-enforced" (.bool declared.isSome)
  let p := putIf "x-nitr-catch-all" param.catchAll (.bool true) p
  .ofMap (p.insert "schema" split.1)

def textParameter (location : String) (required : List String) (prop : String × JsonValue) :
    JsonValue :=
  let split := splitDescription prop.2
  let p : Keywords := OrdMap.empty.insert "name" (.str prop.1)
  let p := p.insert "in" (.str location)
  let p := p.insert "required" (.bool (required.contains prop.1))
  let p := put "description" (split.2.map .str) p
  let p := p.insert "x-nitr-enforced" (enforcedMarker split.1)
  .ofMap (p.insert "schema" split.1)

def textParameters (location : String) : Option SchemaDef → Exporter (List JsonValue)
  | none => pure []
  | some schema => do
      let part ← partObject schema
      return part.1.map (textParameter location part.2)

/-- The part a schema of path parameters declares. -/
def declaredParams : Option SchemaDef → Exporter (Option (List (String × JsonValue) × List String))
  | none => pure none
  | some schema => do
      let part ← partObject schema
      return some part

/-! ## Bodies -/

/-- The media types a file property declares, or nothing for another one. -/
def fileMediaTypes (file : JsonValue) : List String :=
  match (file.get "contentMediaType").bind JsonValue.asStr with
  | some one => [one]
  | none =>
      if (file.get "format").bind JsonValue.asStr ≠ some "binary" then []
      else
        match (file.get "x-nitr-types").bind JsonValue.asArray with
        | some list => list.filterMap JsonValue.asStr
        | none => ["application/octet-stream"]

/-- The encoding of a file field, or of an array of them. -/
def fileEncoding (prop : JsonValue) : Option JsonValue :=
  let file := if (prop.get "type").bind JsonValue.asStr = some "array" then
    (prop.get "items").getD prop else prop
  match fileMediaTypes file with
  | [] => none
  | types => some (object [("contentType", .str (", ".intercalate types))])

def fileEncodings (schema : JsonValue) (components : Components) : Keywords :=
  let object := match (schema.get "$ref").bind JsonValue.asStr with
    | some reference => (components.get (lastSegment reference)).getD .null
    | none => schema
  (((object.get "properties").bind JsonValue.asObject).getD []).foldl
    (fun encoding e => put e.1 (fileEncoding e.2) encoding) .empty

def isActiveContent (name : String) : Bool :=
  name ∈ ["image/svg+xml", "text/html", "application/xhtml+xml"]

/-- The content keys of a raw body: a family stands for its known members. -/
def rawMediaTypes (file : JsonValue) : List String :=
  let out := (fileMediaTypes file).flatMap fun pattern =>
    match pattern.toList.stripSuffix "/*".toList with
    | some ['*'] => ["application/octet-stream"]
    | some family => ((Media.mediaTypes.map Media.MediaType.name).filter fun name =>
        (family ++ ['/']).isPrefixOf name.toList && !isActiveContent name)
    | none => [pattern]
  if out = [] then ["application/octet-stream"]
  else (out.mergeSort fun a b => decide (a ≤ b)).dedup

def Content.mediaType : Content → Option String
  | .json => some "application/json"
  | .form => some "application/x-www-form-urlencoded"
  | .multipart => some "multipart/form-data"
  | .raw => none

/-- The entry of one accepted media type. -/
def contentEntry (exported : JsonValue) (components : Components) (content : Content) : JsonValue :=
  let entry : Keywords := OrdMap.empty.insert "schema" exported
  let encoding := fileEncodings exported components
  .ofMap (putIf "encoding" (content = .multipart ∧ encoding.entries ≠ []) (.ofMap encoding) entry)

def contentEntries (exported : JsonValue) (components : Components) (contents : List Content) :
    Keywords :=
  contents.foldl (fun out content => match content.mediaType with
    | some mediaType => out.insert mediaType (contentEntry exported components content)
    | none => out) .empty

def readComponents : Exporter Components := fun walk => .ok (walk.components, walk)

def requestBody (rule : BodyRule) (contents : List Content) : Exporter JsonValue := do
  let content ← (match rule with
    | .schema schema => do
        let exported ← exportSchema schema
        let components ← readComponents
        return contentEntries exported components contents
    | .file rule => do
        let exported ← exportSchema (wrapper "file" rule)
        let file := ((exported.get "properties").bind (·.get "file")).getD
          (object [("type", .str "string"), ("format", .str "binary")])
        return (rawMediaTypes file).foldl
          (fun out mediaType => out.insert mediaType (object [("schema", file)])) .empty)
  return object [("required", .bool true), ("x-nitr-enforced", .bool true),
    ("content", .ofMap content)]

/-- The body of an operation, where it declares one. -/
def declaredBody : Option (BodyRule × List Content) → Exporter (Option JsonValue)
  | none => pure none
  | some (rule, contents) => do
      let body ← requestBody rule contents
      return some body

/-! ## Responses -/

/-- A documented schema, with the wrapper of a rule taken off. -/
def DocSchema.jsonSchema : DocSchema → Exporter JsonValue
  | .fields schema => exportSchema schema
  | .rule declared => do
      let exported ← exportSchema (wrapper "value" declared)
      match (exported.get "properties").bind (·.get "value") with
      | some value => return value
      | none => fun _ => .error "the rule wrapper lost its `value` property"

def response (doc : ResponseDoc) : Exporter JsonValue := do
  let r : Keywords := OrdMap.empty.insert "description" (.str doc.description)
  let r := r.insert "x-nitr-enforced" (.bool false)
  match doc.schema with
  | none => return .ofMap r
  | some schema => do
      let exported ← schema.jsonSchema
      let content := doc.content.foldl
        (fun out mediaType => out.insert mediaType (object [("schema", exported)])) OrdMap.empty
      return .ofMap (r.insert "content" (.ofMap content))

def docResponses : List (ℕ × ResponseDoc) → Keywords → Exporter Keywords
  | [], responses => pure responses
  | (code, doc) :: rest, responses => do
      let r ← response doc
      docResponses rest (responses.insert (toString code) r)

/-- `entry(key).or_insert(value)`. -/
def orInsert (key : String) (value : JsonValue) (out : Keywords) : Keywords :=
  if (out.get key).isSome then out else out.insert key value

def responseReference (name : String) : JsonValue :=
  object [("$ref", .str ("#/components/responses/" ++ name))]

/-- The responses validation adds, and a success where none is documented. -/
def automaticResponses (input : Option InputSchemas) (responses : Keywords) : Keywords :=
  let responses := if input.isSome then
    orInsert "422" (responseReference "ValidationError") responses else responses
  let responses := if (input.bind InputSchemas.body).isSome then
    orInsert "415" (responseReference "UnsupportedMediaType") responses else responses
  if responses.entries.any fun e => e.1.toList.head? = some '2' then responses
  else responses.insert "200" (object [("description", .str "OK")])

/-! ## Operations -/

def operationHead (route : RouteMeta) : Keywords :=
  let op : Keywords := OrdMap.empty.insert "operationId" (.str route.operationId)
  match route.doc with
  | none => op
  | some doc =>
      let op := put "summary" (doc.summary.map .str) op
      let op := put "description" (doc.description.map .str) op
      let op := putIf "tags" (doc.tags ≠ []) (strings doc.tags) op
      let op := putIf "deprecated" doc.deprecated (.bool true) op
      put "security" (doc.security.map fun names =>
        .arr (names.map fun n => object [(n, .arr [])])) op

/-- One operation: its parameters, then its body, then its responses. -/
def operation (route : RouteMeta) (pathParams : List PathParam) : Exporter JsonValue := do
  let declared ← declaredParams (route.input.bind InputSchemas.params)
  let query ← textParameters "query" (route.input.bind InputSchemas.query)
  let headers ← textParameters "header" (route.input.bind InputSchemas.headers)
  let parameters := pathParams.map (pathParameter declared) ++ query ++ headers
  let op := putIf "parameters" (parameters ≠ []) (.arr parameters) (operationHead route)
  let body ← declaredBody (route.input.bind InputSchemas.body)
  let op := put "requestBody" body op
  let responses ← docResponses ((route.doc.map RouteDoc.responses).getD []) .empty
  return .ofMap (op.insert "responses" (.ofMap (automaticResponses route.input responses)))

/-- Whether the document has the route. -/
def RouteMeta.shown (cfg : OpenApiConfig) (route : RouteMeta) : Bool :=
  match route.doc with
  | none => cfg.includeUndocumented
  | some doc => !doc.hidden

def template (route : RouteMeta) : Exporter (Text × List PathParam) := fun walk =>
  match toOpenapiPath route.path with
  | .ok result => .ok (result, walk)
  | .error msg => .error (.ofList msg)

/-- The loop over the routes: the paths and the number of operations. -/
def pathItems (cfg : OpenApiConfig) :
    List RouteMeta → Keywords × ℕ → Exporter (Keywords × ℕ)
  | [], done => pure done
  | route :: rest, done =>
      if route.shown cfg then do
        let (path, params) ← template route
        let op ← operation route params
        let item := (done.1.get (.ofList path)).getD (.ofMap .empty)
        let item := item.set (.ofList (Method.lower route.method)) op
        pathItems cfg rest (done.1.insert (.ofList path) item, done.2 + 1)
      else pathItems cfg rest done

/-! ## Fixed parts -/

def info (api : Option ApiDoc) : JsonValue :=
  match api with
  | some api =>
      let out : Keywords := OrdMap.empty.insert "title" (.str api.title)
      let out := out.insert "version" (.str api.version)
      let out := put "description" (api.description.map .str) out
      let out := put "termsOfService" (api.termsOfService.map .str) out
      let out := put "contact" api.contact out
      .ofMap (put "license" api.license out)
  | none => object [("title", .str "API"), ("version", .str "0.0.0")]

def tag (t : TagDoc) : JsonValue :=
  .ofMap (put "description" (t.description.map .str) (OrdMap.empty.insert "name" (.str t.name)))

/-- `RULE_CODES`. -/
def ruleCodes : List String :=
  ["type", "required", "min_len", "max_len", "len", "min", "max", "exclusive_min", "exclusive_max",
    "multiple_of", "decimals", "format", "one_of", "not_one_of", "equals", "starts_with",
    "ends_with", "contains", "does_not_contain", "after", "before", "min_items", "max_items",
    "unique", "contains_any", "contains_all", "min_keys", "max_keys", "max_bytes", "min_bytes",
    "max_total_bytes", "types", "extensions", "match_extension", "executable", "filename",
    "min_width", "max_width", "min_height", "max_height", "max_pixels", "aspect", "dimensions",
    "utf8", "at_least_one", "mutually_exclusive", "dependent_required", "equal_fields", "ordered",
    "unknown", "keys", "check", "json", "multipart", "body"]

def typed (kind : String) : JsonValue := object [("type", .str kind)]

def constString (value : String) : JsonValue :=
  object [("type", .str "string"), ("const", .str value)]

def enumString (values : List String) : JsonValue :=
  object [("type", .str "string"), ("enum", strings values)]

def errorItemSchema : JsonValue :=
  object [("type", .str "object"),
    ("required", strings ["path", "part", "field", "rule", "message"]),
    ("properties", object [("path", typed "string"),
      ("part", enumString ["body", "query", "params", "headers"]),
      ("field", typed "string"), ("rule", enumString ruleCodes), ("message", typed "string"),
      ("params", typed "object"), ("label", typed "string")])]

/-- The shared component describing a 422. -/
def validationErrorSchema : JsonValue :=
  object [("type", .str "object"), ("required", strings ["code", "message", "fields", "errors"]),
    ("description", .str ("The request failed its route's `input` declaration. Text inputs " ++
      "(query strings, forms, path parameters, headers) are coerced before checking: a blank " ++
      "optional field is absent, `on`/`true`/`1` are booleans, a `name[]` key collects into " ++
      "`name`, and a repeated scalar key keeps its last value.")),
    ("properties", object [("code", constString "VALIDATION_FAILED"), ("message", typed "string"),
      ("fields", object [("type", .str "object"),
        ("description", .str ("Each failing path (`body.email`, `query.limit[2]`) to its " ++
          "message; a bare part name for a schema-level failure.")),
        ("additionalProperties", typed "string")]),
      ("errors", object [("type", .str "array"), ("items", errorItemSchema)])])]

def unsupportedMediaTypeSchema : JsonValue :=
  object [("type", .str "object"), ("required", strings ["code", "message", "accepted"]),
    ("properties", object [("code", constString "UNSUPPORTED_MEDIA_TYPE"),
      ("message", typed "string"),
      ("accepted", object [("type", .str "array"), ("items", typed "string")])])]

def responseComponent (description : String) (name : String) : JsonValue :=
  object [("description", .str description),
    ("content", object [("application/json", object [("schema", reference name)])])]

def formatEntry (f : CustomFormat) : JsonValue :=
  let entry : Keywords := OrdMap.empty.insert "description" (.str f.description)
  let entry := put "pattern" (f.pattern.map .str) entry
  .ofMap (put "example" (f.sample.map .str) entry)

/-! ## The document -/

/-- The component schemas as served: the fixed ones are put in last. -/
def schemas (components : Components) : Components :=
  (components.insert "ValidationError" validationErrorSchema).insert "UnsupportedMediaType"
    unsupportedMediaTypeSchema

def componentsObject (api : Option ApiDoc) (components : Components) : JsonValue :=
  let comps : Keywords := OrdMap.empty.insert "schemas" (.ofMap (schemas components))
  let comps := comps.insert "responses" (object
    [("ValidationError", responseComponent "The request failed validation" "ValidationError"),
      ("UnsupportedMediaType", responseComponent
        "The request body carries a media type the route does not accept" "UnsupportedMediaType")])
  let security := (api.map ApiDoc.security).getD []
  .ofMap (putIf "securitySchemes" (security ≠ []) (object security) comps)

def document (app : AppMeta) (cfg : OpenApiConfig) (formats : List CustomFormat)
    (paths : Keywords × ℕ) (components : Components) : JsonValue :=
  let doc : Keywords := OrdMap.empty.insert "openapi" (.str "3.1.0")
  let doc := doc.insert "info" (info app.api)
  let doc := putIf "servers" (cfg.servers ≠ [])
    (.arr (cfg.servers.map fun u => object [("url", .str u)])) doc
  let tags := (app.api.map ApiDoc.tags).getD []
  let doc := putIf "tags" (tags ≠ []) (.arr (tags.map tag)) doc
  let doc := put "externalDocs" (app.api.bind ApiDoc.externalDocs) doc
  let doc := doc.insert "paths" (.ofMap paths.1)
  let doc := doc.insert "components" (componentsObject app.api components)
  let doc := putIf "x-nitr-formats" (formats ≠ [])
    (object (formats.map fun f => (f.name, formatEntry f))) doc
  .ofMap (doc.insert "x-nitr-operations" (.int paths.2))

/-- `build`, with the walk it made. -/
def build (app : AppMeta) (cfg : OpenApiConfig) (formats : List CustomFormat) :
    Except String (JsonValue × Walk) := do
  let (paths, walk) ← pathItems cfg app.routes (.empty, 0) ⟨.empty, []⟩
  return (document app cfg formats paths walk.components, walk)

end Nitr.OpenApi.Spec
