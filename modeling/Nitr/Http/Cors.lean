import Nitr.Http.Fresh
import Nitr.Lib.MultiMap

/-! # Cross-origin resource sharing

`cors.rs`: the compiled `[cors]` policy, the answer to a preflight and the headers of an
ordinary response. Header names are in lower case, as the header map keeps them. -/

namespace Nitr.Http

/-- The header map of a request or a response. -/
abbrev Headers := MultiMap String Text

/-- The method of a request. -/
inductive Method where
  | get
  | head
  | options
  | other (name : Text)
deriving DecidableEq

/-- What the response phase and the checks read of a request. -/
structure Request where
  method : Method
  path : Text
  query : Option Text
  headers : Headers

/-- A response; a body without a known length is `none`. -/
structure Response where
  status : ℕ
  headers : Headers
  body : Option Text

/-- A response with no body at all. -/
def emptyResponse (status : ℕ) : Response := ⟨status, .empty, some []⟩

/-- The `[cors]` section. -/
structure CorsConfig where
  origins : Option (List Text)
  methods : Option (List Text)
  headers : Option (List Text)
  exposeHeaders : Option (List Text)
  credentials : Bool
  maxAge : Option ℕ

/-- The compiled policy; no list of origins means any origin. -/
structure Cors where
  origins : Option (List Text)
  methods : Text
  allowedHeaders : List Text
  allowedHeadersValue : Option Text
  exposeHeaders : Option Text
  credentials : Bool
  maxAge : Option Text
deriving DecidableEq

/-- Methods allowed when the configuration does not say. -/
def defaultMethods : List Text :=
  ["GET", "HEAD", "POST", "PUT", "PATCH", "DELETE", "OPTIONS"].map String.toList

/-- Request headers a preflight approves without them being listed. -/
def alwaysAllowedHeaders : List Text :=
  ["accept", "accept-language", "content-language"].map String.toList

def toAsciiLowercase (text : Text) : Text := text.map Char.toLower

def joinHeader (values : List Text) : Text :=
  (fromStr (List.intercalate [',', ' '] values)).getD []

namespace Cors

/-- Compiles the configuration. -/
def new (cfg : CorsConfig) : Option Cors :=
  cfg.origins.map fun origins =>
    let any := origins.any (· = ['*'])
    let allowedHeaders := (cfg.headers.getD []).map toAsciiLowercase
    { origins := if any then none else some origins
      methods := joinHeader (cfg.methods.getD defaultMethods)
      allowedHeaders
      allowedHeadersValue := if allowedHeaders = [] then none else some (joinHeader allowedHeaders)
      exposeHeaders := cfg.exposeHeaders.map joinHeader
      credentials := cfg.credentials
      maxAge := cfg.maxAge.bind fun age => fromStr (Nat.repr age).toList }

/-- The `Access-Control-Allow-Origin` value for an origin that is allowed. -/
def allowOrigin (cors : Cors) (origin : Text) : Option Text :=
  match cors.origins with
  | none => some ['*']
  | some allowed =>
      match toStr origin with
      | none => none
      | some text => if allowed.any (· = text) then some origin else none

end Cors

/-- `str::split` at a comma and a blank. -/
def splitCommaBlank : Text → List Text
  | ',' :: ' ' :: rest => [] :: splitCommaBlank rest
  | c :: rest => (splitCommaBlank rest).modifyHead (c :: ·)
  | [] => [[]]

def eqIgnoreAsciiCase (a b : Text) : Bool := toAsciiLowercase a = toAsciiLowercase b

/-- Inserts a header when there is a value for it. -/
def insertSome (headers : Headers) (name : String) (value : Option Text) : Headers :=
  match value with
  | some value => headers.insert name value
  | none => headers

/-- Adds one field name to `Vary` without dropping what is there. -/
def appendVary (headers : Headers) (name : Text) : Headers :=
  let already := ((headers.getAll "vary").filterMap toStr).any fun value =>
    (value.splitOn ',').any fun field => eqIgnoreAsciiCase (trim field) name
  if already then headers else headers.append "vary" name

def varyPreflight (headers : Headers) : Headers :=
  (["origin", "access-control-request-method", "access-control-request-headers"].map
    String.toList).foldl appendVary headers

namespace Cors

def methodAllowed (cors : Cors) (requested : Text) : Bool :=
  match toStr requested with
  | none => false
  | some requested =>
      (toStr cors.methods).any fun allowed =>
        (splitCommaBlank allowed).any (eqIgnoreAsciiCase · (trim requested))

/-- Whether a header name, in lower case, may be sent. -/
def headerListed (cors : Cors) (name : Text) : Bool :=
  alwaysAllowedHeaders.contains name || cors.allowedHeaders.contains name

/-- Only the first line of the requested headers is read. -/
def headersAllowed (cors : Cors) (headers : Headers) : Bool :=
  match headers.get "access-control-request-headers" with
  | none => true
  | some requested =>
      match toStr requested with
      | none => false
      | some requested =>
          (requested.splitOn ',').all fun name => cors.headerListed (toAsciiLowercase (trim name))

/-- The value of `Access-Control-Allow-Credentials`. -/
def credentialsValue (cors : Cors) : Option Text :=
  if cors.credentials then some "true".toList else none

/-- The headers an approved preflight gets. -/
def approve (cors : Cors) (allow : Text) (headers : Headers) : Headers :=
  let headers := headers.insert "access-control-allow-origin" allow
  let headers := headers.insert "access-control-allow-methods" cors.methods
  let headers := insertSome headers "access-control-allow-headers" cors.allowedHeadersValue
  let headers := insertSome headers "access-control-allow-credentials" cors.credentialsValue
  insertSome headers "access-control-max-age" cors.maxAge

/-- Answers a preflight; any other request is not answered here. -/
def preflight (cors : Cors) (req : Request) : Option Response :=
  if req.method ≠ .options then none
  else
    match req.headers.get "origin", req.headers.get "access-control-request-method" with
    | some origin, some requested =>
        let resp := emptyResponse 204
        let headers := varyPreflight resp.headers
        let headers :=
          match cors.allowOrigin origin with
          | some allow =>
              if cors.methodAllowed requested && cors.headersAllowed req.headers then
                cors.approve allow headers
              else headers
          | none => headers
        some { resp with headers }
    | _, _ => none

/-- Appends the headers of an ordinary cross-origin response. -/
def apply (cors : Cors) (origin : Option Text) (headers : Headers) : Headers :=
  match origin with
  | none => headers
  | some origin =>
      let headers := appendVary headers "origin".toList
      match cors.allowOrigin origin with
      | none => headers
      | some allow =>
          let headers := headers.insert "access-control-allow-origin" allow
          let headers := insertSome headers "access-control-allow-credentials" cors.credentialsValue
          insertSome headers "access-control-expose-headers" cors.exposeHeaders

end Cors

end Nitr.Http
