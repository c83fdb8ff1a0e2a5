import Nitr.Http.Cookies
import Nitr.Json.Decode

/-! # Signed tokens

`crypto/jwt.rs`: HMAC-signed JWTs, with a mandatory allow-list of algorithms on verification.
The MACs, the JSON text and the sums of doubles are parameters. -/

namespace Nitr.Jwt

open Nitr.Json
open Nitr.Cookies (asBytes)
open Nitr.Validate (LuaString F64)
open Base64Url (encode decode)

def jwtAlgorithms : List String := ["HS256", "HS384", "HS512"]

/-- A keyed MAC for each algorithm: the tag of some data, and the comparison of a presented
tag with the computed one. -/
structure Mac where
  tag : (alg : String) → (key data : List UInt8) → List UInt8
  accepts : (alg : String) → (key data presented : List UInt8) → Bool

/-- A document as text: `serde_json::to_string` and `serde_json::from_slice`. -/
structure JsonBytes where
  write : Doc → List UInt8
  fromSlice : List UInt8 → Option Doc

/-- Sums and differences of doubles, rounded. -/
structure Doubles where
  add : F64 → F64 → F64
  sub : F64 → F64 → F64

/-- What a call raises. -/
inductive JwtError where
  | unsupported (alg : String)
  | notSerializable (err : JsonError)
  | noAllowList
  | unsupportedInAllowList (alg : String)
  | leeway (given : F64)
  | maxAge (given : F64)

/-! ## Signing -/

/-- A call of `jwt.sign`; the claims are a table. -/
structure SignCall where
  len : ℕ
  array : Bool
  entries : List (Key × Data)
  key : LuaString
  alg : Option String

def SignCall.claims (call : SignCall) : Data := .table call.len call.array call.entries

def SignCall.algorithm (call : SignCall) : String := call.alg.getD "HS256"

def headerText (alg : String) : String := "\x7b\"alg\":\"" ++ alg ++ "\",\"typ\":\"JWT\"\x7d"

def headerOf (alg : String) : List Char := encode (asBytes (headerText alg))

def payloadOf (json : JsonBytes) (doc : Doc) : List Char := encode (json.write doc)

/-- What the MAC is computed over. -/
def signingInput (header payload : List Char) : List UInt8 :=
  asBytes (.ofList (header ++ '.' :: payload))

def keyBytes (key : LuaString) : List UInt8 := key.bytes.data.toList

section Sign

variable (mac : Mac) (json : JsonBytes) (serde : SerdeJson)

/-- The document a call signs. -/
def SignCall.document (call : SignCall) : Except JwtError Doc :=
  if call.algorithm ∈ jwtAlgorithms then
    match toJson serde.decimal call.claims with
    | .ok doc => .ok doc
    | .error err => .error (.notSerializable err)
  else .error (.unsupported call.algorithm)

def sign (call : SignCall) : Except JwtError LuaString := do
  let doc ← call.document serde
  let header := headerOf call.algorithm
  let payload := payloadOf json doc
  let sig := encode (mac.tag call.algorithm (keyBytes call.key) (signingInput header payload))
  return .ofString (.ofList (header ++ '.' :: payload ++ '.' :: sig))

end Sign

/-! ## Claims -/

/-- `Value::get` by name. -/
def get (doc : Doc) (name : String) : Option Doc :=
  match doc with
  | .object entries => (entries.find? fun e => e.1 = name).map Prod.snd
  | _ => none

def asStr : Doc → Option String
  | .string s => some s
  | _ => none

def asF64 : Doc → Option F64
  | .integer i => some (F64.ofInt i)
  | .number n => some n
  | _ => none

def isNull : Doc → Bool
  | .null => true
  | _ => false

/-- The registered claims a caller asks to compare. -/
structure ClaimPolicy where
  issuer : Option String := none
  audience : Option String := none
  subject : Option String := none
  require : List String := []
  maxAge : Option F64 := none

structure VerifyOpts extends ClaimPolicy where
  algorithms : Option (List String)
  leeway : Option F64 := none

section Check

variable (doubles : Doubles)

/-- Whether `aud` is the audience or lists it. -/
def audienceListed (claims : Doc) (audience : String) : Bool :=
  match get claims "aud" with
  | some (.string aud) => aud = audience
  | some (.array auds) => auds.any fun aud => asStr aud = some audience
  | _ => false

/-- The age of a token, counted from `iat`. -/
def checkAge (claims : Doc) (now leeway maxAge : F64) : Except String Unit :=
  match get claims "iat" with
  | none => .error "missing claim iat"
  | some iat =>
      match asF64 iat with
      | none => .error "malformed claims"
      | some iat =>
          if (doubles.add (doubles.add iat maxAge) leeway).lt now then .error "token too old"
          else .ok ()

/-- The first failed comparison, as the reason `verify` returns. -/
def ClaimPolicy.check (policy : ClaimPolicy) (claims : Doc) (now leeway : F64) :
    Except String Unit :=
  if policy.issuer.any fun issuer => (get claims "iss").bind asStr ≠ some issuer then
    .error "issuer mismatch"
  else if policy.audience.any fun audience => !audienceListed claims audience then
    .error "audience mismatch"
  else if policy.subject.any fun subject => (get claims "sub").bind asStr ≠ some subject then
    .error "subject mismatch"
  else
    match policy.require.find? fun name => (get claims name).all isNull with
    | some name => .error ("missing claim " ++ name)
    | none =>
        match policy.maxAge with
        | some maxAge => checkAge doubles claims now leeway maxAge
        | none => .ok ()

/-- A claim that is absent or a number; `none` where it is something else. -/
def numericDate (claims : Doc) (name : String) : Option (Option F64) :=
  match get claims name with
  | none => some none
  | some value => (asF64 value).map some

def checkClaims (policy : ClaimPolicy) (claims : Doc) (now leeway : F64) : Except String Doc :=
  match numericDate claims "exp", numericDate claims "nbf" with
  | some exp, some nbf =>
      if exp.any fun exp => (doubles.add exp leeway).lt now then .error "token expired"
      else if nbf.any fun nbf => now.lt (doubles.sub nbf leeway) then
        .error "token not yet valid"
      else do
        policy.check doubles claims now leeway
        return claims
  | _, _ => .error "malformed claims"

end Check

/-! ## Verification -/

section Verify

variable (mac : Mac) (json : JsonBytes) (doubles : Doubles)

/-- The algorithm a token's own header names. -/
def headerAlg (header : List Char) : Option String :=
  ((decode header).bind json.fromSlice).map fun doc => ((get doc "alg").bind asStr).getD ""

/-- The parts of a token against an allow-list. -/
def verifyParts (allowed : List String) (policy : ClaimPolicy) (now leeway : F64)
    (key : LuaString) (header payload sig : List Char) : Except JwtError (Except String Doc) :=
  match headerAlg json header with
  | none => .ok (.error "malformed header")
  | some alg =>
      if alg ∉ allowed then .ok (.error "algorithm not allowed")
      else if alg ∉ jwtAlgorithms then .error (.unsupported alg)
      else if (decode sig).any (mac.accepts alg (keyBytes key) (signingInput header payload)) then
        match (decode payload).bind json.fromSlice with
        | none => .ok (.error "malformed claims")
        | some claims => .ok (checkClaims doubles policy claims now leeway)
      else .ok (.error "invalid signature")

def badDuration (given : F64) : Bool := !given.isFinite || given.lt (.finite 0)

/-- What the options settle before the token is looked at: the allow-list and the leeway. -/
def VerifyOpts.read (opts : VerifyOpts) : Except JwtError (List String × F64) :=
  match opts.algorithms with
  | none => .error .noAllowList
  | some allowed =>
      match allowed.find? fun alg => alg ∉ jwtAlgorithms with
      | some alg => .error (.unsupportedInAllowList alg)
      | none =>
          let leeway := opts.leeway.getD (.finite 0)
          if badDuration leeway then .error (.leeway leeway)
          else
            match opts.maxAge.filter badDuration with
            | some maxAge => .error (.maxAge maxAge)
            | none => .ok (allowed, leeway)

/-- The claims, or why the token is rejected. -/
def verify (now : F64) (token key : LuaString) (opts : VerifyOpts) :
    Except JwtError (Except String Doc) :=
  match opts.read with
  | .error err => .error err
  | .ok (allowed, leeway) =>
      match token.toStringLossy.toList.splitOn '.' with
      | [header, payload, sig] =>
          verifyParts mac json doubles allowed opts.toClaimPolicy now leeway key header payload sig
      | _ => .ok (.error "malformed token")

end Verify

end Nitr.Jwt
