import Mathlib.Algebra.Ring.Nat
import Nitr.Http.Cors
import Mathlib.Data.List.Infix

/-! # Serving one request

`Protection::check` of `protect.rs`, `rejection` of `handler/respond.rs` and the two
stages of `handle` in `handler/mod.rs`. Routing, the documents and the Lua handler
are the parameter `rest`. -/

namespace Nitr.Http

/-! ## Rejections -/

def wantsJson (headers : Headers) : Bool :=
  match (headers.get "accept").bind toStr with
  | some accept => decide ("application/json".toList <:+: accept)
  | none => false

/-- The reason phrase of the statuses the checks answer with. -/
def canonicalReason : ℕ → Text
  | 400 => "Bad Request".toList
  | 404 => "Not Found".toList
  | 405 => "Method Not Allowed".toList
  | 413 => "Payload Too Large".toList
  | 414 => "URI Too Long".toList
  | 429 => "Too Many Requests".toList
  | 503 => "Service Unavailable".toList
  | _ => "Error".toList

/-- The JSON text of a rejection. -/
def rejectionJson (code : String) (message : Text) (retryAfter : Option ℕ) : Text :=
  "\x7b\"code\":\"".toList ++ code.toList ++ "\",\"message\":\"".toList ++ message ++ "\"".toList ++
    (match retryAfter with
      | some secs => ",\"retry_after\":".toList ++ (Nat.repr secs).toList
      | none => []) ++ "\x7d".toList

/-- A built-in rejection. -/
def rejection (status : ℕ) (code : String) (retryAfter : Option ℕ) (json : Bool) : Response :=
  let message := canonicalReason status
  let contentType := if json then "application/json" else "text/plain; charset=utf-8"
  let headers : Headers := MultiMap.empty.append "content-type" contentType.toList
  { status
    headers := insertSome headers "retry-after"
      (retryAfter.bind fun secs => fromStr (Nat.repr secs).toList)
    body := some (if json then rejectionJson code message retryAfter else message) }

def rateLimited (retryAfter : ℕ) (json : Bool) : Response :=
  rejection 429 "RATE_LIMITED" (some retryAfter) json

/-! ## The checks before Lua -/

/-- `str::parse::<u64>`. -/
def parseU64 (text : Text) : Option ℕ :=
  let digits := (text.stripPrefix ['+']).getD text
  if digits ≠ [] ∧ digits.all Char.isDigit then
    let value := digits.foldl (fun n c => 10 * n + (c.toNat - '0'.toNat)) 0
    if value < 2 ^ 64 then some value else none
  else none

/-- What the compression layer is configured with and decides: whether it negotiates,
the coding for an `Accept-Encoding` value, and whether it compresses a response. -/
structure Compression where
  negotiates : Bool
  negotiate : Option Text → Option Encoding
  shouldCompress : Response → Bool

/-- The protection of a server. `rate` is the answer of the rate limiter: the seconds to
wait when it refuses. -/
structure Protection where
  maxBodyBytes : ℕ
  maxUriBytes : ℕ
  rate : Request → Option ℕ
  cors : Option Cors
  compression : Compression
  responseHeaders : List (String × Text)

def uriLen (req : Request) : ℕ := req.path.length + (req.query.map fun q => q.length + 1).getD 0

/-- The declared length of a body. -/
def declaredLength (req : Request) : Option ℕ :=
  ((req.headers.get "content-length").bind toStr).bind parseU64

namespace Protection

/-- Runs the checks before Lua; a response is the rejection. -/
def check (protection : Protection) (req : Request) : Option Response :=
  let json := wantsJson req.headers
  match protection.rate req with
  | some retryAfter => some (rateLimited retryAfter json)
  | none =>
      if uriLen req > protection.maxUriBytes then some (rejection 414 "URI_TOO_LONG" none json)
      else if 2 ≤ (req.headers.getAll "authorization").length then
        some (rejection 400 "BAD_REQUEST" none json)
      else if (declaredLength req).any (decide <| · > protection.maxBodyBytes) then
        some (rejection 413 "PAYLOAD_TOO_LARGE" none json)
      else none

/-- Adds the `[headers]` entries the response does not carry. -/
def applyHeaders (protection : Protection) (headers : Headers) : Headers :=
  protection.responseHeaders.foldl (fun headers e => headers.orInsert e.1 e.2) headers

end Protection

/-! ## The response phase -/

/-- `Compression::apply`. -/
def Compression.apply (compression : Compression) (resp : Response)
    (encoding : Option Encoding) : Response :=
  match encoding with
  | none => resp
  | some encoding =>
      if compression.shouldCompress resp then
        let headers := resp.headers.remove "content-length"
        let headers := headers.remove "accept-ranges"
        let headers := headers.insert "content-encoding" encoding.token
        let headers := appendVary headers "accept-encoding".toList
        let headers := insertSome headers "etag"
          (((headers.get "etag").bind toStr).bind fun etag =>
            fromStr (weakenEtag etag encoding.token))
        { resp with headers, body := none }
      else resp

/-- Drops the body of a `HEAD` response and keeps its length. -/
def stripBody (resp : Response) : Response :=
  let headers :=
    match resp.headers.getAll "content-length", resp.body with
    | [], some body => resp.headers.insert "content-length" (Nat.repr body.length).toList
    | _, _ => resp.headers
  { resp with headers, body := some [] }

section

variable {ε : Type*}

/-- How serving ends: with a result, or with a panic. -/
inductive Served (ε : Type*) where
  | returned (result : Except ε Response)
  | panicked

/-- The stages before the response phase. -/
def handleInner (protection : Protection) (rest : Request → Served ε) (req : Request) :
    Served ε :=
  match protection.check req with
  | some rejected => .returned (.ok rejected)
  | none =>
      match protection.cors.bind (·.preflight req) with
      | some resp => .returned (.ok resp)
      | none => rest req

/-- The page a panic is answered with. -/
def errorResponse (text : Text) : Response :=
  ⟨500, MultiMap.empty.append "content-type" "text/plain; charset=utf-8".toList, some text⟩

/-- The steps from the served response to the one that is sent. -/
def respond (protection : Protection) (id : Text) (req : Request) (resp : Response) : Response :=
  let headers := insertSome resp.headers "x-request-id" (fromStr id)
  let headers :=
    match protection.cors with
    | some cors => cors.apply (req.headers.get "origin") headers
    | none => headers
  let resp := { resp with headers := protection.applyHeaders headers }
  let compression := protection.compression
  let resp :=
    if compression.negotiates then
      compression.apply resp (compression.negotiate (req.headers.get "accept-encoding"))
    else resp
  if req.method = .head then stripBody resp else resp

/-- Serves one request. `panicText` is the text of the page a panic gives. -/
def handle (protection : Protection) (rest : Request → Served ε) (panicText id : Text)
    (req : Request) : Except ε Response :=
  match handleInner protection rest req with
  | .returned (.ok resp) => .ok (respond protection id req resp)
  | .returned (.error e) => .error e
  | .panicked => .ok (respond protection id req (errorResponse panicText))

end

end Nitr.Http
