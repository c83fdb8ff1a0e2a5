import Mathlib.Algebra.Ring.Nat
import Mathlib.Data.List.Flatten
import Mathlib.Data.List.Sublists

/-! # Reading a request body

`LimitedBody` of `request/body.rs` and the reading methods of `request/mod.rs`: `req:read()`,
`req:read(n)` and the reads of the whole body. Sizes are natural numbers. -/

namespace Nitr.Reading

abbrev Bytes := List UInt8

/-- What a poll of the socket's body gives: data, trailers, or an error. The stall timer
gives `stalled`; the client may go on sending after it. -/
inductive Frame where
  | data (bytes : Bytes)
  | trailers
  | stalled
  | broken
deriving DecidableEq

inductive BodyError where
  | tooLarge (limit : ℕ)
  | stalled
  | broken
deriving DecidableEq

/-- The bytes counted so far and the flags the handler reads. -/
structure Guards where
  read : ℕ
  oversized : Bool
  stalled : Bool

/-- `poll_frame` through both wrappers: the data of a frame, if it has any. -/
def pollFrame (limit : ℕ) (guards : Guards) : Frame → Except BodyError (Option Bytes) × Guards
  | .data bytes =>
      let guards := { guards with read := guards.read + bytes.length }
      if limit < guards.read then (.error (.tooLarge limit), { guards with oversized := true })
      else (.ok (some bytes), guards)
  | .trailers => (.ok none, guards)
  | .stalled => (.error .stalled, { guards with stalled := true })
  | .broken => (.error .broken, guards)

/-- How a loop over frames ends: with the frames it kept, or with an error that loses them. -/
structure Pulled where
  result : Except BodyError (List Bytes)
  rest : List Frame
  guards : Guards

/-- The frame loop the reads share: data is kept until there is enough of it or the body
ends. -/
def pull (limit : ℕ) (enough : List Bytes → Bool) (frames : List Frame) (guards : Guards)
    (buf : List Bytes) : Pulled :=
  if enough buf then ⟨.ok buf, frames, guards⟩
  else
    match frames with
    | [] => ⟨.ok buf, [], guards⟩
    | frame :: rest =>
        match pollFrame limit guards frame with
        | (.ok (some bytes), guards) => pull limit enough rest guards (buf ++ [bytes])
        | (.ok none, guards) => pull limit enough rest guards buf
        | (.error e, guards) => ⟨.error e, rest, guards⟩

/-- The request as far as its body goes. -/
structure LuaRequest where
  frames : List Frame
  guards : Guards
  cachedBody : Option Bytes

/-- A request as it reaches the handler. -/
def LuaRequest.new (frames : List Frame) : LuaRequest := ⟨frames, ⟨0, false, false⟩, none⟩

/-- What a read gives to Lua. -/
inductive Answer where
  | data (bytes : Bytes)
  | done
  | failed
deriving DecidableEq

/-- The size asked for, clamped to one more than the limit. -/
def clampWant (want limit : ℕ) : ℕ := min want (min (limit + 1) (2 ^ 64 - 1))

/-- A read a handler issues. A read of the whole body is `req:text()`, `req:form()` or
`req:json()`, with the bytes it can make a value of. -/
inductive Op where
  | read
  | readSized (n : ℕ)
  | whole (accepts : Bytes → Bool)

namespace LuaRequest

variable (limit : ℕ) (req : LuaRequest)

/-- `req:read()`: the next frame with data. -/
def read : Answer × LuaRequest :=
  let pulled := pull limit (fun buf => !buf.isEmpty) req.frames req.guards []
  let req := { req with frames := pulled.rest, guards := pulled.guards }
  match pulled.result with
  | .ok [] => (.done, req)
  | .ok (bytes :: _) => (.data bytes, req)
  | .error _ => (.failed, req)

/-- `req:read(n)`: at least `n` bytes, or fewer at the end of the body. -/
def readSized (n : ℕ) : Answer × LuaRequest :=
  let want := clampWant (min n (2 ^ 64 - 1)) limit
  let pulled := pull limit (fun buf => decide (want ≤ buf.flatten.length)) req.frames req.guards []
  let req := { req with frames := pulled.rest, guards := pulled.guards }
  match pulled.result with
  | .ok buf => (if buf.flatten.isEmpty then .done else .data buf.flatten, req)
  | .error _ => (.failed, req)

/-- `whole_body`: read once and kept. -/
def wholeBody : Option Bytes × LuaRequest :=
  match req.cachedBody with
  | some cached => (some cached, req)
  | none =>
      let pulled := pull limit (fun _ => false) req.frames req.guards []
      let req := { req with frames := pulled.rest, guards := pulled.guards }
      match pulled.result with
      | .ok buf => (some buf.flatten, { req with cachedBody := some buf.flatten })
      | .error _ => (none, req)

/-- A read of the whole body into a value. -/
def whole (accepts : Bytes → Bool) : Answer × LuaRequest :=
  match req.wholeBody limit with
  | (some bytes, req) => (if accepts bytes then .data bytes else .failed, req)
  | (none, req) => (.failed, req)

def step : Op → Answer × LuaRequest
  | .read => req.read limit
  | .readSized n => req.readSized limit n
  | .whole accepts => req.whole limit accepts

/-- The answers of a sequence of reads. -/
def run (limit : ℕ) : LuaRequest → List Op → List Answer × LuaRequest
  | req, [] => ([], req)
  | req, op :: ops =>
      let (answer, req) := req.step limit op
      let (answers, req) := run limit req ops
      (answer :: answers, req)

end LuaRequest

end Nitr.Reading
