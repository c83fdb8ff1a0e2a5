import Nitr.Fetch.Policy

/-! # The client of `fetch`

`execute` and `send_with_retries` of `fetch/client.rs`. What the network does at each hop is
given by a `Turn`; the exchanges a call makes are its trace. Delays and timeouts are left out,
a time-out is an error of the exchange. -/

namespace Nitr.Fetch

open Nitr.Http (Text Headers Method toStr toAsciiLowercase)

def maxRedirects : ℕ := 5

/-- Per-call retry intent. -/
structure Retry where
  attempts : ℕ
  idempotent : Bool

/-- Everything needed to issue one outbound request. -/
structure RequestSpec where
  method : Method
  url : Url
  headers : Headers
  body : Option (List UInt8)
  retry : Option Retry

/-- Whether repeating the request is safe. -/
def RequestSpec.isIdempotent (spec : RequestSpec) : Bool :=
  spec.retry.any Retry.idempotent ||
    decide (spec.method = .get ∨ spec.method = .head ∨ spec.method = .other "PUT".toList ∨
      spec.method = .other "DELETE".toList ∨ spec.method = .options)

/-- The head of an upstream's response. -/
structure Reply where
  status : ℕ
  headers : Headers

/-- What the network does at one hop: the answers to the lookup of `check_url` and to the one of
the client's resolver, the positions in the resolver's list the client connects to, and what
comes back. -/
structure Turn where
  checked : Lookup
  resolved : Lookup
  tried : List ℕ
  reply : Except SendError Reply

/-- The variables of the loop of `execute`. -/
structure Hop where
  method : Method
  url : Url
  headers : Headers
  body : Option (List UInt8)

/-- One network exchange: what is sent, the addresses connected to and what came back. -/
structure Exchange extends Hop where
  addrs : List IpAddr
  reply : Except SendError Reply

/-! ## One attempt -/

/-- The addresses the client connects to: literal ones as they are, a name's as its resolver
returns them. -/
def connect (opts : FetchOptions) (host : Host) (turn : Turn) : Except SendError (List IpAddr) :=
  match host with
  | .ipv4 addr => .ok [.v4 addr]
  | .ipv6 addr => .ok [.v6 addr]
  | .domain name =>
      (resolve opts name turn.resolved).map fun allowed => turn.tried.filterMap (allowed[·]?)

/-- `RequestBuilder::send`: the exchange, if one is made, and its outcome. -/
def send (opts : FetchOptions) (turn : Turn) (hop : Hop) :
    Option Exchange × Except SendError Reply :=
  match hop.url.host with
  | none => (none, .error .builder)
  | some host =>
      match connect opts host turn with
      | .error err => (none, .error err)
      | .ok addrs =>
          let reply := if addrs = [] then .error .network else turn.reply
          (some { toHop := hop, addrs, reply }, reply)

/-- Whether two URLs share scheme, host and port. -/
def sameOrigin (a b : Url) : Bool :=
  a.scheme = b.scheme
    && a.hostStr.map toAsciiLowercase = b.hostStr.map toAsciiLowercase
    && a.portOrKnownDefault = b.portOrKnownDefault

/-- The headers that carry credentials. -/
def sensitiveHeaders : List String :=
  ["authorization", "cookie", "proxy-authorization", "www-authenticate"]

def stripSensitiveHeaders (headers : Headers) : Headers :=
  sensitiveHeaders.foldl MultiMap.remove headers

/-- The headers a hop passes on to the next URL. -/
def Hop.carried (hop : Hop) (next : Url) : Headers :=
  if sameOrigin hop.url next then hop.headers else stripSensitiveHeaders hop.headers

/-- The next round of the loop. -/
def Hop.redirect (hop : Hop) (next : Url) (status : ℕ) : Hop :=
  if (status = 301 ∨ status = 302 ∨ status = 303) ∧ hop.method ≠ .get ∧ hop.method ≠ .head then
    { method := .get, url := next, headers := hop.carried next, body := none }
  else { hop with url := next, headers := hop.carried next }

/-- Where a response redirects to. -/
def Reply.target (resp : Reply) : Option Text :=
  if 300 ≤ resp.status ∧ resp.status < 400 then (resp.headers.get "location").bind toStr
  else none

/-- The loop of `execute` with `left` redirects still to follow. `join` is `Url::join`. -/
def follow (join : Url → Text → Option Url) (opts : FetchOptions) (left : ℕ) (turns : ℕ → Turn)
    (hop : Hop) : List Exchange × Except FetchError Reply :=
  match checkUrl opts hop.url (turns 0).checked with
  | .error err => ([], .error err)
  | .ok () =>
      let sent := send opts (turns 0) hop
      match sent.2 with
      | .error err => (sent.1.toList, .error (.send err))
      | .ok resp =>
          match resp.target with
          | none => (sent.1.toList, .ok resp)
          | some location =>
              match left with
              | 0 =>
                  (sent.1.toList, .error (.runtime ("fetch exceeded ".toList ++
                    (Nat.repr maxRedirects).toList ++ " redirects for `".toList ++
                    hop.url.text ++ ['`'])))
              | left + 1 =>
                  match join hop.url location with
                  | none => (sent.1.toList, .error .parse)
                  | some next =>
                      let rest := follow join opts left (fun k => turns (k + 1))
                        (hop.redirect next resp.status)
                      (sent.1.toList ++ rest.1, rest.2)

def RequestSpec.hop (spec : RequestSpec) : Hop := ⟨spec.method, spec.url, spec.headers, spec.body⟩

/-- One attempt: its exchanges and its result. -/
def execute (join : Url → Text → Option Url) (opts : FetchOptions) (turns : ℕ → Turn)
    (spec : RequestSpec) : List Exchange × Except FetchError Reply :=
  follow join opts maxRedirects turns spec.hop

/-! ## Retries -/

/-- Statuses worth trying again. -/
def isRetryable (status : ℕ) : Bool := status ∈ [408, 429, 500, 502, 503, 504]

/-- Whether another attempt could succeed. -/
def isTransient : FetchError → Bool
  | .io => true
  | .send .builder => false
  | .send (.refused _) => false
  | .send _ => true
  | .runtime _ => false
  | .parse => false

/-- Whether the result of an attempt is returned although attempts are left. -/
def settles : Except FetchError Reply → Bool
  | .ok resp => !isRetryable resp.status
  | .error err => !isTransient err

/-- The loop of `send_with_retries` with `left` attempts after this one; `turns` has the turns of
each attempt. -/
def attempt (join : Url → Text → Option Url) (opts : FetchOptions) (spec : RequestSpec) :
    ℕ → (ℕ → ℕ → Turn) → List (List Exchange) × Except FetchError Reply
  | 0, turns =>
      let tried := execute join opts (turns 0) spec
      ([tried.1], tried.2)
  | left + 1, turns =>
      let tried := execute join opts (turns 0) spec
      if settles tried.2 then ([tried.1], tried.2)
      else
        let rest := attempt join opts spec left fun k => turns (k + 1)
        (tried.1 :: rest.1, rest.2)

/-- Performs a request, repeating it when the policy allows: the exchanges of each attempt and
the result of the last. -/
def sendWithRetries (join : Url → Text → Option Url) (opts : FetchOptions)
    (turns : ℕ → ℕ → Turn) (spec : RequestSpec) :
    List (List Exchange) × Except FetchError Reply :=
  let attempts :=
    match spec.retry with
    | some retry =>
        if spec.isIdempotent then Max.max (Min.min retry.attempts opts.maxRetries) 1 else 1
    | none => 1
  attempt join opts spec (attempts - 1) turns

end Nitr.Fetch
