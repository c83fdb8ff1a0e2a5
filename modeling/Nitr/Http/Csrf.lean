import Mathlib.Data.List.Infix
import Nitr.Http.Cors
import Nitr.Http.Session

/-! # The CSRF middleware

`csrf.rs`: the signed double-submit token. A request passes through the middleware in two
parts, before and after `next`; requests of other states may come between. The `cookie`
package reads the cookies of a request and the form parser its fields. -/

namespace Nitr.Csrf

open Nitr.Http (Headers Text eqIgnoreAsciiCase toStr)
open Nitr.Cookies (Mac verify sign)
open Nitr.Session (getCookie isGraphic checkCookieName checkCookieValue)

/-- The attributes of the `cookie` option that can be refused. -/
structure CookieOpts where
  path : Option String
  domain : Option String
  sameSite : Option String

/-- Everything the middleware needs per request. -/
structure Config where
  secret : String
  cookie : String
  header : String
  field : String
  cookieOpts : Option CookieOpts

/-- Whether the token cookie is configured `SameSite=None`. -/
def CookieOpts.crossSite (opts : CookieOpts) : Bool :=
  opts.sameSite.any fun value => eqIgnoreAsciiCase value.toList "none".toList

def refusesCrossSite (cookieOpts : Option CookieOpts) : Bool := !cookieOpts.any CookieOpts.crossSite

/-- What the middleware reads of a request. A body that cannot be read has no form. -/
structure Request where
  id : String
  method : String
  headers : Headers
  cookies : List (String × String)
  form : Option (List (String × String))

/-- `req.headers[name]`: the last line, empty unless it is visible. -/
def Request.header (req : Request) (name : String) : Option String :=
  (req.headers.getAll name).getLast?.map fun value => .ofList ((toStr value).getD [])

/-- A field of the form: the last pair of that name. -/
def formField (form : List (String × String)) (name : String) : Option String :=
  ((form.filter fun e => e.1 = name).getLast?).map Prod.snd

inductive CsrfError where
  | entropy
  | unreadableBody
  | next
  | cookieName
  | cookieValue
  | cookieAttribute
  | cookiesField
deriving DecidableEq

/-! ## Before `next` -/

/-- The token of a request and whether it was drawn for it. -/
structure Started where
  token : String
  issue : Bool

/-- The verified token of the signed cookie. -/
def cookieToken (mac : Mac) (config : Config) (req : Request) : Option String :=
  (getCookie req.cookies config.cookie).bind fun raw => verify mac config.cookie raw config.secret

/-- The token of the request; `fresh` is what `new_token` draws. -/
def start (mac : Mac) (config : Config) (fresh : Option String) (req : Request) :
    Except CsrfError Started :=
  match cookieToken mac config req with
  | some token => .ok ⟨token, false⟩
  | none =>
      match fresh with
      | some token => .ok ⟨token, true⟩
      | none => .error .entropy

def isSafe (method : String) : Bool := method ∈ ["GET", "HEAD", "OPTIONS", "TRACE"]

/-- Whether a browser marked the request as cross-site. -/
def Request.crossSite (req : Request) : Bool :=
  (req.header "sec-fetch-site").any fun site => eqIgnoreAsciiCase site.toList "cross-site".toList

/-- Whether the body is announced as an urlencoded form. -/
def Request.isForm (req : Request) : Bool :=
  (req.header "content-type").any fun ct =>
    "application/x-www-form-urlencoded".toList.isPrefixOf ct.toList

/-- The token the request supplied. -/
def suppliedToken (config : Config) (req : Request) : Except CsrfError (Option String) :=
  match req.header config.header with
  | some token => .ok (some token)
  | none =>
      if req.isForm then
        match req.form with
        | some form => .ok (formField form config.field)
        | none => .error .unreadableBody
      else .ok none

/-- The token that is compared: none of a request refused as cross-site. -/
def consulted (config : Config) (req : Request) : Except CsrfError (Option String) :=
  if refusesCrossSite config.cookieOpts && req.crossSite then .ok none
  else suppliedToken config req

/-- Whether `next` is called. A token drawn for the request can never match. -/
def checked (config : Config) (req : Request) (started : Started) : Except CsrfError Bool :=
  if isSafe req.method then .ok true
  else
    (consulted config req).map fun supplied =>
      supplied.any fun supplied => !started.issue && supplied = started.token

/-! ## Responses -/

/-- A serialized `Set-Cookie` value. -/
structure SetCookie where
  name : String
  value : String
  opts : CookieOpts

/-- The `cookies` field of a response table. -/
inductive CookiesField where
  | builder (values : List SetCookie)
  | absent
  | invalid

structure ResponseTable where
  status : ℕ
  contentType : Option String
  body : String
  cookies : CookiesField

/-- What a handler returns. -/
inductive Value where
  | table (resp : ResponseTable)
  | other

/-- The refusal. -/
def forbidden (req : Request) : ResponseTable :=
  if (req.header "accept").any fun accept =>
      decide ("application/json".toList <:+: accept.toList) then
    { status := 403
      contentType := some "application/json"
      body := "\x7b\"code\":\"CSRF_INVALID\",\"message\":\"missing or invalid CSRF token\"\x7d"
      cookies := .builder [] }
  else
    { status := 403
      contentType := some "text/plain; charset=utf-8"
      body := "Forbidden: missing or invalid CSRF token"
      cookies := .builder [] }

/-- The caller's attributes over the defaults. -/
def cookieOpts (caller : Option CookieOpts) : CookieOpts where
  path := (caller.bind CookieOpts.path).or (some "/")
  domain := caller.bind CookieOpts.domain
  sameSite := (caller.bind CookieOpts.sameSite).or (some "Lax")

def checkCookieAttribute (value : String) : Bool := value.toList.all fun c => isGraphic c && c ≠ ';'

def buildCookie (name value : String) (opts : CookieOpts) : Except CsrfError SetCookie := do
  if !checkCookieName name then throw .cookieName
  if !checkCookieValue value then throw .cookieValue
  if !(opts.path.all checkCookieAttribute && opts.domain.all checkCookieAttribute) then
    throw .cookieAttribute
  if !opts.sameSite.all fun s =>
      ["strict", "lax", "none"].any fun v => eqIgnoreAsciiCase s.toList v.toList then
    throw .cookieAttribute
  return { name, value, opts }

def attachCookie (resp : ResponseTable) (cookie : SetCookie) : Except CsrfError ResponseTable :=
  match resp.cookies with
  | .builder values => .ok { resp with cookies := .builder (values ++ [cookie]) }
  | .absent => .ok { resp with cookies := .builder [cookie] }
  | .invalid => .error .cookiesField

/-- Issues the cookie on whatever table goes out. -/
def finish (mac : Mac) (config : Config) (started : Started) (value : Value) :
    Except CsrfError Value :=
  match value with
  | .other => .ok .other
  | .table resp =>
      if started.issue then do
        let signed := sign mac config.cookie started.token config.secret
        let cookie ← buildCookie config.cookie signed (cookieOpts config.cookieOpts)
        let resp ← attachCookie resp cookie
        return .table resp
      else .ok (.table resp)

end Nitr.Csrf
