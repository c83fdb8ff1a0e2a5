import Nitr.Http.Cookies
import Nitr.Json.Decode

/-! # Sessions

`session.rs`: the session table is written into a signed cookie and read back from it. The
attributes of the cookie are left out. Seconds are integers of 64 bits. -/

namespace Nitr.Session

open Nitr.Json Nitr.Cookies

def maxSessionJson : ℕ := 2800

/-- Method names of a session. -/
def reserved : List String := ["save", "clear"]

def expiresKey : String := "_exp"

inductive SessionError where
  | reserved (name : String)
  | expiresReserved
  | notSerializable (err : JsonError)
  | tooLong (bytes : ℕ)
  | cookieName
  | cookieValue

/-- A document as text: `Value::to_string` and `serde_json::from_str`. -/
structure JsonText where
  write : Doc → String
  fromStr : String → Option Doc

/-- An `i64`. -/
structure I64 where
  val : ℤ
  low : -9223372036854775808 ≤ val
  high : val ≤ 9223372036854775807

def i64Max : I64 := ⟨9223372036854775807, by decide, by decide⟩

def saturatingAdd (a b : I64) : I64 :=
  ⟨max (-9223372036854775808) (min (a.val + b.val) 9223372036854775807), by omega, by omega⟩

/-- What `nitr.session` is called with; `check_secret` has passed. -/
structure SessionOpts where
  name : String
  secret : String
  maxAge : Option I64
  secret_long : 16 ≤ secret.utf8ByteSize


/-! ## Saving -/

/-- A value built in memory, where a double stays as it is. -/
def inMemory (serde : SerdeJson) : SerdeJson := { serde with reread := id }

/-- `Map::insert`. -/
def insertMember (map : List (String × Doc)) (key : String) (value : Doc) : List (String × Doc) :=
  map.filter (fun e => e.1 ≠ key) ++ [(key, value)]

/-- The expiry rides along with actual data. -/
def withExpiry (maxAge : Option I64) (now : I64) (json : Doc) : Doc :=
  match maxAge, json with
  | some age, .object map =>
      if 0 < age.val ∧ map ≠ [] then
        .object (insertMember map expiresKey (.integer (saturatingAdd now age).val))
      else json
  | _, _ => json

/-- `serialize` up to the text. -/
def sessionValue (serde : SerdeJson) (maxAge : Option I64) (now : I64) (len : ℕ) (array : Bool)
    (entries : List (Key × Data)) : Except SessionError Doc :=
  match reserved.find? fun name => (rawGet entries (.string (.ofString name))).isSome with
  | some name => .error (.reserved name)
  | none =>
      if (rawGet entries (.string (.ofString expiresKey))).isSome then .error .expiresReserved
      else
        match toJson serde.decimal (.table len array entries) with
        | .error err => .error (.notSerializable err)
        | .ok doc => .ok (withExpiry maxAge now (doc.parsed (inMemory serde)))

def serialize (text : JsonText) (serde : SerdeJson) (maxAge : Option I64) (now : I64) (len : ℕ)
    (array : Bool) (entries : List (Key × Data)) : Except SessionError String := do
  let json ← sessionValue serde maxAge now len array entries
  if (text.write json).utf8ByteSize > maxSessionJson then
    throw (.tooLong (text.write json).utf8ByteSize)
  return text.write json

def isGraphic (c : Char) : Bool := '!' ≤ c && c ≤ '~'

def separators : List Char :=
  ['(', ')', '<', '>', '@', ',', ';', ':', '\\', '"', '/', '[', ']', '?', '=', '\x7b', '\x7d',
    ' ', '\t']

def checkCookieName (name : String) : Bool :=
  name ≠ "" && name.toList.all fun c => isGraphic c && !separators.contains c

/-- What a value must not contain besides. -/
def valueSeparators : List Char := ['"', ',', ';', '\\']

def checkCookieValue (value : String) : Bool :=
  value.toList.all fun c => isGraphic c && !valueSeparators.contains c

/-- `build_cookie`: the name and the value. -/
def buildCookie (name value : String) : Except SessionError (String × String) :=
  if checkCookieName name then
    if checkCookieValue value then .ok (name, value) else .error .cookieValue
  else .error .cookieName

section

variable (mac : Mac) (text : JsonText) (serde : SerdeJson)

/-- `session:save`: the cookie it sets. An empty session deletes its cookie. -/
def save (opts : SessionOpts) (now : I64) (len : ℕ) (array : Bool) (entries : List (Key × Data)) :
    Except SessionError (String × String) := do
  let json ← serialize text serde opts.maxAge now len array entries
  if json = "\x7b\x7d" ∨ json = "[]" then buildCookie opts.name ""
  else buildCookie opts.name (sign mac opts.name json opts.secret)

/-! ## Loading -/

/-- Whether the expiry has passed; one that is not an integer has. -/
def expired (map : List (String × Doc)) (now : I64) : Bool :=
  match map.find? fun e => e.1 = expiresKey with
  | some (_, .integer exp) => exp ≤ now.val
  | some _ => true
  | none => false

def loadInto (payload : Option Doc) (now : I64) : List (Key × Data) :=
  match payload with
  | some (.object map) =>
      if expired map now then [] else entryValues (map.filter fun e => e.1 ≠ expiresKey)
  | _ => []

/-- `RequestCookies::get`. -/
def getCookie (cookies : List (String × String)) (name : String) : Option String :=
  (cookies.find? fun e => e.1 = name).map Prod.snd

/-- `nitr.session`: the entries it starts with. -/
def load (opts : SessionOpts) (cookies : List (String × String)) (now : I64) : List (Key × Data) :=
  match (getCookie cookies opts.name).bind fun raw => verify mac opts.name raw opts.secret with
  | some payload => loadInto (text.fromStr payload) now
  | none => []

end

end Nitr.Session
