import Nitr.Http.Handle
import Nitr.Http.Weights

/-! # The response a handler returns

`handler/respond.rs`, `stream_response` of `stream.rs` and `finish` of `handler/mod.rs`: the table
a handler returns becomes a response, its body a string or what a function sends. -/

namespace Nitr.Respond

open Nitr.Http (Text Headers fromStr)
open Nitr.Validate (F64)

/-! ## What a handler returns -/

/-- What a body function does next: it writes a chunk, or the call ends. -/
inductive Event (V : Type) where
  | write (chunk : Text)
  | returned (value : V)
  | raised (message : Text)

/-- A Lua value, as far as a response can be made of it. -/
inductive LuaValue where
  | nil
  | boolean (b : Bool)
  | integer (i : ℤ)
  | number (n : F64)
  | string (bytes : Text)
  | table (pairs : List (LuaValue × LuaValue))
  /-- A body function, by what its calls do one after another. -/
  | function (events : ℕ → Event LuaValue)
  /-- The cookie builder of a helper-built response. -/
  | cookies (values : List Text)
  | userdata
  | other (typeName : Text)

abbrev LuaTable := List (LuaValue × LuaValue)

/-- `type_name`. -/
def LuaValue.typeName : LuaValue → Text
  | nil => "nil".toList
  | boolean _ => "boolean".toList
  | integer _ => "integer".toList
  | number _ => "number".toList
  | string _ => "string".toList
  | table _ => "table".toList
  | function _ => "function".toList
  | cookies _ | userdata => "userdata".toList
  | other name => name

/-- Why a table is no response. -/
inductive RespondError where
  | conversion (type : Text)
  | status (code : ℕ)
  | headerName (name : Text)
  | headerValue (name : String)
  | headerType (type : Text) (name : String)
  | notCookies
  | cookiesType (type : Text)
  | cookie (name : Text)
  | forbiddenBody (status length : ℕ)
deriving DecidableEq

/-- What the server asks of Lua, and the error page of the development mode. -/
structure Host where
  /-- Conversions to a whole number, of what is no integer. -/
  coerceU16 : LuaValue → Option ℕ
  /-- The text of a number. -/
  numberText : F64 → Text
  errorText : RespondError → Text

/-! ## Reading a table -/

def rawGet (table : LuaTable) (key : String) : LuaValue :=
  ((table.find? fun p =>
    match p.1 with
    | .string name => name = key.toList
    | _ => false).map Prod.snd).getD .nil

def rawGetIndex (table : LuaTable) (i : ℕ) : LuaValue :=
  ((table.find? fun p =>
    match p.1 with
    | .integer j => j = i
    | _ => false).map Prod.snd).getD .nil

variable (host : Host)

/-- A `LuaString`: numbers are spelled out. -/
def toLuaString : LuaValue → Except RespondError Text
  | .string bytes => .ok bytes
  | .integer i => .ok (toString i).toList
  | .number n => .ok (host.numberText n)
  | value => .error (.conversion value.typeName)

/-- An `Option<LuaString>`. -/
def toOptString : LuaValue → Except RespondError (Option Text)
  | .nil => .ok none
  | value => (toLuaString host value).map some

/-- An `Option<u16>`. -/
def toOptU16 : LuaValue → Except RespondError (Option ℕ)
  | .nil => .ok none
  | .integer i =>
      if 0 ≤ i ∧ i < 2 ^ 16 then .ok (some i.toNat) else .error (.conversion "integer".toList)
  | value =>
      match host.coerceU16 value with
      | some n => .ok (some n)
      | none => .error (.conversion value.typeName)

/-! ## Building a response -/

/-- A body: its bytes, or the chunks sent after the first events of its function. -/
inductive Body where
  | empty
  | full (bytes : Text)
  | stream (sent : ℕ → List Text)

@[ext] structure HttpResponse where
  status : ℕ
  headers : Headers
  body : Body

/-- `HeaderName::from_bytes`. -/
def headerName (name : Text) : Option String :=
  if name ≠ [] ∧ name.length < 2 ^ 16 ∧ name.all Accept.isTchar then
    some (String.ofList (Http.toAsciiLowercase name))
  else none

/-- The items of an array, up to the first one that is missing. -/
def sequenceValues (table : LuaTable) : List LuaValue :=
  ((List.range table.length).map fun i => rawGetIndex table (i + 1)).takeWhile fun value =>
    match value with
    | .nil => false
    | _ => true

def headerValue (name : String) (bytes : Text) : Except RespondError Text :=
  match fromStr bytes with
  | some value => .ok value
  | none => .error (.headerValue name)

/-- Adds one entry of the `headers` table. -/
def addHeader (headers : Headers) (entry : LuaValue × LuaValue) : Except RespondError Headers := do
  let bytes ← toLuaString host entry.1
  let name ← (headerName bytes).elim (.error (.headerName bytes)) .ok
  match entry.2 with
  | .string v => return headers.append name (← headerValue name v)
  | .integer i => return headers.append name (toString i).toList
  | .table values =>
      (sequenceValues values).foldlM (fun headers value => do
        let bytes ← toLuaString host value
        return headers.append name (← headerValue name bytes)) headers
  | value => .error (.headerType value.typeName name)

/-- Adds one cookie; an error names it without its value. -/
def addCookie (headers : Headers) (value : Text) : Except RespondError Headers :=
  match fromStr value with
  | some value => .ok (headers.append "set-cookie" value)
  | none => .error (.cookie (value.takeWhile (· ≠ '=')))

/-- The headers a table asks for. -/
def tableHeaders (table : LuaTable) : Except RespondError Headers := do
  let headers ←
    match rawGet table "headers" with
    | .nil => pure .empty
    | .table entries => entries.foldlM (addHeader host) .empty
    | value => .error (.conversion value.typeName)
  match rawGet table "cookies" with
  | .nil => return headers
  | .cookies values => values.foldlM addCookie headers
  | .userdata => .error .notCookies
  | value => .error (.cookiesType value.typeName)

/-- The status of a table, 200 where it has none. -/
def tableStatus (table : LuaTable) : Except RespondError ℕ := do
  let status := (← toOptU16 host (rawGet table "status")).getD 200
  if 100 ≤ status ∧ status < 1000 then return status else .error (.status status)

/-- `build_response`. -/
def buildResponse (table : LuaTable) (body : Body) : Except RespondError HttpResponse := do
  let status ← tableStatus host table
  let headers ← tableHeaders host table
  return ⟨status, headers, body⟩

/-- The statuses that have no body. -/
def bodiless (status : ℕ) : Bool :=
  status = 204 || status = 304 || (decide (100 ≤ status) && decide (status < 200))

def rejectForbiddenBody (status length : ℕ) : Except RespondError Unit :=
  if length = 0 then .ok ()
  else if bodiless status then .error (.forbiddenBody status length)
  else .ok ()

/-- `to_response`: a table whose body is no function. -/
def toResponse (table : LuaTable) : Except RespondError HttpResponse := do
  let bytes ← toOptString host (rawGet table "body")
  let resp ← buildResponse host table (bytes.elim .empty .full)
  rejectForbiddenBody resp.status (bytes.elim 0 List.length)
  return resp

/-! ## Streams -/

/-- How far a stream has come: in the first call, in the calls of an iterator, or closed. -/
inductive Phase where
  | first
  | iterating
  | closed
deriving DecidableEq

/-- One event of a stream: the phase after it, and the chunk it sends. -/
def Phase.step : Phase → Event LuaValue → Phase × List Text
  | closed, _ => (closed, [])
  | phase, .write chunk => (phase, [chunk])
  | _, .raised _ => (closed, [])
  | first, .returned (.string chunk) => (iterating, [chunk])
  | first, .returned _ => (closed, [])
  | iterating, .returned value =>
      match toOptString host value with
      | .ok (some chunk) => (iterating, [chunk])
      | .ok none => (closed, [])
      | .error _ => (closed, [])

/-- The phase after the first events, and the chunks sent in them. -/
def streamed (events : ℕ → Event LuaValue) : ℕ → Phase × List Text
  | 0 => (.first, [])
  | n + 1 =>
      let (phase, sent) := streamed events n
      let (phase, chunk) := phase.step host (events n)
      (phase, sent ++ chunk)

/-- `stream_response`: the head now, the chunks as the function sends them. -/
def streamResponse (table : LuaTable) (events : ℕ → Event LuaValue) :
    Except RespondError HttpResponse :=
  buildResponse host table (.stream fun n => (streamed host events n).2)

/-! ## Finishing a call -/

/-- The error page; the development mode says more. -/
def errorResponse (err : RespondError) (devMode : Bool) : HttpResponse :=
  ⟨500, MultiMap.empty.append "content-type" "text/plain; charset=utf-8".toList,
    .full ("Internal Server Error".toList ++
      if devMode then "\n\n".toList ++ host.errorText err else [])⟩

/-- A built-in rejection as a response. -/
def rejected (resp : Http.Response) : HttpResponse :=
  ⟨resp.status, resp.headers, resp.body.elim .empty .full⟩

/-- `finish`: `permit` says whether a stream slot is free. -/
def finish (table : LuaTable) (permit devMode json : Bool) : HttpResponse :=
  match rawGet table "body" with
  | .function events =>
      if permit then
        match streamResponse host table events with
        | .ok resp => resp
        | .error err => errorResponse host err devMode
      else rejected (Http.rejection 503 "SERVICE_UNAVAILABLE" none json)
  | _ =>
      match toResponse host table with
      | .ok resp => resp
      | .error err => errorResponse host err devMode

/-! ## Statuses without a body -/

/-- No byte is ever sent. -/
def Body.Silent : Body → Prop
  | empty => True
  | full bytes => bytes = []
  | stream sent => ∀ n, (sent n).flatten = []

/-- The body a table asks for. -/
def tableBody (table : LuaTable) : Body :=
  match rawGet table "body" with
  | .function events => .stream fun n => (streamed host events n).2
  | value =>
      match toOptString host value with
      | .ok (some bytes) => .full bytes
      | _ => .empty

/-- The response has no body where its status has none, and a table that asks for one with such a
status is answered with an error. -/
def BodyRule (table : LuaTable) (permit devMode json : Bool) : Prop :=
  let resp := finish host table permit devMode json
  (bodiless resp.status = true → resp.body.Silent) ∧
    ∀ status, tableStatus host table = .ok status → bodiless status = true →
      ¬(tableBody host table).Silent → 500 ≤ resp.status

/-- A stream slot is free and the body is a function that sends something, under a status that has
no body and headers that are valid. -/
structure Slips (table : LuaTable) (permit : Bool) : Prop where
  slot : permit = true
  function : ∃ events, rawGet table "body" = .function events
  sends : ¬(tableBody host table).Silent
  status : ∃ status, tableStatus host table = .ok status ∧ bodiless status = true
  headers : ∃ headers, tableHeaders host table = .ok headers

variable {host}

theorem buildResponse_eq_ok {table : LuaTable} {body : Body} {resp : HttpResponse} :
    buildResponse host table body = .ok resp ↔ tableStatus host table = .ok resp.status ∧
      tableHeaders host table = .ok resp.headers ∧ resp.body = body := by
  unfold buildResponse
  cases tableStatus host table with
  | error err => simp [bind, Except.bind]
  | ok status =>
      cases tableHeaders host table with
      | error err => simp [bind, Except.bind]
      | ok headers =>
          simp only [bind, Except.bind, pure, Except.pure, Except.ok.injEq, HttpResponse.ext_iff]
          tauto

theorem rejectForbiddenBody_eq_ok {status length : ℕ} :
    rejectForbiddenBody status length = .ok () ↔ (bodiless status = true → length = 0) := by
  unfold rejectForbiddenBody
  split
  · simp [*]
  · split <;> simp_all

/-- What a table gives whose body is no function. -/
theorem toResponse_eq_ok {table : LuaTable} {resp : HttpResponse}
    (h : toResponse host table = .ok resp) :
    ∃ bytes, toOptString host (rawGet table "body") = .ok bytes ∧
      tableStatus host table = .ok resp.status ∧ resp.body = bytes.elim .empty .full ∧
        (bodiless resp.status = true → bytes.elim 0 List.length = 0) := by
  unfold toResponse at h
  cases hbytes : toOptString host (rawGet table "body") with
  | error err =>
      rw [hbytes] at h
      cases h
  | ok bytes =>
      cases hbuild : buildResponse host table (bytes.elim .empty .full) with
      | error err =>
          rw [hbytes] at h
          simp only [bind, Except.bind, hbuild] at h
          cases h
      | ok built =>
          rw [hbytes] at h
          simp only [bind, Except.bind, hbuild] at h
          cases hreject : rejectForbiddenBody built.status (bytes.elim 0 List.length) with
          | error err =>
              rw [hreject] at h
              cases h
          | ok _ =>
              rw [hreject] at h
              obtain rfl : built = resp := Except.ok.inj h
              obtain ⟨hstatus, -, hbody⟩ := buildResponse_eq_ok.mp hbuild
              exact ⟨bytes, rfl, hstatus, hbody, rejectForbiddenBody_eq_ok.mp hreject⟩

/-- An answer that is an error keeps the rule. -/
theorem bodyRule_of_error {table : LuaTable} {permit devMode json : Bool}
    (h : 500 ≤ (finish host table permit devMode json).status) :
    BodyRule host table permit devMode json := by
  refine ⟨?_, fun _ _ _ _ => h⟩
  intro hbodiless
  simp only [bodiless, Bool.or_eq_true, Bool.and_eq_true, decide_eq_true_eq] at hbodiless
  omega

theorem tableBody_of_function {table : LuaTable} {events : ℕ → Event LuaValue}
    (h : rawGet table "body" = .function events) :
    tableBody host table = .stream fun n => (streamed host events n).2 := by
  rw [tableBody, h]

/-- A body function is answered as the table says, if the table is a response at all. -/
theorem finish_of_function {table : LuaTable} {events : ℕ → Event LuaValue} {devMode json : Bool}
    (h : rawGet table "body" = .function events) :
    (∃ resp, finish host table true devMode json = resp ∧
      tableStatus host table = .ok resp.status ∧ tableHeaders host table = .ok resp.headers ∧
        resp.body = tableBody host table) ∨
      ((∀ headers, tableHeaders host table ≠ .ok headers) ∨
        ∀ status, tableStatus host table ≠ .ok status) ∧
      500 ≤ (finish host table true devMode json).status := by
  rw [finish, h]
  simp only [if_true, streamResponse, ← tableBody_of_function h]
  cases hbuild : buildResponse host table (tableBody host table) with
  | ok resp => exact .inl ⟨resp, rfl, buildResponse_eq_ok.mp hbuild⟩
  | error err =>
      refine .inr ⟨?_, le_refl _⟩
      by_contra hboth
      simp only [not_or, not_forall, not_not] at hboth
      obtain ⟨⟨headers, hheaders⟩, ⟨status, hstatus⟩⟩ := hboth
      have hok := (@buildResponse_eq_ok host table (tableBody host table) ⟨status, headers, _⟩).mpr
        ⟨hstatus, hheaders, rfl⟩
      rw [hbuild] at hok
      cases hok

/-- A body that is no function is checked against the status. -/
theorem bodyRule_of_toResponse {table : LuaTable} {permit devMode json : Bool}
    (h : ∀ events, rawGet table "body" ≠ .function events) :
    BodyRule host table permit devMode json := by
  have hfinish : finish host table permit devMode json =
      match toResponse host table with
      | .ok resp => resp
      | .error err => errorResponse host err devMode := by
    unfold finish
    split
    · exact absurd ‹_› (h _)
    · rfl
  cases hresp : toResponse host table with
  | error err =>
      refine bodyRule_of_error ?_
      rw [hfinish, hresp]
      exact le_refl _
  | ok resp =>
      rw [hresp] at hfinish
      have hbody : tableBody host table = resp.body ∧ tableStatus host table = .ok resp.status ∧
          (bodiless resp.status = true → resp.body.Silent) := by
        obtain ⟨bytes, hbytes, hstatus, hbody, hlength⟩ := toResponse_eq_ok hresp
        have htable : tableBody host table = bytes.elim .empty .full := by
          unfold tableBody
          split
          · exact absurd ‹_› (h _)
          · rw [hbytes]
            cases bytes <;> rfl
        refine ⟨htable.trans hbody.symm, hstatus, ?_⟩
        intro hbodiless
        rw [hbody]
        cases bytes with
        | none => trivial
        | some bytes => exact List.length_eq_zero_iff.mp (hlength hbodiless)
      obtain ⟨hbody, hstatus, hsilent⟩ := hbody
      rw [BodyRule, hfinish]
      refine ⟨hsilent, ?_⟩
      intro status hstatus' hbodiless hnot
      rw [hstatus, Except.ok.injEq] at hstatus'
      rw [hbody] at hnot
      exact absurd (hsilent (hstatus' ▸ hbodiless)) hnot

/-- The rule holds unless a function sends something under a status that has no body. -/
theorem bodyRule_iff (table : LuaTable) (permit devMode json : Bool) :
    BodyRule host table permit devMode json ↔ ¬Slips host table permit := by
  by_cases hfunction : ∃ events, rawGet table "body" = .function events
  · obtain ⟨events, hevents⟩ := hfunction
    cases permit with
    | false =>
        refine iff_of_true (bodyRule_of_error ?_) fun h => Bool.noConfusion h.slot
        rw [finish, hevents]
        simp [rejected, Http.rejection]
    | true =>
        rcases @finish_of_function host table events devMode json hevents with
          ⟨resp, hresp, hstatus, hheaders, hbody⟩ | ⟨hnone, herror⟩
        · rw [BodyRule, hresp, ← hbody]
          constructor
          · rintro ⟨hsilent, -⟩ hslips
            obtain ⟨status, hstatus', hbodiless⟩ := hslips.status
            rw [hstatus, Except.ok.injEq] at hstatus'
            exact hslips.sends (hbody ▸ hsilent (hstatus' ▸ hbodiless))
          · intro hslips
            have hsilent : bodiless resp.status = true → resp.body.Silent := by
              intro hbodiless
              by_contra hsends
              exact hslips ⟨rfl, ⟨events, hevents⟩, hbody ▸ hsends, ⟨_, hstatus, hbodiless⟩,
                ⟨_, hheaders⟩⟩
            refine ⟨hsilent, ?_⟩
            intro status hstatus' hbodiless hnot
            rw [hstatus, Except.ok.injEq] at hstatus'
            exact absurd (hsilent (hstatus' ▸ hbodiless)) hnot
        · refine iff_of_true (bodyRule_of_error herror) ?_
          intro hslips
          obtain ⟨status, hstatus, -⟩ := hslips.status
          obtain ⟨headers, hheaders⟩ := hslips.headers
          exact hnone.elim (fun h => h headers hheaders) fun h => h status hstatus
  · refine iff_of_true (bodyRule_of_toResponse fun events h => hfunction ⟨events, h⟩) ?_
    exact fun hslips => hfunction hslips.function

/-- No conversions beyond those of Lua's own numbers. -/
def plainHost : Host where
  coerceU16 _ := none
  numberText _ := []
  errorText _ := []

/-- A function that writes one chunk under the status 204. -/
def writing204 : LuaTable :=
  [(.string "status".toList, .integer 204),
    (.string "body".toList, .function fun n =>
      if n = 0 then .write "x".toList else .returned .nil)]

theorem writing204_sends :
    (finish plainHost writing204 true false false).status = 204 ∧
      ¬(finish plainHost writing204 true false false).body.Silent ∧
        ¬BodyRule plainHost writing204 true false false := by
  have hsends : ¬(finish plainHost writing204 true false false).body.Silent := by
    intro hsilent
    cases hsilent 1
  refine ⟨rfl, hsends, ?_⟩
  rintro ⟨hsilent, -⟩
  exact hsends (hsilent rfl)

end Nitr.Respond
