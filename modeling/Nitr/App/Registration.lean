import Nitr.Http.Route

/-! # Registration of routes and middleware

The `nitr.app()` object of `app/mod.rs`: what a handler script registers on the app and
on its groups. `F` is the type of Lua functions, `I` of `input` tables. A refused call
raises an error the script may catch, so a history goes on after it. -/

namespace Nitr.App

/-- The methods with a registration call. -/
inductive Method where
  | get
  | post
  | put
  | delete
  | patch
  | head
  | options
deriving DecidableEq, Repr

inductive AppError where
  | options
  | notAFunction (method : Method) (path : List Char) (got : String)
  | noHandler (method : Method) (path : List Char)
  | routePath (path : List Char)
  | groupPrefix (path : List Char)
  | groupSealed
  | appSealed
  | noSuchGroup
deriving DecidableEq, Repr

section Script

variable (F I : Type)

/-- What a route's trailing options table sets, as far as the chain needs it. -/
structure RouteOptions where
  errorFn : Option F := none
  invalidFn : Option F := none
  input : Option I := none

/-- A route as registered: middleware followed by the handler. -/
structure RouteDef where
  method : Method
  path : List Char
  fns : List F
  errorFn : Option F
  invalidFn : Option F
  input : Option I

structure AppDef where
  middleware : List F
  routes : List (RouteDef F I)
  errorFn : Option F
  invalidFn : Option F

structure GroupState where
  middleware : List F
  isSealed : Bool

structure LuaGroup where
  pathPrefix : List Char
  state : GroupState F

/-- The app and its groups in the order they were made. -/
structure Script where
  app : AppDef F I
  groups : List (LuaGroup F)

/-- An argument of a registration call before the options table. -/
inductive Arg where
  | function (f : F)
  | other (typeName : String)

/-- `app:get(path, ..., opts?)` and its like; `options` is what `route_options` makes of a
trailing table. -/
structure RouteCall where
  method : Method
  path : List Char
  args : List (Arg F)
  options : Option (Except Unit (RouteOptions F I))

/-- A call of the script on the app or on a group. -/
inductive Op where
  | use (mw : F)
  | route (call : RouteCall F I)
  | group (path : List Char)
  | onError (f : F)
  | onInvalid (f : F)
  | groupUse (group : ℕ) (mw : F)
  | groupRoute (group : ℕ) (call : RouteCall F I)
  | groupGroup (group : ℕ) (path : List Char)

end Script

variable {F I : Type}

def Script.empty : Script F I := ⟨⟨[], [], none, none⟩, []⟩

/-- `prefix` plus `path`, where `/` under a prefix is the prefix itself. -/
def joinPrefix (pathPrefix path : List Char) : List Char :=
  if path = ['/'] ∧ pathPrefix ≠ [] then pathPrefix else pathPrefix ++ path

/-- A group prefix as stored. -/
def groupPrefix (parent path : List Char) : Except AppError (List Char) :=
  if path.head? = some '/' then .ok (joinPrefix parent (path.rdropWhile (· = '/')))
  else .error (.groupPrefix path)

/-- The functions among the arguments, or the first that is none. -/
def functions (method : Method) (path : List Char) : List (Arg F) → Except AppError (List F)
  | [] => .ok []
  | .function f :: rest => do
      let fs ← functions method path rest
      return f :: fs
  | .other got :: _ => .error (.notAFunction method path got)

def RouteCall.parse (call : RouteCall F I) : Except AppError (RouteOptions F I) :=
  match call.options with
  | none => .ok {}
  | some (.ok options) => .ok options
  | some (.error _) => .error .options

/-- `register_route`. -/
def registerRoute (app : AppDef F I) (pathPrefix : List Char) (groupMiddleware : List F)
    (call : RouteCall F I) : Except AppError (AppDef F I) := do
  let options ← call.parse
  let routeFns ← functions call.method call.path call.args
  if routeFns.isEmpty then throw (.noHandler call.method call.path)
  if call.path.head? ≠ some '/' then throw (.routePath call.path)
  return { app with
    routes := app.routes ++ [
      { method := call.method
        path := joinPrefix pathPrefix call.path
        fns := groupMiddleware ++ routeFns
        errorFn := options.errorFn
        invalidFn := options.invalidFn
        input := options.input }] }

def LuaGroup.seal (group : LuaGroup F) : LuaGroup F :=
  { group with state := { group.state with isSealed := true } }

/-- `make_group`, once the parent's middleware is copied. -/
def makeGroup (s : Script F I) (parent : List Char) (middleware : List F) (path : List Char) :
    Except AppError (Script F I) := do
  let pathPrefix ← groupPrefix parent path
  return { s with groups := s.groups ++ [⟨pathPrefix, middleware, false⟩] }

/-- The new state, or the old one with an error. -/
def settle (s : Script F I) : Except AppError (Script F I) → Script F I × Option AppError
  | .ok s' => (s', none)
  | .error e => (s, some e)

/-- One call. A group is sealed before its call can fail. -/
def step (s : Script F I) : Op F I → Script F I × Option AppError
  | .use mw =>
      if s.app.routes.isEmpty then
        ({ s with app := { s.app with middleware := s.app.middleware ++ [mw] } }, none)
      else (s, some .appSealed)
  | .route call =>
      settle s ((registerRoute s.app [] [] call).map fun app => { s with app := app })
  | .group path => settle s (makeGroup s [] [] path)
  | .onError f => ({ s with app := { s.app with errorFn := some f } }, none)
  | .onInvalid f => ({ s with app := { s.app with invalidFn := some f } }, none)
  | .groupUse g mw =>
      match s.groups[g]? with
      | none => (s, some .noSuchGroup)
      | some group =>
          if group.state.isSealed then (s, some .groupSealed)
          else
            ({ s with groups := s.groups.set g { group with
                state := { group.state with middleware := group.state.middleware ++ [mw] } } }, none)
  | .groupRoute g call =>
      match s.groups[g]? with
      | none => (s, some .noSuchGroup)
      | some group =>
          let s := { s with groups := s.groups.set g group.seal }
          settle s ((registerRoute s.app group.pathPrefix group.state.middleware call).map
            fun app => { s with app := app })
  | .groupGroup g path =>
      match s.groups[g]? with
      | none => (s, some .noSuchGroup)
      | some group =>
          let s := { s with groups := s.groups.set g group.seal }
          settle s (makeGroup s group.pathPrefix group.state.middleware path)

/-- A call with whether it succeeded. -/
abbrev Record (F I : Type) := List (Op F I × Bool)

/-- The state after a history, with the record of its calls. -/
def run (s : Script F I) : List (Op F I) → Script F I × Record F I
  | [] => (s, [])
  | op :: ops =>
      let (s', error) := step s op
      let (s'', record) := run s' ops
      (s'', (op, error.isNone) :: record)

/-! ## What the record says -/

/-- The middleware registered on the app. -/
def appUses (record : Record F I) : List F :=
  record.filterMap fun entry =>
    match entry with
    | (.use mw, true) => some mw
    | _ => none

/-- The middleware registered on a group. -/
def groupUses (record : Record F I) (g : ℕ) : List F :=
  record.filterMap fun entry =>
    match entry with
    | (.groupUse g' mw, true) => if g' = g then some mw else none
    | _ => none

/-- The groups around each group, from the outermost to itself. -/
def addLineage (lineages : List (List ℕ)) : Op F I × Bool → List (List ℕ)
  | (.group _, true) => lineages ++ [[lineages.length]]
  | (.groupGroup g _, true) => lineages ++ [lineages.getD g [] ++ [lineages.length]]
  | _ => lineages

def lineages (record : Record F I) : List (List ℕ) := record.foldl addLineage []

/-- The functions a call names. -/
def RouteCall.own (call : RouteCall F I) : List F :=
  call.args.filterMap fun arg =>
    match arg with
    | .function f => some f
    | .other _ => none

/-- The routes in the order they were registered: the group, and the call. -/
def registrations (record : Record F I) : List (Option ℕ × RouteCall F I) :=
  record.filterMap fun entry =>
    match entry with
    | (.route call, true) => some (none, call)
    | (.groupRoute g call, true) => some (some g, call)
    | _ => none

/-- The groups around a registration. -/
def enclosing (record : Record F I) : Option ℕ → List ℕ
  | none => []
  | some g => (lineages record).getD g []

end Nitr.App
