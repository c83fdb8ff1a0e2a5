import Nitr.App.Registration

/-! # Compilation of the app

`compile`, `compose` and `validating_link` of `app/compile.rs`: the middleware of every
route is called once, from the inside out, on the function it is to wrap. What Lua
functions do is a parameter; they may change the state `σ` of the script. -/

namespace Nitr.App

/-- A function of the chain: one of the script, or the link that validates. -/
inductive Fn (F S : Type) where
  | script (f : F)
  | link (schemas : S) (handler : F) (invalid : Option F)

inductive CompileError (E : Type) where
  | raised (e : E)
  | noRoutes
  | expected
  | route (e : Route.RouteError)
  | duplicate (method : Method) (path : List Char)

/-- What compilation asks of Lua and of the modules around it. -/
structure Env (F I S σ E : Type) where
  /-- `mw.call::<Function>(chain)`. -/
  call : F → Fn F S → StateT σ (Except (CompileError E)) (Fn F S)
  /-- `InputSchemas::parse`, with the parameter names of the path. -/
  parseInput : I → List Route.Segment → Except E S
  /-- Insertion of the patterns into the router. -/
  insert : List (List Char) → Except E Unit
  /-- `meta::collect`. -/
  collect : AppDef F I → List (Option S) → Except E Unit

/-- A composed route. -/
structure Chain (F S : Type) where
  fns : Fn F S
  handler : F
  method : Method
  path : List Char
  errorFn : Option F
  input : Option S

section Compile

variable {F I S σ E : Type} (env : Env F I S σ E)

/-- A computation in the script's state. -/
abbrev Lua (σ E α : Type) := StateT σ (Except (CompileError E)) α

def raise {α : Type} (x : Except E α) : Lua σ E α := fun state =>
  match x with
  | .ok a => .ok (a, state)
  | .error e => .error (.raised e)

def refuse {α : Type} (e : CompileError E) : Lua σ E α := fun _ => .error e

/-- The loop of `compose` over the middleware, innermost first. -/
def wrap (chain : Fn F S) : List F → Lua σ E (Fn F S)
  | [] => pure chain
  | mw :: rest => do
      let chain ← env.call mw chain
      wrap chain rest

/-- `compose`: the route's middleware inside the app's. -/
def compose (middleware : List F) (fns : List F) (validating : Option (Fn F S)) :
    Lua σ E (Fn F S) :=
  match fns.getLast? with
  | none => refuse .expected
  | some handler =>
      wrap env (validating.getD (.script handler)) (fns.dropLast.reverse ++ middleware.reverse)

def parseInputs (route : RouteDef F I) : Lua σ E (Option S) :=
  match route.input with
  | none => pure none
  | some table => do
      let schemas ← raise (env.parseInput table (Route.paramNames route.path))
      return some schemas

def compileRoute (app : AppDef F I) (route : RouteDef F I) : Lua σ E (Chain F S) := do
  let input ← parseInputs env route
  match route.fns.getLast? with
  | none => refuse .expected
  | some handler =>
      let invalid := route.invalidFn <|> app.invalidFn
      let validating := input.map fun schemas => Fn.link schemas handler invalid
      let fns ← compose env app.middleware route.fns validating
      return {
        fns := fns
        handler := handler
        method := route.method
        path := route.path
        errorFn := route.errorFn <|> app.errorFn
        input := input }

/-- The loop over the routes; `seen` are the patterns with their methods. -/
def compileLoop (app : AppDef F I) (seen : List (List Char × Method)) :
    List (RouteDef F I) → Lua σ E (List (Chain F S) × List (List Char × Method))
  | [] => pure ([], seen)
  | route :: rest => do
      let chain ← compileRoute env app route
      match Route.toMatchit route.path with
      | .error e => refuse (.route e)
      | .ok pattern =>
          if (pattern, route.method) ∈ seen then refuse (.duplicate route.method route.path)
          else
            let (chains, seen) ← compileLoop app (seen ++ [(pattern, route.method)]) rest
            return (chain :: chains, seen)

/-- `compile`, for an app with or without static mounts. -/
def compile (statics : Bool) (app : AppDef F I) : Lua σ E (List (Chain F S)) := do
  if app.routes.isEmpty && !statics then refuse .noRoutes
  else
    let (chains, seen) ← compileLoop env app [] app.routes
    raise (env.insert (seen.map (·.1)).dedup)
    raise (env.collect app (chains.map (·.input)))
    return chains

end Compile

/-! ## The innermost function at request time

Middleware reaches the innermost function as `next`: it may call it any number of times,
with any arguments, and leave earlier calls unfinished. -/

/-- A Lua value a caller passes. -/
inductive Passed (R : Type) where
  | request (r : R)
  | other

/-- How `validate` ends. -/
inductive Verdict where
  | success
  | failure
  | other
  | raised
deriving DecidableEq, Repr

inductive Event (F S R : Type) where
  | validated (schemas : S) (request : R) (verdict : Verdict)
  | handler (f : F) (args : List (Passed R))
  | invalid (f : F) (request : R)
  | unprocessable
  | raised

/-- A call that awaits its validation. -/
structure Awaiting (R : Type) where
  args : List (Passed R)
  request : R

/-- The unfinished calls of the innermost function, and what has happened. -/
structure Serving (F S R : Type) where
  awaiting : List (Awaiting R)
  trace : List (Event F S R)

/-- A call of the function, or the end of the validation of an unfinished call. -/
inductive Poll (R : Type) where
  | call (args : List (Passed R))
  | validated (index : ℕ) (verdict : Verdict)

section Serve

variable {F S R : Type}

/-- The rest of the link once validation has ended: no await lies between its success and
the handler's call. -/
def afterValidation (schemas : S) (handler : F) (invalid : Option F) (call : Awaiting R) :
    Verdict → List (Event F S R)
  | .success => [.validated schemas call.request .success, .handler handler call.args]
  | .failure =>
      match invalid with
      | some hook => [.validated schemas call.request .failure, .invalid hook call.request]
      | none => [.validated schemas call.request .failure, .unprocessable]
  | .other => [.validated schemas call.request .other, .raised]
  | .raised => [.validated schemas call.request .raised, .raised]

def poll (fn : Fn F S) (s : Serving F S R) : Poll R → Serving F S R
  | .call args =>
      match fn with
      | .script f => { s with trace := s.trace ++ [.handler f args] }
      | .link _ _ _ =>
          match args.head? with
          | some (.request r) => { s with awaiting := s.awaiting ++ [⟨args, r⟩] }
          | _ => { s with trace := s.trace ++ [.raised] }
  | .validated index verdict =>
      match fn, s.awaiting[index]? with
      | .link schemas handler invalid, some call =>
          { awaiting := s.awaiting.eraseIdx index
            trace := s.trace ++ afterValidation schemas handler invalid call verdict }
      | _, _ => s

/-- What happens in the innermost function over any sequence of polls. -/
def serve (fn : Fn F S) (polls : List (Poll R)) : List (Event F S R) :=
  (polls.foldl (poll fn) ⟨[], []⟩).trace

end Serve

end Nitr.App
