import Nitr.Http.Cors
import Nitr.Protect.RateLimiter

/-! # A route's own rate limit

The routing part of `handle_inner` in `handler/mod.rs`, with `Routing`, `routed_chain` and
`lookup` of `app/mod.rs`. A request is routed by the pool's shared table before a state is
checked out; a state that was rebuilt from another route set routes it again. -/

namespace Nitr.Budget

open Nitr.Http (Method Text)
open Nitr.Protect (Buckets Decision RateLimiter nanosPerSec)

/-! ## Compiled applications -/

/-- A `rate_limit` option as registration accepts it; the window is in seconds. -/
structure RateLimit where
  requests : ℕ
  window : ℕ
  requests_pos : 1 ≤ requests
  requests_lt : requests < 2 ^ 32
  window_pos : 1 ≤ window

/-- The limiter compiled for a route. `id` is the object its buckets belong to. -/
structure RouteLimiter where
  id : ℕ
  method : Method
  path : Text
  declared : RateLimit

def RouteLimiter.limiter (limit : RouteLimiter) : RateLimiter where
  max := limit.declared.requests
  window := limit.declared.window * nanosPerSec
  max_lt := limit.declared.requests_lt

/-- A compiled route with its own limiter. -/
structure Chain where
  method : Method
  path : Text
  rate : Option RouteLimiter
  rate_route : ∀ limit ∈ rate, limit.method = method ∧ limit.path = path

/-- The router: the route indices of a path by method, and the captured parameters. -/
abbrev Router := Text → Option (List (Method × ℕ) × List (Text × Text))

/-- Where the router sends a method and a path. -/
inductive Lookup where
  | route (index : ℕ) (params : List (Text × Text))
  | options (allowed : List Method)
  | methodNotAllowed (allowed : List Method)
  | notFound

/-- The lookup; a `HEAD` request falls back to the `GET` route. -/
def lookup (router : Router) (method : Method) (path : Text) : Lookup :=
  match router path with
  | none => .notFound
  | some (entries, params) =>
      let route := (entries.lookup method).or
        (if method = .head then entries.lookup .get else none)
      match route with
      | some index => .route index params
      | none =>
          if method = .options then .options (entries.map Prod.fst)
          else .methodNotAllowed (entries.map Prod.fst)

structure CompiledApp where
  router : Router
  chains : List Chain

/-- The half of a compiled application that is shared by a pool. -/
structure Routing where
  router : Router
  fingerprint : ℕ
  limits : List (Option RouteLimiter)

section

-- `hash` is the standard hasher over the methods and the paths.
variable (hash : List (Method × Text) → ℕ)

/-- One number for a route set. -/
def routeFingerprint (chains : List Chain) : ℕ := hash (chains.map fun c => (c.method, c.path))

/-- The shared routing of an application. -/
def CompiledApp.routing (app : CompiledApp) : Routing where
  router := app.router
  fingerprint := routeFingerprint hash app.chains
  limits := app.chains.map Chain.rate

/-- The chain the shared routing resolved to, if the state has the same route set. -/
def CompiledApp.routedChain (app : CompiledApp) (routing : Routing) (index : ℕ) : Option Chain :=
  if routeFingerprint hash app.chains ≠ routing.fingerprint then none else app.chains[index]?

/-- What a request resolves to in a state. -/
inductive Target where
  | chain (chain : Chain)
  /-- A static file, a 404, a 405 or the answer to an `OPTIONS`. -/
  | answered
  /-- An index outside the table. -/
  | panicked

/-- Routes a request by the state's own table. -/
def CompiledApp.resolve (app : CompiledApp) (method : Method) (path : Text) : Target :=
  match lookup app.router method path with
  | .route index _ =>
      match app.chains[index]? with
      | some chain => .chain chain
      | none => .panicked
  | _ => .answered

/-- The target in a state, given where the shared routing sent the request. -/
def CompiledApp.target (app : CompiledApp) (routed : Option (Routing × ℕ)) (method : Method)
    (path : Text) : Target :=
  match routed.bind fun r => app.routedChain hash r.1 r.2 with
  | some chain => .chain chain
  | none => app.resolve method path

end

/-! ## Serving one request -/

section

variable {K : Type} [DecidableEq K]

/-- The buckets of every limiter. -/
abbrev World (K : Type) := ℕ → Buckets K

/-- How a request ends, as far as the route's limit is concerned. -/
inductive Outcome where
  | rateLimited (retryAfter : ℕ)
  | panicked
  | answered
  | shed
  | unsupportedMediaType
  | executed (chain : Chain)

/-- The end of a request, the checks of route limiters it made and the buckets after it. -/
structure Served (K : Type) where
  outcome : Outcome
  checks : List (RouteLimiter × Decision)
  world : World K

/-- One check of a route's limiter, and the rest where it admits the request. -/
def charge (limit : RouteLimiter) (key : K) (now : ℕ)
    (rest : List (RouteLimiter × Decision) → World K → Served K) (world : World K) : Served K :=
  let (decision, buckets) := limit.limiter.check (world limit.id) key now
  let world := Function.update world limit.id buckets
  let checks := [(limit, decision)]
  match decision with
  | .admitted => rest checks world
  | .refused retryAfter => ⟨.rateLimited retryAfter, checks, world⟩
  | .panicked => ⟨.panicked, checks, world⟩

/-- Negotiates the body and runs the chain. -/
def execute (accepts : Chain → Bool) (chain : Chain) (checks : List (RouteLimiter × Decision))
    (world : World K) : Served K :=
  if accepts chain then ⟨.executed chain, checks, world⟩
  else ⟨.unsupportedMediaType, checks, world⟩

variable (hash : List (Method × Text) → ℕ) (accepts : Chain → Bool) (method : Method) (path : Text)
  (key : K) (now : ℕ)

/-- From the checkout on. The state's own limiter is asked only if no shared routing was. -/
def serveRouted (checkout : Option CompiledApp) (routed : Option (Routing × ℕ))
    (checks : List (RouteLimiter × Decision)) (world : World K) : Served K :=
  match checkout with
  | none => ⟨.shed, checks, world⟩
  | some app =>
      match app.target hash routed method path with
      | .answered => ⟨.answered, checks, world⟩
      | .panicked => ⟨.panicked, checks, world⟩
      | .chain chain =>
          match routed, chain.rate with
          | none, some limit => charge limit key now (execute accepts chain) world
          | _, _ => execute accepts chain checks world

/-- Serves a request in a pool whose shared routing is `routing`; `checkout` is the state it
gets, or none within the wait budget. `accepts` is the negotiation of the body. -/
def serve (routing : Option Routing) (checkout : Option CompiledApp) (world : World K) : Served K :=
  match routing with
  | none => serveRouted hash accepts method path key now checkout none [] world
  | some routing =>
      match lookup routing.router method path with
      | .route index _ =>
          let rest := serveRouted hash accepts method path key now checkout (some (routing, index))
          match (routing.limits[index]?).join with
          | some limit => charge limit key now rest world
          | none => rest [] world
      | _ => ⟨.answered, [], world⟩

end

/-! ## What a request pays -/

/-- A limiter compiled for a chain's route, with the budget the chain declares. -/
structure RouteLimiter.For (limit : RouteLimiter) (chain : Chain) (declared : RateLimit) : Prop where
  method : limit.method = chain.method
  path : limit.path = chain.path
  declared : limit.declared = declared

/-- An executed chain with a limit was admitted by one check, of a limiter for its route, and
no other limiter was asked. -/
def Served.Paid {K : Type} (served : Served K) : Prop :=
  ∀ chain own, served.outcome = .executed chain → chain.rate = some own →
    ∃ limit, served.checks = [(limit, .admitted)] ∧ limit.For chain own.declared

/-- The shared routing holds, for a request it has a route for, a limiter for the route that
will serve it in the state, where that route declares a limit and takes the body. -/
def SamePrice (hash : List (Method × Text) → ℕ) (accepts : Chain → Bool) (method : Method)
    (path : Text) (routing : Routing) (app : CompiledApp) : Prop :=
  ∀ index params, lookup routing.router method path = .route index params →
    ∀ chain, app.target hash (some (routing, index)) method path = .chain chain →
      accepts chain = true → ∀ own, chain.rate = some own →
        ∃ limit, (routing.limits[index]?).join = some limit ∧ limit.For chain own.declared

theorem Chain.rate_for {chain : Chain} {own : RouteLimiter} (h : chain.rate = some own) :
    own.For chain own.declared := by
  obtain ⟨hmethod, hpath⟩ := chain.rate_route own h
  exact ⟨hmethod, hpath, rfl⟩

theorem execute_executed {K : Type} {accepts : Chain → Bool} {chain chain' : Chain}
    {checks : List (RouteLimiter × Decision)} {world : World K}
    (h : (execute accepts chain checks world).outcome = .executed chain') :
    chain' = chain ∧ accepts chain = true ∧ (execute accepts chain checks world).checks = checks := by
  unfold execute at h ⊢
  by_cases haccepts : accepts chain = true
  · rw [if_pos haccepts] at h ⊢
    exact ⟨(Outcome.executed.inj h).symm, haccepts, rfl⟩
  · rw [if_neg haccepts] at h
    cases h

section

variable {K : Type} [DecidableEq K] {hash : List (Method × Text) → ℕ} {accepts : Chain → Bool}
  {method : Method} {path : Text} {key : K} {now : ℕ}

/-- A request that goes on to be executed was admitted. -/
theorem charge_executed {limit : RouteLimiter}
    {rest : List (RouteLimiter × Decision) → World K → Served K} {world : World K} {chain : Chain}
    (h : (charge limit key now rest world).outcome = .executed chain) :
    ∃ world', charge limit key now rest world = rest [(limit, .admitted)] world' := by
  unfold charge at h ⊢
  cases hcheck : limit.limiter.check (world limit.id) key now with
  | mk decision buckets =>
      rw [hcheck] at h
      cases decision with
      | admitted => exact ⟨_, rfl⟩
      | refused retryAfter => cases h
      | panicked => cases h

/-- A fresh limiter admits. -/
theorem charge_new (limit : RouteLimiter) (key : K) (now : ℕ)
    (rest : List (RouteLimiter × Decision) → World K → Served K) :
    ∃ world', charge limit key now rest (fun _ => Buckets.new now) =
      rest [(limit, .admitted)] world' := by
  have hmax : ¬limit.limiter.max < 1 := by
    have := limit.declared.requests_pos
    simp only [RouteLimiter.limiter]
    omega
  have hcheck : (limit.limiter.check (Buckets.new now) key now).1 = .admitted := by
    simp [RateLimiter.check, RateLimiter.purge, RateLimiter.current, Buckets.new, Buckets.len,
      Protect.maxBuckets, hmax]
  unfold charge
  cases hresult : limit.limiter.check (Buckets.new now) key now with
  | mk decision buckets =>
      rw [hresult] at hcheck
      cases hcheck
      exact ⟨_, rfl⟩

/-- What is executed is the target, with the checks made so far and the state's own one
where no shared routing came before. -/
theorem serveRouted_executed {checkout : Option CompiledApp} {routed : Option (Routing × ℕ)}
    {checks : List (RouteLimiter × Decision)} {world : World K} {chain : Chain}
    (h : (serveRouted hash accepts method path key now checkout routed checks world).outcome =
      .executed chain) :
    ∃ app, checkout = some app ∧ app.target hash routed method path = .chain chain ∧
      accepts chain = true ∧
      ((routed.isSome = true ∨ chain.rate = none) →
        (serveRouted hash accepts method path key now checkout routed checks world).checks =
          checks) ∧
      ∀ own, routed = none → chain.rate = some own →
        (serveRouted hash accepts method path key now checkout routed checks world).checks =
          [(own, .admitted)] := by
  cases checkout with
  | none => cases h
  | some app =>
      cases htarget : app.target hash routed method path with
      | answered =>
          simp only [serveRouted, htarget] at h
          cases h
      | panicked =>
          simp only [serveRouted, htarget] at h
          cases h
      | chain target =>
          simp only [serveRouted, htarget] at h ⊢
          cases routed with
          | some routed =>
              obtain ⟨rfl, haccepts, hchecks⟩ := execute_executed h
              exact ⟨app, rfl, htarget, haccepts, fun _ => hchecks, by simp⟩
          | none =>
              cases hrate : target.rate with
              | none =>
                  rw [hrate] at h
                  obtain ⟨rfl, haccepts, hchecks⟩ := execute_executed h
                  exact ⟨app, rfl, htarget, haccepts, fun _ => hchecks, by simp [hrate]⟩
              | some limit =>
                  rw [hrate] at h
                  dsimp only at h ⊢
                  obtain ⟨world', hcharge⟩ := charge_executed h
                  rw [hcharge] at h ⊢
                  obtain ⟨rfl, haccepts, hchecks⟩ := execute_executed h
                  refine ⟨app, rfl, htarget, haccepts, by simp [hrate], fun own _ hown => ?_⟩
                  rw [hrate] at hown
                  cases hown
                  exact hchecks

/-- Without shared routing the state's own limiter is asked. -/
theorem serve_unrouted_paid (checkout : Option CompiledApp) (world : World K) :
    (serve hash accepts method path key now none checkout world).Paid := by
  intro chain own h hown
  obtain ⟨app, rfl, _, _, _, hchecks⟩ := serveRouted_executed h
  exact ⟨own, hchecks own rfl hown, Chain.rate_for hown⟩

/-- With shared routing the request has paid what the shared table asks for. -/
theorem serve_executed {routing : Routing} {checkout : Option CompiledApp} {world : World K}
    {chain : Chain}
    (h : (serve hash accepts method path key now (some routing) checkout world).outcome =
      .executed chain) :
    ∃ app index params, checkout = some app ∧
      lookup routing.router method path = .route index params ∧
      app.target hash (some (routing, index)) method path = .chain chain ∧ accepts chain = true ∧
      (serve hash accepts method path key now (some routing) checkout world).checks =
        ((routing.limits[index]?).join.map fun limit => (limit, Decision.admitted)).toList := by
  cases hlookup : lookup routing.router method path with
  | options allowed =>
      simp only [serve, hlookup] at h
      cases h
  | methodNotAllowed allowed =>
      simp only [serve, hlookup] at h
      cases h
  | notFound =>
      simp only [serve, hlookup] at h
      cases h
  | route index params =>
      cases hlimit : (routing.limits[index]?).join with
      | none =>
          simp only [serve, hlookup, hlimit] at h ⊢
          obtain ⟨app, happ, htarget, haccepts, hchecks, _⟩ := serveRouted_executed h
          refine ⟨app, index, params, happ, rfl, htarget, haccepts, ?_⟩
          rw [hlimit]
          exact hchecks (.inl rfl)
      | some limit =>
          simp only [serve, hlookup, hlimit] at h ⊢
          obtain ⟨world', hcharge⟩ := charge_executed h
          rw [hcharge] at h ⊢
          obtain ⟨app, happ, htarget, haccepts, hchecks, _⟩ := serveRouted_executed h
          refine ⟨app, index, params, happ, rfl, htarget, haccepts, ?_⟩
          rw [hlimit]
          exact hchecks (.inl rfl)

/-- A request the shared table has a route for is executed in some world. -/
theorem exists_serve_executed {routing : Routing} {app : CompiledApp} {index : ℕ}
    {params : List (Text × Text)} {chain : Chain} (key : K) (now : ℕ)
    (hlookup : lookup routing.router method path = .route index params)
    (htarget : app.target hash (some (routing, index)) method path = .chain chain)
    (haccepts : accepts chain = true) :
    ∃ world, (serve hash accepts method path key now (some routing) (some app) world).outcome =
      .executed chain := by
  have hrest : ∀ checks (world : World K),
      (serveRouted hash accepts method path key now (some app) (some (routing, index)) checks
        world).outcome = .executed chain := by
    intro checks world
    simp only [serveRouted, htarget]
    simp [execute, haccepts]
  refine ⟨fun _ => Buckets.new now, ?_⟩
  cases hlimit : (routing.limits[index]?).join with
  | none =>
      simp only [serve, hlookup, hlimit]
      exact hrest _ _
  | some limit =>
      simp only [serve, hlookup, hlimit]
      obtain ⟨world', hcharge⟩ := charge_new limit key now
        (serveRouted hash accepts method path key now (some app) (some (routing, index)))
      rw [hcharge]
      exact hrest _ _

/-- Whatever the limiters hold, an executed chain has paid with its own route's budget exactly
when the shared table has the limiter of the route that serves the request. -/
theorem serve_paid_iff (routing : Option Routing) (checkout : Option CompiledApp) :
    (∀ world, (serve hash accepts method path key now routing checkout world).Paid) ↔
      ∀ shared app, routing = some shared → checkout = some app →
        SamePrice hash accepts method path shared app := by
  constructor
  · rintro h shared app rfl rfl index params hlookup chain htarget haccepts own hown
    obtain ⟨world, hworld⟩ := exists_serve_executed key now hlookup htarget haccepts
    obtain ⟨limit, hchecks, hfor⟩ := h world chain own hworld hown
    obtain ⟨app', index', params', happ, hlookup', _, _, hpaid⟩ := serve_executed hworld
    rw [hlookup] at hlookup'
    cases hlookup'
    rw [hchecks] at hpaid
    cases hlimit : (shared.limits[index]?).join with
    | none =>
        rw [hlimit] at hpaid
        cases hpaid
    | some limit' =>
        rw [hlimit] at hpaid
        cases hpaid
        exact ⟨limit, rfl, hfor⟩
  · intro h world
    cases routing with
    | none => exact serve_unrouted_paid checkout world
    | some shared =>
        intro chain own hexecuted hown
        obtain ⟨app, index, params, rfl, hlookup, htarget, haccepts, hchecks⟩ :=
          serve_executed hexecuted
        obtain ⟨limit, hlimit, hfor⟩ :=
          h shared app rfl rfl index params hlookup chain htarget haccepts own hown
        rw [hlimit] at hchecks
        exact ⟨limit, hchecks, hfor⟩

/-- A state that has the application the shared table was made from charges the right
limiter. -/
theorem samePrice_of_same_app (app : CompiledApp) :
    SamePrice hash accepts method path (app.routing hash) app := by
  intro index params hlookup chain htarget _ own hown
  have hchain : app.chains[index]? = some chain := by
    unfold CompiledApp.target CompiledApp.routedChain at htarget
    rw [Option.bind_some, if_neg (by simp [CompiledApp.routing])] at htarget
    cases hget : app.chains[index]? with
    | some c =>
        rw [hget] at htarget
        cases htarget
        rfl
    | none =>
        rw [hget] at htarget
        dsimp only at htarget
        unfold CompiledApp.resolve at htarget
        rw [show lookup app.router method path = .route index params from hlookup] at htarget
        dsimp only at htarget
        rw [hget] at htarget
        cases htarget
  refine ⟨own, ?_, Chain.rate_for hown⟩
  simp [CompiledApp.routing, hchain, hown]

end

/-! ## An edited script -/

def login : Text := "/login".toList

def loginLimit : RouteLimiter := ⟨1, .other "POST".toList, login, ⟨5, 60, by decide, by decide, by decide⟩⟩

/-- The application the pool was built from: a login without a limit. -/
def builtApp : CompiledApp where
  router path := if path = login then some ([(.other "POST".toList, 0)], []) else none
  chains := [⟨.other "POST".toList, login, none, by simp⟩]

/-- The edited application of a recycled state: a new first route, and a limited login. -/
def editedApp : CompiledApp where
  router path :=
    if path = login then some ([(.other "POST".toList, 1)], [])
    else if path = "/".toList then some ([(.get, 0)], []) else none
  chains := [⟨.get, "/".toList, none, by simp⟩,
    ⟨.other "POST".toList, login, some loginLimit, by simp [loginLimit]⟩]

/-- A request routed by the table of the old script runs the limited login of the new one, and
no limiter is asked. -/
theorem serve_edited_unpaid :
    ∃ chain, (serve List.length (fun _ => true) (.other "POST".toList) login (0 : ℕ) 0
        (some (builtApp.routing List.length)) (some editedApp)
        fun _ => Buckets.new 0).outcome = .executed chain ∧ chain.rate = some loginLimit ∧
      (serve List.length (fun _ => true) (.other "POST".toList) login (0 : ℕ) 0
        (some (builtApp.routing List.length)) (some editedApp) fun _ => Buckets.new 0).checks = [] ∧
      ¬(serve List.length (fun _ => true) (.other "POST".toList) login (0 : ℕ) 0
        (some (builtApp.routing List.length)) (some editedApp) fun _ => Buckets.new 0).Paid := by
  refine ⟨⟨.other "POST".toList, login, some loginLimit, by simp [loginLimit]⟩, rfl, rfl, rfl, ?_⟩
  intro hpaid
  obtain ⟨limit, hchecks, _⟩ := hpaid _ _ rfl rfl
  cases hchecks

end Nitr.Budget
