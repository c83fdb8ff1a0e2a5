import Nitr.App.Inheritance
import Nitr.App.Compile

/-! # Every route runs behind all its middleware and its validation -/

namespace Nitr.App

/-! ## Wrapping from the inside out -/

section Wrap

variable {F I S σ E : Type} (env : Env F I S σ E)

/-- `m₁(m₂(...(mₖ(chain))))`. -/
def nest (chain : Fn F S) : List F → Lua σ E (Fn F S)
  | [] => pure chain
  | mw :: rest => do
      let next ← nest chain rest
      env.call mw next

theorem wrap_append (chain : Fn F S) (inner outer : List F) :
    wrap env chain (inner ++ outer) = (do
      let next ← wrap env chain inner
      wrap env next outer) := by
  induction inner generalizing chain with
  | nil => simp [wrap]
  | cons mw inner ih =>
      simp only [List.cons_append, wrap, bind_assoc]
      congr
      funext next
      exact ih next

/-- The loop over the reversed list nests the calls in the order of the list. -/
theorem wrap_reverse (chain : Fn F S) (middleware : List F) :
    wrap env chain middleware.reverse = nest env chain middleware := by
  induction middleware with
  | nil => rfl
  | cons mw rest ih =>
      rw [List.reverse_cons, wrap_append, ih]
      simp [nest, wrap]

/-- `compose` nests the app's middleware, then the route's, around the handler or its link. -/
theorem compose_eq_nest (middleware own : List F) (handler : F) (validating : Option (Fn F S)) :
    compose env middleware (own ++ [handler]) validating =
      nest env (validating.getD (.script handler)) (middleware ++ own) := by
  unfold compose
  rw [List.getLast?_append_of_ne_nil _ (by simp), List.getLast?_singleton]
  simp only
  rw [List.dropLast_append_of_ne_nil (by simp), List.dropLast_singleton, List.append_nil,
    ← List.reverse_append, wrap_reverse]

end Wrap

/-! ## Compiled chains -/

section Compiled

variable {F I S σ E : Type} (env : Env F I S σ E)

/-- The innermost function of a route: the handler, behind validation when the route
declares an input. -/
def innermost (input : Option S) (handler : F) (invalid : Option F) : Fn F S :=
  match input with
  | some schemas => .link schemas handler invalid
  | none => .script handler

/-- The chain stored for a route with these functions. -/
structure Composes (app : AppDef F I) (route : RouteDef F I) (chain : Chain F S) : Prop where
  declared : chain.input.isSome = route.input.isSome
  stored : ∃ own, route.fns = own ++ [chain.handler] ∧ ∃ before after,
    nest env (innermost chain.input chain.handler (route.invalidFn <|> app.invalidFn))
      (app.middleware ++ own) before = .ok (chain.fns, after)

theorem bind_eq_ok {α β : Type} {x : Lua σ E α} {f : α → Lua σ E β} {s s' : σ} {b : β}
    (h : (x >>= f) s = .ok (b, s')) : ∃ a mid, x s = .ok (a, mid) ∧ f a mid = .ok (b, s') := by
  change (x s >>= fun p => f p.1 p.2) = .ok (b, s') at h
  cases hx : x s with
  | error e =>
      rw [hx] at h
      cases h
  | ok p =>
      rw [hx] at h
      exact ⟨p.1, p.2, rfl, h⟩

theorem parseInputs_isSome {route : RouteDef F I} {s s' : σ} {input : Option S}
    (h : parseInputs env route s = .ok (input, s')) : input.isSome = route.input.isSome := by
  unfold parseInputs at h
  cases hinput : route.input with
  | none =>
      rw [hinput] at h
      cases h
      rfl
  | some table =>
      rw [hinput] at h
      obtain ⟨schemas, mid, -, hpure⟩ := bind_eq_ok h
      cases hpure
      rfl

theorem compileRoute_composes {app : AppDef F I} {route : RouteDef F I} {s s' : σ}
    {chain : Chain F S} (h : compileRoute env app route s = .ok (chain, s')) :
    Composes env app route chain := by
  unfold compileRoute at h
  obtain ⟨input, mid, hinput, h⟩ := bind_eq_ok h
  cases hlast : route.fns.getLast? with
  | none =>
      rw [hlast] at h
      cases h
  | some handler =>
      rw [hlast] at h
      obtain ⟨fns, mid', hcompose, hpure⟩ := bind_eq_ok h
      cases hpure
      obtain ⟨own, hown⟩ := List.getLast?_eq_some_iff.mp hlast
      refine ⟨parseInputs_isSome env hinput, own, hown, mid, s', ?_⟩
      rw [hown, compose_eq_nest] at hcompose
      rw [← hcompose]
      cases input <;> rfl

theorem compileLoop_composes {app : AppDef F I} {routes : List (RouteDef F I)}
    {seen seen' : List (List Char × Method)} {s s' : σ} {chains : List (Chain F S)}
    (h : compileLoop env app seen routes s = .ok ((chains, seen'), s')) :
    List.Forall₂ (Composes env app) routes chains := by
  induction routes generalizing seen s chains with
  | nil =>
      cases h
      exact .nil
  | cons route rest ih =>
      unfold compileLoop at h
      obtain ⟨chain, mid, hroute, h⟩ := bind_eq_ok h
      cases hpattern : Route.toMatchit route.path with
      | error e =>
          rw [hpattern] at h
          cases h
      | ok pattern =>
          rw [hpattern] at h
          simp only at h
          split at h
          · cases h
          · obtain ⟨result, mid', hloop, hpure⟩ := bind_eq_ok h
            cases hpure
            exact .cons (compileRoute_composes env hroute) (ih hloop)

theorem compile_composes {app : AppDef F I} {statics : Bool} {s s' : σ}
    {chains : List (Chain F S)} (h : compile env statics app s = .ok (chains, s')) :
    List.Forall₂ (Composes env app) app.routes chains := by
  unfold compile at h
  split at h
  · cases h
  · obtain ⟨result, mid, hloop, h⟩ := bind_eq_ok h
    obtain ⟨-, mid', -, h⟩ := bind_eq_ok h
    obtain ⟨-, mid'', -, hpure⟩ := bind_eq_ok h
    cases hpure
    exact compileLoop_composes env hloop

end Compiled

/-! ## The validation gate -/

section Gate

variable {F S R : Type}

/-- Every call of the handler comes right after a validation of the same request against
the route's schemas that succeeded. -/
def Gated (schemas : S) (handler : F) (trace : List (Event F S R)) : Prop :=
  ∀ before f args after, trace = before ++ .handler f args :: after →
    f = handler ∧ ∃ earlier request rest,
      before = earlier ++ [.validated schemas request .success] ∧ args = .request request :: rest

theorem Gated.append {schemas : S} {handler : F} {trace more : List (Event F S R)}
    (h : Gated schemas handler trace) (hmore : Gated schemas handler more) :
    Gated schemas handler (trace ++ more) := by
  intro before f args after heq
  rcases List.append_eq_append_iff.mp heq with ⟨mid, rfl, hmid⟩ | ⟨mid, rfl, hmid⟩
  · obtain ⟨hf, earlier, request, rest, hmid', hargs⟩ := hmore mid f args after hmid
    exact ⟨hf, trace ++ earlier, request, rest, by rw [hmid', List.append_assoc], hargs⟩
  · cases mid with
    | nil =>
        obtain ⟨hf, earlier, request, rest, hnil, hargs⟩ := hmore [] f args after hmid.symm
        exact absurd hnil (by simp)
    | cons e mid =>
        obtain ⟨rfl, -⟩ := List.cons.inj hmid
        exact h before f args mid rfl

theorem gated_of_no_handler {schemas : S} {handler : F} {trace : List (Event F S R)}
    (h : ∀ f args, Event.handler f args ∉ trace) : Gated schemas handler trace := by
  intro before f args after heq
  exact absurd (by rw [heq]; simp) (h f args)

theorem afterValidation_gated (schemas : S) (handler : F) (invalid : Option F)
    {call : Awaiting R} (hcall : call.args.head? = some (.request call.request))
    (verdict : Verdict) :
    Gated schemas handler (afterValidation schemas handler invalid call verdict) := by
  cases verdict with
  | success =>
      intro before f args after heq
      obtain ⟨rest, hrest⟩ := List.head?_eq_some_iff.mp hcall
      cases before with
      | nil => cases heq
      | cons e before =>
          obtain ⟨rfl, htail⟩ := List.cons.inj heq
          cases before with
          | nil =>
              obtain ⟨hevent, -⟩ := List.cons.inj htail
              cases hevent
              exact ⟨rfl, [], call.request, rest, rfl, hrest⟩
          | cons e' before =>
              have := congrArg List.length htail
              simp at this
  | failure =>
      apply gated_of_no_handler
      cases invalid <;> simp [afterValidation]
  | other =>
      apply gated_of_no_handler
      simp [afterValidation]
  | raised =>
      apply gated_of_no_handler
      simp [afterValidation]

/-- A call that awaits its validation passes the request it validates first. -/
def Ready (s : Serving F S R) : Prop :=
  ∀ call ∈ s.awaiting, call.args.head? = some (.request call.request)

theorem poll_ready (fn : Fn F S) {s : Serving F S R} (h : Ready s) (p : Poll R) :
    Ready (poll fn s p) := by
  cases p with
  | call args =>
      cases fn with
      | script f => exact h
      | link schemas handler invalid =>
          simp only [poll]
          split
          · rename_i request hrequest
            intro call hcall
            rcases List.mem_append.mp hcall with hcall | hcall
            · exact h call hcall
            · rw [List.mem_singleton.mp hcall]
              exact hrequest
          · exact h
  | validated index verdict =>
      simp only [poll]
      split
      · intro call hcall
        exact h call (List.mem_of_mem_eraseIdx hcall)
      · exact h

theorem poll_gated {schemas : S} {handler : F} {invalid : Option F} {s : Serving F S R}
    (hready : Ready s) (h : Gated schemas handler s.trace) (p : Poll R) :
    Gated schemas handler (poll (.link schemas handler invalid) s p).trace := by
  cases p with
  | call args =>
      simp only [poll]
      split
      · exact h
      · exact h.append (gated_of_no_handler (by simp))
  | validated index verdict =>
      cases hcall : s.awaiting[index]? with
      | none =>
          simp only [poll, hcall]
          exact h
      | some call =>
          simp only [poll, hcall]
          have hmem := List.mem_of_getElem? hcall
          exact h.append (afterValidation_gated schemas handler invalid (hready call hmem) verdict)

theorem foldl_poll_gated {schemas : S} {handler : F} {invalid : Option F}
    {s : Serving F S R} (hready : Ready s) (h : Gated schemas handler s.trace)
    (polls : List (Poll R)) :
    Gated schemas handler (polls.foldl (poll (.link schemas handler invalid)) s).trace := by
  induction polls generalizing s with
  | nil => exact h
  | cons p polls ih => exact ih (poll_ready _ hready p) (poll_gated hready h p)

/-- Whatever calls the link gets, its handler runs right after a validation that succeeded. -/
theorem serve_gated (schemas : S) (handler : F) (invalid : Option F) (polls : List (Poll R)) :
    Gated schemas handler (serve (.link schemas handler invalid) polls) := by
  refine foldl_poll_gated ?_ (gated_of_no_handler (by simp)) polls
  intro call hcall
  cases hcall

end Gate

/-! ## Whole histories -/

section Histories

variable {F I S σ E : Type} (env : Env F I S σ E)

/-- The chain of a registration: its middleware, and what stands before its handler. -/
structure Behind (R : Type) (record : Record F I) (registration : Option ℕ × RouteCall F I)
    (chain : Chain F S) : Prop where
  declared : registration.2.parse.map (·.input.isSome) = .ok chain.input.isSome
  stored : ∃ own invalid, registration.2.own = own ++ [chain.handler] ∧
    (∃ before after, nest env (innermost chain.input chain.handler invalid)
      (appUses record ++ inherited record registration.1 ++ own) before =
        .ok (chain.fns, after)) ∧
    ∀ schemas, chain.input = some schemas → ∀ polls : List (Poll R),
      Gated schemas chain.handler (serve (innermost chain.input chain.handler invalid) polls)

theorem Carries.behind (R : Type) {app : AppDef F I} {record : Record F I}
    {route : RouteDef F I} {registration : Option ℕ × RouteCall F I} {chain : Chain F S}
    (hcarries : Carries record route registration) (hchain : Composes env app route chain)
    (hmiddleware : app.middleware = appUses record) :
    Behind env R record registration chain := by
  obtain ⟨fns, hfns, before, after, hnest⟩ := hchain.stored
  obtain ⟨own, last, hown⟩ := (List.eq_nil_or_concat' _).resolve_left hcarries.handler
  rw [hcarries.fns, hown, ← List.append_assoc] at hfns
  obtain ⟨hinit, hlast⟩ := List.append_inj' hfns rfl
  refine ⟨?_, own, route.invalidFn <|> app.invalidFn, ?_, ⟨before, after, ?_⟩, ?_⟩
  · rw [hchain.declared]
    have hinput := hcarries.input
    cases hparse : registration.2.parse with
    | error e =>
        rw [hparse] at hinput
        cases hinput
    | ok options =>
        rw [hparse] at hinput
        have heq : options.input = route.input := Except.ok.inj hinput
        rw [← heq]
        rfl
  · rw [hown, hlast]
  · rw [List.append_assoc, hinit, ← hmiddleware]
    exact hnest
  · intro schemas hinput polls
    rw [hinput]
    exact serve_gated schemas chain.handler _ polls

/-- In every history that compiles, every route stands behind all the middleware of the app
and of the groups around it, and behind its validation. -/
theorem compile_behind (R : Type) (ops : List (Op F I)) (statics : Bool) {st st' : σ}
    {chains : List (Chain F S)}
    (h : compile env statics (run Script.empty ops).1.app st = .ok (chains, st')) :
    List.Forall₂ (Behind env R (run Script.empty ops).2)
        (registrations (run Script.empty ops).2) chains ∧
      ∀ earlier later, ops = earlier ++ later →
        ∀ registration ∈ registrations (run Script.empty earlier).2,
          inherited (run Script.empty ops).2 registration.1 =
            inherited (run Script.empty earlier).2 registration.1 := by
  have hfaithful : Faithful _ (run Script.empty ops).2 := faithful_empty.run ops
  refine ⟨?_, ?_⟩
  · have hroutes := List.forall₂_iff_get.mp hfaithful.routes
    have hchains := List.forall₂_iff_get.mp (compile_composes env h)
    refine List.forall₂_iff_get.mpr ⟨hroutes.1.symm.trans hchains.1, fun i hi hi' => ?_⟩
    have hlt := hroutes.1 ▸ hi
    exact (hroutes.2 i hlt hi).behind env R (hchains.2 i hlt hi') hfaithful.middleware
  · intro earlier later heq registration hmem
    rw [heq]
    exact inherited_at_registration earlier later registration hmem

/-- Middleware `mw` answers with the function `mw + 10`. -/
def plainEnv : Env ℕ Unit Unit Unit Unit where
  call mw _ := pure (.script (mw + 10))
  parseInput _ _ := .ok ()
  insert _ := .ok ()
  collect _ _ := .ok ()

/-- A group with middleware 2 and a route with middleware 3, handler 4 and an input, in an app
with middleware 1. -/
def groupHistory : List (Op ℕ Unit) :=
  [.use 1, .group "/api".toList, .groupUse 0 2,
    .groupRoute 0 ⟨.post, "/users".toList, [.function 3, .function 4],
      some (.ok ⟨none, none, some ()⟩)⟩]

theorem compile_behind_group :
    inherited (run Script.empty groupHistory).2 (some 0) = [2] ∧
      List.Forall₂ (Behind plainEnv ℕ (run Script.empty groupHistory).2)
        (registrations (run Script.empty groupHistory).2)
        [⟨.script 11, 4, .post, "/api/users".toList, none, some ()⟩] :=
  ⟨by decide, (compile_behind plainEnv ℕ groupHistory false
    (show compile plainEnv false (run Script.empty groupHistory).1.app () = .ok (_, ()) by rfl)).1⟩

end Histories

end Nitr.App
