import Mathlib.Data.Set.Card
import Nitr.App.Registration
import Nitr.Lib.Text

/-! # The operations of the document

`collect` of `app/meta.rs`, with `to_openapi_path` and `default_operation_id`: what the OpenAPI
document is built from. `A` is the type of the parsed `app:doc` table, `D` of a route's `doc`
table, `I` of its compiled `input`; the parsers of the tables are parameters. -/

namespace Nitr.OpenApi

open Nitr.App (Method)

abbrev Text := List Char

/-! ## Path templates -/

structure PathParam where
  name : Text
  catchAll : Bool

/-- The parameter a segment declares. -/
def paramOf (isLast : Bool) : Text → Option PathParam
  | ['*'] => if isLast then some ⟨"splat".toList, true⟩ else none
  | ':' :: c :: rest => some ⟨c :: rest, false⟩
  | '*' :: c :: rest => if isLast then some ⟨c :: rest, true⟩ else none
  | _ => none

/-- The loop over the segments; the last one may be a catch-all. -/
def templateSegments (path : Text) (params : List PathParam) :
    List Text → Except Text (List Text × List PathParam)
  | [] => .ok ([], params)
  | seg :: rest =>
      match paramOf rest.isEmpty seg with
      | none => (templateSegments path params rest).map fun out => (seg :: out.1, out.2)
      | some param =>
          if params.any fun p => p.name = param.name then
            .error ("route path `".toList ++ path ++ "` names the parameter `".toList ++
              param.name ++ "` twice".toList)
          else
            (templateSegments path (params ++ [param]) rest).map fun out =>
              (("\x7b".toList ++ param.name ++ "\x7d".toList) :: out.1, out.2)

/-- `/users/:id` becomes a path template; a name used twice is refused. -/
def toOpenapiPath (path : Text) : Except Text (Text × List PathParam) :=
  (templateSegments path [] (path.splitOn '/')).map fun out => (['/'].intercalate out.1, out.2)

/-! ## Operation ids -/

def Method.lower : Method → Text
  | .get => "get".toList
  | .post => "post".toList
  | .put => "put".toList
  | .delete => "delete".toList
  | .patch => "patch".toList
  | .head => "head".toList
  | .options => "options".toList

def pushSlug (slug : Text) (c : Char) : Text :=
  if c.isAlphanum then slug ++ [c.toLower]
  else if slug.getLast? = some '_' || slug.isEmpty then slug
  else slug ++ ['_']

/-- The operation id of a route whose `doc` gives none. -/
def defaultOperationId (method : Method) (path : Text) : Text :=
  let template := match toOpenapiPath path with
    | .ok (template, _) => template
    | .error _ => path
  let slug := (template.foldl pushSlug []).rdropWhile (· = '_')
  if slug = [] then Method.lower method ++ "_root".toList
  else Method.lower method ++ '_' :: slug

def suffixed (base : Text) (n : ℕ) : Text := base ++ '_' :: Nat.toDigits 10 n

theorem suffixed_injective (base : Text) : Function.Injective (suffixed base) := by
  intro m n h
  have hdigits : Nat.toDigits 10 m = Nat.toDigits 10 n :=
    (List.cons.inj (List.append_cancel_left h)).2
  rw [← @Nat.ofDigitChars_ten_toDigits m, hdigits, Nat.ofDigitChars_ten_toDigits]

/-- The ids claimed so far: the place of the route, and whether its `doc` said so. -/
abbrev Ids := List (Text × ℕ × Bool)

/-- `contains_key`. -/
def containsKey (ids : Ids) (id : Text) : Bool := (ids.lookup id).isSome

theorem containsKey_iff {ids : Ids} {id : Text} :
    containsKey ids id = true ↔ id ∈ ids.map Prod.fst := by
  rw [containsKey, ← not_iff_not, Bool.not_eq_true, Option.isSome_eq_false_iff,
    Option.isNone_iff_eq_none, List.lookup_eq_none_iff, List.mem_map, not_exists]
  refine forall_congr' fun e => ?_
  rw [not_and, bne_iff_ne, ne_comm]

theorem finite_claimed (ids : Ids) (base : Text) (n : ℕ) :
    {m | n ≤ m ∧ containsKey ids (suffixed base m) = true}.Finite :=
  ((ids.map Prod.fst).finite_toSet.preimage (suffixed_injective base).injOn).subset
    fun _ hm => containsKey_iff.mp hm.2

/-- The loop that looks for a free suffix; only finitely many are claimed. -/
def freeSuffix (ids : Ids) (base : Text) (n : ℕ) : ℕ :=
  if containsKey ids (suffixed base n) then freeSuffix ids base (n + 1) else n
  termination_by {m | n ≤ m ∧ containsKey ids (suffixed base m) = true}.ncard
  decreasing_by
    rename_i hclaimed
    refine Set.ncard_lt_ncard ⟨fun m hm => ⟨Nat.le_of_succ_le hm.1, hm.2⟩, fun hsub => ?_⟩
      (finite_claimed ids base n)
    exact Nat.not_succ_le_self n (hsub ⟨le_rfl, hclaimed⟩).1

theorem freeSuffix_free (ids : Ids) (base : Text) (n : ℕ) :
    suffixed base (freeSuffix ids base n) ∉ ids.map Prod.fst := by
  rw [← containsKey_iff]
  fun_induction freeSuffix ids base n with
  | case1 n hclaimed ih => exact ih
  | case2 n hfree => exact hfree

/-! ## Collecting -/

/-- Where the script registered a route. -/
abbrev Site := Option (Text × ℕ)

structure Route (D : Type) where
  method : Method
  path : Text
  doc : Option D
  site : Site

/-- What is read of a parsed `doc` table. -/
structure RouteDoc where
  operationId : Option Text
  hidden : Bool

structure RouteMeta (I : Type) where
  method : Method
  path : Text
  doc : Option RouteDoc
  input : Option I
  operationId : Text

/-- A route the document leaves out. -/
def RouteMeta.hidden {I : Type} (m : RouteMeta I) : Bool := m.doc.any RouteDoc.hidden

structure AppMeta (A I : Type) where
  api : Option A
  routes : List (RouteMeta I)

inductive CollectError where
  | apiDoc (msg : Text)
  | reserved (site key path : Text)
  | routeDoc (msg : Text)
  | template (site msg : Text)
  | claimedTwice (id first again : Text)

def CollectError.text : CollectError → Text
  | apiDoc msg => msg
  | reserved site key path => site ++ " is reserved by ".toList ++ key ++ " = \"".toList ++ path ++
      "\": the document is served there, before the router".toList
  | routeDoc msg => msg
  | template site msg => site ++ ": ".toList ++ msg
  | claimedTwice id first again => "operation id `".toList ++ id ++
      "` is claimed twice\n  --> ".toList ++ first ++ "   (first here)\n  --> ".toList ++ again ++
      "   (again here)\n  set `doc = \x7b operation_id = \"...\" \x7d` on one of them".toList

def siteLabel : Site → Text
  | some (source, line) => source ++ ':' :: Nat.toDigits 10 line
  | none => "unknown location".toList

def Method.upper (method : Method) : Text := (Method.lower method).map Char.toUpper

def routeSite {D : Type} (route : Route D) : Text :=
  "route `".toList ++ Method.upper route.method ++ ' ' :: route.path ++ "` (".toList ++
    siteLabel route.site ++ ")".toList

section

variable {A D I : Type}

/-- The operation id of a route that is not hidden. -/
def claimId (routes : List (Route D)) (ids : Ids) (route : Route D) (explicit : Option Text) :
    Except CollectError Text :=
  let operationId := explicit.getD (defaultOperationId route.method route.path)
  match ids.lookup operationId with
  | none => .ok operationId
  | some (first, firstExplicit) =>
      if explicit.isSome || firstExplicit then
        .error (.claimedTwice operationId (siteLabel ((routes[first]?).bind Route.site))
          (siteLabel route.site))
      else .ok (suffixed operationId (freeSuffix ids operationId 2))

/-- The operation id of the route at place `i`, and the claims after it. -/
def claim (routes : List (Route D)) (ids : Ids) (i : ℕ) (route : Route D)
    (doc : Option RouteDoc) : Except CollectError (Text × Ids) :=
  let explicit := doc.bind RouteDoc.operationId
  if doc.any RouteDoc.hidden then
    .ok (explicit.getD (defaultOperationId route.method route.path), ids)
  else
    (claimId routes ids route explicit).map fun id => (id, (id, i, explicit.isSome) :: ids)

/-- The key that reserves a route's path. -/
def reservedBy (reserved : List (Text × Text)) (path : Text) : Option (Text × Text) :=
  reserved.find? fun entry => path = entry.1 || (entry.1 ++ ['/']).isPrefixOf path

variable (parseDoc : Option A → Text → D → Except Text RouteDoc)

def parseRouteDoc (api : Option A) (route : Route D) : Except CollectError (Option RouteDoc) :=
  match route.doc with
  | none => .ok none
  | some table =>
      match parseDoc api (routeSite route) table with
      | .ok doc => .ok (some doc)
      | .error msg => .error (.routeDoc msg)

/-- The checks of a route before its operation id is claimed. -/
def checkRoute (api : Option A) (reserved : List (Text × Text)) (route : Route D) :
    Except CollectError (Option RouteDoc) :=
  match reservedBy reserved route.path with
  | some (path, key) => .error (.reserved (routeSite route) key path)
  | none =>
      match parseRouteDoc parseDoc api route with
      | .error e => .error e
      | .ok doc =>
          match toOpenapiPath route.path with
          | .error msg => .error (.template (routeSite route) msg)
          | .ok _ => .ok doc

/-- The loop over the routes; `i` is the place of the first one left. -/
def collectLoop (api : Option A) (reserved : List (Text × Text)) (inputs : List (Option I))
    (all : List (Route D)) (i : ℕ) (ids : Ids) :
    List (Route D) → Except CollectError (List (RouteMeta I))
  | [] => .ok []
  | route :: rest => do
      let doc ← checkRoute parseDoc api reserved route
      let claimed ← claim all ids i route doc
      let metas ← collectLoop api reserved inputs all (i + 1) claimed.2 rest
      return ⟨route.method, route.path, doc, (inputs[i]?).bind id, claimed.1⟩ :: metas

/-- Collects the document's metadata; `apiDoc` is what the parser makes of the `app:doc` table. -/
def collect (apiDoc : Except Text (Option A)) (reserved : List (Text × Text))
    (inputs : List (Option I)) (routes : List (Route D)) : Except CollectError (AppMeta A I) :=
  match apiDoc with
  | .error msg => .error (.apiDoc msg)
  | .ok api =>
      (collectLoop parseDoc api reserved inputs routes 0 [] routes).map fun metas => ⟨api, metas⟩

end

/-! ## One claim -/

section

variable {D : Type} {routes : List (Route D)} {ids : Ids} {i : ℕ} {route : Route D}

theorem claimId_fresh {explicit : Option Text} {id : Text}
    (h : claimId routes ids route explicit = .ok id) :
    id ∉ ids.map Prod.fst ∧ ∀ e, explicit = some e → id = e := by
  rw [claimId] at h
  split at h
  · rename_i hnone
    cases h
    refine ⟨fun hmem => ?_, fun e he => by rw [he, Option.getD_some]⟩
    rw [← containsKey_iff, containsKey, hnone] at hmem
    cases hmem
  · split at h
    · cases h
    · rename_i hdefault
      cases h
      refine ⟨freeSuffix_free _ _ _, fun e he => absurd ?_ hdefault⟩
      rw [he]
      rfl

/-- Without explicit claims a default id is never refused. -/
theorem claimId_default (hids : ∀ e ∈ ids, e.2.2 = false) :
    ∃ id, claimId routes ids route none = .ok id := by
  rw [claimId]
  split
  · exact ⟨_, rfl⟩
  · rename_i first firstExplicit hsome
    have ⟨before, after, hmem, _⟩ := List.lookup_eq_some_iff.mp hsome
    have hfalse : firstExplicit = false :=
      hids _ (hmem ▸ List.mem_append_right _ List.mem_cons_self)
    rw [hfalse]
    exact ⟨_, rfl⟩

/-- What a claim leaves: an explicit id as it is, and for a route in the document a new id. -/
theorem claim_spec {doc : Option RouteDoc} {claimed : Text × Ids}
    (h : claim routes ids i route doc = .ok claimed) :
    (∀ e, doc.bind RouteDoc.operationId = some e → claimed.1 = e) ∧
      ((doc.any RouteDoc.hidden = true ∧ claimed.2 = ids) ∨
        (doc.any RouteDoc.hidden = false ∧ claimed.1 ∉ ids.map Prod.fst ∧
          claimed.2 = (claimed.1, i, (doc.bind RouteDoc.operationId).isSome) :: ids)) := by
  rw [claim] at h
  split at h
  · rename_i hhidden
    cases h
    exact ⟨fun e he => by rw [he, Option.getD_some], .inl ⟨hhidden, rfl⟩⟩
  · rename_i hshown
    cases hid : claimId routes ids route (doc.bind RouteDoc.operationId) with
    | error e =>
        rw [hid] at h
        cases h
    | ok id =>
        rw [hid] at h
        cases h
        have ⟨hfresh, hexplicit⟩ := claimId_fresh hid
        exact ⟨hexplicit, .inr ⟨Bool.eq_false_iff.mpr hshown, hfresh, rfl⟩⟩

/-- Without explicit ids every claim succeeds, and is none itself. -/
theorem claim_default {doc : Option RouteDoc} (hdoc : doc.bind RouteDoc.operationId = none)
    (hids : ∀ e ∈ ids, e.2.2 = false) :
    ∃ claimed, claim routes ids i route doc = .ok claimed ∧ ∀ e ∈ claimed.2, e.2.2 = false := by
  have ⟨id, hid⟩ : ∃ id, claimId routes ids route none = .ok id := claimId_default hids
  rw [claim, hdoc]
  split
  · exact ⟨_, rfl, hids⟩
  · rw [hid]
    exact ⟨_, rfl, List.forall_mem_cons.mpr ⟨rfl, hids⟩⟩

end

/-! ## Every claim -/

section

variable {A D I : Type} {parseDoc : Option A → Text → D → Except Text RouteDoc}

/-- The operation ids in the document. -/
def shownIds (metas : List (RouteMeta I)) : List Text :=
  (metas.filter fun m => !m.hidden).map RouteMeta.operationId

/-- The metadata of a route; an explicit operation id is kept. -/
structure Describes (parseDoc : Option A → Text → D → Except Text RouteDoc) (api : Option A)
    (route : Route D) (m : RouteMeta I) : Prop where
  method : m.method = route.method
  path : m.path = route.path
  doc : parseRouteDoc parseDoc api route = .ok m.doc
  explicit : ∀ e, m.doc.bind RouteDoc.operationId = some e → m.operationId = e

theorem checkRoute_ok {api : Option A} {reserved : List (Text × Text)} {route : Route D}
    {doc : Option RouteDoc} (h : checkRoute parseDoc api reserved route = .ok doc) :
    parseRouteDoc parseDoc api route = .ok doc := by
  rw [checkRoute] at h
  split at h
  · cases h
  · split at h
    · cases h
    · rename_i doc' hdoc
      split at h
      · cases h
      · cases h
        exact hdoc

/-- The first checks say nothing about operation ids. -/
theorem checkRoute_ne_claimedTwice {api : Option A} {reserved : List (Text × Text)}
    {route : Route D} {e : CollectError} (h : checkRoute parseDoc api reserved route = .error e)
    (id first again : Text) : e ≠ .claimedTwice id first again := by
  rintro rfl
  rw [checkRoute] at h
  split at h
  · cases h
  · split at h
    · rename_i e hdoc
      cases h
      rw [parseRouteDoc] at hdoc
      split at hdoc
      · cases hdoc
      · split at hdoc <;> cases hdoc
    · split at h <;> cases h

variable {api : Option A} {reserved : List (Text × Text)} {inputs : List (Option I)}
  {all : List (Route D)}

theorem collectLoop_ok {i : ℕ} {ids : Ids} {routes : List (Route D)} {metas : List (RouteMeta I)}
    (h : collectLoop parseDoc api reserved inputs all i ids routes = .ok metas) :
    List.Forall₂ (Describes parseDoc api) routes metas ∧ (shownIds metas).Nodup ∧
      ∀ id ∈ shownIds metas, id ∉ ids.map Prod.fst := by
  induction routes generalizing i ids metas with
  | nil =>
      cases h
      exact ⟨.nil, List.nodup_nil, nofun⟩
  | cons route routes ih =>
      rw [collectLoop] at h
      cases hcheck : checkRoute parseDoc api reserved route with
      | error e =>
          rw [hcheck] at h
          cases h
      | ok doc =>
          rw [hcheck] at h
          cases hclaim : claim all ids i route doc with
          | error e =>
              simp only [bind, Except.bind, hclaim] at h
              cases h
          | ok claimed =>
              cases hrest : collectLoop parseDoc api reserved inputs all (i + 1) claimed.2 routes with
              | error e =>
                  simp only [bind, Except.bind, hclaim, hrest] at h
                  cases h
              | ok rest =>
                  simp only [bind, Except.bind, hclaim, hrest] at h
                  cases h
                  have ⟨hdescribes, hnodup, hnew⟩ := ih hrest
                  have ⟨hexplicit, hshown⟩ := claim_spec hclaim
                  refine ⟨.cons ⟨rfl, rfl, checkRoute_ok hcheck, hexplicit⟩ hdescribes, ?_⟩
                  cases hshown with
                  | inl hhidden =>
                      have hids : shownIds (⟨route.method, route.path, doc, (inputs[i]?).bind id,
                          claimed.1⟩ :: rest) = shownIds rest := by
                        rw [shownIds, List.filter_cons_of_neg (by simp [RouteMeta.hidden, hhidden.1])]
                        rfl
                      rw [hids]
                      exact ⟨hnodup, hhidden.2 ▸ hnew⟩
                  | inr hshown =>
                      have hids : shownIds (⟨route.method, route.path, doc, (inputs[i]?).bind id,
                          claimed.1⟩ :: rest) = claimed.1 :: shownIds rest := by
                        rw [shownIds, List.filter_cons_of_pos (by simp [RouteMeta.hidden, hshown.1])]
                        rfl
                      rw [hshown.2.2] at hnew
                      rw [hids]
                      refine ⟨List.nodup_cons.mpr ⟨fun hmem => ?_, hnodup⟩, ?_⟩
                      · exact hnew _ hmem List.mem_cons_self
                      · refine List.forall_mem_cons.mpr ⟨hshown.2.1, fun id hid hmem => ?_⟩
                        exact hnew id hid (List.mem_cons_of_mem _ hmem)

/-- Without explicit ids no claim fails. -/
theorem collectLoop_default {i : ℕ} {ids : Ids} {routes : List (Route D)} {e : CollectError}
    (hdefault : ∀ route ∈ routes, ∀ doc, parseRouteDoc parseDoc api route = .ok doc →
      doc.bind RouteDoc.operationId = none)
    (hids : ∀ e ∈ ids, e.2.2 = false)
    (h : collectLoop parseDoc api reserved inputs all i ids routes = .error e)
    (id first again : Text) : e ≠ .claimedTwice id first again := by
  induction routes generalizing i ids with
  | nil => cases h
  | cons route routes ih =>
      rw [collectLoop] at h
      cases hcheck : checkRoute parseDoc api reserved route with
      | error e' =>
          rw [hcheck] at h
          cases h
          exact checkRoute_ne_claimedTwice hcheck id first again
      | ok doc =>
          rw [hcheck] at h
          have hdoc := hdefault route List.mem_cons_self doc (checkRoute_ok hcheck)
          have ⟨claimed, hclaim, hids'⟩ : ∃ claimed, claim all ids i route doc = .ok claimed ∧
              ∀ e ∈ claimed.2, e.2.2 = false := claim_default hdoc hids
          have hrest := @ih (i + 1) claimed.2
            (fun r hr => hdefault r (List.mem_cons_of_mem _ hr)) hids'
          simp only [bind, Except.bind, hclaim] at h
          cases hloop : collectLoop parseDoc api reserved inputs all (i + 1) claimed.2 routes with
          | ok metas =>
              rw [hloop] at h
              cases h
          | error e' =>
              rw [hloop] at h
              cases h
              exact hrest hloop

end

/-- The operation ids in a collected document are distinct and explicit ones are kept; and where
no route has an explicit id, the ids are never a reason to refuse the routes. -/
theorem collect_operation_ids {A D I : Type}
    (parseDoc : Option A → Text → D → Except Text RouteDoc) (apiDoc : Except Text (Option A))
    (reserved : List (Text × Text)) (inputs : List (Option I)) (routes : List (Route D)) :
    (∀ document, collect parseDoc apiDoc reserved inputs routes = .ok document →
      List.Forall₂ (Describes parseDoc document.api) routes document.routes ∧
        (shownIds document.routes).Nodup) ∧
    ((∀ api, apiDoc = .ok api → ∀ route ∈ routes, ∀ doc,
        parseRouteDoc parseDoc api route = .ok doc → doc.bind RouteDoc.operationId = none) →
      ∀ id first again,
        collect parseDoc apiDoc reserved inputs routes ≠ .error (.claimedTwice id first again)) := by
  cases apiDoc with
  | error msg => exact ⟨nofun, fun _ id first again => nofun⟩
  | ok api =>
      constructor
      · intro document h
        rw [collect] at h
        cases hloop : collectLoop parseDoc api reserved inputs routes 0 [] routes with
        | error e =>
            rw [hloop] at h
            cases h
        | ok metas =>
            rw [hloop] at h
            cases h
            have ⟨hdescribes, hnodup, _⟩ := collectLoop_ok hloop
            exact ⟨hdescribes, hnodup⟩
      · intro hdefault id first again h
        rw [collect] at h
        cases hloop : collectLoop parseDoc api reserved inputs routes 0 [] routes with
        | error e =>
            rw [hloop] at h
            cases h
            exact collectLoop_default (hdefault api rfl) (fun _ he => absurd he List.not_mem_nil)
              hloop id first again rfl
        | ok metas =>
            rw [hloop] at h
            cases h

end Nitr.OpenApi
