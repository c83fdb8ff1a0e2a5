import Mathlib.Data.List.Forall2
import Nitr.App.Registration

/-! # Middleware of groups and routes

Each route carries the middleware of the groups around it, and no call can add to a group
once a route or an inner group has taken its list. -/

namespace Nitr.App

variable {F I : Type}

/-! ## Records grow at the end -/

theorem lineages_concat (record : Record F I) (entry : Op F I × Bool) :
    lineages (record ++ [entry]) = addLineage (lineages record) entry := by
  simp [lineages]

theorem appUses_append (record record' : Record F I) :
    appUses (record ++ record') = appUses record ++ appUses record' :=
  List.filterMap_append

theorem groupUses_append (record record' : Record F I) (g : ℕ) :
    groupUses (record ++ record') g = groupUses record g ++ groupUses record' g :=
  List.filterMap_append

theorem registrations_append (record record' : Record F I) :
    registrations (record ++ record') = registrations record ++ registrations record' :=
  List.filterMap_append

/-- An entry that is about neither groups nor routes. -/
structure Quiet (entry : Op F I × Bool) : Prop where
  group : ∀ g, groupUses [entry] g = []
  lineage : ∀ lineages, addLineage lineages entry = lineages
  registration : registrations [entry] = []

theorem quiet_of_failed (op : Op F I) : Quiet (op, false) := by
  constructor
  · intro g
    cases op <;> rfl
  · intro lineages
    cases op <;> rfl
  · cases op <;> rfl

theorem appUses_failed (op : Op F I) : appUses [(op, false)] = [] := by
  cases op <;> rfl

/-! ## The invariant -/

/-- What the record says a route inherits. -/
def inherited (record : Record F I) (group : Option ℕ) : List F :=
  (enclosing record group).flatMap (groupUses record)

/-- The route is the registration with what its groups hand down. -/
structure Carries (record : Record F I) (route : RouteDef F I)
    (registration : Option ℕ × RouteCall F I) : Prop where
  fns : route.fns = inherited record registration.1 ++ registration.2.own
  handler : registration.2.own ≠ []
  input : registration.2.parse.map (·.input) = .ok route.input

/-- A group's lineage ends in itself and goes through earlier groups. -/
def Descends (g : ℕ) (lineage : List ℕ) : Prop :=
  ∃ outer, lineage = outer ++ [g] ∧ ∀ a ∈ outer, a < g

structure Faithful (s : Script F I) (record : Record F I) : Prop where
  middleware : s.app.middleware = appUses record
  count : s.groups.length = (lineages record).length
  inherits : ∀ g group, s.groups[g]? = some group →
    group.state.middleware = inherited record (some g)
  descends : ∀ g < (lineages record).length, Descends g ((lineages record).getD g [])
  unused : ∀ g, (lineages record).length ≤ g → groupUses record g = []
  routes : List.Forall₂ (Carries record) s.app.routes (registrations record)
  known : ∀ registration ∈ registrations record, ∀ g, registration.1 = some g →
    g < (lineages record).length
  /-- Nothing has taken the list of an open group. -/
  untaken : ∀ g group, s.groups[g]? = some group → group.state.isSealed = false →
    (∀ g' < (lineages record).length, g' ≠ g → g ∉ (lineages record).getD g' []) ∧
      ∀ registration ∈ registrations record, g ∉ enclosing record registration.1

theorem faithful_empty : Faithful (Script.empty : Script F I) [] where
  middleware := rfl
  count := rfl
  inherits := by simp [Script.empty]
  descends := by simp [lineages]
  unused := by simp [groupUses]
  routes := .nil
  known := by simp [registrations]
  untaken := by simp [Script.empty]

/-! ## Entries that leave lists alone -/

theorem groupUses_concat {record : Record F I} {entry : Op F I × Bool}
    (h : ∀ g, groupUses [entry] g = []) : groupUses (record ++ [entry]) = groupUses record := by
  funext g
  rw [groupUses_append, h, List.append_nil]

theorem enclosing_congr {record record' : Record F I} (h : lineages record' = lineages record) :
    enclosing record' = enclosing record := by
  funext group
  cases group with
  | none => rfl
  | some g => simp [enclosing, h]

theorem inherited_congr {record record' : Record F I} (hl : lineages record' = lineages record)
    (hg : groupUses record' = groupUses record) : inherited record' = inherited record := by
  funext group
  simp [inherited, enclosing_congr hl, hg]

theorem Carries.congr {record record' : Record F I} {route : RouteDef F I}
    {registration : Option ℕ × RouteCall F I} (h : Carries record route registration)
    (hl : lineages record' = lineages record) (hg : groupUses record' = groupUses record) :
    Carries record' route registration := by
  refine ⟨?_, h.handler, h.input⟩
  rw [inherited_congr hl hg]
  exact h.fns

/-- After a quiet entry only the app's middleware may have changed. -/
theorem Faithful.quiet {s s' : Script F I} {record : Record F I} (h : Faithful s record)
    {entry : Op F I × Bool} (he : Quiet entry)
    (hmiddleware : s'.app.middleware = appUses (record ++ [entry]))
    (hgroups : s'.groups = s.groups) (hroutes : s'.app.routes = s.app.routes) :
    Faithful s' (record ++ [entry]) := by
  have hgroup := @groupUses_concat _ _ record _ he.group
  have hlineage : lineages (record ++ [entry]) = lineages record := by
    rw [lineages_concat, he.lineage]
  have hregistrations : registrations (record ++ [entry]) = registrations record := by
    rw [registrations_append, he.registration, List.append_nil]
  constructor
  · exact hmiddleware
  · rw [hgroups, hlineage]
    exact h.count
  · rw [hgroups, inherited_congr hlineage hgroup]
    exact h.inherits
  · rw [hlineage]
    exact h.descends
  · rw [hlineage, hgroup]
    exact h.unused
  · rw [hroutes, hregistrations]
    exact h.routes.imp fun route registration hc => hc.congr hlineage hgroup
  · rw [hregistrations, hlineage]
    exact h.known
  · rw [hgroups, hlineage, hregistrations, enclosing_congr hlineage]
    exact h.untaken

theorem Faithful.failed {s : Script F I} {record : Record F I} (h : Faithful s record)
    (op : Op F I) : Faithful s (record ++ [(op, false)]) := by
  refine h.quiet (quiet_of_failed op) ?_ rfl rfl
  rw [appUses_append, appUses_failed, List.append_nil]
  exact h.middleware

/-- A registered route. -/
theorem Faithful.addRoute {s : Script F I} {record : Record F I} (h : Faithful s record)
    {entry : Op F I × Bool} {route : RouteDef F I} (registration : Option ℕ × RouteCall F I)
    (happ : appUses [entry] = []) (hgroup : ∀ g, groupUses [entry] g = [])
    (hlineage : ∀ lineages, addLineage lineages entry = lineages)
    (hentry : registrations [entry] = [registration]) (hcarries : Carries record route registration)
    (hknown : ∀ g, registration.1 = some g → g < (lineages record).length)
    (hsealed : ∀ g group, s.groups[g]? = some group → group.state.isSealed = false →
      g ∉ enclosing record registration.1) :
    Faithful { s with app := { s.app with routes := s.app.routes ++ [route] } }
      (record ++ [entry]) := by
  have hgroup' := @groupUses_concat _ _ record _ hgroup
  have hlineage' : lineages (record ++ [entry]) = lineages record := by
    rw [lineages_concat, hlineage]
  have hregistrations : registrations (record ++ [entry]) = registrations record ++ [registration] := by
    rw [registrations_append, hentry]
  constructor
  · rw [appUses_append, happ, List.append_nil]
    exact h.middleware
  · rw [hlineage']
    exact h.count
  · rw [inherited_congr hlineage' hgroup']
    exact h.inherits
  · rw [hlineage']
    exact h.descends
  · rw [hlineage', hgroup']
    exact h.unused
  · rw [hregistrations]
    refine List.rel_append ?_ (.cons (hcarries.congr hlineage' hgroup') .nil)
    exact h.routes.imp fun route registration hc => hc.congr hlineage' hgroup'
  · intro r hr
    rw [hlineage']
    rw [hregistrations] at hr
    rcases List.mem_append.mp hr with hr | hr
    · exact h.known r hr
    · rw [List.mem_singleton.mp hr]
      exact hknown
  · intro g group hg hopen
    rw [hlineage', hregistrations, enclosing_congr hlineage']
    refine ⟨(h.untaken g group hg hopen).1, fun r hr => ?_⟩
    rcases List.mem_append.mp hr with hr | hr
    · exact (h.untaken g group hg hopen).2 r hr
    · rw [List.mem_singleton.mp hr]
      exact hsealed g group hg hopen

theorem forall₂_imp_of_mem {α β : Type} {r r' : α → β → Prop} {l₁ : List α} {l₂ : List β}
    (h : List.Forall₂ r l₁ l₂) (himp : ∀ a, ∀ b ∈ l₂, r a b → r' a b) :
    List.Forall₂ r' l₁ l₂ := by
  induction h with
  | nil => exact .nil
  | cons hab _ ih =>
      exact .cons (himp _ _ (List.mem_cons_self ..) hab)
        (ih fun a b hb => himp a b (List.mem_cons_of_mem _ hb))

theorem getD_append_left {lineages : List (List ℕ)} {g : ℕ} (h : g < lineages.length)
    (lineage : List ℕ) : (lineages ++ [lineage]).getD g [] = lineages.getD g [] := by
  simp [List.getD, List.getElem?_append_left h]

theorem getD_append_length (lineages : List (List ℕ)) (lineage : List ℕ) :
    (lineages ++ [lineage]).getD lineages.length [] = lineage := by
  simp [List.getD]

/-- A new group inside others. -/
theorem Faithful.addGroup {s : Script F I} {record : Record F I} (h : Faithful s record)
    {entry : Op F I × Bool} {pathPrefix : List Char} {middleware : List F} (outer : List ℕ)
    (happ : appUses [entry] = []) (hgroup : ∀ g, groupUses [entry] g = [])
    (hlineage : addLineage (lineages record) entry =
      lineages record ++ [outer ++ [(lineages record).length]])
    (hentry : registrations [entry] = [])
    (hmiddleware : middleware = outer.flatMap (groupUses record))
    (houter : ∀ a ∈ outer, a < (lineages record).length)
    (hsealed : ∀ g group, s.groups[g]? = some group → group.state.isSealed = false → g ∉ outer) :
    Faithful { s with groups := s.groups ++ [⟨pathPrefix, middleware, false⟩] }
      (record ++ [entry]) := by
  have hgroup' := @groupUses_concat _ _ record _ hgroup
  have hlineage' := (lineages_concat record entry).trans hlineage
  have hregistrations : registrations (record ++ [entry]) = registrations record := by
    rw [registrations_append, hentry, List.append_nil]
  have hlength : (lineages (record ++ [entry])).length = (lineages record).length + 1 := by
    rw [hlineage', List.length_append, List.length_singleton]
  have hold : ∀ g < (lineages record).length,
      enclosing (record ++ [entry]) (some g) = enclosing record (some g) := by
    intro g hg
    simp only [enclosing]
    rw [hlineage', getD_append_left hg]
  have hnew : enclosing (record ++ [entry]) (some (lineages record).length) =
      outer ++ [(lineages record).length] := by
    simp only [enclosing]
    rw [hlineage', getD_append_length]
  have hknown : ∀ registration ∈ registrations record,
      enclosing (record ++ [entry]) registration.1 = enclosing record registration.1 := by
    intro registration hr
    cases hgo : registration.1 with
    | none => rfl
    | some g => exact hold g (h.known registration hr g hgo)
  constructor
  · rw [appUses_append, happ, List.append_nil]
    exact h.middleware
  · rw [hlength, List.length_append, List.length_singleton, h.count]
  · intro g group hg
    rcases Nat.lt_or_ge g (lineages record).length with hlt | hge
    · rw [List.getElem?_append_left (h.count ▸ hlt)] at hg
      rw [h.inherits g group hg, inherited, inherited, hold g hlt, hgroup']
    · have hlt := (List.getElem?_eq_some_iff.mp hg).1
      rw [List.length_append, List.length_singleton, h.count] at hlt
      obtain rfl : g = (lineages record).length := by omega
      rw [← h.count, List.getElem?_concat_length] at hg
      cases hg
      rw [inherited, hnew, hgroup', List.flatMap_append, ← hmiddleware]
      simp [h.unused _ (Nat.le_refl _)]
  · intro g hg
    rw [hlength] at hg
    rw [hlineage']
    rcases Nat.lt_or_ge g (lineages record).length with hlt | hge
    · rw [getD_append_left hlt]
      exact h.descends g hlt
    · obtain rfl : g = (lineages record).length := by omega
      rw [getD_append_length]
      exact ⟨outer, rfl, houter⟩
  · intro g hg
    rw [hgroup']
    exact h.unused g (by omega)
  · rw [hregistrations]
    refine forall₂_imp_of_mem h.routes fun route registration hr hc => ?_
    refine ⟨?_, hc.handler, hc.input⟩
    rw [inherited, hknown registration hr, hgroup']
    exact hc.fns
  · intro registration hr g hg
    rw [hregistrations] at hr
    have := h.known registration hr g hg
    omega
  · intro g group hg hopen
    rcases Nat.lt_or_ge g (lineages record).length with hlt | hge
    · rw [List.getElem?_append_left (h.count ▸ hlt)] at hg
      obtain ⟨hother, hroutes⟩ := h.untaken g group hg hopen
      refine ⟨fun g' hg' hne => ?_, fun registration hr => ?_⟩
      · rw [hlength] at hg'
        rw [hlineage']
        rcases Nat.lt_or_ge g' (lineages record).length with hlt' | hge'
        · rw [getD_append_left hlt']
          exact hother g' hlt' hne
        · obtain rfl : g' = (lineages record).length := by omega
          rw [getD_append_length, List.mem_append, List.mem_singleton, not_or]
          exact ⟨hsealed g group hg hopen, by omega⟩
      · rw [hregistrations] at hr
        rw [hknown registration hr]
        exact hroutes registration hr
    · -- The new group is in no lineage but its own.
      have hfresh : ∀ g' < (lineages record).length, ∀ a ∈ (lineages record).getD g' [],
          a < (lineages record).length := by
        intro g' hg' a ha
        obtain ⟨inner, heq, hinner⟩ := h.descends g' hg'
        rw [heq] at ha
        rcases List.mem_append.mp ha with ha | ha
        · exact (hinner a ha).trans hg'
        · rw [List.mem_singleton.mp ha]
          exact hg'
      refine ⟨fun g' hg' hne hmem => ?_, fun registration hr hmem => ?_⟩
      · rw [hlength] at hg'
        have hlt := (List.getElem?_eq_some_iff.mp hg).1
        rw [List.length_append, List.length_singleton, h.count] at hlt
        have hlt' : g' < (lineages record).length := by omega
        rw [hlineage', getD_append_left hlt'] at hmem
        have := hfresh g' hlt' g hmem
        omega
      · rw [hregistrations] at hr
        rw [hknown registration hr] at hmem
        cases hgo : registration.1 with
        | none =>
            rw [hgo] at hmem
            cases hmem
        | some g' =>
            rw [hgo] at hmem
            have := hfresh g' (h.known registration hr g' hgo) g hmem
            omega

theorem getElem?_seal {groups : List (LuaGroup F)} {g : ℕ} {group : LuaGroup F}
    (hg : groups[g]? = some group) {g' : ℕ} {group' : LuaGroup F}
    (h : (groups.set g group.seal)[g']? = some group') :
    ∃ old, groups[g']? = some old ∧ group'.state.middleware = old.state.middleware ∧
      (group'.state.isSealed = false → g' ≠ g ∧ old.state.isSealed = false) := by
  by_cases heq : g' = g
  · subst heq
    have hlt := (List.getElem?_eq_some_iff.mp hg).1
    rw [List.getElem?_set_self hlt] at h
    cases h
    refine ⟨group, hg, rfl, fun hsealed => ?_⟩
    cases hsealed
  · rw [List.getElem?_set_ne (Ne.symm heq)] at h
    exact ⟨group', h, rfl, fun hsealed => ⟨heq, hsealed⟩⟩

/-- Sealing a group keeps what is known. -/
theorem Faithful.seal {s : Script F I} {record : Record F I} (h : Faithful s record) {g : ℕ}
    {group : LuaGroup F} (hg : s.groups[g]? = some group) :
    Faithful { s with groups := s.groups.set g group.seal } record where
  middleware := h.middleware
  count := by simpa using h.count
  inherits := by
    intro g' group' hg'
    obtain ⟨old, hold, hmiddleware, -⟩ := getElem?_seal hg hg'
    rw [hmiddleware]
    exact h.inherits g' old hold
  descends := h.descends
  unused := h.unused
  routes := h.routes
  known := h.known
  untaken := by
    intro g' group' hg' hsealed
    obtain ⟨old, hold, -, hopen⟩ := getElem?_seal hg hg'
    exact h.untaken g' old hold (hopen hsealed).2

/-- Middleware on an open group. -/
theorem Faithful.addUse {s : Script F I} {record : Record F I} (h : Faithful s record) {g : ℕ}
    {group : LuaGroup F} (hg : s.groups[g]? = some group) (hopen : group.state.isSealed = false)
    (mw : F) :
    Faithful { s with groups := s.groups.set g { group with
        state := { group.state with middleware := group.state.middleware ++ [mw] } } }
      (record ++ [(.groupUse g mw, true)]) := by
  have hlt := (List.getElem?_eq_some_iff.mp hg).1
  have hlt' : g < (lineages record).length := h.count ▸ hlt
  have hown : groupUses (record ++ [(.groupUse g mw, true)]) g = groupUses record g ++ [mw] := by
    rw [groupUses_append]
    simp [groupUses]
  have hother : ∀ g', g' ≠ g →
      groupUses (record ++ [(.groupUse g mw, true)]) g' = groupUses record g' := by
    intro g' hne
    rw [groupUses_append]
    simp [groupUses, Ne.symm hne]
  have hflat : ∀ lineage : List ℕ, g ∉ lineage →
      lineage.flatMap (groupUses (record ++ [(.groupUse g mw, true)])) =
        lineage.flatMap (groupUses record) := by
    intro lineage hmem
    refine List.flatMap_congr fun a ha => hother a ?_
    rintro rfl
    exact hmem ha
  have hlineage : lineages (record ++ [(.groupUse g mw, true)]) = lineages record :=
    lineages_concat record _
  have henclosing := enclosing_congr hlineage
  have hregistrations : registrations (record ++ [(.groupUse g mw, true)]) =
      registrations record := by
    rw [registrations_append]
    exact List.append_nil _
  obtain ⟨huntaken, hroutes⟩ := h.untaken g group hg hopen
  constructor
  · rw [appUses_append]
    exact h.middleware.trans (List.append_nil _).symm
  · rw [hlineage, List.length_set]
    exact h.count
  · intro g' group' hg'
    rw [inherited, henclosing]
    by_cases heq : g' = g
    · subst heq
      rw [List.getElem?_set_self hlt] at hg'
      cases hg'
      obtain ⟨outer, hends, houter⟩ := h.descends g' hlt'
      have hnot : g' ∉ outer := fun hmem => Nat.lt_irrefl _ (houter g' hmem)
      have hinherits := h.inherits g' group hg
      rw [inherited, enclosing, hends, List.flatMap_append] at hinherits
      rw [enclosing, hends, List.flatMap_append, hflat outer hnot, hinherits]
      simp [hown]
    · rw [List.getElem?_set_ne (Ne.symm heq)] at hg'
      have hlen := (List.getElem?_eq_some_iff.mp hg').1
      rw [hflat (enclosing record (some g')) (huntaken g' (h.count ▸ hlen) heq)]
      exact h.inherits g' group' hg'
  · rw [hlineage]
    exact h.descends
  · intro g' hge
    rw [hlineage] at hge
    rw [hother g' (by omega)]
    exact h.unused g' hge
  · rw [hregistrations]
    refine forall₂_imp_of_mem h.routes fun route registration hr hc => ⟨?_, hc.handler, hc.input⟩
    rw [inherited, henclosing, hflat _ (hroutes registration hr)]
    exact hc.fns
  · rw [hregistrations, hlineage]
    exact h.known
  · intro g' group' hg' hopen'
    rw [hlineage, hregistrations, henclosing]
    by_cases heq : g' = g
    · subst heq
      exact ⟨huntaken, hroutes⟩
    · rw [List.getElem?_set_ne (Ne.symm heq)] at hg'
      exact h.untaken g' group' hg' hopen'

/-! ## Registration calls -/

theorem functions_eq_ok {method : Method} {path : List Char} {args : List (Arg F)} {fs : List F}
    (h : functions method path args = .ok fs) :
    fs = args.filterMap fun arg =>
      match arg with
      | .function f => some f
      | .other _ => none := by
  induction args generalizing fs with
  | nil =>
      cases h
      rfl
  | cons arg rest ih =>
      cases arg with
      | other got => cases h
      | function f =>
          unfold functions at h
          cases hrest : functions method path rest with
          | error e =>
              rw [hrest] at h
              cases h
          | ok gs =>
              rw [hrest] at h
              cases h
              simp [← ih hrest]

/-- What a successful registration adds. -/
theorem registerRoute_eq_ok {app app' : AppDef F I} {pathPrefix : List Char} {middleware : List F}
    {call : RouteCall F I} (h : registerRoute app pathPrefix middleware call = .ok app') :
    ∃ route : RouteDef F I, app' = { app with routes := app.routes ++ [route] } ∧
      route.fns = middleware ++ call.own ∧ call.own ≠ [] ∧
      call.parse.map (·.input) = .ok route.input := by
  unfold registerRoute at h
  cases hparse : call.parse with
  | error e =>
      rw [hparse] at h
      cases h
  | ok options =>
      rw [hparse] at h
      cases hfns : functions call.method call.path call.args with
      | error e =>
          rw [hfns] at h
          cases h
      | ok fs =>
          rw [hfns] at h
          have hown : fs = call.own := functions_eq_ok hfns
          simp only [bind, Except.bind, pure, Except.pure] at h
          split at h
          · cases h
          · rename_i hne
            split at h
            · cases h
            · cases h
              refine ⟨_, rfl, by rw [hown], ?_, rfl⟩
              intro hnil
              rw [hown, hnil] at hne
              exact hne rfl

theorem makeGroup_eq_ok {s s' : Script F I} {parent path : List Char} {middleware : List F}
    (h : makeGroup s parent middleware path = .ok s') :
    ∃ pathPrefix, s' = { s with groups := s.groups ++ [⟨pathPrefix, middleware, false⟩] } := by
  unfold makeGroup at h
  cases hjoined : groupPrefix parent path with
  | error e =>
      rw [hjoined] at h
      cases h
  | ok pathPrefix =>
      rw [hjoined] at h
      cases h
      exact ⟨pathPrefix, rfl⟩

/-- A call that settles as a success or leaves the state with an error. -/
theorem Faithful.settle {s : Script F I} {record : Record F I} (h : Faithful s record)
    {op : Op F I} {result : Except AppError (Script F I)}
    (hok : ∀ s', result = .ok s' → Faithful s' (record ++ [(op, true)])) :
    Faithful (settle s result).1 (record ++ [(op, (App.settle s result).2.isNone)]) := by
  cases result with
  | error e => exact h.failed op
  | ok s' => exact hok s' rfl

theorem enclosing_sealed {s : Script F I} {record : Record F I} (h : Faithful s record) {g : ℕ}
    {group : LuaGroup F} (hg : s.groups[g]? = some group) {g' : ℕ} {group' : LuaGroup F}
    (hg' : (s.groups.set g group.seal)[g']? = some group') (hopen : group'.state.isSealed = false) :
    g' ∉ enclosing record (some g) := by
  obtain ⟨old, hold, -, hkeeps⟩ := getElem?_seal hg hg'
  obtain ⟨hne, hsealed⟩ := hkeeps hopen
  have hlt := (List.getElem?_eq_some_iff.mp hg).1
  exact (h.untaken g' old hold hsealed).1 g (h.count ▸ hlt) (Ne.symm hne)

/-- One call keeps the state true to the record. -/
theorem Faithful.step {s : Script F I} {record : Record F I} (h : Faithful s record)
    (op : Op F I) :
    Faithful (App.step s op).1 (record ++ [(op, (App.step s op).2.isNone)]) := by
  cases op with
  | use mw =>
      simp only [App.step]
      split
      · refine h.quiet ⟨fun _ => rfl, fun _ => rfl, rfl⟩ ?_ rfl rfl
        rw [appUses_append, ← h.middleware]
        rfl
      · exact h.failed _
  | onError f =>
      refine h.quiet ⟨fun _ => rfl, fun _ => rfl, rfl⟩ ?_ rfl rfl
      rw [appUses_append]
      exact h.middleware.trans (List.append_nil _).symm
  | onInvalid f =>
      refine h.quiet ⟨fun _ => rfl, fun _ => rfl, rfl⟩ ?_ rfl rfl
      rw [appUses_append]
      exact h.middleware.trans (List.append_nil _).symm
  | route call =>
      refine h.settle fun s' hs' => ?_
      cases hregister : registerRoute s.app [] [] call with
      | error e =>
          rw [hregister] at hs'
          cases hs'
      | ok app =>
          rw [hregister] at hs'
          cases hs'
          obtain ⟨route, rfl, hfns, hne, hinput⟩ := registerRoute_eq_ok hregister
          refine h.addRoute (none, call) rfl (fun _ => rfl) (fun _ => rfl) rfl
            ⟨hfns, hne, hinput⟩ ?_ ?_
          · intro g hg
            cases hg
          · intro g group _ _ hmem
            cases hmem
  | group path =>
      refine h.settle fun s' hs' => ?_
      obtain ⟨pathPrefix, rfl⟩ := makeGroup_eq_ok hs'
      refine h.addGroup [] rfl (fun _ => rfl) rfl rfl rfl ?_ ?_
      · intro a ha
        cases ha
      · intro g group _ _ hmem
        cases hmem
  | groupUse g mw =>
      simp only [App.step]
      cases hg : s.groups[g]? with
      | none => exact h.failed _
      | some group =>
          simp only
          split
          · exact h.failed _
          · rename_i hopen
            exact h.addUse hg (by simpa using hopen) mw
  | groupRoute g call =>
      simp only [App.step]
      cases hg : s.groups[g]? with
      | none => exact h.failed _
      | some group =>
          refine (h.seal hg).settle fun s' hs' => ?_
          cases hregister : registerRoute s.app group.pathPrefix group.state.middleware call with
          | error e =>
              simp only [hregister] at hs'
              cases hs'
          | ok app =>
              simp only [hregister] at hs'
              cases hs'
              obtain ⟨route, rfl, hfns, hne, hinput⟩ := registerRoute_eq_ok hregister
              rw [h.inherits g group hg] at hfns
              refine (h.seal hg).addRoute (some g, call) rfl (fun _ => rfl)
                (fun _ => rfl) rfl ⟨hfns, hne, hinput⟩ ?_ ?_
              · intro g' hg'
                cases hg'
                rw [← h.count]
                exact (List.getElem?_eq_some_iff.mp hg).1
              · intro g' group' hg' hopen
                exact enclosing_sealed h hg hg' hopen
  | groupGroup g path =>
      simp only [App.step]
      cases hg : s.groups[g]? with
      | none => exact h.failed _
      | some group =>
          refine (h.seal hg).settle fun s' hs' => ?_
          obtain ⟨pathPrefix, rfl⟩ := makeGroup_eq_ok hs'
          have hlt := (List.getElem?_eq_some_iff.mp hg).1
          refine (h.seal hg).addGroup (enclosing record (some g)) rfl (fun _ => rfl) rfl
            rfl (h.inherits g group hg) ?_ ?_
          · intro a ha
            obtain ⟨outer, heq, houter⟩ := h.descends g (h.count ▸ hlt)
            rw [enclosing, heq] at ha
            rw [← h.count]
            rcases List.mem_append.mp ha with ha | ha
            · exact (houter a ha).trans hlt
            · rw [List.mem_singleton.mp ha]
              exact hlt
          · intro g' group' hg' hopen
            exact enclosing_sealed h hg hg' hopen

/-- A whole history keeps the state true to its record. -/
theorem Faithful.run {s : Script F I} {record : Record F I} (h : Faithful s record)
    (ops : List (Op F I)) :
    Faithful (App.run s ops).1 (record ++ (App.run s ops).2) := by
  induction ops generalizing s record with
  | nil => simpa [App.run] using h
  | cons op ops ih =>
      have := ih (h.step op)
      rw [List.append_assoc] at this
      exact this

/-! ## A registered route inherits nothing later -/

theorem run_append (s : Script F I) (earlier later : List (Op F I)) :
    run s (earlier ++ later) = ((run (run s earlier).1 later).1,
      (run s earlier).2 ++ (run (run s earlier).1 later).2) := by
  induction earlier generalizing s with
  | nil => rfl
  | cons op earlier ih =>
      simp only [List.cons_append, run, ih]

theorem settle_routes {s : Script F I} {result : Except AppError (Script F I)}
    (h : ∀ s', result = .ok s' → s.app.routes <+: s'.app.routes) :
    s.app.routes <+: (settle s result).1.app.routes := by
  cases result with
  | error e => exact List.prefix_rfl
  | ok s' => exact h s' rfl

theorem registerRoute_routes {app app' : AppDef F I} {pathPrefix : List Char}
    {middleware : List F} {call : RouteCall F I}
    (h : registerRoute app pathPrefix middleware call = .ok app') :
    app.routes <+: app'.routes := by
  obtain ⟨route, rfl, -⟩ := registerRoute_eq_ok h
  exact List.prefix_append ..

theorem settle_register_routes {s : Script F I} {result : Except AppError (AppDef F I)}
    (h : ∀ app, result = .ok app → s.app.routes <+: app.routes) :
    s.app.routes <+:
      (settle s (result.map fun app => { s with app := app })).1.app.routes := by
  refine settle_routes fun s' hs' => ?_
  cases result with
  | error e => cases hs'
  | ok app =>
      cases hs'
      exact h app rfl

theorem settle_makeGroup_routes {s : Script F I} {parent path : List Char}
    {middleware : List F} :
    s.app.routes <+: (settle s (makeGroup s parent middleware path)).1.app.routes := by
  refine settle_routes fun s' hs' => ?_
  obtain ⟨pathPrefix, rfl⟩ := makeGroup_eq_ok hs'
  exact List.prefix_rfl

/-- Routes are only added. -/
theorem step_routes (s : Script F I) (op : Op F I) :
    s.app.routes <+: (step s op).1.app.routes := by
  cases op with
  | use mw =>
      simp only [step]
      split <;> exact List.prefix_rfl
  | route call => exact settle_register_routes fun app hok => registerRoute_routes hok
  | group path => exact settle_makeGroup_routes
  | onError f => exact List.prefix_rfl
  | onInvalid f => exact List.prefix_rfl
  | groupUse g mw =>
      simp only [step]
      split
      · exact List.prefix_rfl
      · split <;> exact List.prefix_rfl
  | groupRoute g call =>
      simp only [step]
      split
      · exact List.prefix_rfl
      · rename_i group hgroup
        exact @settle_register_routes _ _ { s with groups := s.groups.set g group.seal } _
          fun app hok => registerRoute_routes hok
  | groupGroup g path =>
      simp only [step]
      split
      · exact List.prefix_rfl
      · rename_i group hgroup
        exact @settle_makeGroup_routes _ _ { s with groups := s.groups.set g group.seal } _ _ _

theorem run_routes (s : Script F I) (ops : List (Op F I)) :
    s.app.routes <+: (run s ops).1.app.routes := by
  induction ops generalizing s with
  | nil => exact List.prefix_rfl
  | cons op ops ih => exact (step_routes s op).trans (ih _)

/-- What a route inherits is what its groups had when it was registered. -/
theorem inherited_at_registration (earlier later : List (Op F I)) :
    ∀ registration ∈ registrations (run Script.empty earlier).2,
      inherited (run Script.empty (earlier ++ later)).2 registration.1 =
        inherited (run Script.empty earlier).2 registration.1 := by
  intro registration hmem
  have hearlier : Faithful _ (run Script.empty earlier).2 := faithful_empty.run earlier
  have hall : Faithful _ (run Script.empty (earlier ++ later)).2 :=
    faithful_empty.run (earlier ++ later)
  obtain ⟨i, hi, hget⟩ := List.getElem_of_mem hmem
  have hlength := hearlier.routes.length_eq
  obtain ⟨more, hmore⟩ := run_routes (run Script.empty earlier).1 later
  have hroutes : (run Script.empty (earlier ++ later)).1.app.routes =
      (run Script.empty earlier).1.app.routes ++ more := by
    rw [run_append, hmore]
  have hregistrations : registrations (run Script.empty (earlier ++ later)).2 =
      registrations (run Script.empty earlier).2 ++
        registrations (run (run Script.empty earlier).1 later).2 := by
    rw [run_append, registrations_append]
  have hbefore := List.forall₂_iff_get.mp hearlier.routes
  have hafter := hall.routes
  rw [hroutes, hregistrations] at hafter
  have hafter := List.forall₂_iff_get.mp hafter
  have hcarried := hbefore.2 i (hlength ▸ hi) hi
  have hcarries := hafter.2 i (by rw [List.length_append]; omega)
    (by rw [List.length_append]; omega)
  simp only [List.get_eq_getElem, hget] at hcarried
  simp only [List.get_eq_getElem, List.getElem_append_left (hlength ▸ hi),
    List.getElem_append_left hi, hget] at hcarries
  exact List.append_cancel_right (hcarries.fns.symm.trans hcarried.fns)

end Nitr.App
