import Nitr.OpenApi.Spec

/-! # References and what they stand for

Every reference of the document leads to the object schema it was handed out for, and a schema
exported again is referred to as before, exactly if the titles of the application can be told
apart and written as they are. -/

namespace Nitr.OpenApi.Spec

open Validate

/-! ## The exports of an application -/

def BodyRule.exported : BodyRule → SchemaDef
  | .schema declared => declared
  | .file rule => wrapper "file" rule

def DocSchema.exported : DocSchema → SchemaDef
  | .fields schema => schema
  | .rule declared => wrapper "value" declared

/-- The schemas an operation exports, in their order. -/
def RouteMeta.exports (route : RouteMeta) : List SchemaDef :=
  (route.input.bind InputSchemas.params).toList ++ (route.input.bind InputSchemas.query).toList ++
    (route.input.bind InputSchemas.headers).toList ++
    ((route.input.bind InputSchemas.body).map fun body => body.1.exported).toList ++
    ((route.doc.map RouteDoc.responses).getD []).filterMap
      fun r => r.2.schema.map DocSchema.exported

/-- The titled schemas of the documented routes, nested ones included. -/
def AppMeta.titled (app : AppMeta) (cfg : OpenApiConfig) : List Entry :=
  (app.routes.filter (RouteMeta.shown cfg)).flatMap fun route => route.exports.flatMap entries

/-! ## What a reference promises -/

/-- The way to a component. -/
def path (name : String) : List (List Char) :=
  ["components".toList, "schemas".toList, name.toList]

/-- The reference leads to the component, which is the object under its new title. -/
structure Leads (doc : JsonValue) (h : Handed) : Prop where
  pointer : JsonPointer.ofReference (referenceText h.name) = some (path h.name)
  object : doc.follow (path h.name) = some (h.object.set "title" (.str h.name))

/-- Exporting a schema over these components. -/
def reexport (schema : SchemaDef) (components : Components) :
    Except String (JsonValue × Components) :=
  (exportSchema schema ⟨components, []⟩).map fun r => (r.1, r.2.components)

/-- Every reference handed out leads to its object, and is handed out again, with no component
added, at any later point. -/
structure References (doc : JsonValue) (walk : Walk) : Prop where
  leads : ∀ h ∈ walk.handed, Leads doc h
  again : ∀ (i j : ℕ) (h later : Handed), i ≤ j → walk.handed[i]? = some h →
    walk.handed[j]? = some later →
    reexport h.schema later.components = .ok (reference h.name, later.components)

def reserved : List String := ["ValidationError", "UnsupportedMediaType"]

/-- Titles that need no escape, are not those of the fixed components, and stand for one object
each. -/
structure Unmistakable (fam : List Entry) : Prop where
  plain : ∀ e ∈ fam, JsonPointer.Plain e.title.toList
  unreserved : ∀ e ∈ fam, e.title ∉ reserved
  distinct : Distinct fam

/-! ## References as text -/

theorem toList_referenceText (name : String) :
    (referenceText name).toList = "#/components/schemas/".toList ++ name.toList :=
  String.toList_append

theorem referenceText_eq (name : String) :
    referenceText name = .ofList ('#' :: JsonPointer.rawText (path name)) := by
  have hfixed : "#/components/schemas/".toList =
      '#' :: '/' :: ("components".toList ++ '/' :: ("schemas".toList ++ ['/'])) := by decide +kernel
  refine String.toList_injective (Eq.trans ?_ String.toList_ofList.symm)
  rw [toList_referenceText, hfixed, JsonPointer.rawText, path]
  simp only [List.flatMap_cons, List.flatMap_nil, List.cons_append, List.append_assoc,
    List.nil_append, List.append_nil]

theorem referenceText_injective : Function.Injective referenceText := by
  intro a b h
  have hlist : (referenceText a).toList = (referenceText b).toList := congrArg String.toList h
  rw [toList_referenceText, toList_referenceText] at hlist
  exact String.toList_injective (List.append_cancel_left hlist)

theorem get_reference (name : String) :
    (reference name).get "$ref" = some (.str (referenceText name)) := by
  change (OrdMap.insert _ _ _ : Keywords).get "$ref" = _
  rw [OrdMap.get_insert, if_pos rfl]

theorem reference_injective : Function.Injective reference := by
  intro a b h
  have hget := get_reference a
  rw [h, get_reference b] at hget
  exact referenceText_injective (JsonValue.str.inj (Option.some.inj hget)).symm

theorem pointer_iff (name : String) :
    JsonPointer.ofReference (referenceText name) = some (path name) ↔
      JsonPointer.Plain name.toList := by
  have hfixed : JsonPointer.Plain "components".toList ∧ JsonPointer.Plain "schemas".toList := by
    decide
  rw [referenceText_eq, JsonPointer.ofReference_rawText_iff, path, List.forall_mem_cons,
    List.forall_mem_cons, List.forall_mem_singleton, and_iff_right hfixed.1, and_iff_right hfixed.2]

theorem lastSegment_referenceText {name : String} (h : '/' ∉ name.toList) :
    lastSegment (referenceText name) = name := by
  have hpieces : (referenceText name).toList =
      ['/'].intercalate ["#".toList, "components".toList, "schemas".toList, name.toList] := by
    rw [referenceText_eq, String.toList_ofList, JsonPointer.rawText, path]
    simp [List.intercalate]
  rw [lastSegment, hpieces, List.splitOn_intercalate '/' _ (List.cons_ne_nil _ _)]
  · exact String.ofList_toList
  · intro piece hpiece
    simp only [List.mem_cons, List.not_mem_nil, or_false] at hpiece
    rcases hpiece with rfl | rfl | rfl | rfl
    · decide
    · decide
    · decide
    · exact h

/-! ## Components in the document -/

theorem get_componentsObject (api : Option ApiDoc) (components : Components) :
    ∃ keys : Keywords, componentsObject api components = .ofMap keys ∧
      keys.get "schemas" = some (.ofMap (schemas components)) := by
  refine ⟨_, rfl, ?_⟩
  rw [get_putIf_of_ne (by decide), get_insert_of_ne (by decide), OrdMap.get_insert, if_pos rfl]

theorem get_document (app : AppMeta) (cfg : OpenApiConfig) (formats : List CustomFormat)
    (paths : Keywords × ℕ) (components : Components) :
    ∃ keys : Keywords, document app cfg formats paths components = .ofMap keys ∧
      keys.get "components" = some (componentsObject app.api components) := by
  refine ⟨_, rfl, ?_⟩
  rw [get_insert_of_ne (by decide), get_putIf_of_ne (by decide), OrdMap.get_insert, if_pos rfl]

theorem follow_document (app : AppMeta) (cfg : OpenApiConfig) (formats : List CustomFormat)
    (paths : Keywords × ℕ) (components : Components) (name : String) :
    (document app cfg formats paths components).follow (path name) =
      (schemas components).get name := by
  have ⟨keys, hdoc, hcomponents⟩ := get_document app cfg formats paths components
  have ⟨inner, hobject, hschemas⟩ := get_componentsObject app.api components
  rw [hdoc, path, JsonValue.follow_ofMap, String.ofList_toList, hcomponents, Option.bind_some,
    hobject, JsonValue.follow_ofMap, String.ofList_toList, hschemas, Option.bind_some,
    JsonValue.follow_ofMap, String.ofList_toList]
  cases (schemas components).get name <;> rfl

theorem get_schemas {name : String} (h : name ∉ reserved) (components : Components) :
    (schemas components).get name = components.get name := by
  have hne : ∀ key ∈ reserved, name ≠ key := fun key hkey heq => h (heq ▸ hkey)
  rw [schemas, get_insert_of_ne (hne _ (by decide)), get_insert_of_ne (hne _ (by decide))]

/-- A fixed component is no object of a titled schema. -/
theorem get_schemas_reserved {name : String} (h : name ∈ reserved) (components : Components) :
    ∃ object, (schemas components).get name = some object ∧ object.get "title" = none := by
  simp only [reserved, List.mem_cons, List.not_mem_nil, or_false] at h
  rcases h with rfl | rfl
  · refine ⟨validationErrorSchema, ?_, ?_⟩
    · rw [schemas, get_insert_of_ne (by decide), OrdMap.get_insert, if_pos rfl]
    · exact get_object_of_notMem (by simp)
  · refine ⟨unsupportedMediaTypeSchema, ?_, ?_⟩
    · rw [schemas, OrdMap.get_insert, if_pos rfl]
    · exact get_object_of_notMem (by simp)

/-! ## What an operation exports -/

/-- The computation hands out the references of these entries, where each is by its own title,
and works on settled components. -/
structure Exports (fam : List Entry) {α : Type} (x : Exporter α) : Prop where
  traces : ∀ (w : Walk) a w', w.Sound → x w = .ok (a, w') → ∃ new, w'.Sound ∧
    w'.handed = w.handed ++ new ∧ ((∀ h ∈ new, h.Own) → new.map Handed.entry = fam)
  works : ∀ (all : List Entry) (w : Walk), Distinct all → (∀ e ∈ all, '/' ∉ e.title.toList) →
    fam ⊆ all → w.Settled all → ∃ a w', x w = .ok (a, w') ∧ w'.Settled all

namespace Exports

variable {α β : Type} {fam fam' : List Entry} {x : Exporter α}

/-- A step that only looks at the walk. -/
theorem of_reads (hx : ∀ w a w', x w = .ok (a, w') → w' = w) (hok : ∀ w, ∃ a, x w = .ok (a, w)) :
    Exports [] x where
  traces w a w' hw h := by
    refine ⟨[], ?_, ?_, fun _ => rfl⟩
    · rw [hx w a w' h]
      exact hw
    · rw [hx w a w' h, List.append_nil]
  works all w _ _ _ hw := by
    have ⟨a, ha⟩ := hok w
    exact ⟨a, w, ha, hw⟩

theorem pure (a : α) : Exports [] (pure a) :=
  of_reads (fun w b w' h => by cases h; rfl) fun w => ⟨a, rfl⟩

theorem bind {f : α → Exporter β} (hx : Exports fam x) (hf : ∀ a, Exports fam' (f a)) :
    Exports (fam ++ fam') (x >>= f) where
  traces w b w'' hw h := by
    have ⟨a, w', hrun, hrun'⟩ := bind_eq_ok.mp h
    have ⟨new, hw', hhanded, hentries⟩ := hx.traces w a w' hw hrun
    have ⟨new', hw'', hhanded', hentries'⟩ := (hf a).traces w' b w'' hw' hrun'
    refine ⟨new ++ new', hw'', ?_, fun hown => ?_⟩
    · rw [hhanded', hhanded, List.append_assoc]
    · rw [List.map_append, hentries fun h hmem => hown h (List.mem_append_left _ hmem),
        hentries' fun h hmem => hown h (List.mem_append_right _ hmem)]
  works all w hdistinct hslash hsub hw := by
    have hsub := List.append_subset.mp hsub
    have ⟨a, w', hrun, hw'⟩ := hx.works all w hdistinct hslash hsub.1 hw
    have ⟨b, w'', hrun', hw''⟩ := (hf a).works all w' hdistinct hslash hsub.2 hw'
    exact ⟨b, w'', (bind_ok hrun).trans hrun', hw''⟩

/-- A result that is only computed on. -/
theorem map {g : α → β} (hx : Exports fam x) : Exports fam (do let a ← x; return g a) := by
  rw [← List.append_nil fam]
  exact hx.bind fun a => .pure (g a)

theorem exportSchema (schema : SchemaDef) : Exports (entries schema) (exportSchema schema) where
  traces w a w' hw h := by
    have ⟨b, w₁, new, hrun, hw₁, _, hhanded, hplain⟩ := walks_traces.exportWith schema w hw
    cases h.symm.trans hrun
    exact ⟨new, hw₁, hhanded, fun hown => (hplain hown).2⟩
  works all w hdistinct _ hsub hw := by
    have ⟨w', hrun, hw', _⟩ := (walks_keeps hdistinct).exportWith schema w hw hsub
    exact ⟨_, w', hrun, hw'⟩

theorem plainSchema_untitled {schema : SchemaDef} (htitle : schema.options.title = none) :
    ∃ properties, (plainSchema schema).value = .ofMap (objectKeywords schema properties) := by
  have hvalue : (plainSchema schema).value = (settle note schema (plainObject schema)).value := rfl
  rw [hvalue, settle, htitle, plainObject, objectSchema_eq]
  exact ⟨_, rfl⟩

theorem component_eq_ok {title : String} {w w' : Walk} {object : JsonValue}
    (h : component title w = .ok (object, w')) : w' = w := by
  rw [component] at h
  cases hget : w.components.get title with
  | none =>
      rw [hget] at h
      cases h
  | some stored =>
      rw [hget] at h
      cases h
      rfl

theorem readPart_reads {exported : JsonValue} {w w' : Walk}
    {part : List (String × JsonValue) × List String}
    (h : readPart exported w = .ok (part, w')) : w' = w := by
  rw [readPart] at h
  cases href : (exported.get "$ref").bind JsonValue.asStr with
  | none =>
      rw [href] at h
      cases h
      rfl
  | some reference =>
      rw [href] at h
      have ⟨object, w₁, hrun, hpure⟩ := bind_eq_ok.mp h
      cases hpure
      exact component_eq_ok hrun

theorem readPart_inline {schema : SchemaDef} (htitle : schema.options.title = none) (w : Walk) :
    ∃ part, readPart (plainSchema schema).value w = .ok (part, w) := by
  have ⟨properties, hvalue⟩ := plainSchema_untitled htitle
  have href : ((plainSchema schema).value.get "$ref").bind JsonValue.asStr = none := by
    rw [hvalue, JsonValue.get_ofMap, ref_objectKeywords, Option.bind_none]
  rw [readPart, href]
  exact ⟨_, rfl⟩

theorem readPart_reference {title : String} {w : Walk} {object : JsonValue}
    (hslash : '/' ∉ title.toList) (hget : w.components.get title = some object) :
    ∃ part, readPart (reference title) w = .ok (part, w) := by
  have href : ((reference title).get "$ref").bind JsonValue.asStr = some (referenceText title) := by
    rw [get_reference, Option.bind_some, JsonValue.asStr]
  have hcomponent : component title w = .ok (object, w) := by rw [component, hget]
  rw [readPart, href]
  refine ⟨partOf object, ?_⟩
  change (component (lastSegment (referenceText title)) >>= _) w = _
  rw [lastSegment_referenceText hslash, bind_ok hcomponent]
  rfl

theorem partObject (schema : SchemaDef) : Exports (entries schema) (partObject schema) where
  traces w a w' hw h := by
    obtain ⟨exported, w₁, hrun, hpart⟩ := bind_eq_ok.mp h
    rw [readPart_reads hpart]
    exact (exportSchema schema).traces w exported w₁ hw hrun
  works all w hdistinct hslash hsub hw := by
    obtain ⟨w', hrun, hw', _, hheld⟩ := (walks_keeps hdistinct).exportWith schema w hw hsub
    have hpart : ∃ part, readPart (plainSchema schema).value w' = .ok (part, w') := by
      cases htitle : schema.options.title with
      | none => exact readPart_inline htitle w'
      | some title =>
          have hplain := plainSchema_titled htitle
          have hmem : (⟨schema, title, plainObject schema⟩ : Entry) ∈ entries schema := by
            rw [entries, hplain]
            exact List.mem_append_right _ (List.mem_singleton_self _)
          rw [hplain]
          exact readPart_reference (hslash _ (hsub hmem)) (hheld _ hmem)
    obtain ⟨part, hread⟩ := hpart
    exact ⟨part, w', (bind_ok (f := readPart) hrun).trans hread, hw'⟩

theorem textParameters (location : String) (schema : Option SchemaDef) :
    Exports (schema.toList.flatMap entries) (textParameters location schema) := by
  cases schema with
  | none => exact .pure []
  | some schema =>
      rw [Option.toList_some, List.flatMap_singleton]
      exact (partObject schema).map

theorem declaredParams (schema : Option SchemaDef) :
    Exports (schema.toList.flatMap entries) (declaredParams schema) := by
  cases schema with
  | none => exact .pure none
  | some schema =>
      rw [Option.toList_some, List.flatMap_singleton]
      exact (partObject schema).map

theorem readComponents : Exports [] readComponents :=
  of_reads (fun w a w' h => by cases h; rfl) fun w => ⟨w.components, rfl⟩

theorem requestBody (rule : BodyRule) (contents : List Content) :
    Exports (entries rule.exported) (requestBody rule contents) := by
  cases rule with
  | schema declared =>
      refine map ?_
      rw [← List.append_nil (entries _)]
      exact (exportSchema declared).bind fun exported => readComponents.map
  | file rule => exact map ((exportSchema (wrapper "file" rule)).map)

theorem declaredBody (body : Option (BodyRule × List Content)) :
    Exports ((body.map fun body => body.1.exported).toList.flatMap entries) (declaredBody body) := by
  cases body with
  | none => exact .pure none
  | some body =>
      rw [Option.map_some, Option.toList_some, List.flatMap_singleton]
      exact (requestBody body.1 body.2).map

/-- The export of a wrapper has the property that the wrapper is for. -/
theorem exportSchema_wrapper {name : String} {rule : Rule} {w w' : Walk} {exported : JsonValue}
    (h : OpenApi.exportSchema (wrapper name rule) w = .ok (exported, w')) :
    ∃ value, (exported.get "properties").bind (·.get name) = some value := by
  have ⟨object, w₁, hobject, hsettle⟩ := bind_eq_ok.mp h
  cases hsettle
  rw [objectSchema_eq] at hobject
  have ⟨properties, w₂, hproperties, hpure⟩ := bind_eq_ok.mp hobject
  cases hpure
  have ⟨schema, w₃, _, hpure⟩ := bind_eq_ok.mp hproperties
  cases hpure
  refine ⟨schema, ?_⟩
  rw [JsonValue.get_ofMap, properties_objectKeywords, Option.bind_some, JsonValue.get_ofMap,
    OrdMap.get_insert, if_pos rfl]

theorem jsonSchema (schema : DocSchema) : Exports (entries schema.exported) schema.jsonSchema := by
  cases schema with
  | fields schema => exact exportSchema schema
  | rule declared =>
      refine ⟨fun w a w' hw h => ?_, fun all w hdistinct hslash hsub hw => ?_⟩
      · have ⟨exported, w₁, hrun, hvalue⟩ := bind_eq_ok.mp h
        have ⟨value, hget⟩ := exportSchema_wrapper hrun
        rw [hget] at hvalue
        cases hvalue
        exact (exportSchema (wrapper "value" declared)).traces w exported w' hw hrun
      · have ⟨exported, w', hrun, hw'⟩ :=
          (exportSchema (wrapper "value" declared)).works all w hdistinct hslash hsub hw
        have ⟨value, hget⟩ := exportSchema_wrapper hrun
        refine ⟨value, w', (bind_ok hrun).trans ?_, hw'⟩
        rw [hget]
        rfl

theorem response (doc : ResponseDoc) :
    Exports ((doc.schema.map DocSchema.exported).toList.flatMap entries) (response doc) := by
  rw [Spec.response]
  cases doc.schema with
  | none => exact .pure _
  | some schema =>
      rw [Option.map_some, Option.toList_some, List.flatMap_singleton]
      exact (jsonSchema schema).map

theorem docResponses (docs : List (ℕ × ResponseDoc)) (responses : Keywords) :
    Exports ((docs.filterMap fun r => r.2.schema.map DocSchema.exported).flatMap entries)
      (docResponses docs responses) := by
  induction docs generalizing responses with
  | nil => exact .pure responses
  | cons doc rest ih =>
      have hsplit : ((doc :: rest).filterMap fun r => r.2.schema.map DocSchema.exported) =
          (doc.2.schema.map DocSchema.exported).toList ++
            rest.filterMap fun r => r.2.schema.map DocSchema.exported := by
        cases hcase : doc.2.schema <;> simp [hcase]
      rw [hsplit, List.flatMap_append]
      exact (response doc.2).bind fun r => ih _

theorem operation (route : RouteMeta) (params : List PathParam) :
    Exports (route.exports.flatMap entries) (operation route params) := by
  rw [RouteMeta.exports, List.flatMap_append, List.flatMap_append, List.flatMap_append,
    List.flatMap_append, List.append_assoc, List.append_assoc, List.append_assoc]
  refine (declaredParams _).bind fun declared => ?_
  refine (textParameters "query" _).bind fun query => ?_
  refine (textParameters "header" _).bind fun headers => ?_
  refine (declaredBody _).bind fun body => ?_
  exact (docResponses _ _).map

theorem template (route : RouteMeta) : Exports [] (template route) := by
  have ⟨result, hresult⟩ : ∃ result, toOpenapiPath route.path = .ok result := by
    cases h : toOpenapiPath route.path with
    | ok result => exact ⟨result, rfl⟩
    | error msg =>
        have hok := route.documentable
        rw [h] at hok
        cases hok
  have hrun : ∀ w, Spec.template route w = .ok (result, w) := fun w => by
    rw [Spec.template, hresult]
  exact of_reads (fun w a w' h => by cases (hrun w).symm.trans h; rfl) fun w => ⟨result, hrun w⟩

theorem pathItems (cfg : OpenApiConfig) (routes : List RouteMeta) (done : Keywords × ℕ) :
    Exports ((routes.filter (RouteMeta.shown cfg)).flatMap fun route =>
      route.exports.flatMap entries) (pathItems cfg routes done) := by
  induction routes generalizing done with
  | nil => exact .pure done
  | cons route rest ih =>
      rw [Spec.pathItems]
      by_cases hshown : route.shown cfg = true
      · rw [List.filter_cons_of_pos hshown, if_pos hshown, List.flatMap_cons]
        refine (template route).bind fun result => ?_
        exact (operation route result.2).bind fun op => ih _
      · rw [List.filter_cons_of_neg hshown, if_neg hshown]
        exact ih done

end Exports

/-! ## From the references to the titles -/

variable {doc : JsonValue} {walk : Walk} {fam : List Entry}

/-- A schema is exported again under a name that is taken only where that is its title. -/
theorem own_of_reexport {h : Handed} {components : Components} (hh : h.Sound)
    (hagain : reexport h.schema h.components = .ok (reference h.name, components)) : h.Own := by
  have ⟨title, htitle, _⟩ := hh.titled
  have hstart : Walk.Sound ⟨h.components, []⟩ := ⟨hh.named, fun _ hmem => by cases hmem⟩
  have hobject : Traces _ (objectSchema register h.schema) (objectSchema note h.schema) :=
    walks_traces.objectSchema fun f _ => walks_traces.ruleSchema f.2
  have ⟨object, w, new, hrun, hw, hgrow, _⟩ := hobject _ hstart
  rw [reexport, exportSchema_titled htitle hrun] at hagain
  have hname : (handOut w.components h.schema title object).name = h.name :=
    reference_injective (Prod.mk.inj (Except.ok.inj hagain)).1
  have htaken : w.components.get (handOut w.components h.schema title object).name ≠ none := by
    rw [hname, hgrow _ _ hh.held]
    exact Option.some_ne_none _
  have htitled := (allocate_allocated w.components title object 1).eq_title
    (objectSchema_ok hrun htitle) hw.named htaken
  have hsame : title = h.name := htitled.symm.trans hname
  rw [Handed.Own, htitle, hsame]

theorem References.own (hrefs : References doc walk) (hwalk : walk.Sound) :
    ∀ h ∈ walk.handed, h.Own := by
  intro h hmem
  have ⟨i, hi⟩ := List.mem_iff_getElem?.mp hmem
  exact own_of_reexport (hwalk.handed h hmem).1 (hrefs.again i i h h le_rfl hi hi)

/-- A name that is the title holds the object as it was exported. -/
theorem get_of_own (hwalk : walk.Sound) {h : Handed} (hmem : h ∈ walk.handed) (hown : h.Own) :
    walk.components.get h.name = some h.object := by
  have ⟨hsound, hwithin⟩ := hwalk.handed h hmem
  have ⟨title, htitle, hobject⟩ := hsound.titled
  have hsame := Option.some.inj (htitle.symm.trans hown)
  rw [hsame] at hobject
  rw [hwithin _ _ hsound.held, hobject.set_self]

theorem References.unmistakable (hrefs : References doc walk) (hwalk : walk.Sound)
    (hentries : walk.handed.map Handed.entry = fam)
    (hdoc : ∀ name, doc.follow (path name) = (schemas walk.components).get name) :
    Unmistakable fam := by
  have hown := hrefs.own hwalk
  have hhanded : ∀ e ∈ fam, ∃ h ∈ walk.handed, h.entry = e := fun e he =>
    List.mem_map.mp (hentries ▸ he)
  refine ⟨fun e he => ?_, fun e he hreserved => ?_, fun e he e' he' htitle => ?_⟩
  · obtain ⟨h, hmem, heq⟩ := hhanded e he
    rw [← heq]
    exact (pointer_iff h.name).mp (hrefs.leads h hmem).pointer
  · obtain ⟨h, hmem, heq⟩ := hhanded e he
    rw [← heq] at hreserved
    obtain ⟨fixed, hget, hnone⟩ := get_schemas_reserved hreserved walk.components
    have hleads := (hrefs.leads h hmem).object
    rw [hdoc, Handed.entry] at *
    rw [hget] at hleads
    obtain ⟨title, _, hobject⟩ := (hwalk.handed h hmem).1.titled
    rw [Option.some.inj hleads, (hobject.set h.name).get] at hnone
    cases hnone
  · obtain ⟨h, hmem, heq⟩ := hhanded e he
    obtain ⟨h', hmem', heq'⟩ := hhanded e' he'
    rw [← heq, ← heq'] at htitle ⊢
    have hget := get_of_own hwalk hmem (hown h hmem)
    have hget' := get_of_own hwalk hmem' (hown h' hmem')
    have hname : h.name = h'.name := htitle
    rw [hname, hget'] at hget
    exact (Option.some.inj hget).symm

/-! ## From the titles to the references -/

theorem settled_start (fam : List Entry) : Walk.Settled fam ⟨.empty, []⟩ where
  stored name object h := by
    rw [OrdMap.get_empty] at h
    cases h
  handed h hmem := by cases hmem
  ordered := List.Pairwise.nil

theorem sound_start : Walk.Sound ⟨.empty, []⟩ where
  named name object h := by
    rw [OrdMap.get_empty] at h
    cases h
  handed h hmem := by cases hmem

/-- A settled reference is handed out again wherever its components are kept. -/
theorem reexport_of_settled {h : Handed} (hh : h.Settled) {components : Components}
    (hwithin : Within h.components components) :
    reexport h.schema components = .ok (reference h.name, components) := by
  have ⟨w, hrun, hsame⟩ := walks_again.exportWith h.schema ⟨components, []⟩ (hh.held.mono hwithin)
  have hvalue : (plainSchema h.schema).value = reference h.name := by rw [plainSchema_titled hh.own]
  have hrun : exportSchema h.schema ⟨components, []⟩ = .ok (reference h.name, w) := hvalue ▸ hrun
  rw [reexport, hrun]
  exact congrArg (fun c => Except.ok (reference h.name, c)) hsame

theorem Unmistakable.references (hfam : Unmistakable fam) (hwalk : walk.Settled fam)
    (hdoc : ∀ name, doc.follow (path name) = (schemas walk.components).get name) :
    References doc walk where
  leads h hmem := by
    have ⟨hh, hwithin⟩ := hwalk.handed h hmem
    have hget := hwithin _ _ hh.get
    have ⟨e, he, htitle, _⟩ := hwalk.stored _ _ hget
    have hobject : Titled h.name h.object := hh.object ▸ titled_plainObject hh.own
    refine ⟨(pointer_iff h.name).mpr (htitle ▸ hfam.plain e he), ?_⟩
    rw [hdoc, get_schemas (htitle ▸ hfam.unreserved e he), hget, hobject.set_self]
  again i j h later hij hi hj := by
    have hh := (hwalk.handed h (List.mem_of_getElem? hi)).1
    refine reexport_of_settled hh ?_
    cases Nat.lt_or_eq_of_le hij with
    | inl hlt =>
        have ⟨hi', hieq⟩ := List.getElem?_eq_some_iff.mp hi
        have ⟨hj', hjeq⟩ := List.getElem?_eq_some_iff.mp hj
        have hordered := List.pairwise_iff_getElem.mp hwalk.ordered i j hi' hj' hlt
        rwa [hieq, hjeq] at hordered
    | inr heq =>
        rw [heq, hj] at hi
        rw [Option.some.inj hi]
        exact .refl _

/-! ## The document -/

theorem build_eq_ok {app : AppMeta} {cfg : OpenApiConfig} {formats : List CustomFormat} :
    build app cfg formats = .ok (doc, walk) ↔
      ∃ paths, pathItems cfg app.routes (.empty, 0) ⟨.empty, []⟩ = .ok (paths, walk) ∧
        document app cfg formats paths walk.components = doc := by
  rw [build]
  cases pathItems cfg app.routes (.empty, 0) ⟨.empty, []⟩ with
  | error e =>
      constructor
      · intro h
        cases h
      · intro ⟨_, h, _⟩
        cases h
  | ok result =>
      constructor
      · intro h
        cases h
        exact ⟨result.1, rfl, rfl⟩
      · intro ⟨paths, hrun, hdoc⟩
        cases hrun
        rw [← hdoc]
        rfl

/-- The document is built and its references lead to what they stand for exactly if the titles
are unmistakable. -/
theorem build_references_iff (app : AppMeta) (cfg : OpenApiConfig) (formats : List CustomFormat) :
    (∃ doc walk, build app cfg formats = .ok (doc, walk) ∧ References doc walk) ↔
      Unmistakable (app.titled cfg) := by
  have hexports := Exports.pathItems cfg app.routes (.empty, 0)
  constructor
  · intro ⟨doc, walk, hbuild, hrefs⟩
    have ⟨paths, hrun, hdoc⟩ := build_eq_ok.mp hbuild
    have ⟨new, hwalk, hhanded, hentries⟩ := hexports.traces _ _ _ sound_start hrun
    rw [List.nil_append] at hhanded
    have hown := hrefs.own hwalk
    rw [hhanded] at hown
    refine hrefs.unmistakable hwalk (hhanded ▸ hentries hown) fun name => ?_
    rw [← hdoc, follow_document]
  · intro hfam
    have ⟨paths, walk, hrun, hwalk⟩ := hexports.works _ _ hfam.distinct
      (fun e he => (hfam.plain e he).slash) (List.Subset.refl _) (settled_start _)
    refine ⟨_, walk, build_eq_ok.mpr ⟨paths, hrun, rfl⟩, hfam.references hwalk fun name => ?_⟩
    rw [follow_document]

/-! ## A title with a slash -/

def textField : Rule := ⟨{ kind := .string }, none, none, none, none, none⟩

/-- A query with one text field, under a title that reads as two segments. -/
def slashedQuery : SchemaDef := ⟨[("q", textField)], { title := some "notes/list" }⟩

def slashedRoute : RouteMeta where
  method := .get
  path := "/notes".toList
  doc := none
  input := some ⟨none, some slashedQuery, none, none⟩
  operationId := "get_notes"
  documentable := by decide +kernel

def slashedApp : AppMeta := ⟨none, [slashedRoute]⟩

theorem bind_error {α β : Type} {x : Exporter α} {f : α → Exporter β} {w : Walk} {e : String}
    (h : x w = .error e) : (x >>= f) w = .error e := by
  change (x w >>= fun p => f p.1 p.2) = _
  rw [h]
  rfl

theorem partObject_slashedQuery :
    partObject slashedQuery ⟨.empty, []⟩ =
      .error "component `list` was referenced before being defined" := by
  have hobject : ∃ object, objectSchema register slashedQuery ⟨.empty, []⟩ =
      .ok (object, ⟨.empty, []⟩) := ⟨_, rfl⟩
  have ⟨object, hrun⟩ := hobject
  have hexport := exportSchema_of_placed rfl hrun (allocate_of_free (OrdMap.get_empty "notes/list"))
  have hsegment : lastSegment (referenceText "notes/list") = "list" := by decide +kernel
  have href : ((reference "notes/list").get "$ref").bind JsonValue.asStr =
      some (referenceText "notes/list") := by
    rw [get_reference, Option.bind_some, JsonValue.asStr]
  refine (bind_ok hexport).trans ?_
  rw [readPart, href]
  refine bind_error ?_
  rw [hsegment, component, Walk.push, get_insert_of_ne (by decide), OrdMap.get_empty]
  rfl

theorem pathItems_slashedApp :
    pathItems ⟨true, []⟩ slashedApp.routes (.empty, 0) ⟨.empty, []⟩ =
      .error "component `list` was referenced before being defined" := by
  have htemplate : ∃ result, template slashedRoute ⟨.empty, []⟩ = .ok (result, ⟨.empty, []⟩) :=
    ⟨_, rfl⟩
  have ⟨result, hrun⟩ := htemplate
  refine (bind_ok hrun).trans (bind_error ?_)
  refine (bind_ok (pure_ok none _)).trans (bind_error (bind_error ?_))
  exact partObject_slashedQuery

/-- The build fails on the title, and no reference leads anywhere. -/
theorem build_slashedApp :
    build slashedApp ⟨true, []⟩ [] = .error "component `list` was referenced before being defined" ∧
      ¬∃ doc walk, build slashedApp ⟨true, []⟩ [] = .ok (doc, walk) ∧ References doc walk := by
  have hbuild : build slashedApp ⟨true, []⟩ [] =
      .error "component `list` was referenced before being defined" := by
    rw [build, pathItems_slashedApp]
    rfl
  refine ⟨hbuild, fun ⟨doc, walk, hrun, _⟩ => ?_⟩
  rw [hbuild] at hrun
  cases hrun

end Nitr.OpenApi.Spec
