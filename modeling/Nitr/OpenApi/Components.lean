import Nitr.OpenApi.Export

/-! # The components of a walk

What every walk keeps of its components, and what it keeps beyond that where no two schemas that
share a title differ. -/

namespace Nitr.OpenApi

open Validate

/-! ## Objects and their titles -/

/-- An object that carries this title. -/
def Titled (title : String) (object : JsonValue) : Prop :=
  ∃ keys : Keywords, object = .ofMap keys ∧ keys.get "title" = some (.str title)

variable {title name : String} {object : JsonValue}

theorem Titled.get (h : Titled title object) : object.get "title" = some (.str title) := by
  have ⟨keys, heq, htitle⟩ := h
  rw [heq, JsonValue.get_ofMap, htitle]

theorem Titled.set_self (h : Titled title object) : object.set "title" (.str title) = object := by
  have ⟨keys, heq, htitle⟩ := h
  rw [heq, JsonValue.set_ofMap, keys.insert_of_get htitle]

theorem Titled.set (h : Titled title object) (name : String) :
    Titled name (object.set "title" (.str name)) := by
  have ⟨keys, heq, _⟩ := h
  refine ⟨keys.insert "title" (.str name), ?_, ?_⟩
  · rw [heq, JsonValue.set_ofMap]
  · rw [OrdMap.get_insert, if_pos rfl]

theorem Titled.unique (h : Titled title object) (h' : Titled name object) : title = name := by
  have heq := h.get.symm.trans h'.get
  exact JsonValue.str.inj (Option.some.inj heq)

theorem objectSchema_eq {m : Type → Type} [Monad m]
    (place : SchemaDef → String → JsonValue → m JsonValue) (schema : SchemaDef) :
    objectSchema place schema = do
      let properties ← propertySchemas place schema.fields .empty
      return .ofMap (objectKeywords schema properties) := by
  cases schema with
  | mk fields options => rfl

theorem titled_objectKeywords {schema : SchemaDef} (htitle : schema.options.title = some title)
    (properties : Keywords) : Titled title (.ofMap (objectKeywords schema properties)) :=
  ⟨_, rfl, by rw [title_objectKeywords, htitle, Option.map_some]⟩

theorem titled_plainObject {schema : SchemaDef} (htitle : schema.options.title = some title) :
    Titled title (plainObject schema) := by
  rw [plainObject, objectSchema_eq]
  exact titled_objectKeywords htitle _

/-! ## Allocating a name -/

/-- Every component that is there stays as it is. -/
def Within (c c' : Components) : Prop :=
  ∀ name object, c.get name = some object → c'.get name = some object

theorem Within.refl (c : Components) : Within c c := fun _ _ h => h

theorem Within.trans {c c' c'' : Components} (h : Within c c') (h' : Within c' c'') :
    Within c c'' := fun name object hget => h' name object (h name object hget)

/-- Every component carries its name as its title. -/
def Named (c : Components) : Prop :=
  ∀ name object, c.get name = some object → Titled name object

/-- What placing an object under a name does to the components. -/
inductive Allocated (c : Components) (object : JsonValue) (name : String) : Components → Prop
  | same (held : c.get name = some object) : Allocated c object name c
  | fresh (free : c.get name = none) :
      Allocated c object name (c.insert name (object.set "title" (.str name)))

theorem allocate_allocated (c : Components) (title : String) (object : JsonValue) (n : ℕ) :
    Allocated c object (allocate c title object n).1 (allocate c title object n).2 := by
  fun_induction allocate c title object n with
  | case1 n hget => exact .same hget
  | case2 n existing hget hne ih => exact ih
  | case3 n hget => exact .fresh hget

theorem componentName_one (title : String) : componentName title 1 = title := if_pos rfl

theorem allocate_of_held {c : Components} (h : c.get title = some object) :
    allocate c title object 1 = (title, c) := by
  have hname := componentName_one title
  fun_cases allocate c title object 1 with
  | case1 hget => rw [hname]
  | case2 existing hget hne =>
      rw [hname, h] at hget
      exact absurd (Option.some.inj hget).symm hne
  | case3 hget =>
      rw [hname, h] at hget
      cases hget

theorem allocate_of_free {c : Components} (h : c.get title = none) :
    allocate c title object 1 = (title, c.insert title (object.set "title" (.str title))) := by
  have hname := componentName_one title
  fun_cases allocate c title object 1 with
  | case1 hget =>
      rw [hname, h] at hget
      cases hget
  | case2 existing hget hne =>
      rw [hname, h] at hget
      cases hget
  | case3 hget => rw [hname]

theorem within_insert {c : Components} (hfree : c.get name = none) (object : JsonValue) :
    Within c (c.insert name object) := by
  intro other stored hget
  rw [OrdMap.get_insert, if_neg, hget]
  intro heq
  rw [heq, hfree] at hget
  cases hget

namespace Allocated

variable {c c' : Components}

theorem within (h : Allocated c object name c') : Within c c' := by
  cases h with
  | same _ => exact .refl c
  | fresh hfree => exact within_insert hfree _

theorem named (h : Allocated c object name c') (hobject : Titled title object) (hc : Named c) :
    Named c' := by
  cases h with
  | same _ => exact hc
  | fresh hfree =>
      intro other stored hget
      rw [OrdMap.get_insert] at hget
      by_cases heq : other = name
      · rw [if_pos heq] at hget
        rw [heq, ← Option.some.inj hget]
        exact hobject.set name
      · rw [if_neg heq] at hget
        exact hc other stored hget

/-- The name holds the object, under its own title or the new one. -/
theorem held (h : Allocated c object name c') (hobject : Titled title object) (hc : Named c) :
    c'.get name = some (object.set "title" (.str name)) := by
  cases h with
  | same hget =>
      have hname := (hc name object hget).unique hobject
      rw [hget, (hc name object hget).set_self]
  | fresh hfree => rw [OrdMap.get_insert, if_pos rfl]

/-- A name that was taken is found again only by the schema it is the title of. -/
theorem eq_title (h : Allocated c object name c') (hobject : Titled title object) (hc : Named c)
    (htaken : c.get name ≠ none) : name = title := by
  cases h with
  | same hget => exact (hc name object hget).unique hobject
  | fresh hfree => exact absurd hfree htaken

end Allocated

/-! ## Steps of the exporter -/

variable {α β : Type} {x : Exporter α} {f : α → Exporter β} {w w' w'' : Walk} {a : α} {b : β}

theorem bind_ok (hx : x w = .ok (a, w')) : (x >>= f) w = f a w' := by
  change (x w >>= fun p => f p.1 p.2) = _
  rw [hx]
  rfl

theorem bind_eq_ok :
    (x >>= f) w = .ok (b, w'') ↔ ∃ a w', x w = .ok (a, w') ∧ f a w' = .ok (b, w'') := by
  constructor
  · intro h
    change (x w >>= fun p => f p.1 p.2) = _ at h
    cases hx : x w with
    | error e =>
        rw [hx] at h
        cases h
    | ok p =>
        rw [hx] at h
        exact ⟨p.1, p.2, rfl, h⟩
  · intro ⟨a, w', hx, hf⟩
    rw [bind_ok hx, hf]

theorem pure_ok (a : α) (w : Walk) : (pure a : Exporter α) w = .ok (a, w) := rfl

theorem register_ok (schema : SchemaDef) (title : String) (object : JsonValue) (w : Walk) :
    register schema title object w =
      .ok (reference (handOut w.components schema title object).name,
        w.push (handOut w.components schema title object)) := rfl

theorem exportSchema_titled {schema : SchemaDef} {object : JsonValue}
    (htitle : schema.options.title = some title)
    (h : objectSchema register schema w = .ok (object, w')) :
    exportSchema schema w = .ok (reference (handOut w'.components schema title object).name,
      w'.push (handOut w'.components schema title object)) := by
  rw [exportSchema, exportWith, bind_ok h, settle, htitle]
  exact register_ok schema title object w'

theorem exportSchema_of_placed {schema : SchemaDef} {c : Components}
    (htitle : schema.options.title = some title)
    (h : objectSchema register schema w = .ok (object, w'))
    (hplaced : allocate w'.components title object 1 = (name, c)) :
    exportSchema schema w = .ok (reference name, w'.push ⟨schema, object, name, c⟩) := by
  rw [exportSchema_titled htitle h, handOut, hplaced]

theorem objectSchema_ok {schema : SchemaDef} {object : JsonValue}
    (h : objectSchema register schema w = .ok (object, w'))
    (htitle : schema.options.title = some title) : Titled title object := by
  rw [objectSchema_eq] at h
  have ⟨properties, w₁, _, hpure⟩ := bind_eq_ok.mp h
  cases hpure
  exact titled_objectKeywords htitle properties

/-! ## Every walk -/

namespace Handed

/-- The name is the title of the schema. -/
def Own (h : Handed) : Prop := h.schema.options.title = some h.name

def entry (h : Handed) : Entry := ⟨h.schema, h.name, h.object⟩

/-- The component of that name is the object under its new title. -/
structure Sound (h : Handed) : Prop where
  titled : ∃ title, h.schema.options.title = some title ∧ Titled title h.object
  named : Named h.components
  held : h.components.get h.name = some (h.object.set "title" (.str h.name))

end Handed

/-- What holds of every walk: the components only grow. -/
structure Walk.Sound (w : Walk) : Prop where
  named : Named w.components
  handed : ∀ h ∈ w.handed, h.Sound ∧ Within h.components w.components

theorem Walk.Sound.register {schema : SchemaDef} (hw : w.Sound)
    (htitle : schema.options.title = some title) (hobject : Titled title object) :
    (handOut w.components schema title object).Sound ∧
      Within w.components (handOut w.components schema title object).components := by
  have hplaced := allocate_allocated w.components title object 1
  exact ⟨⟨⟨title, htitle, hobject⟩, hplaced.named hobject hw.named, hplaced.held hobject hw.named⟩,
    hplaced.within⟩

theorem Walk.Sound.push {h : Handed} (hw : w.Sound) (hc : Within w.components h.components)
    (hh : h.Sound) : (w.push h).Sound := by
  refine ⟨hh.named, fun h' hmem => ?_⟩
  rw [Walk.push, List.mem_append, List.mem_singleton] at hmem
  cases hmem with
  | inl hmem => exact ⟨(hw.handed h' hmem).1, (hw.handed h' hmem).2.trans hc⟩
  | inr hmem =>
      rw [hmem]
      exact ⟨hh, .refl _⟩

/-- Where every reference handed out on the way is by title, the result is the plain one and the
references are those of the titled schemas come upon. -/
def Traces (α : Type) (x : Exporter α) (y : Noted α) : Prop :=
  ∀ w : Walk, w.Sound → ∃ a w' new, x w = .ok (a, w') ∧ w'.Sound ∧
    Within w.components w'.components ∧ w'.handed = w.handed ++ new ∧
    ((∀ h ∈ new, h.Own) → a = y.value ∧ new.map Handed.entry = y.found)

theorem Traces.pure (a : α) : Traces α (pure a) (pure a) := fun w hw =>
  ⟨a, w, [], rfl, hw, .refl _, (List.append_nil _).symm, fun _ => ⟨rfl, rfl⟩⟩

theorem Traces.bind {y : Noted α} {g : α → Noted β} (hx : Traces α x y)
    (hf : ∀ a, Traces β (f a) (g a)) : Traces β (x >>= f) (y >>= g) := by
  intro w hw
  have ⟨a, w₁, new, hrun, hw₁, hgrow, hhanded, hplain⟩ := hx w hw
  have ⟨b, w₂, new', hrun', hw₂, hgrow', hhanded', hplain'⟩ := hf a w₁ hw₁
  refine ⟨b, w₂, new ++ new', (bind_ok hrun).trans hrun', hw₂, hgrow.trans hgrow', ?_, fun hown => ?_⟩
  · rw [hhanded', hhanded, List.append_assoc]
  · have ⟨ha, hentries⟩ := hplain fun h hmem => hown h (List.mem_append_left _ hmem)
    have ⟨hb, hentries'⟩ := hplain' fun h hmem => hown h (List.mem_append_right _ hmem)
    subst ha
    exact ⟨hb, by rw [List.map_append, hentries, hentries']; rfl⟩

theorem plainSchema_titled {schema : SchemaDef} (htitle : schema.options.title = some title) :
    plainSchema schema =
      ⟨reference title,
        (objectSchema note schema).found ++ [⟨schema, title, plainObject schema⟩]⟩ := by
  change (⟨(settle note schema (plainObject schema)).value, (objectSchema note schema).found ++
    (settle note schema (plainObject schema)).found⟩ : Noted JsonValue) = _
  rw [settle, htitle]
  rfl

theorem Traces.settle (schema : SchemaDef)
    (h : Traces _ (objectSchema register schema) (objectSchema note schema)) :
    Traces _ (exportSchema schema) (plainSchema schema) := by
  cases htitle : schema.options.title with
  | none =>
      refine h.bind fun object => ?_
      rw [OpenApi.settle, OpenApi.settle, htitle]
      exact .pure object
  | some title =>
      intro w hw
      have ⟨object, w₁, new, hrun, hw₁, hgrow, hhanded, hplain⟩ := h w hw
      have hobject := objectSchema_ok hrun htitle
      have ⟨hsound, hwithin⟩ := hw₁.register htitle hobject
      refine ⟨_, _, new ++ [handOut w₁.components schema title object],
        exportSchema_titled htitle hrun, hw₁.push hwithin hsound, hgrow.trans hwithin, ?_, fun hown => ?_⟩
      · rw [Walk.push, hhanded, List.append_assoc]
      · have ⟨ha, hentries⟩ := hplain fun h hmem => hown h (List.mem_append_left _ hmem)
        have hself : schema.options.title =
            some (handOut w₁.components schema title object).name :=
          hown _ (List.mem_append_right _ (List.mem_singleton_self _))
        have hname := Option.some.inj (htitle.symm.trans hself)
        have hentry : (handOut w₁.components schema title object).entry =
            ⟨schema, title, plainObject schema⟩ := by
          rw [Handed.entry, ← hname, plainObject, ← ha]
          rfl
        rw [plainSchema_titled htitle]
        refine ⟨congrArg reference hname.symm, ?_⟩
        rw [List.map_append, hentries, List.map_singleton, hentry]

theorem walks_traces : Walks register note Traces := ⟨.pure, .bind, Traces.settle⟩

/-! ## Walks over schemas with one object for each title -/

/-- Each title stands for one object among the entries. -/
def Distinct (fam : List Entry) : Prop :=
  ∀ e ∈ fam, ∀ e' ∈ fam, e.title = e'.title → e.object = e'.object

/-- The components hold these entries. -/
def Holds (c : Components) (fam : List Entry) : Prop := ∀ e ∈ fam, c.get e.title = some e.object

theorem Holds.mono {c c' : Components} {fam : List Entry} (h : Holds c fam) (hc : Within c c') :
    Holds c' fam := fun e he => hc _ _ (h e he)

theorem holds_append {c : Components} {fam fam' : List Entry} :
    Holds c (fam ++ fam') ↔ Holds c fam ∧ Holds c fam' := List.forall_mem_append

/-- A reference by title to the plain object, among components that hold what is nested too. -/
structure Handed.Settled (h : Handed) : Prop where
  own : h.Own
  object : h.object = plainObject h.schema
  held : Holds h.components (entries h.schema)

/-- The component of a settled reference, where it was handed out and ever after. -/
theorem Handed.Settled.get {h : Handed} (hh : h.Settled) :
    h.components.get h.name = some h.object := by
  have hmem : (⟨h.schema, h.name, plainObject h.schema⟩ : Entry) ∈ entries h.schema := by
    rw [entries, plainSchema_titled hh.own]
    exact List.mem_append_right _ (List.mem_singleton_self _)
  rw [hh.object]
  exact hh.held _ hmem

structure Walk.Settled (fam : List Entry) (w : Walk) : Prop where
  stored : ∀ name object, w.components.get name = some object →
    ∃ e ∈ fam, e.title = name ∧ e.object = object
  handed : ∀ h ∈ w.handed, h.Settled ∧ Within h.components w.components
  ordered : w.handed.Pairwise fun h later => Within h.components later.components

/-- The exporter returns the plain result and keeps the components settled. -/
def Keeps (fam : List Entry) (α : Type) (x : Exporter α) (y : Noted α) : Prop :=
  ∀ w : Walk, w.Settled fam → y.found ⊆ fam → ∃ w', x w = .ok (y.value, w') ∧ w'.Settled fam ∧
    Within w.components w'.components ∧ Holds w'.components y.found

variable {fam : List Entry}

theorem Keeps.pure (a : α) : Keeps fam α (pure a) (pure a) := fun w hw _ =>
  ⟨w, rfl, hw, .refl _, fun _ he => absurd he List.not_mem_nil⟩

theorem Keeps.bind {y : Noted α} {g : α → Noted β} (hx : Keeps fam α x y)
    (hf : ∀ a, Keeps fam β (f a) (g a)) : Keeps fam β (x >>= f) (y >>= g) := by
  intro w hw hfam
  have hfam := List.append_subset.mp hfam
  have ⟨w₁, hrun, hw₁, hgrow, hheld⟩ := hx w hw hfam.1
  have ⟨w₂, hrun', hw₂, hgrow', hheld'⟩ := hf y.value w₁ hw₁ hfam.2
  exact ⟨w₂, (bind_ok hrun).trans hrun', hw₂, hgrow.trans hgrow',
    holds_append.mpr ⟨hheld.mono hgrow', hheld'⟩⟩

/-- Placing an entry finds its object under its title or puts it there. -/
theorem Walk.Settled.place (hfam : Distinct fam) (hw : w.Settled fam) {e : Entry} (he : e ∈ fam)
    (hobject : Titled e.title e.object) :
    ∃ c, allocate w.components e.title e.object 1 = (e.title, c) ∧ Within w.components c ∧
      c.get e.title = some e.object ∧
      ∀ name object, c.get name = some object → ∃ e ∈ fam, e.title = name ∧ e.object = object := by
  cases hget : w.components.get e.title with
  | none =>
      refine ⟨_, allocate_of_free hget, within_insert hget _, ?_, fun name object hstored => ?_⟩
      · rw [OrdMap.get_insert, if_pos rfl, hobject.set_self]
      · rw [OrdMap.get_insert, hobject.set_self] at hstored
        by_cases hname : name = e.title
        · rw [if_pos hname] at hstored
          exact ⟨e, he, hname.symm, Option.some.inj hstored⟩
        · rw [if_neg hname] at hstored
          exact hw.stored name object hstored
  | some stored =>
      have ⟨e', he', htitle, hsame⟩ := hw.stored _ _ hget
      rw [← hsame, hfam e' he' e he htitle] at hget
      exact ⟨_, allocate_of_held hget, .refl _, hget, hw.stored⟩

theorem Walk.Settled.push {h : Handed} (hw : w.Settled fam)
    (hc : Within w.components h.components)
    (hstored : ∀ name object, h.components.get name = some object →
      ∃ e ∈ fam, e.title = name ∧ e.object = object)
    (hh : h.Settled) : (w.push h).Settled fam := by
  refine ⟨hstored, fun h' hmem => ?_, ?_⟩
  · rw [Walk.push, List.mem_append, List.mem_singleton] at hmem
    cases hmem with
    | inl hmem => exact ⟨(hw.handed h' hmem).1, (hw.handed h' hmem).2.trans hc⟩
    | inr hmem =>
        rw [hmem]
        exact ⟨hh, .refl _⟩
  · refine List.pairwise_append.mpr ⟨hw.ordered, List.pairwise_singleton _ _, fun h' hmem l hl => ?_⟩
    rw [List.mem_singleton.mp hl]
    exact (hw.handed h' hmem).2.trans hc

theorem Keeps.settle (hfam : Distinct fam) (schema : SchemaDef)
    (h : Keeps fam _ (objectSchema register schema) (objectSchema note schema)) :
    Keeps fam _ (exportSchema schema) (plainSchema schema) := by
  cases htitle : schema.options.title with
  | none =>
      refine h.bind fun object => ?_
      rw [OpenApi.settle, OpenApi.settle, htitle]
      exact .pure object
  | some title =>
      intro w hw hsub
      rw [plainSchema_titled htitle] at hsub ⊢
      have hsub := List.append_subset.mp hsub
      have ⟨w₁, hrun, hw₁, hgrow, hheld⟩ := h w hw hsub.1
      have ⟨c, hplace, hc, hget, hstored⟩ := hw₁.place hfam (hsub.2 (List.mem_singleton_self _))
        (titled_plainObject htitle)
      have hall : Holds c ((objectSchema note schema).found ++ [⟨schema, title, plainObject schema⟩]) :=
        holds_append.mpr ⟨hheld.mono hc, fun e he => by rw [List.mem_singleton.mp he]; exact hget⟩
      have hsettled : Handed.Settled ⟨schema, plainObject schema, title, c⟩ :=
        ⟨htitle, rfl, by rw [entries, plainSchema_titled htitle]; exact hall⟩
      refine ⟨w₁.push ⟨schema, plainObject schema, title, c⟩, ?_,
        hw₁.push hc hstored hsettled, hgrow.trans hc, hall⟩
      exact exportSchema_of_placed htitle hrun hplace

theorem walks_keeps (hfam : Distinct fam) : Walks register note (Keeps fam) :=
  ⟨.pure, .bind, Keeps.settle hfam⟩

/-! ## Exporting again -/

/-- Over components that hold what the schema names, the exporter adds none. -/
def Again (α : Type) (x : Exporter α) (y : Noted α) : Prop :=
  ∀ w : Walk, Holds w.components y.found → ∃ w', x w = .ok (y.value, w') ∧ w'.components = w.components

theorem Again.pure (a : α) : Again α (pure a) (pure a) := fun w _ => ⟨w, rfl, rfl⟩

theorem Again.bind {y : Noted α} {g : α → Noted β} (hx : Again α x y)
    (hf : ∀ a, Again β (f a) (g a)) : Again β (x >>= f) (y >>= g) := by
  intro w hheld
  have hheld := holds_append.mp hheld
  have ⟨w₁, hrun, hsame⟩ := hx w hheld.1
  have ⟨w₂, hrun', hsame'⟩ := hf y.value w₁ (hsame ▸ hheld.2)
  exact ⟨w₂, (bind_ok hrun).trans hrun', hsame'.trans hsame⟩

theorem Again.settle (schema : SchemaDef)
    (h : Again _ (objectSchema register schema) (objectSchema note schema)) :
    Again _ (exportSchema schema) (plainSchema schema) := by
  cases htitle : schema.options.title with
  | none =>
      refine h.bind fun object => ?_
      rw [OpenApi.settle, OpenApi.settle, htitle]
      exact .pure object
  | some title =>
      intro w hheld
      rw [plainSchema_titled htitle] at hheld ⊢
      have hheld := holds_append.mp hheld
      have ⟨w₁, hrun, hsame⟩ := h w hheld.1
      have hget : w₁.components.get title = some (plainObject schema) :=
        hsame ▸ hheld.2 _ (List.mem_singleton_self _)
      refine ⟨w₁.push ⟨schema, plainObject schema, title, w₁.components⟩, ?_, hsame⟩
      exact exportSchema_of_placed htitle hrun (allocate_of_held hget)

theorem walks_again : Walks register note Again := ⟨.pure, .bind, Again.settle⟩

end Nitr.OpenApi
