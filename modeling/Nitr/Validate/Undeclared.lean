import Nitr.Validate.Alike

/-! # Keys that are not declared

Two values agree for a rule when they hold the same at every declared field, however deep.
A check looks further in three places: it compares whole items where they must be unique,
takes a table with a list part for a list, and names the unknown keys of a strict table. Two
values that also agree there cannot be told apart. -/

namespace Nitr.Validate

/-- The two values hold the same at every field declared by the rule, at every depth;
`wholly`, also where a check looks at more than the declared fields. -/
inductive Rule.Agree (wholly : Bool) : Rule → Value → Value → Prop where
  | same {rule : Rule} (v : Value) : Rule.Agree wholly rule v v
  | array {rule items : Rule} {p p' len : ℕ} {es es' : Entries} (kind : rule.kind = .array)
      (nested : rule.items = some items) (unique : wholly = true → rule.unique = false)
      (sequence : isSequence len es = isSequence len es')
      (each : ∀ i < len, Rule.Agree wholly items (es.get (.integer (i + 1)))
        (es'.get (.integer (i + 1)))) :
      Rule.Agree wholly rule (.table p len es) (.table p' len es')
  | map {rule values : Rule} {p p' len len' : ℕ} {es es' : Entries} (kind : rule.kind = .map)
      (nested : rule.values = some values) (keys : es.map Prod.fst = es'.map Prod.fst)
      (each : ∀ (i : ℕ) e e', es[i]? = some e → es'[i]? = some e' →
        Rule.Agree wholly values e.2 e'.2) :
      Rule.Agree wholly rule (.table p len es) (.table p' len' es')
  | table {rule : Rule} {schema : SchemaDef} {p p' len len' : ℕ} {es es' : Entries}
      (kind : rule.kind = .table) (nested : rule.fields = some schema)
      (list : wholly = true → (0 < len ↔ 0 < len'))
      (unknown : wholly = true → schema.options.strict = true →
        unknownKeys schema es = unknownKeys schema es')
      (each : ∀ f ∈ schema.fields, Rule.Agree wholly f.2 (es.field f.1) (es'.field f.1)) :
      Rule.Agree wholly rule (.table p len es) (.table p' len' es')

/-- The tables agree at the fields the schema declares. -/
def SchemaDef.Agree (wholly : Bool) (schema : SchemaDef) (es es' : Entries) : Prop :=
  ∀ f ∈ schema.fields, f.2.Agree wholly (es.field f.1) (es'.field f.1)

namespace Check

variable {α β : Type}

/-- The same end from every context that is not strict. -/
def Same (x y : Check α) : Prop := ∀ ctx : Ctx, ctx.strict = false → x ctx = y ctx

theorem Same.refl (x : Check α) : Same x x := fun _ _ => rfl

theorem Same.bind_left {x y : Check α} (h : Same x y) (f : α → Check β) :
    Same (x >>= f) (y >>= f) := by
  intro ctx hstrict
  change (x ctx >>= fun p => f p.1 p.2) = (y ctx >>= fun p => f p.1 p.2)
  rw [h ctx hstrict]

/-- What is alike to itself leaves the strictness as it is. -/
theorem Same.bind {R : α → α → Prop} {x y : Check α} (h : Same x y) (hx : Alike R x x)
    {f g : α → Check β} (hf : ∀ a, Same (f a) (g a)) : Same (x >>= f) (y >>= g) := by
  intro ctx hstrict
  change (x ctx >>= fun p => f p.1 p.2) = (y ctx >>= fun p => g p.1 p.2)
  rw [← h ctx hstrict]
  have houtcome := hx ctx ctx rfl
  generalize x ctx = r at houtcome ⊢
  cases houtcome with
  | fault fault => rfl
  | ok related added n n' => exact hf _ _ hstrict

end Check

open Check

section Kinds

variable {host : Host} {rule : RuleKeys} {site : Site}

/-- Values that agree are checked alike. -/
def Sees (host : Host) (rule : Rule) : Prop :=
  ∀ v v', rule.Agree true v v' → ∀ site, Same (checkValue host rule v site) (checkValue host rule v' site)

theorem Same.applyTests {tests : List Test} {x y : Check (Option Value)} (h : Same x y) :
    Same (applyTests host rule site tests x) (applyTests host rule site tests y) := by
  unfold Validate.applyTests
  split
  · exact Same.refl _
  · exact h

theorem Rule.Agree.addBytes_eq {rule : Rule} {v v' : Value} (h : rule.Agree true v v') (total : ℕ) :
    addBytes total v = addBytes total v' := by
  cases h with
  | same => rfl
  | array => rfl
  | map => rfl
  | table => rfl

theorem checkItems_agree {items : Rule} (hunique : rule.unique = false)
    (hblind : Blind (checkValue host items)) (hsees : Sees host items) (out : ℕ)
    {vs vs' : List Value} (h : List.Forall₂ (items.Agree true) vs vs') :
    ∀ (i : ℕ) (state : ItemState),
      Same (checkItems host rule (checkValue host items) site out i vs state)
        (checkItems host rule (checkValue host items) site out i vs' state) := by
  induction h with
  | nil => intro i state; exact Same.refl _
  | @cons v v' vs vs' hv _ ih =>
      intro i state
      simp only [checkItems, noteUnique, hunique, Bool.false_eq_true, if_false, hv.addBytes_eq]
      refine Same.bind (Same.refl _) (Alike.lift _) ?_
      intro noted
      cases noted with
      | none => exact Same.refl _
      | some seen =>
          refine Same.bind (hsees v v' hv _) (hblind v _ _ rfl rfl) ?_
          intro w
          cases w with
          | none => exact ih _ _
          | some w => exact ih _ _

theorem itemsOf_agree {items : Rule} {len : ℕ} {es es' : Entries}
    (h : ∀ i < len, items.Agree true (es.get (.integer (i + 1))) (es'.get (.integer (i + 1)))) :
    List.Forall₂ (items.Agree true) (itemsOf len es) (itemsOf len es') := by
  unfold itemsOf
  rw [List.forall₂_map_left_iff, List.forall₂_map_right_iff, List.forall₂_same]
  intro i hi
  exact h i (List.mem_range.mp hi)

theorem checkArray_agree {items : Rule} {p p' len : ℕ} {es es' : Entries}
    (hunique : rule.unique = false) (hblind : Blind (checkValue host items))
    (hsees : Sees host items) (hsequence : isSequence len es = isSequence len es')
    (h : ∀ i < len, items.Agree true (es.get (.integer (i + 1))) (es'.get (.integer (i + 1)))) :
    Same (checkArray host rule (some (checkValue host items)) (.table p len es) site)
      (checkArray host rule (some (checkValue host items)) (.table p' len es') site) := by
  simp only [checkArray, hsequence]
  split
  · exact Same.refl _
  · apply Same.applyTests
    refine Same.bind (Same.refl _) Alike.createTable fun out => ?_
    exact (checkItems_agree hunique hblind hsees out (itemsOf_agree h) 1 _).bind_left _

theorem checkPairs_agree {keys : Option Checker} {values : Rule}
    (hkeys : ∀ c, keys = some c → Blind c) (hblind : Blind (checkValue host values))
    (hsees : Sees host values) (out : ℕ) :
    ∀ (es es' : Entries), es.map Prod.fst = es'.map Prod.fst →
      (∀ (i : ℕ) e e', es[i]? = some e → es'[i]? = some e' → values.Agree true e.2 e'.2) →
      ∀ (ok : Bool) (built : Entries),
        Same (checkPairs host rule keys (checkValue host values) site out es ok built)
          (checkPairs host rule keys (checkValue host values) site out es' ok built) := by
  intro es
  induction es with
  | nil =>
      intro es' hfst _ ok built
      obtain rfl : es' = [] := List.map_eq_nil_iff.mp hfst.symm
      exact Same.refl _
  | cons e es ih =>
      intro es' hfst h ok built
      obtain ⟨e', es', rfl⟩ : ∃ e' rest, es' = e' :: rest := by
        cases es' with
        | nil => cases hfst
        | cons e' rest => exact ⟨e', rest, rfl⟩
      obtain ⟨key, v⟩ := e
      obtain ⟨key', v'⟩ := e'
      obtain ⟨rfl, hrest⟩ := List.cons.inj hfst
      have hv : values.Agree true v v' := h 0 _ _ rfl rfl
      have hnext := ih es' hrest fun i e e' he he' => h (i + 1) e e' he he'
      cases key with
      | string key =>
          simp only [checkPairs]
          refine Same.bind (Same.refl _) (checkPairKey_alike hkeys rfl rfl key) fun checked => ?_
          split
          · refine Same.bind (hsees v v' hv _) (hblind v _ _ rfl rfl) fun w => ?_
            cases w with
            | none => exact hnext _ _
            | some w => exact hnext _ _
          · exact hnext _ _
      | integer i =>
          simp only [checkPairs]
          exact Same.bind (Same.refl _) (reject_alike rfl rfl _ _ _) fun _ => hnext _ _
      | other pointer =>
          simp only [checkPairs]
          exact Same.bind (Same.refl _) (reject_alike rfl rfl _ _ _) fun _ => hnext _ _

theorem checkMap_agree {keys : Option Checker} {values : Rule} {p p' len len' : ℕ}
    {es es' : Entries} (hkeys : ∀ c, keys = some c → Blind c)
    (hblind : Blind (checkValue host values)) (hsees : Sees host values)
    (hfst : es.map Prod.fst = es'.map Prod.fst)
    (h : ∀ (i : ℕ) e e', es[i]? = some e → es'[i]? = some e' → values.Agree true e.2 e'.2) :
    Same (checkMap host rule keys (some (checkValue host values)) (.table p len es) site)
      (checkMap host rule keys (some (checkValue host values)) (.table p' len' es') site) := by
  have hlen : es.length = es'.length := by simpa using congrArg List.length hfst
  simp only [checkMap, hlen]
  apply Same.applyTests
  refine Same.bind (Same.refl _) Alike.createTable fun out => ?_
  exact (checkPairs_agree hkeys hblind hsees out es es' hfst h true []).bind_left _

end Kinds

/-! ## Tables -/

section Tables

variable {host : Host}

theorem Rule.Agree.isNil_eq {rule : Rule} {v v' : Value} (h : rule.Agree true v v') :
    v.isNil = v'.isNil := by
  cases h with
  | same => rfl
  | array => rfl
  | map => rfl
  | table => rfl

/-- A value that is given agrees with one that is given; a default stands for none. -/
theorem Rule.Agree.fieldValue {rule : Rule} {input input' : Entries} {name : String}
    (h : rule.Agree true (input.field name) (input'.field name)) :
    rule.Agree true (fieldValue rule.toRuleKeys input name)
      (fieldValue rule.toRuleKeys input' name) := by
  unfold Validate.fieldValue
  generalize input.field name = v at h
  generalize input'.field name = v' at h
  cases h with
  | same => exact .same _
  | array kind nested unique sequence each => exact .array kind nested unique sequence each
  | map kind nested keys each => exact .map kind nested keys each
  | table kind nested list unknown each => exact .table kind nested list unknown each

theorem checkFieldList_agree {fields : List (String × Rule)}
    (hblind : ∀ f ∈ fields, Blind (checkValue host f.2)) (hsees : ∀ f ∈ fields, Sees host f.2)
    {input input' : Entries}
    (h : ∀ f ∈ fields, f.2.Agree true (input.field f.1) (input'.field f.1)) (owner : SchemaOptions)
    (path : FieldPath) (pointer : ℕ) :
    ∀ (ok : Bool) (built : Entries),
      Same (checkFieldList host fields owner input path pointer ok built)
        (checkFieldList host fields owner input' path pointer ok built) := by
  induction fields with
  | nil =>
      intro ok built
      simp only [checkFieldList]
      exact Same.refl _
  | cons f rest ih =>
      intro ok built
      obtain ⟨name, rule⟩ := f
      have hrest := ih (fun f hf => hblind f (List.mem_cons_of_mem _ hf))
        (fun f hf => hsees f (List.mem_cons_of_mem _ hf))
        (fun f hf => h f (List.mem_cons_of_mem _ hf))
      have hvalue := (h (name, rule) (List.mem_cons_self ..)).fieldValue
      simp only [checkFieldList, hvalue.isNil_eq]
      split
      · split
        · exact Same.bind (Same.refl _) (reject_alike rfl rfl _ _ _) fun _ => hrest _ _
        · exact hrest _ _
      · refine Same.bind (hsees (name, rule) (List.mem_cons_self ..) _ _ hvalue _)
          (hblind (name, rule) (List.mem_cons_self ..) _ _ _ rfl rfl) fun w => ?_
        cases w with
        | none => exact hrest _ _
        | some w => exact hrest _ _

theorem checkKnown_agree {schema : SchemaDef} {input input' : Entries} (path : FieldPath)
    (h : schema.options.strict = true → unknownKeys schema input = unknownKeys schema input') :
    Same (checkKnown host schema input path) (checkKnown host schema input' path) := by
  intro ctx hstrict
  unfold checkKnown
  rw [hstrict, Bool.false_or]
  split
  next hs => rw [reportUnknown, reportUnknown, h hs]
  next => rfl

theorem checkFields_agree {schema : SchemaDef} {input input' : Entries}
    (hblind : ∀ f ∈ schema.fields, Blind (checkValue host f.2))
    (hsees : ∀ f ∈ schema.fields, Sees host f.2)
    (h : schema.Agree true input input')
    (hunknown : schema.options.strict = true →
      unknownKeys schema input = unknownKeys schema input') (path : FieldPath) (pointer : ℕ) :
    Same (checkFields host schema input path pointer)
      (checkFields host schema input' path pointer) := by
  obtain ⟨fields, options⟩ := schema
  unfold checkFields
  refine Same.bind (checkFieldList_agree hblind hsees h options path pointer true [])
    (checkFieldList_alike hblind options input path pointer pointer true [] [] rfl) ?_
  rintro ⟨ok, out⟩
  have hfinish : Same (finishFields host ⟨fields, options⟩ input path pointer ok out)
      (finishFields host ⟨fields, options⟩ input' path pointer ok out) :=
    (checkKnown_agree path hunknown).bind_left _
  exact hfinish.bind_left _

theorem checkTable_agree {rule : RuleKeys} {schema : SchemaDef} {p p' len len' : ℕ}
    {input input' : Entries} {site : Site}
    (hblind : ∀ f ∈ schema.fields, Blind (checkValue host f.2))
    (hsees : ∀ f ∈ schema.fields, Sees host f.2)
    (h : schema.Agree true input input')
    (hlist : 0 < len ↔ 0 < len') (hunknown : schema.options.strict = true →
      unknownKeys schema input = unknownKeys schema input') :
    Same (checkTable host rule (some schema) (.table p len input) site)
      (checkTable host rule (some schema) (.table p' len' input') site) := by
  simp only [checkTable, gt_iff_lt, hlist]
  split
  · exact Same.refl _
  · refine Same.bind (Same.refl _) Alike.createTable fun pointer => ?_
    exact (checkFields_agree hblind hsees h hunknown site.path pointer).bind_left _

/-- Where no script runs, a check sees its value through the declared fields only. -/
theorem checkValue_agree {rule : Rule} (hrule : rule.Hookless) : Sees host rule := by
  induction rule using Rule.induct with
  | step rule items keys values filename fields =>
      cases hrule with
      | intro hcheck htransform hformat hitems hkeys hvalues hfilename hchecks hfields =>
          intro v v' h site
          rw [checkValue_eq, checkValue_eq]
          refine Same.bind_left ?_ _
          cases h with
          | same => exact Same.refl _
          | array hkind nested unique sequence each =>
              simp only [checkKind, hkind, nested, Option.map_some]
              exact checkArray_agree (unique rfl) (checkValue_blind (hitems _ nested))
                (items _ nested (hitems _ nested)) sequence each
          | map hkind nested hfst each =>
              simp only [checkKind, hkind, nested, Option.map_some]
              refine checkMap_agree ?_ (checkValue_blind (hvalues _ nested))
                (values _ nested (hvalues _ nested)) hfst each
              intro c hc
              obtain ⟨r, hr, rfl⟩ := Option.map_eq_some_iff.mp hc
              exact checkValue_blind (hkeys r hr)
          | table hkind nested list unknown each =>
              simp only [checkKind, hkind, nested]
              exact checkTable_agree (fun f hf => checkValue_blind (hfields _ nested f hf))
                (fun f hf => fields _ nested f hf (hfields _ nested f hf)) each (list rfl) (unknown rfl)

end Tables

end Nitr.Validate
