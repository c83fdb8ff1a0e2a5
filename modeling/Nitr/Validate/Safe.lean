import Nitr.Validate.Built
import Nitr.Validate.Run

/-! # The engine's expectations

On a well-formed schema no `expect` of the walk can fail, so every schema the
Lua surface builds from usable names is checked without a panic. -/

namespace Nitr.Validate

/-! ## Computations that do not panic -/

namespace Check

variable {α β : Type}

/-- Whatever the context, the computation does not end in a panic. -/
def Safe (x : Check α) : Prop := ∀ ctx msg, x ctx ≠ .error (.panicked msg)

namespace Safe

theorem pure (a : α) : Safe (Pure.pure a : Check α) := by
  intro ctx msg h
  cases h

theorem bind {x : Check α} {f : α → Check β} (hx : Safe x) (hf : ∀ a, Safe (f a)) :
    Safe (x >>= f) := by
  intro ctx msg h
  change (x ctx >>= fun p => f p.1 p.2) = _ at h
  cases hc : x ctx with
  | error fault =>
      rw [hc] at h
      cases h
      exact hx ctx msg hc
  | ok p =>
      rw [hc] at h
      exact hf p.1 p.2 msg h

theorem raise (msg : String) : Safe (throw (.raised msg) : Check α) := by
  intro ctx msg' h
  cases h

theorem lift {x : Except Fault α} (hx : ∀ msg, x ≠ .error (.panicked msg)) :
    Safe (Check.lift x) := by
  intro ctx msg h
  unfold Check.lift at h
  cases x with
  | error fault =>
      cases h
      exact hx msg rfl
  | ok a => cases h

theorem createTable : Safe createTable := by
  intro ctx msg h
  cases h

theorem defer (item : Pending) : Safe (defer item) := by
  intro ctx msg h
  cases h

theorem push (entry : ErrorEntry) : Safe (push entry) := by
  intro ctx msg h
  cases h

theorem fail (host : Host) (f : Failure) : Safe (fail host f) := push _

theorem failAll (host : Host) (fs : List Failure) : Safe (failAll host fs) := by
  induction fs with
  | nil => exact pure ()
  | cons f rest ih => exact bind (fail host f) fun _ => ih

end Safe

end Check

open Check

/-! ## The kinds -/

section Kinds

variable {host : Host} {rule : RuleKeys} {site : Site}

theorem reject_safe (code : String) (params : Params) (reason : Option String) :
    Safe (reject host rule site code params reason) :=
  .bind (.fail host _) fun _ => .pure none

theorem applyTests_safe {tests : List Test} {next : Check (Option Value)} (h : Safe next) :
    Safe (applyTests host rule site tests next) := by
  unfold applyTests
  split
  · exact reject_safe _ _ _
  · exact h

theorem checkString_safe (value : Value) : Safe (checkString host rule value site) := by
  unfold checkString
  split
  · apply applyTests_safe
    refine .bind ?_ fun _ => .pure _
    unfold deferFormat
    split
    · exact .defer _
    · exact .pure _
  · exact reject_safe _ _ _

theorem checkNumber_safe (value : Value) : Safe (checkNumber host rule value site) := by
  unfold checkNumber
  split
  · split
    · exact reject_safe _ _ _
    · exact applyTests_safe (.pure _)
  · exact reject_safe _ _ _

theorem checkBoolean_safe (value : Value) : Safe (checkBoolean host rule value site) := by
  unfold checkBoolean
  split
  · exact applyTests_safe (.pure _)
  · exact reject_safe _ _ _

theorem checkAny_safe (h : rule.maxBytes.isSome) (value : Value) :
    Safe (checkAny host rule value site) := by
  obtain ⟨max, hmax⟩ := Option.isSome_iff_exists.mp h
  unfold checkAny
  rw [hmax]
  split
  · exact .raise _
  · dsimp only
    split
    · exact reject_safe _ _ _
    · split
      · exact reject_safe _ _ _
      · exact .pure _

theorem canonical_ne_panicked (value : Value) (msg : String) :
    canonical host value ≠ .error (.panicked msg) := by
  intro h
  unfold canonical at h
  cases value with
  | integer i =>
      dsimp only at h
      split at h <;> cases h
  | table p l entries =>
      dsimp only at h
      split at h
      · cases h
      · split at h <;> cases h
  | _ => cases h

theorem noteUnique_ne_panicked (seen : List Canonical) (item : Value) (msg : String) :
    noteUnique host rule seen item ≠ .error (.panicked msg) := by
  intro h
  unfold noteUnique at h
  split at h
  · split at h
    · rename_i hc
      cases h
      exact canonical_ne_panicked item msg hc
    · cases h
  · cases h

theorem checkItems_safe {check : Checker} (hc : ∀ v s, Safe (check v s)) (out i : ℕ)
    (items : List Value) (state : ItemState) :
    Safe (checkItems host rule check site out i items state) := by
  induction items generalizing i state with
  | nil => exact .pure _
  | cons item rest ih =>
    refine .bind (.lift (noteUnique_ne_panicked _ _)) fun seen => ?_
    cases seen with
    | none => exact .bind (reject_safe _ _ _) fun _ => .pure _
    | some seen =>
        refine .bind (hc _ _) fun value => ?_
        cases value with
        | none => exact ih _ _
        | some value => exact ih _ _

theorem checkArray_safe {items : Option Checker} (hs : items.isSome)
    (hc : ∀ check, items = some check → ∀ v s, Safe (check v s)) (value : Value) :
    Safe (checkArray host rule items value site) := by
  obtain ⟨check, rfl⟩ := Option.isSome_iff_exists.mp hs
  unfold checkArray
  split
  · split
    · exact reject_safe _ _ _
    · apply applyTests_safe
      refine .bind .createTable fun out => .bind (checkItems_safe (hc check rfl) _ _ _ _) ?_
      intro state
      cases state with
      | none => exact .pure _
      | some state =>
          dsimp only
          split
          · exact .pure _
          · exact applyTests_safe (.pure _)
  · exact reject_safe _ _ _

theorem checkPairs_safe {keys : Option Checker} {check : Checker}
    (hk : ∀ c, keys = some c → ∀ v s, Safe (c v s)) (hc : ∀ v s, Safe (check v s)) (out : ℕ)
    (entries : Entries) (ok : Bool) (built : Entries) :
    Safe (checkPairs host rule keys check site out entries ok built) := by
  induction entries generalizing ok built with
  | nil => exact .pure _
  | cons e rest ih =>
    obtain ⟨key, item⟩ := e
    cases key with
    | string key =>
        unfold checkPairs
        refine .bind ?_ fun checked => ?_
        · unfold checkPairKey
          cases keys with
          | none => exact .pure _
          | some c => exact .bind .createTable fun _ => hk c rfl _ _
        · split
          · refine .bind (hc _ _) fun value => ?_
            cases value with
            | none => exact ih _ _
            | some value => exact ih _ _
          · exact ih _ _
    | integer i => exact .bind (reject_safe _ _ _) fun _ => ih _ _
    | other p => exact .bind (reject_safe _ _ _) fun _ => ih _ _

theorem checkMap_safe {keys values : Option Checker} (hs : values.isSome)
    (hk : ∀ c, keys = some c → ∀ v s, Safe (c v s))
    (hc : ∀ check, values = some check → ∀ v s, Safe (check v s)) (value : Value) :
    Safe (checkMap host rule keys values value site) := by
  obtain ⟨check, rfl⟩ := Option.isSome_iff_exists.mp hs
  unfold checkMap
  split
  · apply applyTests_safe
    exact .bind .createTable fun out => .bind (checkPairs_safe hk (hc check rfl) _ _ _ _)
      fun _ => .pure _
  · exact reject_safe _ _ _

theorem checkFilename_safe {check : Checker} (hc : ∀ v s, Safe (check v s)) (name : String) :
    Safe (checkFilename check name) := by
  intro ctx msg h
  unfold checkFilename at h
  dsimp only at h
  split at h
  · rename_i hf
    cases h
    exact hc _ _ _ _ hf
  · cases h
  · cases h

theorem checkFile_safe {filename : Option (Bool × Checker)} (hb : rule.maxBytes.isSome)
    (hf : rule.file.isSome) (hc : ∀ n, filename = some n → ∀ v s, Safe (n.2 v s))
    (value : Value) : Safe (checkFile host rule filename value site) := by
  obtain ⟨maxBytes, hmax⟩ := Option.isSome_iff_exists.mp hb
  obtain ⟨file, hfile⟩ := Option.isSome_iff_exists.mp hf
  unfold checkFile
  rw [hmax, hfile]
  split
  · apply applyTests_safe
    refine .bind ?_ fun failure => ?_
    · unfold filenameFailure
      split
      · exact .pure _
      · exact .pure _
      · refine .bind (checkFilename_safe (hc _ rfl) _) fun reason => ?_
        cases reason <;> exact .pure _
    · cases failure with
      | none => exact applyTests_safe (.pure _)
      | some params => exact reject_safe _ _ _
  · exact reject_safe _ _ _

end Kinds

/-! ## Tables and rules -/

section Fields

variable {host : Host}

theorem equalFieldsFailure_ne_panicked (schema : SchemaDef) (out : Entries) (path : FieldPath)
    (group : Group) (names : List String) (first : Option (String × Canonical)) (msg : String) :
    equalFieldsFailure host schema out path group names first ≠ .error (.panicked msg) := by
  induction names generalizing first with
  | nil =>
      intro h
      cases h
  | cons name rest ih =>
    intro h
    unfold equalFieldsFailure at h
    split at h
    · exact ih _ h
    · split at h
      · rename_i hc
        cases h
        exact canonical_ne_panicked _ msg hc
      · exact ih _ h
      · split at h
        · exact ih _ h
        · cases h

theorem mapM_ne_panicked {α β : Type} {f : α → Except Fault β} {msg : String}
    (hf : ∀ a, f a ≠ .error (.panicked msg)) (xs : List α) :
    xs.mapM f ≠ .error (.panicked msg) := by
  induction xs with
  | nil =>
      intro h
      cases h
  | cons x xs ih =>
    intro h
    rw [List.mapM_cons] at h
    cases hx : f x with
    | error fault =>
        rw [hx] at h
        cases h
        exact hf x hx
    | ok y =>
        rw [hx] at h
        cases hxs : xs.mapM f with
        | error fault =>
            rw [hxs] at h
            cases h
            exact ih hxs
        | ok ys =>
            rw [hxs] at h
            cases h

theorem crossFailures_ne_panicked (schema : SchemaDef) (out : Entries) (path : FieldPath)
    (msg : String) : crossFailures host schema out path ≠ .error (.panicked msg) := by
  intro h
  unfold crossFailures at h
  cases he : schema.options.equalFields.mapM (fun group =>
      equalFieldsFailure host schema out path group group.fields none) with
  | error fault =>
      rw [he] at h
      cases h
      exact mapM_ne_panicked (fun _ => equalFieldsFailure_ne_panicked _ _ _ _ _ _ _) _ he
  | ok equal =>
      rw [he] at h
      cases h

theorem reportUnknown_safe (schema : SchemaDef) (input : Entries) (path : FieldPath) :
    Safe (reportUnknown host schema input path) := by
  refine .bind (.failAll _ _) fun _ => .bind ?_ fun _ => .pure _
  unfold reportExtra
  split
  · exact .pure _
  · exact .push _

theorem checkKnown_safe (schema : SchemaDef) (input : Entries) (path : FieldPath) :
    Safe (checkKnown host schema input path) := by
  intro ctx msg h
  unfold checkKnown at h
  split at h
  · exact reportUnknown_safe schema input path ctx msg h
  · cases h

theorem deferSchemaChecks_safe (schema : SchemaDef) (table : Value) (path : FieldPath)
    (indices : List ℕ) : Safe (deferSchemaChecks schema table path indices) := by
  induction indices with
  | nil => exact .pure _
  | cons index rest ih => exact .bind (.defer _) fun _ => ih

theorem finishFields_safe (schema : SchemaDef) (input : Entries) (path : FieldPath)
    (pointer : ℕ) (ok : Bool) (out : Entries) :
    Safe (finishFields host schema input path pointer ok out) := by
  refine .bind (checkKnown_safe schema input path) fun known => ?_
  split
  · exact .pure _
  · refine .bind (.bind (.lift (crossFailures_ne_panicked schema out path))
      fun _ => .bind (.failAll _ _) fun _ => .pure _) fun held => ?_
    cases held with
    | false => exact .pure _
    | true => exact .bind (deferSchemaChecks_safe _ _ _ _) fun _ => .pure _

theorem deferHooks_safe (rule : RuleKeys) (site : Site) (checked : Option Value) :
    Safe (deferHooks rule site checked) := by
  cases checked with
  | none => exact .pure _
  | some value =>
      refine .bind ?_ fun _ => .pure _
      generalize rule.hooks = hooks
      induction hooks with
      | nil => exact .pure _
      | cons check rest ih => exact .bind (.defer _) fun _ => ih

theorem checkFieldList_safe {fields : List (String × Rule)}
    (h : ∀ f ∈ fields, ∀ v s, Safe (checkValue host f.2 v s)) (owner : SchemaOptions)
    (input : Entries) (path : FieldPath) (pointer : ℕ) (ok : Bool) (out : Entries) :
    Safe (checkFieldList host fields owner input path pointer ok out) := by
  induction fields generalizing ok out with
  | nil =>
      unfold checkFieldList
      exact .pure _
  | cons f rest ih =>
    obtain ⟨name, rule⟩ := f
    have ih' := ih (fun f hf => h f (List.mem_cons_of_mem _ hf))
    unfold checkFieldList
    dsimp only
    split
    · split
      · exact .bind (reject_safe _ _ _) fun _ => ih' _ _
      · exact ih' _ _
    · refine .bind (h (name, rule) (List.mem_cons_self ..) _ _) fun value => ?_
      cases value with
      | none => exact ih' _ _
      | some value => exact ih' _ _

theorem checkFields_safe {schema : SchemaDef}
    (h : ∀ f ∈ schema.fields, ∀ v s, Safe (checkValue host f.2 v s)) (input : Entries)
    (path : FieldPath) (pointer : ℕ) : Safe (checkFields host schema input path pointer) := by
  obtain ⟨fields, options⟩ := schema
  unfold checkFields
  exact .bind (checkFieldList_safe h _ _ _ _ _ _) fun _ =>
    .bind (finishFields_safe _ _ _ _ _ _) fun _ => .pure _

theorem checkTable_safe {rule : RuleKeys} {fields : Option SchemaDef} (hs : fields.isSome)
    (h : ∀ s, fields = some s → ∀ f ∈ s.fields, ∀ v t, Safe (checkValue host f.2 v t))
    (value : Value) (site : Site) : Safe (checkTable host rule fields value site) := by
  obtain ⟨schema, rfl⟩ := Option.isSome_iff_exists.mp hs
  unfold checkTable
  split
  · split
    · exact reject_safe _ _ _
    · exact .bind .createTable fun _ => .bind (checkFields_safe (h schema rfl) _ _ _)
        fun _ => .pure _
  · exact reject_safe _ _ _

mutual

theorem checkValue_safe {rule : Rule} (h : rule.WellFormed) (value : Value) (site : Site) :
    Safe (checkValue host rule value site) := by
  match h with
  | .intro complete items keys values filename fields =>
    rw [checkValue_eq]
    refine .bind ?_ (deferHooks_safe _ _)
    have hlift : ∀ {r : Option Rule} (_ : ∀ i, r = some i → ∀ v s, Safe (checkValue host i v s)),
        ∀ c, r.map (checkValue host) = some c → ∀ v s, Safe (c v s) := by
      intro r hr c hc
      obtain ⟨i, hi, rfl⟩ := Option.map_eq_some_iff.mp hc
      exact hr i hi
    unfold checkKind
    split
    · exact checkString_safe _
    · exact checkNumber_safe _
    · exact checkNumber_safe _
    · exact checkBoolean_safe _
    · rename_i hk
      exact checkArray_safe (by simpa using complete.items hk)
        (hlift fun i hi v s => checkValue_safe (items i hi) v s) _
    · rename_i hk
      exact checkTable_safe (complete.fields hk)
        (fun s hs => schema_safe (fields s hs)) _ _
    · rename_i hk
      exact checkMap_safe (by simpa using complete.values hk)
        (hlift fun i hi v s => checkValue_safe (keys i hi) v s)
        (hlift fun i hi v s => checkValue_safe (values i hi) v s) _
    · rename_i hk
      exact checkAny_safe (complete.anyBytes hk) _
    · rename_i hk
      refine checkFile_safe (complete.fileBytes hk) (complete.file hk) ?_ _
      intro n hn v s
      obtain ⟨r, hr, rfl⟩ := Option.map_eq_some_iff.mp hn
      exact checkValue_safe (filename r hr) v s

theorem schema_safe {schema : SchemaDef} (h : schema.WellFormed) :
    ∀ f ∈ schema.fields, ∀ v s, Safe (checkValue host f.2 v s) := by
  match h with
  | .intro _ _ rules => exact fun f hf v s => checkValue_safe (rules f hf) v s

end

/-- No walk over a well-formed schema panics. -/
theorem walk_safe {schema : SchemaDef} (h : schema.WellFormed) (value : Value) :
    Safe (walk host schema value) := by
  refine .bind .createTable fun pointer => ?_
  split
  · exact .bind (checkFields_safe (schema_safe h) _ _ _) fun _ => .pure _
  · exact .bind (.fail _ _) fun _ => .pure _

end Fields

/-! ## Schemas built by composition -/

/-- Every schema built by tidy calls is well formed at every depth, and walking it
over any value meets every expectation of the engine. -/
theorem Built.wellFormed_and_safe {schema : SchemaDef} (h : Built Call.Tidy schema) :
    schema.WellFormed ∧ ∀ (host : Host) (value : Value), Safe (walk host schema value) :=
  ⟨h.wellFormed, fun _ value => walk_safe h.wellFormed value⟩

/-- A library without shorthands, templates, custom formats or media types. -/
def Library.bare : Library where
  expand shorthand := .error ("invalid rule shorthand `" ++ shorthand ++ "`")
  customFormat _ := none
  formatNames := Format.table.map (·.1)
  formatCheck _ _ := false
  parseF64 _ := none
  displayF64 _ := ""
  parseSize _ := none
  compileTemplate _ _ what := .error ("invalid message for " ++ what)
  compileMessages _ what := .error ("invalid messages for " ++ what)
  compileTypes _ _ := .ok []
  compileAspect _ _ := .ok none
  hasDimensions _ := false
  coerceString value := .error ("error converting Lua " ++ value.typeName ++ " to String")

/-- `{ type = "..." }`. -/
def typeRule (name : String) : Value := .table 0 0 [(.ofString "type", .ofString name)]

theorem typeRule_atom (name : String) :
    (∀ s, ¬(typeRule name).Has s) ∧ ∀ t, ¬FieldTable t (typeRule name) := by
  constructor
  · intro s h
    cases h with
    | entry mem inner =>
        simp only [List.mem_singleton, Prod.mk.injEq] at mem
        obtain ⟨-, rfl⟩ := mem
        cases inner
  · intro t h
    cases h with
    | here mem => simp [Value.ofString] at mem
    | field mem _ _ => simp [Value.ofString] at mem
    | nested named mem below =>
        simp only [List.mem_singleton, Prod.mk.injEq, Key.ofString_inj] at mem
        obtain ⟨rfl, -⟩ := mem
        exact absurd named (by decide)

def noteSchema : SchemaDef := ⟨[("text", Rule.ofKeys { kind := .string })], {}⟩

def notedSchema : SchemaDef :=
  ⟨[("note", Rule.ofKeys { kind := .integer }), ("text", Rule.ofKeys { kind := .string })], {}⟩

theorem Built.noteSchema : Built Call.Tidy noteSchema := by
  refine @Built.call _ Library.bare (.schema [(.ofString "text", typeRule "string")] none) _
    ?_ ?_ rfl
  · rintro s ⟨e, he, hs⟩
    rw [List.mem_singleton] at he
    subst he
    exact absurd hs ((typeRule_atom _).1 s)
  · refine ⟨by decide, ?_⟩
    intro e he t ht
    rw [List.mem_singleton] at he
    subst he
    exact absurd ht ((typeRule_atom _).2 t)

/-- `schema({ text = ... }):extend({ note = ... })`. -/
theorem Built.wellFormed_and_safe_extend :
    Built Call.Tidy notedSchema ∧ notedSchema.WellFormed ∧
      ∀ (host : Host) (value : Value), Safe (walk host notedSchema value) := by
  have hb : Built Call.Tidy notedSchema := by
    refine @Built.call _ Library.bare
      (.extend Nitr.Validate.noteSchema [(.ofString "note", typeRule "integer")]) _ ?_ ?_ rfl
    · rintro s (rfl | ⟨e, he, hs⟩)
      · exact Built.noteSchema
      · rw [List.mem_singleton] at he
        subst he
        exact absurd hs ((typeRule_atom _).1 s)
    · constructor
      · intro e he t ht
        rw [List.mem_singleton] at he
        subst he
        exact absurd ht ((typeRule_atom _).2 t)
      · intro e he _ name hname
        rw [List.mem_singleton] at he
        subst he
        cases hname
        decide
  exact ⟨hb, Built.wellFormed_and_safe hb⟩

/-- `extend` accepts a field name that `schema` refuses: `schema({ text = ... })
:extend({ ["a.b"] = ... })`. -/
theorem Built.not_wellFormed_extend :
    ¬∀ schema : SchemaDef, Built (fun _ => True) schema →
      schema.WellFormed ∧ ∀ (host : Host) (value : Value), Safe (walk host schema value) := by
  intro h
  have hnote : Built (fun _ => True) Nitr.Validate.noteSchema :=
    Built.noteSchema.mono fun _ _ => trivial
  have hdotted : Built (fun _ => True)
      ⟨[("a.b", Rule.ofKeys { kind := .integer }), ("text", Rule.ofKeys { kind := .string })],
        {}⟩ := by
    refine @Built.call _ Library.bare
      (.extend Nitr.Validate.noteSchema [(.ofString "a.b", typeRule "integer")]) _ ?_ trivial rfl
    rintro s (rfl | ⟨e, he, hs⟩)
    · exact hnote
    · rw [List.mem_singleton] at he
      subst he
      exact absurd hs ((typeRule_atom _).1 s)
  obtain ⟨⟨hnamed, -, -⟩, -⟩ := h _ hdotted
  have hplain := hnamed.plain _ (List.mem_cons_self ..)
  exact hplain.1 (by decide)

end Nitr.Validate
