import Nitr.Validate.FieldLoop

/-! # Fields are checked independently

Without script hooks and groups a run over a schema is the runs over its single fields
put together, and its output holds declared keys only. -/

namespace Nitr.Validate

open Check

/-! ## Runs -/

section Runs

variable {host : Host} {scripts : Scripts} {schema : SchemaDef} {start : Start} {p len : ℕ}
variable {input : Entries}

/-- A table is checked by its fields alone: nothing is asked of its other keys, no group
relates its fields and no script sees it. -/
structure SchemaDef.FieldsOnly (schema : SchemaDef) : Prop where
  groups : schema.options.groups = []
  strict : schema.options.strict = false
  checks : schema.options.checks = []

theorem SchemaDef.FieldsOnly.crossFailures_eq (h : schema.FieldsOnly) (out : Entries)
    (path : FieldPath) : crossFailures host schema out path = .ok [] := by
  have hgroups := h.groups
  simp only [SchemaOptions.groups, List.append_eq_nil_iff, List.map_eq_nil_iff] at hgroups
  obtain ⟨⟨⟨⟨hone, hexclusive⟩, hequal⟩, hordered⟩, hdependent⟩ := hgroups
  simp [crossFailures, hone, hexclusive, hequal, hordered, hdependent, pure, Except.pure, bind,
    Except.bind]

theorem SchemaDef.FieldsOnly.finishFields_eq (h : schema.FieldsOnly) {ctx : Ctx}
    (hstrict : ctx.strict = false) (path : FieldPath) (pointer : ℕ) (ok : Bool) (out : Entries) :
    finishFields host schema input path pointer ok out ctx = .ok (ok, ctx) := by
  have hknown : checkKnown host schema input path ctx = .ok (true, ctx) := by
    unfold checkKnown
    rw [hstrict, h.strict]
    rfl
  refine bind_eq_ok.mpr ⟨true, ctx, hknown, ?_⟩
  cases ok with
  | false => rfl
  | true =>
      have hcross : checkCross host schema out path ctx = .ok (true, ctx) := by
        unfold checkCross
        rw [h.crossFailures_eq]
        rfl
      refine bind_eq_ok.mpr ⟨true, ctx, hcross, ?_⟩
      rw [h.checks]
      rfl

def sortByPath (errors : List ErrorEntry) : List ErrorEntry :=
  errors.insertionSort fun a b => a.path ≤ b.path

/-- The verdict on the errors collected. -/
def conclude (out : Value) (errors : List ErrorEntry) : Except (List ErrorEntry) Value :=
  if errors.isEmpty then .ok out else .error (sortByPath errors)

/-- The context in which the fields of the root are checked. -/
def rootCtx (start : Start) : Ctx :=
  { strict := false, next := start.next + 1, errors := [], pending := [] }

theorem checkFields_fieldsOnly (h : schema.FieldsOnly)
    (hblind : ∀ f ∈ schema.fields, Blind (checkValue host f.2)) (pointer : ℕ) {ctx : Ctx}
    (hstrict : ctx.strict = false) :
    checkFields host schema input [] pointer ctx =
      checkFieldList host schema.fields schema.options input [] pointer true [] ctx := by
  obtain ⟨fields, options⟩ := schema
  unfold checkFields
  cases hloop : checkFieldList host fields options input [] pointer true [] ctx with
  | error fault => simp only [bind, StateT.bind, hloop, Except.bind]
  | ok r =>
      obtain ⟨⟨ok, out⟩, c⟩ := r
      obtain ⟨n, errors, -, rfl, -⟩ := yieldsOnto_of_eq hblind (unset_nil _) hloop
      have hfinish := @SchemaDef.FieldsOnly.finishFields_eq host ⟨fields, options⟩ input h
        { ctx with next := n, errors := ctx.errors ++ errors } hstrict [] pointer ok out
      exact bind_eq_ok.mpr ⟨_, _, hloop, bind_eq_ok.mpr ⟨ok, _, hfinish, rfl⟩⟩

theorem runDeferred_nil {ctx : Ctx} (h : ctx.pending = []) :
    runDeferred host scripts ctx = .ok ([], ctx) := by
  obtain ⟨strict, next, errors, pending⟩ := ctx
  dsimp only at h
  subst h
  cases errors with
  | nil => rfl
  | cons e errors => rfl

/-- Such a run is the loop over the fields. -/
theorem run_eq_map (h : schema.FieldsOnly)
    (hblind : ∀ f ∈ schema.fields, Blind (checkValue host f.2)) (hnest : host.nesting < maxNesting)
    (hstart : start.strict.getD false = false) :
    run host scripts schema (.table p len input) start =
      (checkFieldList host schema.fields schema.options input [] start.next true []
        (rootCtx start)).map fun r => conclude (.table start.next 0 r.1.2) r.2.errors := by
  have hfields := @checkFields_fieldsOnly host schema input h hblind start.next
    (rootCtx start) rfl
  have hwalk : walk host schema (.table p len input)
      { strict := false, next := start.next, errors := [], pending := [] } =
      checkFields host schema input [] start.next (rootCtx start) >>= fun r =>
        .ok (.table start.next 0 r.1.2, r.2) := rfl
  unfold run
  rw [if_neg (not_le.mpr hnest), hstart]
  dsimp only
  rw [hwalk, hfields]
  cases hloop : checkFieldList host schema.fields schema.options input [] start.next true []
      (rootCtx start) with
  | error fault => rfl
  | ok r =>
      obtain ⟨⟨ok, out⟩, c⟩ := r
      obtain ⟨n, errors, -, rfl, -⟩ := yieldsOnto_of_eq hblind (unset_nil _) hloop
      have hdeferred := @runDeferred_nil host scripts
        { rootCtx start with next := n, errors := (rootCtx start).errors ++ errors } rfl
      simp only [bind, Except.bind, Except.map, hdeferred, Value.deref_nil, conclude, sortByPath]
      split <;> rfl

/-- The declared names, each once. -/
def SchemaDef.declared (schema : SchemaDef) : List String := (schema.fields.map (·.1)).dedup

/-- The rules declared for the name. -/
def SchemaDef.declaring (schema : SchemaDef) (name : String) : List (String × Rule) :=
  schema.fields.filter fun f => f.1 = name

/-- The schema with one of its fields. -/
def SchemaDef.only (schema : SchemaDef) (name : String) : SchemaDef :=
  ⟨schema.declaring name, schema.options⟩

theorem SchemaDef.FieldsOnly.pick_eq (h : schema.FieldsOnly) {name : String}
    (hname : name ∈ schema.declared) : schema.pick [name] = .ok (schema.only name) := by
  have hrule : (schema.rule name).isNone = false := by
    obtain ⟨f, hf, rfl⟩ := List.mem_map.mp (List.mem_dedup.mp hname)
    simp only [SchemaDef.rule, Option.isNone_map, Option.isNone_eq_false_iff, List.find?_isSome]
    exact ⟨f, hf, decide_eq_true rfl⟩
  have hordered : schema.options.ordered = [] := by
    have hgroups := h.groups
    simp only [SchemaOptions.groups, List.append_eq_nil_iff, List.map_eq_nil_iff] at hgroups
    exact hgroups.1.2
  unfold SchemaDef.pick SchemaDef.select
  rw [List.find?_singleton, hrule, if_neg Bool.false_ne_true]
  simp only [SchemaDef.derive, SchemaDef.checkGroups, h.groups, hordered, List.mem_singleton, beq_true]
  rfl

/-- The fields of a schema are its rules by name, in the order of the names. -/
theorem SchemaDef.flatten_declaring (hsorted : schema.Sorted) :
    (schema.declared.map schema.declaring).flatten = schema.fields := by
  have hnames : schema.declared.Pairwise (· < ·) := by
    have hle : schema.declared.Pairwise (· ≤ ·) :=
      (List.pairwise_map.mpr hsorted).sublist (List.dedup_sublist _)
    exact (hle.and (List.nodup_dedup _)).imp fun h => lt_of_le_of_ne h.1 h.2
  exact List.flatMap_filter_of_sorted hnames hsorted fun f hf =>
    List.mem_dedup.mpr (List.mem_map_of_mem hf)

theorem SchemaDef.disjoint_declaring :
    (schema.declared.map schema.declaring).Pairwise Disjoint := by
  rw [List.pairwise_map]
  refine (List.nodup_dedup _).imp fun {a b} hne f hf g hg heq => hne ?_
  have hfa := of_decide_eq_true (List.mem_filter.mp hf).2
  have hgb := of_decide_eq_true (List.mem_filter.mp hg).2
  exact hfa.symm.trans (heq.trans hgb)

/-- A schema run field by field: what it asks of its fields and of the run. -/
structure Separate (host : Host) (schema : SchemaDef) (start : Start) : Prop where
  fieldsOnly : schema.FieldsOnly
  blind : ∀ f ∈ schema.fields, Blind (checkValue host f.2)
  sorted : schema.Sorted
  nesting : host.nesting < maxNesting
  strict : start.strict.getD false = false

theorem Separate.only (h : Separate host schema start) (name : String) :
    Separate host (schema.only name) start :=
  ⟨⟨h.fieldsOnly.groups, h.fieldsOnly.strict, h.fieldsOnly.checks⟩,
    fun f hf => h.blind f (List.mem_filter.mp hf).1, h.sorted.sublist List.filter_sublist,
    h.nesting, h.strict⟩

/-- The error entries of a verdict. -/
def reported : Except (List ErrorEntry) Value → List ErrorEntry
  | .ok _ => []
  | .error errors => errors

@[simp] theorem reported_conclude (out : Value) (errors : List ErrorEntry) :
    reported (conclude out errors) = sortByPath errors := by
  cases errors <;> rfl

theorem conclude_eq_ok {out v : Value} {errors : List ErrorEntry} :
    conclude out errors = .ok v ↔ errors = [] ∧ out = v := by
  cases errors <;> simp [conclude]

theorem conclude_eq_error {out : Value} {errors es : List ErrorEntry} :
    conclude out errors = .error es ↔ errors ≠ [] ∧ sortByPath errors = es := by
  cases errors <;> simp [conclude]

theorem sortByPath_eq_nil {errors : List ErrorEntry} : sortByPath errors = [] ↔ errors = [] := by
  rw [← List.length_eq_zero_iff, sortByPath, List.length_insertionSort, List.length_eq_zero_iff]

theorem sortByPath_flatMap (parts : List (List ErrorEntry × Entries)) :
    sortByPath (parts.flatMap fun part => sortByPath part.1) =
      sortByPath (parts.flatMap (·.1)) := by
  have hsort := List.insertionSort_flatMap_insertionSort
    (r := fun a b : ErrorEntry => a.path ≤ b.path) (parts.map (·.1))
  rw [List.flatMap_map, ← List.flatMap_def] at hsort
  exact hsort

/-- The verdict says what was yielded. -/
def Shows (start : Start) (verdict : Except (List ErrorEntry) Value)
    (part : List ErrorEntry × Entries) : Prop :=
  ∃ out, Value.eraseEntries out = part.2 ∧ verdict = conclude (.table start.next 0 out) part.1

theorem flatMap_reported {verdicts : List (Except (List ErrorEntry) Value)}
    {parts : List (List ErrorEntry × Entries)} (h : List.Forall₂ (Shows start) verdicts parts) :
    verdicts.flatMap reported = parts.flatMap fun part => sortByPath part.1 := by
  induction h with
  | nil => rfl
  | cons hshows _ ih =>
      obtain ⟨out, -, rfl⟩ := hshows
      rw [List.flatMap_cons, List.flatMap_cons, ih, reported_conclude]

/-- The accepted tables, where nothing was reported. -/
theorem exists_outputs {verdicts : List (Except (List ErrorEntry) Value)}
    {parts : List (List ErrorEntry × Entries)} (h : List.Forall₂ (Shows start) verdicts parts)
    (herrors : parts.flatMap (·.1) = []) :
    ∃ outs : List Entries, verdicts = outs.map (fun out => .ok (.table start.next 0 out)) ∧
      Value.eraseEntries outs.flatten = parts.flatMap (·.2) := by
  induction h with
  | nil => exact ⟨[], rfl, rfl⟩
  | cons hshows _ ih =>
      rw [List.flatMap_cons, List.append_eq_nil_iff] at herrors
      obtain ⟨out, hout, rfl⟩ := hshows
      obtain ⟨outs, rfl, houts⟩ := ih herrors.2
      refine ⟨out :: outs, ?_, ?_⟩
      · rw [conclude_eq_ok.mpr ⟨herrors.1, rfl⟩]
        rfl
      · rw [List.flatten_cons, eraseEntries_append, hout, houts]
        rfl

theorem exists_parts {names : List String} {P : String → List ErrorEntry × Entries → Prop}
    (h : ∀ name ∈ names, ∃ part, part.1 = [] ∧ P name part) :
    ∃ parts, List.Forall₂ P names parts ∧ parts.flatMap (·.1) = [] := by
  induction names with
  | nil => exact ⟨[], .nil, rfl⟩
  | cons name names ih =>
      obtain ⟨part, hempty, hpart⟩ := h name (List.mem_cons_self ..)
      obtain ⟨parts, hparts, hnone⟩ := ih fun other hmem => h other (List.mem_cons_of_mem _ hmem)
      refine ⟨part :: parts, .cons hpart hparts, ?_⟩
      rw [List.flatMap_cons, hempty, hnone, List.nil_append]

section Parts

variable (h : Separate host schema start)

include h

theorem Separate.run_of_yields {part : List ErrorEntry × Entries}
    (hy : Yields host schema.options input [] start.next (rootCtx start) schema.fields part) :
    ∃ verdict, run host scripts schema (.table p len input) start = .ok verdict ∧
      Shows start verdict part := by
  obtain ⟨ok, out, n, hloop, hout⟩ := hy
  refine ⟨_, ?_, out, hout, rfl⟩
  rw [run_eq_map h.fieldsOnly h.blind h.nesting h.strict, hloop]
  rfl

theorem Separate.yields_of_run {verdict : Except (List ErrorEntry) Value}
    (hrun : run host scripts schema (.table p len input) start = .ok verdict) :
    ∃ part, Yields host schema.options input [] start.next (rootCtx start) schema.fields part ∧
      Shows start verdict part := by
  rw [run_eq_map h.fieldsOnly h.blind h.nesting h.strict] at hrun
  cases hloop : checkFieldList host schema.fields schema.options input [] start.next true []
      (rootCtx start) with
  | error fault =>
      rw [hloop] at hrun
      cases hrun
  | ok r =>
      rw [hloop] at hrun
      obtain ⟨⟨ok, out⟩, c⟩ := r
      obtain ⟨n, errors, entries, rfl, hout⟩ :=
        yieldsOnto_of_eq h.blind (unset_nil _) hloop
      cases hrun
      exact ⟨(errors, entries), ⟨ok, out, n, hloop, hout⟩, out, hout, rfl⟩

theorem Separate.runs_of_yields {names : List String}
    {parts : List (List ErrorEntry × Entries)}
    (hparts : List.Forall₂ (fun name part => Yields host schema.options input [] start.next
      (rootCtx start) (schema.declaring name) part) names parts) :
    ∃ verdicts, List.Forall₂ (fun name verdict =>
        run host scripts (schema.only name) (.table p len input) start = .ok verdict)
        names verdicts ∧ List.Forall₂ (Shows start) verdicts parts := by
  induction hparts with
  | nil => exact ⟨[], .nil, .nil⟩
  | cons hpart _ ih =>
      obtain ⟨verdicts, hruns, hshows⟩ := ih
      obtain ⟨verdict, hrun, hshow⟩ := (h.only _).run_of_yields hpart
      exact ⟨verdict :: verdicts, .cons hrun hruns, .cons hshow hshows⟩

theorem Separate.yields_of_runs {names : List String}
    {verdicts : List (Except (List ErrorEntry) Value)}
    (hruns : List.Forall₂ (fun name verdict =>
      run host scripts (schema.only name) (.table p len input) start = .ok verdict)
      names verdicts) :
    ∃ parts, List.Forall₂ (fun name part => Yields host schema.options input [] start.next
        (rootCtx start) (schema.declaring name) part) names parts ∧
      List.Forall₂ (Shows start) verdicts parts := by
  induction hruns with
  | nil => exact ⟨[], .nil, .nil⟩
  | cons hrun _ ih =>
      obtain ⟨parts, hparts, hshows⟩ := ih
      obtain ⟨part, hpart, hshow⟩ := (h.only _).yields_of_run hrun
      exact ⟨part :: parts, .cons hpart hparts, .cons hshow hshows⟩

/-- What a schema yields is what its single fields yield. -/
theorem Separate.yields_iff {whole : List ErrorEntry × Entries} :
    Yields host schema.options input [] start.next (rootCtx start) schema.fields whole ↔
      ∃ parts, List.Forall₂ (fun name part => Yields host schema.options input [] start.next
        (rootCtx start) (schema.declaring name) part) schema.declared parts ∧
        whole = (parts.flatMap (·.1), parts.flatMap (·.2)) := by
  have hflatten := SchemaDef.flatten_declaring h.sorted
  rw [← hflatten, yields_flatten (hflatten ▸ h.blind) SchemaDef.disjoint_declaring]
  simp only [List.forall₂_map_left_iff]

/-- An output is the outputs of the single fields, one after the other. -/
theorem Separate.output {out : Value}
    (hrun : run host scripts schema (.table p len input) start = .ok (.ok out)) :
    ∃ outs : List Entries, List.Forall₂ (fun name es => run host scripts (schema.only name)
        (.table p len input) start = .ok (.ok (.table start.next 0 es))) schema.declared outs ∧
      out.erase = (Value.table start.next 0 outs.flatten).erase := by
  obtain ⟨whole, hyields, es, hes, hverdict⟩ := h.yields_of_run hrun
  obtain ⟨parts, hparts, rfl⟩ := h.yields_iff.mp hyields
  obtain ⟨herrors, rfl⟩ := conclude_eq_ok.mp hverdict.symm
  obtain ⟨verdicts, hruns, hshows⟩ := h.runs_of_yields hparts
  obtain ⟨outs, rfl, houts⟩ := exists_outputs hshows herrors
  rw [List.forall₂_map_right_iff] at hruns
  refine ⟨outs, hruns, ?_⟩
  simp only [Value.erase, hes, houts]

/-- A schema accepts what all its fields accept. -/
theorem Separate.accepts
    (hall : ∀ name ∈ schema.declared, ∃ out,
      run host scripts (schema.only name) (.table p len input) start = .ok (.ok out)) :
    ∃ out, run host scripts schema (.table p len input) start = .ok (.ok out) := by
  have hparts : ∀ name ∈ schema.declared, ∃ part : List ErrorEntry × Entries, part.1 = [] ∧
      Yields host schema.options input [] start.next (rootCtx start) (schema.declaring name)
        part := by
    intro name hname
    obtain ⟨out, hrun⟩ := hall name hname
    obtain ⟨part, hyields, es, -, hverdict⟩ := (h.only name).yields_of_run hrun
    exact ⟨part, (conclude_eq_ok.mp hverdict.symm).1, hyields⟩
  obtain ⟨parts, hyields, herrors⟩ := exists_parts hparts
  obtain ⟨verdict, hrun, es, -, rfl⟩ := h.run_of_yields (h.yields_iff.mpr ⟨parts, hyields, rfl⟩)
  refine ⟨.table start.next 0 es, ?_⟩
  rw [hrun, conclude_eq_ok.mpr ⟨herrors, rfl⟩]

/-- The errors of a schema are those of its fields, sorted by path. -/
theorem Separate.errors_iff {errors : List ErrorEntry} :
    run host scripts schema (.table p len input) start = .ok (.error errors) ↔
      ∃ verdicts, List.Forall₂ (fun name verdict =>
          run host scripts (schema.only name) (.table p len input) start = .ok verdict)
          schema.declared verdicts ∧
        verdicts.flatMap reported ≠ [] ∧ errors = sortByPath (verdicts.flatMap reported) := by
  have hsorted : ∀ {verdicts : List (Except (List ErrorEntry) Value)}
      {parts : List (List ErrorEntry × Entries)}, List.Forall₂ (Shows start) verdicts parts →
      (verdicts.flatMap reported = [] ↔ parts.flatMap (·.1) = []) ∧
      sortByPath (verdicts.flatMap reported) = sortByPath (parts.flatMap (·.1)) := by
    intro verdicts parts hshows
    rw [flatMap_reported hshows]
    refine ⟨?_, sortByPath_flatMap parts⟩
    rw [← sortByPath_eq_nil, sortByPath_flatMap, sortByPath_eq_nil]
  constructor
  · intro hrun
    obtain ⟨whole, hyields, es, -, hverdict⟩ := h.yields_of_run hrun
    obtain ⟨parts, hparts, rfl⟩ := h.yields_iff.mp hyields
    obtain ⟨hne, rfl⟩ := conclude_eq_error.mp hverdict.symm
    obtain ⟨verdicts, hruns, hshows⟩ := h.runs_of_yields hparts
    obtain ⟨hnil, hsort⟩ := hsorted hshows
    exact ⟨verdicts, hruns, fun hempty => hne (hnil.mp hempty), hsort.symm⟩
  · rintro ⟨verdicts, hruns, hne, rfl⟩
    obtain ⟨parts, hparts, hshows⟩ := h.yields_of_runs hruns
    obtain ⟨hnil, hsort⟩ := hsorted hshows
    obtain ⟨verdict, hrun, out, -, rfl⟩ := h.run_of_yields (h.yields_iff.mpr ⟨parts, hparts, rfl⟩)
    rw [hrun, hsort]
    exact congrArg Except.ok (conclude_eq_error.mpr ⟨fun hempty => hne (hnil.mpr hempty), rfl⟩)

/-- What is accepted holds declared keys only. -/
theorem Separate.contained {out : Value}
    (hrun : run host scripts schema (.table p len input) start = .ok (.ok out)) :
    ∃ es, out = .table start.next 0 es ∧ ∀ e ∈ es, ContainedField schema e := by
  rw [run_eq_map h.fieldsOnly h.blind h.nesting h.strict] at hrun
  cases hloop : checkFieldList host schema.fields schema.options input [] start.next true []
      (rootCtx start) with
  | error fault =>
      rw [hloop] at hrun
      cases hrun
  | ok r =>
      obtain ⟨⟨ok, es⟩, c⟩ := r
      rw [hloop] at hrun
      obtain ⟨herrors, rfl⟩ := conclude_eq_ok.mp (Except.ok.inj hrun)
      refine ⟨es, rfl, ?_⟩
      cases ok with
      | false =>
          have hreports := checkFieldList_reports (fun f _ => checkValue_reports host f.2) _ _ _ _ _ _
            _ _ _ hloop
          have hgrown := hreports.2 ⟨rfl, rfl⟩
          rw [herrors] at hgrown
          cases hgrown
      | true =>
          obtain ⟨-, d, hlist, -⟩ := checkFieldList_sound (fun f _ => checkValue_sound host f.2) hloop
          exact hlist.contained fun f _ => checks_contained host f.2

end Parts

/-- A run sees the declared fields, and what the rules ask of whole values. -/
theorem Separate.congr (h : Separate host schema start)
    (hhooks : ∀ f ∈ schema.fields, f.2.Hookless) {p' len' : ℕ} {input' : Entries}
    (hagree : schema.Agree true input' input) :
    run host scripts schema (.table p' len' input') start =
      run host scripts schema (.table p len input) start := by
  rw [run_eq_map h.fieldsOnly h.blind h.nesting h.strict,
    run_eq_map h.fieldsOnly h.blind h.nesting h.strict,
    checkFieldList_agree h.blind (fun f hf => checkValue_agree (hhooks f hf)) hagree _ _ _ _ _ _ rfl]

/-- A non-strict schema without hooks and groups is run field by field: it accepts what
each of its fields accepts, its output is theirs put together, its errors are theirs
sorted by path; the output holds declared keys only, and two inputs that agree at the declared
fields and where the rules look at whole values run the same. -/
theorem run_fieldwise (hbuilt : Built (fun _ => True) schema) (hhooks : schema.Hookless)
    (hgroups : schema.options.groups = []) (hstrict : schema.options.strict = false)
    (hstart : start.strict.getD false = false) (hnest : host.nesting < maxNesting) :
    (∀ name ∈ schema.declared, schema.pick [name] = .ok (schema.only name)) ∧
    ((∃ out, run host scripts schema (.table p len input) start = .ok (.ok out)) ↔
      ∀ name ∈ schema.declared, ∃ out,
        run host scripts (schema.only name) (.table p len input) start = .ok (.ok out)) ∧
    (∀ out, run host scripts schema (.table p len input) start = .ok (.ok out) →
      ∃ outs : List Entries, List.Forall₂ (fun name es => run host scripts (schema.only name)
          (.table p len input) start = .ok (.ok (.table start.next 0 es))) schema.declared outs ∧
        out.erase = (Value.table start.next 0 outs.flatten).erase) ∧
    (∀ errors, run host scripts schema (.table p len input) start = .ok (.error errors) ↔
      ∃ verdicts, List.Forall₂ (fun name verdict =>
          run host scripts (schema.only name) (.table p len input) start = .ok verdict)
          schema.declared verdicts ∧
        verdicts.flatMap reported ≠ [] ∧ errors = sortByPath (verdicts.flatMap reported)) ∧
    (∀ out, run host scripts schema (.table p len input) start = .ok (.ok out) →
      ∃ es, out = .table start.next 0 es ∧ ∀ e ∈ es, ContainedField schema e) ∧
    ∀ p' len' (input' : Entries), schema.Agree true input' input →
      run host scripts schema (.table p' len' input') start =
        run host scripts schema (.table p len input) start := by
  have h : Separate host schema start :=
    ⟨⟨hgroups, hstrict, hhooks.checks⟩, fun f hf => checkValue_blind (hhooks.fields f hf),
      hbuilt.sorted, hnest, hstart⟩
  refine ⟨fun name hname => h.fieldsOnly.pick_eq hname, ⟨?_, h.accepts⟩,
    fun out hrun => h.output hrun, fun errors => h.errors_iff, fun out hrun => h.contained hrun,
    fun p' len' input' hagree => h.congr hhooks.fields hagree⟩
  rintro ⟨out, hrun⟩ name hname
  obtain ⟨outs, houts, -⟩ := h.output hrun
  obtain ⟨i, hi, rfl⟩ := List.getElem_of_mem hname
  exact ⟨_, houts.get hi (houts.length_eq ▸ hi)⟩

theorem tagRule_hookless : tagRule.Hookless := by
  refine .intro rfl rfl (fun c h => nomatch h) ?_ ?_ ?_ ?_ ?_ ?_ <;> (intro x hx; cases hx)

theorem tagsSchema_hookless : tagsSchema.Hookless := by
  refine ⟨rfl, fun f hf => ?_⟩
  rw [List.mem_singleton.mp hf]
  refine .intro rfl rfl (fun c h => nomatch h) ?_ ?_ ?_ ?_ ?_ ?_
  · intro r hr
    cases hr
    exact tagRule_hookless
  all_goals
    intro x hx
    cases hx

/-- `{ tags = { "A", "b" } }` is accepted by the one field declared, and so by the schema. -/
theorem run_fieldwise_tags :
    (∃ out, run .ascii noScripts tagsSchema (tagsValue "A" "b") ⟨none, 0⟩ = .ok (.ok out)) ↔
      ∀ name ∈ tagsSchema.declared, ∃ out,
        run .ascii noScripts (tagsSchema.only name) (tagsValue "A" "b") ⟨none, 0⟩ =
          .ok (.ok out) :=
  (run_fieldwise tagsSchema_built tagsSchema_hookless rfl rfl rfl (by decide)).2.1

/-- A record `{ a = "1" }` with further keys. -/
def record (pointer len : ℕ) (more : Entries) : Value :=
  .table pointer len ((.ofString "a", .ofString "1") :: more)

def recordRule : Rule :=
  { Rule.ofKeys { kind := .table } with
    fields := some ⟨[("a", Rule.ofKeys { kind := .string })], {}⟩ }

/-- `{ a = { type = "string" } }`, with `strict`. -/
def sealedSchema : SchemaDef :=
  ⟨[("a", Rule.ofKeys { kind := .string })], { strict := true }⟩

/-- `{ one = record, rows = { type = "array", unique = true, items = record }, sealed =
{ type = "table", fields = sealedSchema } }` where `record` is
`{ type = "table", fields = { a = { type = "string" } } }`. -/
def recordsSchema : SchemaDef :=
  ⟨[("one", recordRule),
    ("rows", { Rule.ofKeys { kind := .array, unique := true } with items := some recordRule }),
    ("sealed", { Rule.ofKeys { kind := .table } with fields := some sealedSchema })], {}⟩

def stringSpec (pointer : ℕ) : Value :=
  .table pointer 0 [(.ofString "type", .ofString "string")]

def recordSpec (pointer : ℕ) : Value :=
  .table pointer 0 [(.ofString "type", .ofString "table"), (.ofString "fields",
    .table (pointer + 1) 0 [(.ofString "a", stringSpec (pointer + 2))])]

theorem not_has_table {p len : ℕ} {es : Entries} {s : SchemaDef} (h : ∀ e ∈ es, ¬e.2.Has s) :
    ¬(Value.table p len es).Has s := by
  intro hs
  cases hs with
  | entry mem inner => exact h _ mem inner

theorem sealedSchema_built : Built (fun _ => True) sealedSchema := by
  refine @Built.call _ Library.bare (.schema [(.ofString "a", stringSpec 0)]
    (some [(.ofString "strict", .boolean true)])) _ ?_ trivial rfl
  rintro s ⟨e, he, hs⟩
  rw [List.mem_singleton.mp he] at hs
  exact absurd hs (not_has_table (List.forall_mem_singleton.mpr fun h => nomatch h))

theorem recordsSchema_built : Built (fun _ => True) recordsSchema := by
  refine @Built.call _ Library.bare (.schema [(.ofString "rows", .table 0 0
    [(.ofString "type", .ofString "array"), (.ofString "unique", .boolean true),
     (.ofString "items", recordSpec 1)]), (.ofString "one", recordSpec 4),
    (.ofString "sealed", .table 7 0 [(.ofString "type", .ofString "table"),
     (.ofString "fields", .schema sealedSchema)])] none) _ ?_ trivial rfl
  -- The one schema nested in the rule values is the sealed one.
  rintro s ⟨e, he, hs⟩
  have htext (text : String) : ¬(Value.ofString text).Has s := fun h => nomatch h
  have hspec (pointer : ℕ) : ¬(recordSpec pointer).Has s := by
    refine not_has_table (List.forall_mem_cons.mpr ⟨htext "table", ?_⟩)
    refine List.forall_mem_singleton.mpr (not_has_table (List.forall_mem_singleton.mpr ?_))
    exact not_has_table (List.forall_mem_singleton.mpr (htext "string"))
  simp only [List.mem_cons, List.not_mem_nil, or_false] at he
  obtain rfl | rfl | rfl := he
  · cases hs with
    | entry mem inner =>
        simp only [List.mem_cons, List.not_mem_nil, or_false, Prod.mk.injEq] at mem
        obtain ⟨-, rfl⟩ | ⟨-, rfl⟩ | ⟨-, rfl⟩ := mem
        · exact absurd inner (htext _)
        · cases inner
        · exact absurd inner (hspec 1)
  · exact absurd hs (hspec 4)
  · cases hs with
    | entry mem inner =>
        simp only [List.mem_cons, List.not_mem_nil, or_false, Prod.mk.injEq] at mem
        obtain ⟨-, rfl⟩ | ⟨-, rfl⟩ := mem
        · exact absurd inner (htext _)
        · cases inner
          exact sealedSchema_built

/-- The JSON of a table of texts of letters and digits. -/
def textJson : Value → Option String
  | .table _ _ es => some ("\x7b" ++ ",".intercalate (es.map fun e =>
      match e with
      | (.string k, .string v) => "\"" ++ k.toStringLossy ++ "\":\"" ++ v.toStringLossy ++ "\""
      | _ => "") ++ "\x7d")
  | _ => none

/-- An undeclared key tells two rows apart, turns a record into a list, and is an error in a
strict table. -/
theorem run_fieldwise_undeclared :
    let host := { Host.ascii with toJson := textJson }
    let rows (first second : Entries) : Entries := [(.ofString "rows", .table 1 2
      [(.integer 1, record 2 0 first), (.integer 2, record 3 0 second)])]
    let x (text : String) : Entries := [(.ofString "x", .ofString text)]
    let field (name : String) (len : ℕ) (more : Entries) : Entries :=
      [(.ofString name, record 1 len more)]
    Built (fun _ => True) recordsSchema ∧
    recordsSchema.Agree false (rows (x "1") (x "2")) (rows [] []) ∧
      (∃ out, run host noScripts recordsSchema (.table 0 0 (rows (x "1") (x "2"))) ⟨none, 4⟩ =
        .ok (.ok out)) ∧
      (∃ e, run host noScripts recordsSchema (.table 0 0 (rows [] [])) ⟨none, 4⟩ =
        .ok (.error [e]) ∧ e.rule = "unique") ∧
    recordsSchema.Agree false (field "one" 0 []) (field "one" 1 [(.integer 1, .ofString "1")]) ∧
      (∃ out, run host noScripts recordsSchema (.table 0 0 (field "one" 0 [])) ⟨none, 4⟩ =
        .ok (.ok out)) ∧
      (∃ e, run host noScripts recordsSchema
        (.table 0 0 (field "one" 1 [(.integer 1, .ofString "1")])) ⟨none, 4⟩ =
        .ok (.error [e]) ∧ e.rule = "type") ∧
    recordsSchema.Agree false (field "sealed" 0 []) (field "sealed" 0 (x "1")) ∧
      (∃ out, run host noScripts recordsSchema (.table 0 0 (field "sealed" 0 [])) ⟨none, 4⟩ =
        .ok (.ok out)) ∧
      (∃ e, run host noScripts recordsSchema (.table 0 0 (field "sealed" 0 (x "1"))) ⟨none, 4⟩ =
        .ok (.error [e]) ∧ e.rule = "unknown") := by
  intro host rows x field
  have hrecord {schema : SchemaDef}
      (hfields : schema.fields = [("a", Rule.ofKeys { kind := .string })])
      (p len p' len' : ℕ) (more more' : Entries) :
      Rule.Agree false { Rule.ofKeys { kind := .table } with fields := some schema }
        (record p len more) (record p' len' more') := by
    refine .table rfl rfl (fun h => nomatch h) (fun h => nomatch h) ?_
    intro f hf
    rw [hfields] at hf
    rw [List.mem_singleton.mp hf]
    exact .same _
  refine ⟨recordsSchema_built, ?_, ⟨_, rfl⟩, ⟨_, rfl, rfl⟩, ?_, ⟨_, rfl⟩, ⟨_, rfl, rfl⟩, ?_,
    ⟨_, rfl⟩, ⟨_, rfl, rfl⟩⟩
  all_goals
    intro f hf
    simp only [recordsSchema, List.mem_cons, List.not_mem_nil, or_false] at hf
    obtain rfl | rfl | rfl := hf
  · exact .same _
  · refine .array rfl rfl (fun h => nomatch h) rfl ?_
    intro i hi
    rcases i with _ | _ | i
    · exact hrecord rfl 2 0 2 0 _ _
    · exact hrecord rfl 3 0 3 0 _ _
    · omega
  · exact .same _
  · exact hrecord rfl 1 0 1 1 _ _
  · exact .same _
  · exact .same _
  · exact .same _
  · exact .same _
  · exact hrecord rfl 1 0 1 0 _ _

end Runs

end Nitr.Validate
