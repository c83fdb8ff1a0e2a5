import Nitr.Validate.Reports

/-! # The deferred checks of an accepting run

The script checks run after the walk, in order, the transforms writing into the
output; they record nothing exactly when each of them passes. -/

namespace Nitr.Validate

open Check

/-- The function a deferred check calls. -/
def PendingCheck.func : PendingCheck → Function
  | .custom f => f
  | .format c => c.check
  | .transform f => f

def Pending.isSchema : Pending → Bool
  | .field .. => false
  | .schema .. => true

section Deferred

variable (scripts : Scripts)

/-- The function was called on the value and returned true. -/
def Scripts.Holds (f : Function) (value : Value) : Prop :=
  ∃ results, scripts.call f value = .ok results ∧ results.headD .nil = .boolean true

/-- The function did not answer with a failure to report: it returned true, or false
and a reason table that names no field. -/
def Scripts.Tolerates (f : Function) (value : Value) : Prop :=
  ∃ results, scripts.call f value = .ok results ∧
    (results.headD .nil = .boolean true ∨
      (results.headD .nil = .boolean false ∨ results.headD .nil = .nil) ∧
        ∃ p len, results[1]? = some (.table p len []))

/-- Every deferred field-level check passes, in order; the transforms add to the writes. -/
inductive FieldsPass : List Pending → Writes → Writes → Prop where
  | nil {writes : Writes} : FieldsPass [] writes writes
  | schema {table : Value} {root : String} {schema : SchemaDef} {index : ℕ} {ps : List Pending}
      {writes writes' : Writes} (rest : FieldsPass ps writes writes') :
      FieldsPass (.schema table root schema index :: ps) writes writes'
  | check {slot : Slot} {path field : String} {rule : RuleKeys} {owner : SchemaOptions}
      {value : Value} {check : PendingCheck} {ps : List Pending} {writes writes' : Writes}
      (check_ne : ∀ f, check ≠ .transform f)
      (holds : scripts.Holds check.func (value.deref writes))
      (rest : FieldsPass ps writes writes') :
      FieldsPass (.field slot path field rule owner value check :: ps) writes writes'
  | transform {slot : Slot} {path field : String} {rule : RuleKeys} {owner : SchemaOptions}
      {value : Value} {f : Function} {ps : List Pending} {writes writes' : Writes}
      {results : List Value} (called : scripts.call f (value.deref writes) = .ok results)
      (typed : matchesKind (results.headD .nil) rule.kind = true)
      (rest : FieldsPass ps ((slot, results.headD .nil) :: writes) writes') :
      FieldsPass (.field slot path field rule owner value (.transform f) :: ps) writes writes'

/-- No deferred schema-level check reports a failure of its table after the writes. -/
def SchemasPass (ps : List Pending) (writes : Writes) : Prop :=
  ∀ table root schema index, Pending.schema table root schema index ∈ ps →
    ∃ check, schema.options.checks[index]? = some check ∧
      scripts.Tolerates check.func (table.deref writes)

end Deferred

section Passing

variable {host : Host} {scripts : Scripts}

theorem verdict_eq_pass {results : List Value} {what : String} :
    verdict results what = .ok .pass ↔ results.headD .nil = .boolean true := by
  unfold verdict
  cases results.headD .nil with
  | boolean b => cases b <;> simp
  | _ => simp

theorem runTransform_eq_ok {f : Function} {path : String} {kind : Kind} {value w : Value} :
    runTransform scripts f path kind value = .ok w ↔
      ∃ results, scripts.call f value = .ok results ∧ matchesKind (results.headD .nil) kind = true ∧
        w = results.headD .nil := by
  unfold runTransform
  cases scripts.call f value with
  | error fault =>
      constructor
      · intro h
        cases h
      · rintro ⟨_, h, -⟩
        cases h
  | ok results =>
      change (if matchesKind (results.headD .nil) kind = true then Except.ok (results.headD .nil)
        else Except.error _) = _ ↔ _
      split
      · rename_i hk
        simp only [Except.ok.injEq, exists_eq_left', hk, true_and]
        exact eq_comm
      · rename_i hk
        simp only [reduceCtorEq, Except.ok.injEq, exists_eq_left', hk, false_and]

/-- A custom check or format: what a passing and a failing call lead to. -/
theorem runFieldChecks_check {check : PendingCheck} (h : ∀ f, check ≠ .transform f) (slot : Slot)
    (path field : String) (rule : RuleKeys) (owner : SchemaOptions) (value : Value)
    (ps : List Pending) (failed : List String) (writes : Writes) :
    runFieldChecks host scripts (.field slot path field rule owner value check :: ps) failed
      writes = (do
        let results ← Check.lift (scripts.call check.func (value.deref writes))
        match ← Check.lift (verdict results (check.script path).2.1) with
        | .pass => runFieldChecks host scripts ps failed writes
        | .fail reason =>
          let reason ← Check.lift (fieldReason reason (check.script path).2.1)
          Check.fail host
            { path, field, rule := (check.script path).2.2, kind := rule.kind,
              params := check.params, fieldRule := some rule, owner, fallback := check.fallback,
              reason }
          runFieldChecks host scripts ps (path :: failed) writes) := by
  cases check with
  | custom f => rfl
  | format c => rfl
  | transform f => exact absurd rfl (h f)

theorem runFieldChecks_reports (ps : List Pending) (failed : List String) (writes : Writes) :
    Reports (runFieldChecks host scripts ps failed writes) fun _ => False := by
  induction ps generalizing failed writes with
  | nil => exact .pure not_false
  | cons p ps ih =>
      cases p with
      | schema table root schema index => exact .bind (ih _ _) fun _ => .pure (by simp)
      | field slot path field rule owner value check =>
          by_cases hcheck : ∃ f, check = .transform f
          · obtain ⟨f, rfl⟩ := hcheck
            unfold runFieldChecks
            dsimp only
            split
            · exact ih _ _
            · exact .bind .lift fun _ => (ih _ _).mono (by simp)
          · rw [runFieldChecks_check (not_exists.mp hcheck)]
            refine .bind .lift fun results => .bind .lift fun v => ?_
            cases v with
            | pass => exact (ih _ _).mono (by simp)
            | fail reason =>
                exact .bind .lift fun _ => .bind (.fail _ _) fun _ => (ih _ _).mono (by simp)

/-- Without a new error every deferred field-level check passed, and conversely. -/
theorem runFieldChecks_eq_ok {ps schemas : List Pending} {writes writes' : Writes}
    {ctx ctx' : Ctx} :
    (runFieldChecks host scripts ps [] writes ctx = .ok ((schemas, writes'), ctx') ∧
      ctx'.errors.length ≤ ctx.errors.length) ↔
      FieldsPass scripts ps writes writes' ∧ schemas = ps.filter Pending.isSchema ∧ ctx' = ctx := by
  induction ps generalizing schemas writes with
  | nil =>
      constructor
      · rintro ⟨h, -⟩
        cases h
        exact ⟨.nil, rfl, rfl⟩
      · rintro ⟨h, rfl, rfl⟩
        cases h
        exact ⟨rfl, le_rfl⟩
  | cons p ps ih =>
      cases p with
      | schema table root schema index =>
          constructor
          · rintro ⟨h, hlen⟩
            obtain ⟨⟨schemas', writes''⟩, c, hps, h⟩ := bind_eq_ok.mp h
            cases h
            obtain ⟨hpass, rfl, rfl⟩ := ih.mp ⟨hps, hlen⟩
            exact ⟨.schema hpass, rfl, rfl⟩
          · rintro ⟨h, rfl, rfl⟩
            cases h with
            | schema rest =>
                obtain ⟨hps, -⟩ := ih.mpr ⟨rest, rfl, rfl⟩
                exact ⟨bind_eq_ok.mpr ⟨_, _, hps, rfl⟩, le_rfl⟩
      | field slot path field rule owner value check =>
          by_cases hcheck : ∃ f, check = .transform f
          · obtain ⟨f, rfl⟩ := hcheck
            constructor
            · rintro ⟨h, hlen⟩
              obtain ⟨w, c, hlift, hps⟩ := bind_eq_ok.mp h
              obtain ⟨hw, hc⟩ := lift_eq_ok.mp hlift
              rw [hc] at hps
              obtain ⟨results, hcall, htyped, rfl⟩ := runTransform_eq_ok.mp hw
              obtain ⟨hpass, rfl, rfl⟩ := ih.mp ⟨hps, hlen⟩
              exact ⟨.transform hcall htyped hpass, rfl, rfl⟩
            · rintro ⟨h, rfl, rfl⟩
              cases h with
              | check check_ne => exact absurd rfl (check_ne f)
              | transform called typed rest =>
                  obtain ⟨hps, -⟩ := ih.mpr ⟨rest, rfl, rfl⟩
                  have hw := (@runTransform_eq_ok _ f path _ _ _).mpr ⟨_, called, typed, rfl⟩
                  exact ⟨bind_eq_ok.mpr ⟨_, _, lift_eq_ok.mpr ⟨hw, rfl⟩, hps⟩, le_rfl⟩
          · have hne := not_exists.mp hcheck
            rw [runFieldChecks_check hne]
            constructor
            · rintro ⟨h, hlen⟩
              obtain ⟨results, c, hlift, hrest⟩ := bind_eq_ok.mp h
              obtain ⟨hcall, hc⟩ := lift_eq_ok.mp hlift
              obtain ⟨v, c', hlift, hps⟩ := bind_eq_ok.mp hrest
              obtain ⟨hv, hc'⟩ := lift_eq_ok.mp hlift
              rw [hc', hc] at hps
              cases v with
              | pass =>
                  obtain ⟨hpass, rfl, rfl⟩ := ih.mp ⟨hps, hlen⟩
                  exact ⟨.check hne ⟨results, hcall, verdict_eq_pass.mp hv⟩ hpass, rfl, rfl⟩
              | fail reason =>
                  obtain ⟨_, c₁, hlift, hps⟩ := bind_eq_ok.mp hps
                  obtain ⟨-, hc₁⟩ := lift_eq_ok.mp hlift
                  obtain ⟨_, c₂, hfail, hps⟩ := bind_eq_ok.mp hps
                  rw [hc₁] at hfail
                  have hgrown := (Reports.fail host _ _ _ _ hfail).2 trivial
                  have hkept := (runFieldChecks_reports _ _ _ _ _ _ hps).1
                  omega
            · rintro ⟨h, rfl, rfl⟩
              cases h with
              | transform => exact absurd rfl (hne _)
              | check _ holds rest =>
                  obtain ⟨results, hcall, htrue⟩ := holds
                  obtain ⟨hps, -⟩ := ih.mpr ⟨rest, rfl, rfl⟩
                  refine ⟨bind_eq_ok.mpr ⟨_, _, lift_eq_ok.mpr ⟨hcall, rfl⟩, ?_⟩, le_rfl⟩
                  exact bind_eq_ok.mpr ⟨.pass, _, lift_eq_ok.mpr
                    ⟨verdict_eq_pass.mpr htrue, rfl⟩, hps⟩

theorem verdict_eq_fail {results : List Value} {what : String} {reason : Option Value} :
    verdict results what = .ok (.fail reason) ↔
      (results.headD .nil = .boolean false ∨ results.headD .nil = .nil) ∧
        reason = results[1]?.filter fun v => !v.isNil := by
  unfold verdict
  cases results.headD .nil with
  | boolean b => cases b <;> simp [eq_comm]
  | nil => simp [eq_comm]
  | _ => simp

theorem reasonFailures_eq_nil {schema : SchemaDef} {root what : String} {check : CheckDef}
    {map : Entries} : reasonFailures schema root check what map = .ok [] ↔ map = [] := by
  cases map with
  | nil => exact ⟨fun _ => rfl, fun _ => rfl⟩
  | cons e rest =>
      obtain ⟨key, value⟩ := e
      refine ⟨fun h => ?_, fun h => nomatch h⟩
      cases key with
      | integer i => cases h
      | other p => cases h
      | string key =>
          cases value with
          | string reason =>
              unfold reasonFailures at h
              dsimp only at h
              split at h
              · cases h
              · cases hrest : reasonFailures schema root check what rest with
                | error fault =>
                    rw [hrest] at h
                    cases h
                | ok fs =>
                    rw [hrest] at h
                    cases h
          | _ => cases h

theorem schemaFailures_eq_nil {schema : SchemaDef} {root what : String} {check : CheckDef}
    {reason : Option Value} :
    schemaFailures schema root check what reason = .ok [] ↔
      ∃ p len, reason = some (.table p len []) := by
  cases reason with
  | none => simp [schemaFailures]
  | some value =>
      cases value with
      | table p len map => simp [schemaFailures, reasonFailures_eq_nil]
      | _ => simp [schemaFailures]

theorem runSchemaChecks_reports (writes : Writes) (ps : List Pending) :
    Reports (runSchemaChecks host scripts writes ps) fun _ => False := by
  induction ps with
  | nil => exact .pure not_false
  | cons p ps ih =>
      cases p with
      | field => exact ih
      | schema table root schema index =>
          unfold runSchemaChecks
          split
          · exact .throw
          · refine .bind .lift fun results => .bind .lift fun v => ?_
            cases v with
            | pass => exact ih.mono (by simp)
            | fail reason =>
                exact .bind .lift fun fs => .bind (.failAll _ _) fun _ => ih.mono (by simp)

theorem schemasPass_cons {table : Value} {root : String} {schema : SchemaDef} {index : ℕ}
    {ps : List Pending} {writes : Writes} :
    SchemasPass scripts (.schema table root schema index :: ps) writes ↔
      (∃ check, schema.options.checks[index]? = some check ∧
        scripts.Tolerates check.func (table.deref writes)) ∧ SchemasPass scripts ps writes := by
  constructor
  · intro h
    exact ⟨h table root schema index (List.mem_cons_self ..),
      fun t r s i hm => h t r s i (List.mem_cons_of_mem _ hm)⟩
  · rintro ⟨hhead, hrest⟩ t r s i hm
    cases hm with
    | head => exact hhead
    | tail _ hm => exact hrest t r s i hm

/-- The schema-level checks record nothing exactly when each tolerates its table. -/
theorem runSchemaChecks_eq_ok {writes : Writes} {ps : List Pending} {ctx ctx' : Ctx} :
    (runSchemaChecks host scripts writes ps ctx = .ok ((), ctx') ∧
      ctx'.errors.length ≤ ctx.errors.length) ↔ SchemasPass scripts ps writes ∧ ctx' = ctx := by
  induction ps with
  | nil =>
      constructor
      · rintro ⟨h, -⟩
        cases h
        exact ⟨fun _ _ _ _ hm => absurd hm List.not_mem_nil, rfl⟩
      · rintro ⟨-, rfl⟩
        exact ⟨rfl, le_rfl⟩
  | cons p ps ih =>
      cases p with
      | field slot path field rule owner value check =>
          rw [show runSchemaChecks host scripts writes (_ :: ps) =
            runSchemaChecks host scripts writes ps from rfl, ih]
          simp [SchemasPass]
      | schema table root schema index =>
          rw [schemasPass_cons]
          constructor
          · rintro ⟨h, hlen⟩
            unfold runSchemaChecks at h
            cases hcheck : schema.options.checks[index]? with
            | none =>
                rw [hcheck] at h
                cases h
            | some check =>
                rw [hcheck] at h
                obtain ⟨results, c, hlift, hrest⟩ := bind_eq_ok.mp h
                obtain ⟨hcall, hc⟩ := lift_eq_ok.mp hlift
                obtain ⟨v, c', hlift, hps⟩ := bind_eq_ok.mp hrest
                obtain ⟨hv, hc'⟩ := lift_eq_ok.mp hlift
                rw [hc', hc] at hps
                cases v with
                | pass =>
                    obtain ⟨hpass, rfl⟩ := ih.mp ⟨hps, hlen⟩
                    exact ⟨⟨⟨check, rfl, results, hcall, .inl (verdict_eq_pass.mp hv)⟩, hpass⟩, rfl⟩
                | fail reason =>
                    obtain ⟨fs, c₁, hlift, hps⟩ := bind_eq_ok.mp hps
                    obtain ⟨hfs, hc₁⟩ := lift_eq_ok.mp hlift
                    obtain ⟨_, c₂, hall, hps⟩ := bind_eq_ok.mp hps
                    rw [hc₁] at hall
                    have hkept := (runSchemaChecks_reports _ _ _ _ _ hps).1
                    -- A failure to report would have been recorded.
                    have hnil : fs = [] := by
                      by_contra hne
                      have hgrown := (Reports.failAll host fs _ _ _ hall).2 hne
                      omega
                    rw [hnil] at hfs hall
                    cases hall
                    obtain ⟨hpass, rfl⟩ := ih.mp ⟨hps, hlen⟩
                    obtain ⟨hhead, hreason⟩ := verdict_eq_fail.mp hv
                    obtain ⟨p, len, hsome⟩ := schemaFailures_eq_nil.mp hfs
                    rw [hsome] at hreason
                    have hsecond := (Option.filter_eq_some_iff.mp hreason.symm).1
                    exact ⟨⟨⟨check, rfl, results, hcall, .inr ⟨hhead, p, len, hsecond⟩⟩, hpass⟩, rfl⟩
          · rintro ⟨⟨⟨check, hcheck, results, hcall, hresult⟩, hpass⟩, rfl⟩
            obtain ⟨hps, -⟩ := ih.mpr ⟨hpass, rfl⟩
            refine ⟨?_, le_rfl⟩
            unfold runSchemaChecks
            rw [hcheck]
            refine bind_eq_ok.mpr ⟨results, _, lift_eq_ok.mpr ⟨hcall, rfl⟩, ?_⟩
            obtain htrue | ⟨hhead, p, len, hsecond⟩ := hresult
            · exact bind_eq_ok.mpr ⟨.pass, _, lift_eq_ok.mpr ⟨verdict_eq_pass.mpr htrue, rfl⟩, hps⟩
            · have hv := (@verdict_eq_fail results ("schema check " ++ toString (index + 1) ++
                " (\"" ++ check.description ++ "\")") _).mpr ⟨hhead, rfl⟩
              refine bind_eq_ok.mpr ⟨_, _, lift_eq_ok.mpr ⟨hv, rfl⟩, ?_⟩
              rw [hsecond]
              exact bind_eq_ok.mpr ⟨[], _, rfl, hps⟩

theorem schemasPass_filter {ps : List Pending} {writes : Writes} :
    SchemasPass scripts (ps.filter Pending.isSchema) writes ↔ SchemasPass scripts ps writes := by
  constructor
  · intro h t r s i hm
    exact h t r s i (List.mem_filter.mpr ⟨hm, rfl⟩)
  · intro h t r s i hm
    exact h t r s i (List.mem_filter.mp hm).1

theorem runDeferred_eq_ok {writes : Writes} {ctx ctx' : Ctx} :
    (runDeferred host scripts ctx = .ok (writes, ctx') ∧ ctx'.errors = []) ↔
      ctx.errors = [] ∧ FieldsPass scripts ctx.pending [] writes ∧
        SchemasPass scripts ctx.pending writes ∧ ctx' = { ctx with pending := [] } := by
  have hunfold : runDeferred host scripts ctx =
      (runFieldChecks host scripts ctx.pending [] [] >>= fun r => do
        if (← get).errors.isEmpty then runSchemaChecks host scripts r.2 r.1
        return r.2) { ctx with pending := [] } := rfl
  rw [hunfold]
  constructor
  · rintro ⟨h, hnil⟩
    obtain ⟨⟨schemas, writes₁⟩, c₁, hfields, h⟩ := bind_eq_ok.mp h
    obtain ⟨c₂, c₃, hget, h⟩ := bind_eq_ok.mp h
    cases hget
    have hgrown := (runFieldChecks_reports _ _ _ _ _ _ hfields).1
    cases hempty : c₁.errors.isEmpty with
    | false =>
        rw [hempty] at h
        cases h
        simp [hnil] at hempty
    | true =>
        rw [hempty] at h
        obtain ⟨_, c₄, hschemas, h⟩ := bind_eq_ok.mp h
        cases h
        have hc₁ : c₁.errors = [] := List.isEmpty_iff.mp hempty
        obtain ⟨hpass, rfl, rfl⟩ := runFieldChecks_eq_ok.mp ⟨hfields, by simp [hc₁]⟩
        obtain ⟨htolerated, rfl⟩ := runSchemaChecks_eq_ok.mp ⟨hschemas, by simp [hnil]⟩
        exact ⟨hc₁, hpass, schemasPass_filter.mp htolerated, rfl⟩
  · rintro ⟨hnil, hpass, hschemas, rfl⟩
    refine ⟨?_, hnil⟩
    obtain ⟨hfields, -⟩ := (@runFieldChecks_eq_ok host scripts _ _ _ _
      { ctx with pending := [] } _).mpr ⟨hpass, rfl, rfl⟩
    obtain ⟨hschemas, -⟩ := (@runSchemaChecks_eq_ok host scripts _ _
      { ctx with pending := [] } _).mpr ⟨schemasPass_filter.mpr hschemas, rfl⟩
    refine bind_eq_ok.mpr ⟨_, _, hfields, ?_⟩
    refine bind_eq_ok.mpr ⟨_, _, rfl, ?_⟩
    rw [show List.isEmpty ({ ctx with pending := [] } : Ctx).errors = true by simp [hnil]]
    exact bind_eq_ok.mpr ⟨(), _, hschemas, rfl⟩

end Passing

end Nitr.Validate
