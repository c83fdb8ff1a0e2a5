import Nitr.Validate.Acceptance

/-! # Errors are only added

No check takes back an error: a failure the walk has recorded is in the verdict of the run. -/

namespace Nitr.Validate

namespace Check

variable {α β : Type}

/-- The errors after a computation start with those before it. -/
def Appends (x : Check α) : Prop :=
  ∀ ctx a ctx', x ctx = .ok (a, ctx') → ctx.errors <+: ctx'.errors

namespace Appends

theorem pure (a : α) : Appends (Pure.pure a : Check α) := by
  intro ctx b ctx' h
  cases h
  exact List.prefix_rfl

theorem bind {x : Check α} {f : α → Check β} (hx : Appends x) (hf : ∀ a, Appends (f a)) :
    Appends (x >>= f) := by
  intro ctx b ctx' h
  obtain ⟨a, c, ha, h⟩ := bind_eq_ok.mp h
  exact (hx ctx a c ha).trans (hf a c b ctx' h)

theorem throw (fault : Fault) : Appends (Check.throw fault : Check α) := by
  intro ctx a ctx' h
  cases h

theorem lift (x : Except Fault α) : Appends (Check.lift x) := by
  intro ctx a ctx' h
  obtain ⟨-, rfl⟩ := lift_eq_ok.mp h
  exact List.prefix_rfl

theorem get : Appends (MonadState.get : Check Ctx) := by
  intro ctx a ctx' h
  cases h
  exact List.prefix_rfl

theorem createTable : Appends createTable := by
  intro ctx a ctx' h
  cases h
  exact List.prefix_rfl

theorem defer (item : Pending) : Appends (defer item) := by
  intro ctx a ctx' h
  cases h
  exact List.prefix_rfl

theorem push (entry : ErrorEntry) : Appends (push entry) := by
  intro ctx a ctx' h
  cases h
  exact List.prefix_append _ _

theorem fail (host : Host) (f : Failure) : Appends (fail host f) := push _

theorem failAll (host : Host) (fs : List Failure) : Appends (failAll host fs) := by
  induction fs with
  | nil => exact pure ()
  | cons f rest ih => exact bind (fail host f) fun _ => ih

end Appends

end Check

open Check

section Walk

variable {host : Host} {rule : RuleKeys} {site : Site}

theorem reject_appends (code : String) (params : Params) (reason : Option String) :
    Appends (reject host rule site code params reason) :=
  .bind (.fail host _) fun _ => .pure none

theorem applyTests_appends {tests : List Test} {next : Check (Option Value)} (h : Appends next) :
    Appends (applyTests host rule site tests next) := by
  unfold applyTests
  split
  · exact reject_appends _ _ _
  · exact h

theorem deferFormat_appends (value : Value) : Appends (deferFormat rule site value) := by
  unfold deferFormat
  split
  · exact .defer _
  · exact .pure ()

theorem checkScalar_appends (value : Value) :
    Appends (checkString host rule value site) ∧ Appends (checkNumber host rule value site) ∧
      Appends (checkBoolean host rule value site) ∧ Appends (checkAny host rule value site) := by
  refine ⟨?_, ?_, ?_, ?_⟩
  · unfold checkString
    split
    · exact applyTests_appends (.bind (deferFormat_appends _) fun _ => .pure _)
    · exact reject_appends _ _ _
  · unfold checkNumber
    split
    · split
      · exact reject_appends _ _ _
      · exact applyTests_appends (.pure _)
    · exact reject_appends _ _ _
  · unfold checkBoolean
    split
    · exact applyTests_appends (.pure _)
    · exact reject_appends _ _ _
  · unfold checkAny
    split
    · exact .throw _
    · split
      · exact .throw _
      · split
        · exact reject_appends _ _ _
        · split
          · exact reject_appends _ _ _
          · exact .pure _

/-- The checker takes back no error. -/
def Appending (check : Checker) : Prop := ∀ v s, Appends (check v s)

theorem checkItems_appends {check : Checker} (hc : Appending check) (out i : ℕ)
    (items : List Value) (state : ItemState) :
    Appends (checkItems host rule check site out i items state) := by
  induction items generalizing i state with
  | nil => exact .pure _
  | cons item rest ih =>
      unfold checkItems
      refine .bind (.lift _) fun seen => ?_
      cases seen with
      | none => exact .bind (reject_appends _ _ _) fun _ => .pure none
      | some seen =>
          refine .bind (hc _ _) fun value => ?_
          cases value with
          | none => exact ih _ _
          | some value => exact ih _ _

theorem checkArray_appends {items : Option Checker} (hc : ∀ c, items = some c → Appending c) :
    Appending (checkArray host rule items) := by
  intro v site
  unfold checkArray
  split
  · split
    · exact reject_appends _ _ _
    · apply applyTests_appends
      cases items with
      | none => exact .throw _
      | some check =>
          refine .bind .createTable fun out => ?_
          refine .bind (checkItems_appends (hc check rfl) _ _ _ _) fun state => ?_
          cases state with
          | none => exact .pure none
          | some state =>
              dsimp only
              split
              · exact .pure none
              · exact applyTests_appends (.pure _)
  · exact reject_appends _ _ _

theorem checkPairKey_appends {keys : Option Checker} (hk : ∀ c, keys = some c → Appending c)
    (key : LuaString) : Appends (checkPairKey keys site key) := by
  cases keys with
  | none => exact .pure _
  | some check => exact .bind .createTable fun _ => hk check rfl _ _

theorem checkPairs_appends {keys : Option Checker} {check : Checker}
    (hk : ∀ c, keys = some c → Appending c) (hc : Appending check) (out : ℕ) (entries : Entries)
    (ok : Bool) (built : Entries) :
    Appends (checkPairs host rule keys check site out entries ok built) := by
  induction entries generalizing ok built with
  | nil => exact .pure _
  | cons e rest ih =>
      obtain ⟨key, item⟩ := e
      cases key with
      | string key =>
          unfold checkPairs
          refine .bind (checkPairKey_appends hk key) fun checked => ?_
          split
          · refine .bind (hc _ _) fun value => ?_
            cases value with
            | none => exact ih _ _
            | some value => exact ih _ _
          · exact ih _ _
      | integer i => exact .bind (reject_appends _ _ _) fun _ => ih _ _
      | other p => exact .bind (reject_appends _ _ _) fun _ => ih _ _

theorem checkMap_appends {keys values : Option Checker} (hk : ∀ c, keys = some c → Appending c)
    (hc : ∀ c, values = some c → Appending c) : Appending (checkMap host rule keys values) := by
  intro v site
  unfold checkMap
  split
  · apply applyTests_appends
    cases values with
    | none => exact .throw _
    | some check =>
        refine .bind .createTable fun out => ?_
        exact .bind (checkPairs_appends hk (hc check rfl) _ _ _ _) fun _ => .pure _
  · exact reject_appends _ _ _

theorem filenameFailure_appends (info : FileInfo) (filename : Option (Bool × Checker)) :
    Appends (filenameFailure info filename) := by
  unfold filenameFailure
  split
  · exact .pure _
  · exact .pure _
  · refine .bind ?_ fun reason => ?_
    · intro ctx a ctx' h
      rw [checkFilename_errors h]
    · cases reason with
      | none => exact .pure none
      | some reason => exact .pure _

theorem checkFile_appends {filename : Option (Bool × Checker)} :
    Appending (checkFile host rule filename) := by
  intro v site
  unfold checkFile
  split
  · split
    · apply applyTests_appends
      refine .bind (filenameFailure_appends _ _) fun failure => ?_
      cases failure with
      | none => exact applyTests_appends (.pure _)
      | some params => exact reject_appends _ _ _
    · exact .throw _
    · exact .throw _
  · exact reject_appends _ _ _

theorem deferAll_appends (value : Value) (checks : List PendingCheck) :
    Appends (deferAll rule site value checks) := by
  induction checks with
  | nil => exact .pure ()
  | cons check rest ih => exact .bind (.defer _) fun _ => ih

theorem deferHooks_appends (checked : Option Value) : Appends (deferHooks rule site checked) := by
  cases checked with
  | none => exact .pure none
  | some checked => exact .bind (deferAll_appends _ _) fun _ => .pure _

end Walk

section Fields

variable {host : Host} {scripts : Scripts}

theorem checkKnown_appends (schema : SchemaDef) (input : Entries) (path : FieldPath) :
    Appends (checkKnown host schema input path) := by
  have hextra : ∀ extra, Appends (reportExtra path extra) := by
    intro extra
    unfold reportExtra
    split
    · exact .pure ()
    · exact .push _
  have hreport : Appends (reportUnknown host schema input path) :=
    .bind (.failAll host _) fun _ => .bind (hextra _) fun _ => .pure _
  intro ctx a ctx' h
  unfold checkKnown at h
  split at h
  · exact hreport ctx a ctx' h
  · cases h
    exact List.prefix_rfl

theorem deferSchemaChecks_appends (schema : SchemaDef) (table : Value) (path : FieldPath)
    (indices : List ℕ) : Appends (deferSchemaChecks schema table path indices) := by
  induction indices with
  | nil => exact .pure ()
  | cons index rest ih => exact .bind (.defer _) fun _ => ih

theorem finishFields_appends (schema : SchemaDef) (input out : Entries) (path : FieldPath)
    (pointer : ℕ) (ok : Bool) : Appends (finishFields host schema input path pointer ok out) := by
  have hcross : Appends (checkCross host schema out path) :=
    .bind (.lift _) fun _ => .bind (.failAll host _) fun _ => .pure _
  unfold finishFields
  refine .bind (checkKnown_appends _ _ _) fun known => ?_
  split
  · exact .pure false
  · refine .bind hcross fun held => ?_
    cases held with
    | false => exact .pure false
    | true => exact .bind (deferSchemaChecks_appends _ _ _ _) fun _ => .pure true

theorem checkFieldList_appends {fields : List (String × Rule)}
    (hf : ∀ f ∈ fields, Appending (checkValue host f.2)) (owner : SchemaOptions) (input : Entries)
    (path : FieldPath) (pointer : ℕ) (ok : Bool) (out : Entries) :
    Appends (checkFieldList host fields owner input path pointer ok out) := by
  induction fields generalizing ok out with
  | nil =>
      unfold checkFieldList
      exact .pure _
  | cons f rest ih =>
      obtain ⟨name, rule⟩ := f
      have hrest := ih fun f hm => hf f (List.mem_cons_of_mem _ hm)
      unfold checkFieldList
      dsimp only
      split
      · split
        · exact .bind (reject_appends _ _ _) fun _ => hrest _ _
        · exact hrest _ _
      · refine .bind (hf (name, rule) List.mem_cons_self _ _) fun value => ?_
        cases value with
        | none => exact hrest _ _
        | some value => exact hrest _ _

theorem checkTable_appends {rule : RuleKeys} {fields : Option SchemaDef}
    (hf : ∀ s, fields = some s → ∀ f ∈ s.fields, Appending (checkValue host f.2)) :
    Appending (checkTable host rule fields) := by
  intro v site
  unfold checkTable
  split
  · split
    · exact reject_appends _ _ _
    · split
      · exact .throw _
      · rename_i schema
        obtain ⟨fields, options⟩ := schema
        refine .bind .createTable fun pointer => .bind ?_ fun _ => .pure _
        unfold checkFields
        exact .bind (checkFieldList_appends (hf _ rfl) _ _ _ _ _ _) fun _ =>
          .bind (finishFields_appends _ _ _ _ _ _) fun _ => .pure _
  · exact reject_appends _ _ _

theorem checkValue_appends (host : Host) (rule : Rule) : Appending (checkValue host rule) := by
  induction rule using Rule.induct with
  | step rule items keys values filename fields =>
      intro v site
      rw [checkValue_eq]
      have hnested : ∀ (nested : Option Rule), (∀ r, nested = some r → Appending (checkValue host r)) →
          ∀ c, nested.map (checkValue host) = some c → Appending c := by
        intro nested h c hc
        obtain ⟨r, hr, rfl⟩ := Option.map_eq_some_iff.mp hc
        exact h r hr
      obtain ⟨hstring, hnumber, hboolean, hany⟩ := @checkScalar_appends host rule.toRuleKeys site v
      refine .bind ?_ fun checked => deferHooks_appends checked
      unfold checkKind
      cases rule.kind with
      | string => exact hstring
      | number => exact hnumber
      | integer => exact hnumber
      | boolean => exact hboolean
      | array => exact checkArray_appends (hnested rule.items items) v site
      | table => exact checkTable_appends fields v site
      | map => exact checkMap_appends (hnested rule.keys keys) (hnested rule.values values) v site
      | any => exact hany
      | file => exact checkFile_appends v site

/-! ## The deferred checks -/

theorem runFieldChecks_appends (ps : List Pending) (failed : List String) (writes : Writes) :
    Appends (runFieldChecks host scripts ps failed writes) := by
  induction ps generalizing failed writes with
  | nil => exact .pure _
  | cons p ps ih =>
      cases p with
      | schema table root schema index => exact .bind (ih _ _) fun _ => .pure _
      | field slot path field rule owner value check =>
          by_cases hcheck : ∃ f, check = .transform f
          · obtain ⟨f, rfl⟩ := hcheck
            unfold runFieldChecks
            dsimp only
            split
            · exact ih _ _
            · exact .bind (.lift _) fun _ => ih _ _
          · rw [runFieldChecks_check (not_exists.mp hcheck)]
            refine .bind (.lift _) fun results => .bind (.lift _) fun v => ?_
            cases v with
            | pass => exact ih _ _
            | fail reason => exact .bind (.lift _) fun _ => .bind (.fail _ _) fun _ => ih _ _

theorem runSchemaChecks_appends (writes : Writes) (ps : List Pending) :
    Appends (runSchemaChecks host scripts writes ps) := by
  induction ps with
  | nil => exact .pure ()
  | cons p ps ih =>
      cases p with
      | field => exact ih
      | schema table root schema index =>
          unfold runSchemaChecks
          split
          · exact .throw _
          · refine .bind (.lift _) fun results => .bind (.lift _) fun v => ?_
            cases v with
            | pass => exact ih
            | fail reason => exact .bind (.lift _) fun fs => .bind (.failAll _ _) fun _ => ih

theorem runDeferred_appends : Appends (runDeferred host scripts) := by
  intro ctx writes ctx' h
  have hunfold : runDeferred host scripts ctx =
      (runFieldChecks host scripts ctx.pending [] [] >>= fun r => do
        if (← get).errors.isEmpty then runSchemaChecks host scripts r.2 r.1
        return r.2) { ctx with pending := [] } := rfl
  rw [hunfold] at h
  have hrest : ∀ r : List Pending × Writes, Appends (do
      if (← get).errors.isEmpty then runSchemaChecks host scripts r.2 r.1
      return r.2 : Check Writes) := by
    intro r
    refine .bind .get fun c => ?_
    cases c.errors.isEmpty with
    | true => exact .bind (runSchemaChecks_appends _ _) fun _ => .pure _
    | false => exact .pure _
  exact Appends.bind (runFieldChecks_appends _ _ _) hrest { ctx with pending := [] } writes ctx' h

/-- An error of the walk is in the verdict of the run. -/
theorem run_reports {schema : SchemaDef} {value : Value} {start : Start} {entry : ErrorEntry}
    (hwalk : ∀ fresh out ctx, walk host schema value fresh = .ok (out, ctx) → entry ∈ ctx.errors)
    {verdict : Except (List ErrorEntry) Value}
    (h : run host scripts schema value start = .ok verdict) :
    ∃ errors, verdict = .error errors ∧ entry ∈ errors := by
  unfold run at h
  split at h
  · cases h
  · dsimp only at h
    split at h
    · cases h
    · rename_i out ctx hout
      split at h
      · cases h
      · rename_i writes ctx' hdeferred
        have hmem : entry ∈ ctx'.errors :=
          (runDeferred_appends _ _ _ hdeferred).subset (hwalk _ out ctx hout)
        split at h
        · rename_i hempty
          rw [List.isEmpty_iff.mp hempty] at hmem
          cases hmem
        · cases h
          exact ⟨_, rfl, (List.mem_insertionSort _).mpr hmem⟩

end Fields

end Nitr.Validate
