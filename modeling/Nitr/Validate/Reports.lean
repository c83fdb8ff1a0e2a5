import Nitr.Validate.Sound

/-! # What is not accepted records an error

No step of the walk takes an error back, and a step that counts as failed leaves
one more of them than it found. -/

namespace Nitr.Validate

namespace Check

variable {α β : Type}

/-- No error is taken back, and a result that counts as failed comes with one more. -/
def Reports (x : Check α) (failed : α → Prop) : Prop :=
  ∀ ctx a ctx', x ctx = .ok (a, ctx') → ctx.errors.length ≤ ctx'.errors.length ∧
    (failed a → ctx.errors.length < ctx'.errors.length)

namespace Reports

theorem pure {a : α} {failed : α → Prop} (h : ¬failed a) :
    Reports (Pure.pure a : Check α) failed := by
  intro ctx b ctx' hx
  cases hx
  exact ⟨le_rfl, fun hf => absurd hf h⟩

/-- A failure of the first part need not be reported again by the second. -/
theorem bind {x : Check α} {f : α → Check β} {p : α → Prop} {q : β → Prop} (hx : Reports x p)
    (hf : ∀ a, Reports (f a) fun b => ¬p a ∧ q b) : Reports (x >>= f) q := by
  intro ctx b ctx' h
  obtain ⟨a, c, ha, h⟩ := bind_eq_ok.mp h
  obtain ⟨hle₁, hlt₁⟩ := hx ctx a c ha
  obtain ⟨hle₂, hlt₂⟩ := hf a c b ctx' h
  refine ⟨hle₁.trans hle₂, fun hq => ?_⟩
  by_cases hp : p a
  · exact lt_of_lt_of_le (hlt₁ hp) hle₂
  · exact lt_of_le_of_lt hle₁ (hlt₂ ⟨hp, hq⟩)

theorem mono {x : Check α} {p q : α → Prop} (hx : Reports x p) (h : ∀ a, q a → p a) :
    Reports x q := by
  intro ctx a ctx' ha
  exact ⟨(hx ctx a ctx' ha).1, fun hq => (hx ctx a ctx' ha).2 (h a hq)⟩

theorem throw {fault : Fault} {failed : α → Prop} : Reports (Check.throw fault) failed := by
  intro ctx a ctx' h
  cases h

theorem lift {x : Except Fault α} : Reports (Check.lift x) fun _ => False := by
  intro ctx a ctx' h
  obtain ⟨-, rfl⟩ := lift_eq_ok.mp h
  exact ⟨le_rfl, False.elim⟩

theorem createTable : Reports createTable fun _ => False := by
  intro ctx a ctx' h
  cases h
  exact ⟨le_rfl, False.elim⟩

theorem push (entry : ErrorEntry) : Reports (Check.push entry) fun _ => True := by
  intro ctx a ctx' h
  cases h
  simp

theorem fail (host : Host) (f : Failure) : Reports (Check.fail host f) fun _ => True := push _

theorem failAll (host : Host) (fs : List Failure) :
    Reports (Check.failAll host fs) fun _ => fs ≠ [] := by
  induction fs with
  | nil => exact pure (by simp)
  | cons f rest ih => exact bind (fail host f) fun _ => ih.mono (by simp)

end Reports

end Check

open Check

section Reports

variable {host : Host} {rule : RuleKeys} {site : Site}

theorem reject_reports (code : String) (params : Params) (reason : Option String) :
    Reports (reject host rule site code params reason) fun _ => True :=
  .bind (.fail host _) fun _ => .pure (by simp)

theorem applyTests_reports {tests : List Test} {next : Check (Option Value)}
    (h : Reports next (· = none)) : Reports (applyTests host rule site tests next) (· = none) := by
  unfold applyTests
  split
  · exact (reject_reports _ _ _).mono fun _ _ => trivial
  · exact h

theorem rejectType_reports : Reports (rejectType host rule site) (· = none) :=
  (reject_reports _ _ _).mono fun _ _ => trivial

theorem checkScalar_reports (value : Value) :
    Reports (checkString host rule value site) (· = none) ∧
    Reports (checkNumber host rule value site) (· = none) ∧
    Reports (checkBoolean host rule value site) (· = none) ∧
    Reports (checkAny host rule value site) (· = none) := by
  refine ⟨?_, ?_, ?_, ?_⟩
  · unfold checkString
    split
    · apply applyTests_reports
      intro ctx a ctx' h
      obtain ⟨_, c, hd, h⟩ := bind_eq_ok.mp h
      rw [deferFormat_apply] at hd
      cases hd
      cases h
      simp
    · exact rejectType_reports
  · unfold checkNumber
    split
    · split
      · exact rejectType_reports
      · exact applyTests_reports (.pure (by simp))
    · exact rejectType_reports
  · unfold checkBoolean
    split
    · exact applyTests_reports (.pure (by simp))
    · exact rejectType_reports
  · unfold checkAny
    split
    · exact .throw
    · split
      · exact .throw
      · split
        · exact rejectType_reports
        · split
          · exact (reject_reports _ _ _).mono fun _ _ => trivial
          · exact .pure (by simp)

/-- The checker reports every value it does not accept. -/
def Reporting (check : Checker) : Prop := ∀ v s, Reports (check v s) (· = none)

theorem checkItems_reports {check : Checker} (hc : Reporting check) (out i : ℕ)
    (items : List Value) (state : ItemState) :
    Reports (checkItems host rule check site out i items state)
      fun r => state.ok = true ∧ ∀ s, r = some s → s.ok = false := by
  induction items generalizing i state with
  | nil => exact .pure (by simp)
  | cons item rest ih =>
      refine .bind .lift fun seen => ?_
      cases seen with
      | none => exact .bind (reject_reports _ _ _) fun _ => .pure (by simp)
      | some seen =>
          refine .bind (hc _ _) fun value => ?_
          cases value with
          | none =>
              intro ctx a ctx' h
              exact ⟨(ih _ _ ctx a ctx' h).1, fun hf => absurd rfl hf.1⟩
          | some value => exact (ih _ _).mono fun r hr => hr.2.2

theorem checkArray_reports {items : Option Checker} (hc : ∀ c, items = some c → Reporting c) :
    Reporting (checkArray host rule items) := by
  intro v site
  unfold checkArray
  split
  · split
    · exact rejectType_reports
    · apply applyTests_reports
      cases items with
      | none => exact .throw
      | some check =>
          refine .bind .createTable fun out => .bind (checkItems_reports (hc check rfl) _ _ _ _) ?_
          intro state
          cases state with
          | none => exact .pure (by simp)
          | some state =>
              dsimp only
              cases hok : state.ok with
              | false => exact .pure (by simp [hok])
              | true => exact (applyTests_reports (.pure (by simp))).mono (by simp)
  · exact rejectType_reports

/-- Accepts no string as anything but a string. -/
def KeepsStrings (check : Checker) : Prop :=
  ∀ {k s ctx w ctx'}, check (.string k) s ctx = .ok (some w, ctx') → ∃ k', w = .string k'

theorem checkPairKey_reports {keys : Option Checker} (hk : ∀ c, keys = some c → Reporting c)
    (hs : ∀ c, keys = some c → KeepsStrings c) (key : LuaString) :
    Reports (checkPairKey keys site key) fun r => ∀ k', r ≠ some (.string k') := by
  cases keys with
  | none => exact .pure (by simp)
  | some check =>
      refine .bind .createTable fun scratch => ?_
      intro ctx r ctx' h
      refine ⟨(hk check rfl _ _ ctx r ctx' h).1, fun hr => ?_⟩
      cases r with
      | none => exact (hk check rfl _ _ ctx none ctx' h).2 rfl
      | some w =>
          obtain ⟨k', rfl⟩ := hs check rfl h
          exact absurd rfl (hr.2 k')

theorem checkPairs_reports {keys : Option Checker} {check : Checker}
    (hk : ∀ c, keys = some c → Reporting c) (hs : ∀ c, keys = some c → KeepsStrings c)
    (hc : Reporting check) (out : ℕ) (entries : Entries) (ok : Bool) (built : Entries) :
    Reports (checkPairs host rule keys check site out entries ok built)
      fun r => ok = true ∧ r.1 = false := by
  induction entries generalizing ok built with
  | nil => exact .pure (by simp)
  | cons e rest ih =>
      obtain ⟨key, item⟩ := e
      cases key with
      | string key =>
          unfold checkPairs
          refine .bind (checkPairKey_reports hk hs key) fun checked => ?_
          split
          · refine .bind (hc _ _) fun value => ?_
            cases value with
            | none =>
                intro ctx a ctx' h
                exact ⟨(ih _ _ ctx a ctx' h).1, fun hf => absurd rfl hf.1⟩
            | some value => exact (ih _ _).mono fun r hr => hr.2.2
          · rename_i hchecked
            intro ctx a ctx' h
            refine ⟨(ih _ _ ctx a ctx' h).1, fun hf => absurd ?_ hf.1⟩
            intro k' he
            exact hchecked k' he
      | integer i => exact .bind (reject_reports _ _ _) fun _ => (ih _ _).mono (by simp)
      | other p => exact .bind (reject_reports _ _ _) fun _ => (ih _ _).mono (by simp)

theorem checkMap_reports {keys values : Option Checker} (hk : ∀ c, keys = some c → Reporting c)
    (hs : ∀ c, keys = some c → KeepsStrings c) (hc : ∀ c, values = some c → Reporting c) :
    Reporting (checkMap host rule keys values) := by
  intro v site
  unfold checkMap
  split
  · apply applyTests_reports
    cases values with
    | none => exact .throw
    | some check =>
        refine .bind .createTable fun out => ?_
        refine .bind (checkPairs_reports hk hs (hc check rfl) _ _ _ _) fun built => ?_
        obtain ⟨ok, built⟩ := built
        cases ok with
        | false => exact .pure (by simp)
        | true => exact .pure (by simp)
  · exact rejectType_reports

theorem checkFilename_errors {check : Checker} {name : String} {ctx ctx' : Ctx}
    {reason : Option String} (h : checkFilename check name ctx = .ok (reason, ctx')) :
    ctx'.errors = ctx.errors := by
  unfold checkFilename at h
  dsimp only at h
  split at h <;> cases h <;> rfl

theorem filenameFailure_reports (info : FileInfo) (filename : Option (Bool × Checker)) :
    Reports (filenameFailure info filename) fun _ => False := by
  unfold filenameFailure
  split
  · exact .pure not_false
  · exact .pure not_false
  · refine .bind (p := fun _ => False) ?_ fun reason => ?_
    · intro ctx a ctx' h
      rw [checkFilename_errors h]
      exact ⟨le_rfl, False.elim⟩
    · cases reason <;> exact .pure (by simp)

theorem checkFile_reports {filename : Option (Bool × Checker)} :
    Reporting (checkFile host rule filename) := by
  intro v site
  unfold checkFile
  split
  · split
    · apply applyTests_reports
      refine .bind (filenameFailure_reports _ _) fun failure => ?_
      cases failure with
      | none => exact (applyTests_reports (.pure (by simp))).mono (by simp)
      | some params => exact (reject_reports _ _ _).mono (by simp)
    · exact .throw
    · exact .throw
  · exact rejectType_reports

theorem checkKnown_reports (schema : SchemaDef) (input : Entries) (path : FieldPath) :
    Reports (checkKnown host schema input path) (· = false) := by
  intro ctx a ctx' h
  unfold checkKnown at h
  split at h
  · have hr : Reports (reportUnknown host schema input path) (· = false) := by
      refine .bind (.failAll _ _) fun _ => .bind (p := fun _ => False) ?_ fun _ => .pure ?_
      · unfold reportExtra
        split
        · exact .pure (by simp)
        · exact (Reports.push _).mono (by simp)
      · cases hu : unknownKeys schema input with
        | nil => simp
        | cons key rest => simp [maxUnknownListed]
    exact hr ctx a ctx' h
  · cases h
    simp

theorem finishFields_reports (schema : SchemaDef) (input out : Entries) (path : FieldPath)
    (pointer : ℕ) (ok : Bool) :
    Reports (finishFields host schema input path pointer ok out)
      fun r => ok = true ∧ r = false := by
  refine .bind (checkKnown_reports schema input path) fun known => ?_
  cases hok : ok && known with
  | false =>
      refine .pure ?_
      cases ok <;> cases known <;> simp_all
  | true =>
      have hcross : Reports (checkCross host schema out path) (· = false) := by
        refine .bind .lift fun failures => .bind (.failAll _ _) fun _ => .pure ?_
        cases failures <;> simp
      refine .bind hcross fun held => ?_
      cases held with
      | false => exact .pure (by simp)
      | true =>
          intro ctx a ctx' h
          obtain ⟨_, c, hd, h⟩ := bind_eq_ok.mp h
          rw [deferSchemaChecks_apply] at hd
          cases hd
          cases h
          simp

theorem checkFieldList_reports {fields : List (String × Rule)}
    (hf : ∀ f ∈ fields, Reporting (checkValue host f.2)) (owner : SchemaOptions)
    (input : Entries) (path : FieldPath) (pointer : ℕ) (ok : Bool) (out : Entries) :
    Reports (checkFieldList host fields owner input path pointer ok out)
      fun r => ok = true ∧ r.1 = false := by
  induction fields generalizing ok out with
  | nil =>
      unfold checkFieldList
      exact .pure (by simp)
  | cons f rest ih =>
      obtain ⟨name, rule⟩ := f
      have ih' := ih fun f hm => hf f (List.mem_cons_of_mem _ hm)
      unfold checkFieldList
      dsimp only
      split
      · split
        · exact .bind (reject_reports _ _ _) fun _ => (ih' _ _).mono (by simp)
        · exact ih' _ _
      · refine .bind (hf (name, rule) (List.mem_cons_self ..) _ _) fun value => ?_
        cases value with
        | none =>
            intro ctx a ctx' h
            exact ⟨(ih' _ _ ctx a ctx' h).1, fun hr => absurd rfl hr.1⟩
        | some value => exact (ih' _ _).mono fun r hr => hr.2

theorem checkFields_reports {schema : SchemaDef}
    (hf : ∀ f ∈ schema.fields, Reporting (checkValue host f.2)) (input : Entries)
    (path : FieldPath) (pointer : ℕ) :
    Reports (checkFields host schema input path pointer) fun r => r.1 = false := by
  obtain ⟨fields, options⟩ := schema
  unfold checkFields
  refine .bind (checkFieldList_reports hf _ _ _ _ _ _) fun r => ?_
  refine .bind (finishFields_reports _ _ _ _ _ _) fun ok => .pure ?_
  obtain ⟨built, out⟩ := r
  cases built <;> simp

theorem checkTable_reports {fields : Option SchemaDef}
    (hf : ∀ s, fields = some s → ∀ f ∈ s.fields, Reporting (checkValue host f.2)) :
    Reporting (checkTable host rule fields) := by
  intro v site
  unfold checkTable
  split
  · split
    · exact rejectType_reports
    · split
      · exact .throw
      · rename_i schema
        refine .bind .createTable fun pointer => ?_
        refine .bind (checkFields_reports (hf schema rfl) _ _ _) fun r => ?_
        obtain ⟨ok, out⟩ := r
        cases ok with
        | false => exact .pure (by simp)
        | true => exact .pure (by simp)
  · exact rejectType_reports

theorem Checks.keeps_string {rule : Rule} {strict : Bool} {k : LuaString} {w : Value} {n n' : ℕ}
    {d : List Pending} (h : Checks host strict rule (.string k) site n w n' d) :
    ∃ k', w = .string k' := by
  cases h with
  | intro kind =>
      cases kind with
      | string => exact ⟨_, rfl⟩
      | number => exact ⟨k, rfl⟩
      | any => exact ⟨k, rfl⟩

theorem checkValue_keepsStrings (host : Host) (rule : Rule) :
    KeepsStrings (checkValue host rule) := by
  intro k site ctx w ctx' h
  obtain ⟨d, hd, -⟩ := checkValue_sound host rule h
  exact hd.keeps_string

theorem checkValue_reports (host : Host) (rule : Rule) : Reporting (checkValue host rule) := by
  induction rule using Rule.induct with
  | step rule items keys values filename fields =>
      intro v site
      rw [checkValue_eq]
      have hitems : ∀ c, rule.items.map (checkValue host) = some c → Reporting c := by
        intro c hc
        obtain ⟨r, hr, rfl⟩ := Option.map_eq_some_iff.mp hc
        exact items r hr
      have hkeys : ∀ c, rule.keys.map (checkValue host) = some c →
          Reporting c ∧ KeepsStrings c := by
        intro c hc
        obtain ⟨r, hr, rfl⟩ := Option.map_eq_some_iff.mp hc
        exact ⟨keys r hr, checkValue_keepsStrings host r⟩
      have hvalues : ∀ c, rule.values.map (checkValue host) = some c → Reporting c := by
        intro c hc
        obtain ⟨r, hr, rfl⟩ := Option.map_eq_some_iff.mp hc
        exact values r hr
      obtain ⟨hstring, hnumber, hboolean, hany⟩ :=
        @checkScalar_reports host rule.toRuleKeys site v
      have hkind : Reports (checkKind host rule v site) (· = none) := by
        unfold checkKind
        cases rule.kind with
        | string => exact hstring
        | number => exact hnumber
        | integer => exact hnumber
        | boolean => exact hboolean
        | array => exact checkArray_reports hitems v site
        | table => exact checkTable_reports fields v site
        | map =>
            exact checkMap_reports (fun c hc => (hkeys c hc).1) (fun c hc => (hkeys c hc).2)
              hvalues v site
        | any => exact hany
        | file => exact checkFile_reports v site
      refine hkind.bind fun checked => ?_
      cases checked with
      | none => exact .pure (by simp)
      | some w =>
          intro ctx a ctx' h
          rw [deferHooks_some] at h
          cases h
          simp

end Reports

end Nitr.Validate
