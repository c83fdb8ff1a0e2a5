import Nitr.Validate.Again

/-! # Validating an output again

An output passes again, unchanged, exactly when normalising merged nothing that
`unique` and `min_keys` tell apart. -/

namespace Nitr.Validate

/-! ## Whole runs -/

section Runs

variable {host : Host} {scripts : Scripts} {schema : SchemaDef}

mutual

theorem Value.deref_nil : ∀ v : Value, v.deref [] = v
  | .table p len es => by
      simp only [Value.deref, Value.derefEntries_nil es, Writes.apply, List.foldr_nil]
  | .nil | .boolean _ | .integer _ | .number _ | .string _ | .function _ | .schema _ | .file .. |
    .other _ => rfl

theorem Value.derefEntries_nil : ∀ es : List (Key × Value), Value.derefEntries [] es = es
  | [] => rfl
  | (k, v) :: es => by
      simp only [Value.derefEntries, Value.deref_nil v, Value.derefEntries_nil es]

end

/-- Without hooks and files a run accepts exactly what walks; its output is the table
walked to. -/
theorem run_plain_eq_accepted (hp : schema.Plain) {value output : Value} {start : Start} :
    run host scripts schema value start = .ok (.ok output) ↔
      host.nesting < maxNesting ∧ ∃ out n, output = .table start.next 0 out ∧
        Walks host (start.strict.getD false) schema value start.next out n [] := by
  rw [run_eq_accepted]
  constructor
  · rintro ⟨hnest, out, n, d, writes, hwalks, hpass, -, rfl⟩
    obtain rfl : d = [] := by
      cases hwalks with
      | intro fields => exact fields.quiet hp.checks fun f hf => (hp.fields f hf).quiet
    cases hpass
    rw [Value.deref_nil]
    exact ⟨hnest, out, n, rfl, hwalks⟩
  · rintro ⟨hnest, out, n, rfl, hwalks⟩
    refine ⟨hnest, out, n, [], [], hwalks, .nil, ?_, (Value.deref_nil _).symm⟩
    intro table root schema index hm
    cases hm

theorem ChecksFields.keeps {strict : Bool} {input out : Entries} {path : FieldPath}
    {pointer n n' : ℕ} {d : List Pending}
    (h : ChecksFields host strict schema input path pointer n out n' d) :
    schema.Keeps host input := by
  cases h with
  | intro list known cross =>
      intro f hf hne
      have hgiven : fieldValue f.2.toRuleKeys input f.1 = input.field f.1 := fieldValue_of_ne_nil hne
      obtain ⟨site, n, w, n', d, hw⟩ := list.checked hf (by rwa [hgiven])
      rw [hgiven] at hw
      exact checks_keeps f.2 hw

theorem ChecksFields.erase_eq {strict : Bool} {input out : Entries} {path : FieldPath}
    {pointer n n' : ℕ} {d : List Pending}
    (h : ChecksFields host strict schema input path pointer n out n' d) :
    Value.eraseEntries out = Value.eraseEntries (normalFields host schema.fields input []) := by
  cases h with
  | intro list known cross => exact list.erase_eq (fun f _ => checks_normal host f.2) rfl

theorem SchemaDef.Keeps.of_erase {es es' : Entries} (h : schema.Keeps host es)
    (he : Value.eraseEntries es' = Value.eraseEntries es) : schema.Keeps host es' := by
  intro f hf hne
  have hfield : (es'.field f.1).erase = (es.field f.1).erase := by
    unfold Entries.field
    rw [← Value.get_eraseEntries, he, Value.get_eraseEntries]
  refine (h f hf ?_).of_erase hfield
  intro hnil
  rw [hnil] at hfield
  exact hne (Value.erase_eq_nil.mp hfield)

/-- An accepted output is accepted again, with the same contents, exactly when the
normalised input keeps its items distinct and its maps full. -/
theorem run_again_iff (hi : host.Idempotent) (hp : schema.Plain) (hu : schema.Unambiguous)
    {value output : Value} {start start' : Start} (hstrict : start'.strict = start.strict)
    (h : run host scripts schema value start = .ok (.ok output)) :
    (∃ output', run host scripts schema output start' = .ok (.ok output') ∧
      output'.erase = output.erase) ↔ schema.Keeps host (schema.normalRoot host value) := by
  obtain ⟨hnest, out, n, rfl, hwalks⟩ := (run_plain_eq_accepted hp).mp h
  cases hwalks with
  | @intro p len _ _ input _ _ fields =>
      have hnormal : Value.eraseEntries out =
          Value.eraseEntries (schema.normalRoot host (.table p len input)) := by
        obtain ⟨fs, options⟩ := schema
        exact fields.erase_eq
      constructor
      · rintro ⟨output', hrun, -⟩
        obtain ⟨-, out', n', -, hwalks'⟩ := (run_plain_eq_accepted hp).mp hrun
        cases hwalks' with
        | intro fields' => exact fields'.keeps.of_erase hnormal.symm
      · intro hkeeps
        obtain ⟨out', n', d', hout', he⟩ := fields.again
          (fun f hf => checks_again hi f.2 (hp.fields f hf) (hu.fields f hf)) hu.names
          (hkeeps.of_erase hnormal) [] start'.next (start'.next + 1)
        obtain rfl : d' = [] := hout'.quiet hp.checks fun f hf => (hp.fields f hf).quiet
        refine ⟨.table start'.next 0 out', ?_, by simp only [Value.erase, he]⟩
        refine (run_plain_eq_accepted hp).mpr ⟨hnest, out', n', rfl, ?_⟩
        rw [hstrict]
        exact .intro hout'

end Runs

/-! ## Schemas and inputs -/

theorem Rule.WellFormed.unambiguous (rule : Rule) : rule.WellFormed → rule.Unambiguous := by
  induction rule using Rule.induct with
  | step rule items keys values filename fields =>
      rintro ⟨-, hitems, hkeys, hvalues, -, hfields⟩
      refine .intro (fun r hr => items r hr (hitems r hr)) (fun r hr => keys r hr (hkeys r hr))
        (fun r hr => values r hr (hvalues r hr)) ?_ ?_
      · intro s hs
        cases hfields s hs with
        | intro named grouped rules => exact named.sorted.imp ne_of_lt
      · intro s hs f hf
        cases hfields s hs with
        | intro named grouped rules => exact fields s hs f hf (rules f hf)

/-- The schemas built from usable names declare none twice. -/
theorem SchemaDef.WellFormed.unambiguous {schema : SchemaDef} (h : schema.WellFormed) :
    schema.Unambiguous := by
  cases h with
  | intro named grouped rules =>
      exact ⟨named.sorted.imp ne_of_lt, fun f hf => Rule.WellFormed.unambiguous f.2 (rules f hf)⟩

theorem toLower_toLower (c : Char) : c.toLower.toLower = c.toLower := by
  have hnot : ¬(c.toLower.val ≥ 'A'.val ∧ c.toLower.val ≤ 'Z'.val) := by
    have hA : ('A'.val : UInt32).toNat = 65 := rfl
    have hZ : ('Z'.val : UInt32).toNat = 90 := rfl
    unfold Char.toLower
    split
    · rename_i h
      have hshift : ('a'.val - 'A'.val : UInt32).toNat = 32 := rfl
      simp only [ge_iff_le, UInt32.le_iff_toNat_le] at h ⊢
      rw [hA, hZ] at h ⊢
      rw [UInt32.toNat_add, hshift]
      omega
    · assumption
  rw [show c.toLower.toLower = if h : _ then _ else c.toLower from rfl, dif_neg hnot]

theorem toUpper_toUpper (c : Char) : c.toUpper.toUpper = c.toUpper := by
  have hnot : ¬('a'.val ≤ c.toUpper.val ∧ c.toUpper.val ≤ 'z'.val) := by
    have ha : ('a'.val : UInt32).toNat = 97 := rfl
    have hz : ('z'.val : UInt32).toNat = 122 := rfl
    unfold Char.toUpper
    split
    · rename_i h
      have hshift : ('A'.val - 'a'.val : UInt32).toNat = 2 ^ 32 - 32 := rfl
      simp only [UInt32.le_iff_toNat_le] at h ⊢
      rw [ha, hz] at h ⊢
      rw [UInt32.toNat_add, hshift]
      omega
    · assumption
  rw [show c.toUpper.toUpper = if h : _ then _ else c.toUpper from rfl, dif_neg hnot]

/-- The platform as seen by scalars and by ASCII texts without surrounding blanks. -/
def Host.ascii : Host where
  trim s := s
  toLowercase s := String.ofList (s.toList.map Char.toLower)
  toUppercase s := String.ofList (s.toList.map Char.toUpper)
  formatCheck _ _ := true
  describeFormat format := format.name
  parseDate _ := none
  parseDatetime _ := none
  parseTime _ := none
  now := ⟨0, 0, 0⟩
  isMultiple _ _ := true
  fractionDigits _ := 0
  displayF64 n := match n with
    | .finite q => toString q.num ++ "/" ++ toString q.den
    | .negZero => "-0"
    | .infinite true => "-inf"
    | .infinite false => "inf"
    | .nan => "NaN"
  checkJsonBounds _ := .ok ()
  toJson _ := none
  isActiveContent _ := false
  extensionMismatch _ _ := false
  describeTypes _ := ""
  aspectOk _ _ _ := true
  resolve f := f.rule
  nesting := 0

def tagRule : Rule := Rule.ofKeys { kind := .string, case := some .lower }

/-- `{ tags = { type = "array", unique = true, items = { type = "string", case = "lower" } } }`. -/
def tagsSchema : SchemaDef :=
  ⟨[("tags", { Rule.ofKeys { kind := .array, unique := true } with items := some tagRule })], {}⟩

def tagsValue (first second : String) : Value :=
  .table 0 0 [(.ofString "tags", .table 1 2 [(.integer 1, .ofString first),
    (.integer 2, .ofString second)])]

def noScripts : Scripts := ⟨fun _ _ => .ok []⟩

/-- Changing the case of a text is done once. -/
theorem map_twice {f : Char → Char} (h : ∀ c, f (f c) = f c) (text : String) :
    String.ofList ((String.ofList (text.toList.map f)).toList.map f) =
      String.ofList (text.toList.map f) := by
  rw [String.toList_ofList, List.map_map]
  exact congrArg String.ofList (List.map_congr_left fun c _ => h c)

theorem Host.ascii_idempotent : Host.ascii.Idempotent := by
  intro rule text
  unfold Host.normalise Host.ascii
  simp only [ite_self]
  cases rule.case with
  | none => rfl
  | some case =>
      cases case with
      | lower => exact map_twice toLower_toLower text
      | upper => exact map_twice toUpper_toUpper text

theorem tagRule_plain : tagRule.Plain := by
  refine .intro (by decide) rfl rfl (fun c h => nomatch h) ?_ ?_ ?_ ?_ ?_ <;>
    (intro x hx; cases hx)

theorem tagsSchema_plain : tagsSchema.Plain := by
  refine ⟨rfl, fun f hf => ?_⟩
  rw [List.mem_singleton.mp hf]
  refine .intro (by decide) rfl rfl (fun c h => nomatch h) ?_ ?_ ?_ ?_ ?_
  · intro r hr
    cases hr
    exact tagRule_plain
  all_goals
    intro x hx
    cases hx

theorem tagsSchema_built : Built (fun _ => True) tagsSchema := by
  refine @Built.call _ Library.bare (.schema [(.ofString "tags", .table 0 0
    [(.ofString "type", .ofString "array"), (.ofString "unique", .boolean true),
     (.ofString "items", .table 1 0
      [(.ofString "type", .ofString "string"), (.ofString "case", .ofString "lower")])])] none) _
    ?_ trivial rfl
  -- No schema is nested in the rule values.
  rintro s ⟨e, he, hs⟩
  rw [List.mem_singleton.mp he] at hs
  cases hs with
  | entry mem inner =>
      simp only [List.mem_cons, List.not_mem_nil, or_false, Prod.mk.injEq] at mem
      obtain ⟨-, rfl⟩ | ⟨-, rfl⟩ | ⟨-, rfl⟩ := mem
      · cases inner
      · cases inner
      · cases inner with
        | entry mem inner =>
            simp only [List.mem_cons, List.not_mem_nil, or_false, Prod.mk.injEq] at mem
            obtain ⟨-, rfl⟩ | ⟨-, rfl⟩ := mem <;> cases inner

theorem tagsSchema_unambiguous : tagsSchema.Unambiguous := by
  have hrule : ∀ (rule : Rule), rule.fields = none → rule.keys = none → rule.values = none →
      (∀ r, rule.items = some r → r.Unambiguous) → rule.Unambiguous := by
    intro rule hf hk hv hi
    refine .intro hi ?_ ?_ ?_ ?_ <;> simp [hf, hk, hv]
  refine ⟨by decide, fun f hf => ?_⟩
  rw [List.mem_singleton.mp hf]
  refine hrule _ rfl rfl rfl ?_
  intro r hr
  cases hr
  exact hrule _ rfl rfl rfl fun r hr => nomatch hr

/-- `{ tags = { "A", "b" } }`: two items that stay distinct in lower case. -/
theorem run_again_iff_distinct_tags :
    (∃ output', run .ascii noScripts tagsSchema (tagsValue "a" "b") ⟨none, 20⟩ =
        .ok (.ok output') ∧ output'.erase = (tagsValue "a" "b").erase) ↔
      tagsSchema.Keeps .ascii (tagsSchema.normalRoot .ascii (tagsValue "A" "b")) := by
  have hrun : run .ascii noScripts tagsSchema (tagsValue "A" "b") ⟨none, 0⟩ =
      .ok (.ok (tagsValue "a" "b")) := rfl
  have hstrict : (⟨none, 20⟩ : Start).strict = (⟨none, 0⟩ : Start).strict := rfl
  exact run_again_iff Host.ascii_idempotent tagsSchema_plain tagsSchema_unambiguous hstrict hrun

/-- `{ tags = { "a", "A" } }` is accepted as `{ tags = { "a", "a" } }`, which is not
accepted. -/
theorem run_not_again :
    ¬∀ (host : Host) (scripts : Scripts) (schema : SchemaDef) (value output : Value)
      (start : Start), host.Idempotent → Built (fun _ => True) schema → schema.Plain →
      run host scripts schema value start = .ok (.ok output) →
      ∃ output', run host scripts schema output start = .ok (.ok output') ∧
        output'.erase = output.erase := by
  intro h
  have hrun : run .ascii noScripts tagsSchema (tagsValue "a" "A") ⟨none, 0⟩ =
      .ok (.ok (tagsValue "a" "a")) := rfl
  obtain ⟨output', hagain, -⟩ := h .ascii noScripts tagsSchema (tagsValue "a" "A") _ ⟨none, 0⟩
    Host.ascii_idempotent tagsSchema_built tagsSchema_plain hrun
  cases hagain

end Nitr.Validate
