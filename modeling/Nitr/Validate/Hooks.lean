import Nitr.Validate.Standing

/-! # The hooks of an accepted value

On acceptance every deferred check held and every deferred transform wrote its replacement.
That is not yet every declared hook: those of an upload's name are dropped, a replacement can
be overwritten by another or written where nothing is read, and a schema check can answer no
without a failure to report. -/

namespace Nitr.Validate

/-! ## Hooks that are honoured -/

/-- Where the root table is checked. It is put in no table: its slot is never written. -/
def SchemaDef.rootSite (schema : SchemaDef) : Site :=
  { owner := schema.options, path := [], slot := ⟨0, .integer 0⟩ }

/-- The visits of a run, from the root table on. -/
def SchemaDef.visit (host : Host) (schema : SchemaDef) (value : Value) (start : Start) : Visit :=
  ((nestedSchemaRule schema).visit host value schema.rootSite start.next).1

/-- The replacements among the calls, newest first. -/
def replacements : List HookCall → Writes
  | [] => []
  | ⟨.field slot _ _ _ _ _ (.transform _), _, answer⟩ :: rest =>
    replacements rest ++ [(slot, answer)]
  | _ :: rest => replacements rest

/-- Where the output holds what belongs there, or its key. -/
def Standing.place : Standing → Place
  | .value place => place
  | .key place name => place ++ [name]
  | .filename => []

/-- Whether what the output holds is the replacement: the value itself, or a value under the
replaced key. No upload's name is replaced. -/
def Standing.Fits : Standing → Value → Value → Prop
  | .value _, held, replacement => held = replacement
  | .key _ name, held, replacement =>
    held ≠ .nil ∧ ∃ k, name = .string k ∧ replacement = .string k
  | .filename, _, _ => False

/-- Every script check of every value reached was called on it and returned true, every
replacement is what the output holds, and every schema check returned true on its table. -/
structure Honoured (root : Visit) (calls : List HookCall) (output : Value) : Prop where
  checks : ∀ standing x check, root.Reaches standing x → check ∈ x.rule.checks →
    ⟨x.site.pending x.rule.toRuleKeys x.checked check, x.shown (replacements calls),
      .boolean true⟩ ∈ calls
  transforms : ∀ standing x f, root.Reaches standing x → x.rule.transform = some f →
    ∃ replacement, ⟨x.site.pending x.rule.toRuleKeys x.checked (.transform f),
        x.shown (replacements calls), replacement⟩ ∈ calls ∧
      standing.Fits (output.at standing.place) replacement
  schemas : ∀ standing x schema index, root.Reaches standing x → x.rule.schema = some schema →
    index < schema.options.checks.length →
    ⟨.schema x.checked x.site.path.render schema index, x.shown (replacements calls),
      .boolean true⟩ ∈ calls

/-! ## When they are -/

/-- The function answered no, with a reason table that names no field. -/
def Scripts.Shrugs (scripts : Scripts) (f : Function) (value : Value) : Prop :=
  ∃ results, scripts.call f value = .ok results ∧
    (results.headD .nil = .boolean false ∨ results.headD .nil = .nil) ∧
    ∃ p len, results[1]? = some (.table p len [])

/-- What the transforms of a tree answer, each called after those inside it. -/
def Visit.replaced (scripts : Scripts) (root : Visit) : Writes :=
  fieldWrites scripts root.pending []

/-- What the transform of a visit answers. -/
def Visit.answer (scripts : Scripts) (root x : Visit) (f : Function) : Value :=
  scripts.answer f (x.shown (root.replaced scripts))

/-- Nothing keeps a declared hook from being honoured. -/
structure Unhindered (scripts : Scripts) (root : Visit) : Prop where
  /-- The name of an upload declares no hooks. -/
  names : ∀ x, root.Reaches .filename x → x.rule.scripts = []
  /-- A transform around another, or of the same place, agrees with it there. -/
  agree : ∀ standing x f above y g rest, root.Reaches standing x → x.rule.transform = some f →
    root.Reaches (.value above) y → y.rule.transform = some g → standing.place = above ++ rest →
    standing.Fits ((root.answer scripts y g).at rest) (root.answer scripts x f)
  /-- A transform outside all others is that of a value that was kept, or answers the key that
  was kept, or removes a value that was lost. -/
  left : ∀ standing x f, root.Reaches standing x → x.rule.transform = some f →
    root.Covered standing.place ∨
      (∃ y, root.Keeps standing.place y ∧
        standing.Fits (y.shown (root.replaced scripts)) (root.answer scripts x f)) ∨
      standing.Fits .nil (root.answer scripts x f)
  /-- No schema check answers no with an empty table of reasons. -/
  reasons : ∀ standing x schema check, root.Reaches standing x → x.rule.schema = some schema →
    check ∈ schema.options.checks →
    ¬scripts.Shrugs check.func (x.shown (root.replaced scripts))

section Calls

variable {scripts : Scripts} {ps : List Pending} {ws : Writes}

theorem replacements_append (calls calls' : List HookCall) :
    replacements (calls ++ calls') = replacements calls' ++ replacements calls := by
  induction calls with
  | nil => rw [List.nil_append, replacements, List.append_nil]
  | cons call calls ih =>
      obtain ⟨item, argument, answer⟩ := call
      cases item with
      | schema table root schema index => exact ih
      | field slot path field rule owner value check =>
          cases check with
          | custom f => exact ih
          | format c => exact ih
          | transform f =>
              rw [List.cons_append, replacements, replacements, ih, List.append_assoc]

theorem replacements_schemaCalls (ps : List Pending) :
    replacements (schemaCalls scripts ws ps) = [] := by
  induction ps with
  | nil => rfl
  | cons p ps ih =>
      cases p with
      | field slot path field rule owner value check => exact ih
      | schema table root schema index =>
          rw [schemaCalls]
          split
          · exact ih
          · exact ih

theorem replacements_fieldCalls (ps : List Pending) (ws : Writes) :
    replacements (fieldCalls scripts ps ws) ++ ws = fieldWrites scripts ps ws := by
  induction ps generalizing ws with
  | nil => rfl
  | cons p ps ih =>
      cases p with
      | schema table root schema index => exact ih ws
      | field slot path field rule owner value check =>
          cases check with
          | custom f => exact ih ws
          | format c => exact ih ws
          | transform f =>
              rw [fieldCalls, replacements, List.append_assoc]
              exact ih _

theorem schemaCalls_cons_subset (p : Pending) :
    schemaCalls scripts ws ps ⊆ schemaCalls scripts ws (p :: ps) := by
  cases p with
  | field slot path field rule owner value check => exact List.Subset.refl _
  | schema table root schema index =>
      rw [schemaCalls]
      split
      · exact List.Subset.refl _
      · exact List.subset_cons_self ..

theorem mem_schemaCalls {call : HookCall} :
    call ∈ schemaCalls scripts ws ps ↔ ∃ table root schema index check,
      .schema table root schema index ∈ ps ∧ schema.options.checks[index]? = some check ∧
      call = ⟨.schema table root schema index, table.deref ws,
        scripts.answer check.func (table.deref ws)⟩ := by
  constructor
  · intro h
    induction ps with
    | nil => cases h
    | cons p ps ih =>
        have hrest : call ∈ schemaCalls scripts ws ps → ∃ table root schema index check,
            .schema table root schema index ∈ p :: ps ∧
            schema.options.checks[index]? = some check ∧
            call = ⟨.schema table root schema index, table.deref ws,
              scripts.answer check.func (table.deref ws)⟩ := fun h => by
          obtain ⟨table, root, schema, index, check, hmem, hcheck, hcall⟩ := ih h
          exact ⟨table, root, schema, index, check, List.mem_cons_of_mem p hmem, hcheck, hcall⟩
        cases p with
        | field slot path field rule owner value check => exact hrest h
        | schema table root schema index =>
            cases hcheck : schema.options.checks[index]? with
            | none =>
                rw [schemaCalls, hcheck] at h
                exact hrest h
            | some check =>
                rw [schemaCalls_schema hcheck] at h
                obtain rfl | h := List.mem_cons.mp h
                · exact ⟨table, root, schema, index, check, List.mem_cons_self, hcheck, rfl⟩
                · exact hrest h
  · rintro ⟨table, root, schema, index, check, hmem, hcheck, rfl⟩
    induction ps with
    | nil => cases hmem
    | cons p ps ih =>
        obtain rfl | hmem := List.mem_cons.mp hmem
        · rw [schemaCalls_schema hcheck]
          exact List.mem_cons_self
        · exact schemaCalls_cons_subset p (ih hmem)

end Calls

section Deferred

variable {visit x : Visit}

theorem Visit.Reaches.mem_pending {standing : Standing} (h : visit.Reaches standing x)
    (hne : standing ≠ .filename) {item : Pending} (hitem : item ∈ x.pending) :
    item ∈ visit.pending := by
  have hpart : ∀ {p : Role × Visit} {parts : List (Role × Visit)}, p ∈ parts → p.1 ≠ .filename →
      item ∈ p.2.pending → item ∈ partsPending parts := by
    intro p parts hp hrole hitem
    induction parts with
    | nil => cases hp
    | cons q parts ih =>
        by_cases hq : q.1 = .filename
        · obtain ⟨role, part⟩ := q
          obtain rfl : role = .filename := hq
          rw [partsPending]
          obtain rfl | hp := List.mem_cons.mp hp
          · exact absurd rfl hrole
          · exact ih hp
        · rw [partsPending_cons hq]
          obtain rfl | hp := List.mem_cons.mp hp
          · exact List.mem_append_left _ hitem
          · exact List.mem_append_right _ (ih hp)
  induction h with
  | here => exact hitem
  | @value visit part x key standing mem inside ih =>
      rw [visit.pending_eq]
      exact List.mem_append_left _
        (hpart mem (by simp) (ih (Standing.under_ne_filename.mp hne) hitem))
  | @key visit x key mem =>
      rw [visit.pending_eq]
      exact List.mem_append_left _ (hpart mem (by simp) hitem)
  | filename mem => exact absurd rfl hne

theorem Visit.schema_mem_pending {schema : SchemaDef} {index : ℕ}
    (h : x.rule.schema = some schema) (hi : index < schema.options.checks.length) :
    .schema x.checked x.site.path.render schema index ∈ x.pending := by
  rw [x.pending_eq, ownPending, h]
  refine List.mem_append_right _ (List.mem_append_left _ ?_)
  exact List.mem_map_of_mem (List.mem_range.mpr hi)

end Deferred

/-! ## The hooks of an accepting run -/

/-- What an accepting run leaves of a tree: the output, and the calls made for it. -/
structure Ran (host : Host) (scripts : Scripts) (s n' : ℕ) (root : Visit) (calls : List HookCall)
    (output : Value) : Prop where
  formed : Formed s s n' root
  rule : root.rule.scripts = []
  output : output = root.shown (root.replaced scripts)
  accounts : Accounts scripts root.Inside (root.replaced scripts) (root.replaced scripts)
    (fieldCalls scripts root.pending [])
  schemas : SchemasPass scripts root.pending (root.replaced scripts)
  calls : calls = fieldCalls scripts root.pending [] ++
    schemaCalls scripts (root.replaced scripts) root.pending

section Ran

variable {host : Host} {scripts : Scripts} {s n' : ℕ} {root x : Visit} {calls : List HookCall}
  {output : Value}

theorem Ran.replacements_eq (h : Ran host scripts s n' root calls output) :
    replacements calls = root.replaced scripts := by
  rw [h.calls, replacements_append, replacements_schemaCalls, List.nil_append, Visit.replaced,
    ← replacements_fieldCalls, List.append_nil]

theorem Ran.transform_eq_none (h : Ran host scripts s n' root calls output) :
    root.rule.transform = none := by
  by_contra hne
  obtain ⟨f, hf⟩ := Option.ne_none_iff_exists'.mp hne
  have hmem := RuleKeys.mem_scripts.mpr (.inr ⟨f, hf, rfl⟩)
  rw [h.rule] at hmem
  cases hmem

/-- The name of an upload has a scratch table of its own. -/
theorem Formed.filename_part {n : ℕ} {visit : Visit} (h : Formed s n n' visit)
    (hmem : (.filename, x) ∈ visit.parts) :
    x.slot = ⟨n, .integer 1⟩ ∧ n < n' ∧ x.rule.kind.isContainer = false ∧
      ∀ key y, (.value key, y) ∉ visit.parts := by
  cases h with
  | leaf => cases hmem
  | file kind slot leaf formed =>
      have hname := congrArg Prod.snd (List.mem_singleton.mp hmem)
      dsimp only at hname
      rw [hname]
      refine ⟨slot, formed.le, leaf, fun key y hy => ?_⟩
      cases congrArg Prod.fst (List.mem_singleton.mp hy)
  | table kind formed =>
      obtain ⟨a, b, hpart, -, -⟩ := formed.mem hmem
      exact absurd rfl hpart.ne_filename

/-- An upload's name is no table. -/
theorem Ran.filename_schema (h : Ran host scripts s n' root calls output)
    (hx : root.Reaches .filename x) : x.rule.schema = none := by
  obtain ⟨place, z, hz, hname⟩ := hx.around_filename
  obtain ⟨a, b, hformed⟩ := h.formed.reached hz
  obtain ⟨-, -, hleaf, -⟩ := hformed.filename_part hname
  refine if_neg fun hkind => ?_
  rw [hkind] at hleaf
  cases hleaf

/-- What the output holds where a value was reached, or the value of a key. -/
theorem Ran.left_of_reaches (h : Ran host scripts s n' root calls output) {standing : Standing}
    (hx : root.Reaches standing x) (hne : standing ≠ .filename) :
    Left root scripts (root.replaced scripts) output standing.place := by
  rw [h.output]
  cases standing with
  | value place => exact h.formed.left h.transform_eq_none h.accounts hx
  | key place key =>
      obtain ⟨around, haround, hmem⟩ := hx.around_key
      obtain ⟨a, b, hformed⟩ := h.formed.reached haround
      obtain ⟨-, k, part, -, -, hpart⟩ := (hformed.key_part hmem).value_of_key hmem
      exact h.formed.left h.transform_eq_none h.accounts (haround.part hpart)
  | filename => exact absurd rfl hne

/-- The call of a hook that is not that of an upload's name. -/
theorem Ran.called (h : Ran host scripts s n' root calls output) {standing : Standing}
    (hx : root.Reaches standing x) (hne : standing ≠ .filename) {check : PendingCheck}
    (hcheck : check ∈ x.rule.scripts) : x.call scripts (root.replaced scripts) check ∈ calls := by
  rw [h.calls]
  exact List.mem_append_left _ ((h.accounts.served x ⟨standing, hne, hx⟩).called check hcheck)

theorem Unhindered.honoured (h : Ran host scripts s n' root calls output)
    (hu : Unhindered scripts root) : Honoured root calls output := by
  refine ⟨fun standing x check hx hcheck => ?_, fun standing x f hx hf => ?_,
    fun standing x schema index hx hschema hi => ?_⟩
  · have hscript := RuleKeys.mem_scripts.mpr (.inl hcheck)
    by_cases hne : standing = .filename
    · rw [hne] at hx
      rw [hu.names x hx] at hscript
      cases hscript
    · have hcall := h.called hx hne hscript
      obtain ⟨results, hok, htrue⟩ := (h.accounts.served x ⟨standing, hne, hx⟩).holds check hscript
        (RuleKeys.ne_transform_of_mem_checks hcheck)
      rw [Visit.call, Scripts.answer_of_call hok, htrue] at hcall
      rw [h.replacements_eq]
      exact hcall
  · have hscript := RuleKeys.mem_scripts.mpr (.inr ⟨f, hf, rfl⟩)
    by_cases hne : standing = .filename
    · rw [hne] at hx
      rw [hu.names x hx] at hscript
      cases hscript
    · rw [h.replacements_eq]
      refine ⟨root.answer scripts x f, h.called hx hne hscript, ?_⟩
      have hleft := h.left_of_reaches hx hne
      have hstands := hu.left standing x f hx hf
      generalize hplace : standing.place = place at hleft hstands ⊢
      cases hleft with
      | replaced reached declared covered held =>
          rw [Value.at_append, held]
          exact hu.agree standing x f _ _ _ _ hx hf reached declared hplace
      | @kept _ y clear keeps held =>
          rw [held]
          obtain hcovered | ⟨z, hz, hfits⟩ | hfits := hstands
          · exact absurd hcovered clear
          · rw [keeps.unique hz]
            exact hfits
          · cases standing with
            | value place' =>
                obtain rfl : place' = place := hplace
                have hrule := h.formed.same_rule h.formed rfl keeps.reaches hx
                refine absurd ⟨place', y, List.prefix_refl _, keeps, ?_⟩ clear
                rw [hrule, hf]
                simp
            | key place' key => exact absurd rfl hfits.1
            | filename => exact absurd rfl hne
      | lost clear gone held =>
          rw [held]
          obtain hcovered | ⟨z, hz, -⟩ | hfits := hstands
          · exact absurd hcovered clear
          · exact absurd hz (gone z)
          · exact hfits
  · by_cases hne : standing = .filename
    · rw [hne] at hx
      rw [h.filename_schema hx] at hschema
      cases hschema
    · have hitem := hx.mem_pending hne (Visit.schema_mem_pending hschema hi)
      obtain ⟨check, hcheck, results, hok, hresult⟩ := h.schemas _ _ _ _ hitem
      have hcall := (@mem_schemaCalls scripts root.pending (root.replaced scripts) _).mpr
        ⟨_, _, _, _, check, hitem, hcheck, rfl⟩
      have htrue : results.headD .nil = .boolean true := by
        obtain htrue | hshrugs := hresult
        · exact htrue
        · exact absurd ⟨results, hok, hshrugs⟩
            (hu.reasons standing x schema check hx hschema (List.mem_of_getElem? hcheck))
      rw [Scripts.answer_of_call hok, htrue] at hcall
      rw [h.replacements_eq, h.calls]
      exact List.mem_append_right _ hcall

end Ran

end Nitr.Validate
