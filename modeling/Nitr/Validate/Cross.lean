import Nitr.Validate.Tables

/-! # What the cross-field rules ask of a table

`crossFailures` reports nothing exactly when every group of the schema holds of
the output, and whether it does depends on the contents of the output only. -/

namespace Nitr.Validate

section

variable (host : Host)

/-- What an `ordered` group compares, in the group's order. -/
def comparables (schema : SchemaDef) (out : Entries) (names : List String) : List Comparable :=
  names.filterMap fun name =>
    comparable host (out.field name) ((schema.rule name).bind (·.format))

/-- Every cross-field group of the schema holds of the output. -/
structure CrossHolds (schema : SchemaDef) (out : Entries) : Prop where
  atLeastOne : ∀ g ∈ schema.options.atLeastOne, ∃ n ∈ g.fields, present out n = true
  mutuallyExclusive : ∀ g ∈ schema.options.mutuallyExclusive,
    (g.fields.filter (present out)).length ≤ 1
  dependentRequired : ∀ d ∈ schema.options.dependentRequired, present out d.1 = true →
    ∀ dep ∈ d.2.fields.drop 1, present out dep = true
  equalFields : ∀ g ∈ schema.options.equalFields, ∃ c, ∀ n ∈ g.fields, present out n = true →
    canonical host (out.field n) = .ok c
  ordered : ∀ g ∈ schema.options.ordered,
    (comparables host schema out g.fields).IsChain fun a b => a.lt b = true

end

section

variable {host : Host} {schema : SchemaDef} {out : Entries} {path : FieldPath}

theorem equalFieldsFailure_some {group : Group} {names : List String} {first : String}
    {c : Canonical} :
    equalFieldsFailure host schema out path group names (some (first, c)) = .ok none ↔
      ∀ n ∈ names, present out n = true → canonical host (out.field n) = .ok c := by
  induction names with
  | nil => simp [equalFieldsFailure]
  | cons name rest ih =>
      unfold equalFieldsFailure
      rw [List.forall_mem_cons]
      cases hp : present out name with
      | false => simpa using ih
      | true =>
          cases hc : canonical host (out.field name) with
          | error fault => simp
          | ok canon =>
              by_cases heq : c = canon
              · subst heq
                simpa using ih
              · simp [heq, Ne.symm heq]

theorem equalFieldsFailure_none {group : Group} {names : List String} :
    equalFieldsFailure host schema out path group names none = .ok none ↔
      ∃ c, ∀ n ∈ names, present out n = true → canonical host (out.field n) = .ok c := by
  induction names with
  | nil => exact ⟨fun _ => ⟨.boolean true, by simp⟩, fun _ => rfl⟩
  | cons name rest ih =>
      unfold equalFieldsFailure
      simp only [List.forall_mem_cons]
      cases hp : present out name with
      | false => simpa using ih
      | true =>
          cases hc : canonical host (out.field name) with
          | error fault => simp
          | ok canon =>
              simp only [Bool.not_true, Bool.false_eq_true, reduceIte, equalFieldsFailure_some,
                forall_const, Except.ok.injEq]
              constructor
              · intro h
                exact ⟨canon, rfl, h⟩
              · rintro ⟨c, rfl, h⟩
                exact h

theorem orderedFailure_some {group : Group} {names : List String} {before : String × Comparable} :
    orderedFailure host schema out path group names (some before) = none ↔
      (before.2 :: comparables host schema out names).IsChain fun a b => a.lt b = true := by
  induction names generalizing before with
  | nil => simp [orderedFailure, comparables]
  | cons name rest ih =>
      unfold orderedFailure comparables
      rw [List.filterMap_cons]
      cases hc : comparable host (out.field name) ((schema.rule name).bind (·.format)) with
      | none => exact ih
      | some current =>
          obtain ⟨other, b⟩ := before
          cases hlt : b.lt current with
          | false => simp [hlt]
          | true =>
              simp only [reduceIte, List.isChain_cons_cons, hlt, true_and]
              exact ih

theorem orderedFailure_none {group : Group} {names : List String} :
    orderedFailure host schema out path group names none = none ↔
      (comparables host schema out names).IsChain fun a b => a.lt b = true := by
  induction names with
  | nil => simp [orderedFailure, comparables]
  | cons name rest ih =>
      unfold orderedFailure comparables
      rw [List.filterMap_cons]
      cases hc : comparable host (out.field name) ((schema.rule name).bind (·.format)) with
      | none => exact ih
      | some current => exact orderedFailure_some

theorem mapM_eq_ok_iff {α β : Type} {f : α → Except Fault β} {xs : List α} {p : β → Prop} :
    (∃ ys, xs.mapM f = .ok ys ∧ ∀ y ∈ ys, p y) ↔ ∀ x ∈ xs, ∃ y, f x = .ok y ∧ p y := by
  induction xs with
  | nil => simp [pure, Except.pure]
  | cons x xs ih =>
      rw [List.forall_mem_cons, ← ih, List.mapM_cons]
      cases f x with
      | error fault => simp [bind, Except.bind]
      | ok y =>
          cases xs.mapM f with
          | error fault => simp [bind, Except.bind]
          | ok ys => simp [bind, Except.bind, pure, Except.pure]

theorem atLeastOneFailure_eq_none {g : Group} :
    atLeastOneFailure schema out path g = none ↔ ∃ n ∈ g.fields, present out n = true := by
  unfold atLeastOneFailure
  cases h : g.fields.any (present out) with
  | false =>
      rw [List.any_eq_false] at h
      simpa using h
  | true =>
      rw [List.any_eq_true] at h
      simpa using h

theorem mutuallyExclusiveFailure_eq_none {g : Group} :
    mutuallyExclusiveFailure schema out path g = none ↔
      (g.fields.filter (present out)).length ≤ 1 := by
  unfold mutuallyExclusiveFailure
  split <;> simp_all

theorem dependentRequiredFailure_eq_none {d : String × Group} :
    dependentRequiredFailure schema out path d = none ↔
      (present out d.1 = true → ∀ dep ∈ d.2.fields.drop 1, present out dep = true) := by
  unfold dependentRequiredFailure
  cases hp : present out d.1 with
  | false => simp
  | true =>
      simp only [Bool.not_true, Bool.false_or, forall_const]
      rw [ite_eq_left_iff]
      simp [List.filter_eq_nil_iff]

/-- Nothing is reported exactly when every group holds. -/
theorem crossFailures_eq_nil :
    crossFailures host schema out path = .ok [] ↔ CrossHolds host schema out := by
  have hequal : (∃ fs, schema.options.equalFields.mapM (fun group =>
        equalFieldsFailure host schema out path group group.fields none) = .ok fs ∧
        ∀ f ∈ fs, f = none) ↔
      ∀ g ∈ schema.options.equalFields, ∃ c, ∀ n ∈ g.fields, present out n = true →
        canonical host (out.field n) = .ok c := by
    rw [mapM_eq_ok_iff]
    simp only [exists_eq_right, equalFieldsFailure_none]
  unfold crossFailures
  cases he : schema.options.equalFields.mapM (fun group =>
      equalFieldsFailure host schema out path group group.fields none) with
  | error fault =>
      rw [he] at hequal
      constructor
      · intro h
        cases h
      · intro h
        obtain ⟨fs, hfs, -⟩ := hequal.mpr h.equalFields
        cases hfs
  | ok fs =>
      rw [he] at hequal
      have hall : (∀ f ∈ fs, f = none) ↔ ∀ g ∈ schema.options.equalFields, ∃ c,
          ∀ n ∈ g.fields, present out n = true → canonical host (out.field n) = .ok c := by
        rw [← hequal]
        simp
      change Except.ok _ = _ ↔ _
      simp only [Except.ok.injEq, List.append_eq_nil_iff, List.filterMap_eq_nil_iff, id_eq, hall,
        atLeastOneFailure_eq_none, mutuallyExclusiveFailure_eq_none,
        dependentRequiredFailure_eq_none, orderedFailure_none]
      constructor
      · rintro ⟨⟨⟨⟨h₁, h₂⟩, h₃⟩, h₄⟩, h₅⟩
        exact ⟨h₁, h₂, h₃, h₄, h₅⟩
      · rintro ⟨h₁, h₂, h₃, h₄, h₅⟩
        exact ⟨⟨⟨⟨h₁, h₂⟩, h₃⟩, h₄⟩, h₅⟩

end

/-! ## Identity and contents -/

section

variable (host : Host)

/-- The canonical form as far as contents tell it: none for a table that is only
equal to itself. -/
def contentForm (value : Value) : Except Fault (Option Canonical) :=
  match canonical host value with
  | .error fault => .error fault
  | .ok (.table _) => .ok none
  | .ok canon => .ok (some canon)

/-- The two values are not one table without a JSON form. -/
def Apart (a b : Value) : Prop :=
  ∀ p, canonical host a = .ok (.table p) → canonical host b ≠ .ok (.table p)

end

section

variable {host : Host}

theorem contentForm_eq_some {v : Value} {c : Canonical} :
    contentForm host v = .ok (some c) ↔ canonical host v = .ok c ∧ ∀ p, c ≠ .table p := by
  unfold contentForm
  cases hv : canonical host v with
  | error fault => simp
  | ok c' =>
      cases c' with
      | table p =>
          simp only [Except.ok.injEq, reduceCtorEq, false_iff, not_and, not_forall, not_not]
          rintro rfl
          exact ⟨p, rfl⟩
      | _ =>
          simp only [Except.ok.injEq, Option.some.injEq]
          constructor
          · rintro rfl
            exact ⟨rfl, fun p => by simp⟩
          · exact fun h => h.1

theorem contentForm_eq_none {v : Value} :
    contentForm host v = .ok none ↔ ∃ p, canonical host v = .ok (.table p) := by
  unfold contentForm
  cases hv : canonical host v with
  | error fault => simp
  | ok c' => cases c' <;> simp

@[simp] theorem contentForm_erase (v : Value) : contentForm host v.erase = contentForm host v := by
  cases v with
  | table p len es =>
      have herase : (Value.table p len es).erase.erase = (Value.table p len es).erase :=
        Value.erase_erase _
      unfold contentForm
      change (match canonical host (.table 0 len (Value.eraseEntries es)) with
        | .error fault => Except.error fault
        | .ok (.table _) => .ok none
        | .ok canon => .ok (some canon)) = _
      unfold canonical
      change (Value.table 0 len (Value.eraseEntries es)).erase = _ at herase
      dsimp only
      rw [herase]
      cases host.checkJsonBounds (Value.table p len es).erase with
      | error msg => rfl
      | ok _ => cases host.toJson (Value.table p len es).erase <;> rfl
  | _ => rfl

theorem present_erase (es : Entries) (name : String) :
    present (Value.eraseEntries es) name = present es name := by
  unfold present Entries.field
  rw [Value.get_eraseEntries, Value.isNil_erase]

theorem comparable_erase (v : Value) (format : Option FormatRule) :
    comparable host v.erase format = comparable host v format := by
  cases v <;> rfl

/-- Whether the groups hold is a matter of contents, where different fields are never
the same table. -/
theorem CrossHolds.of_erase {schema : SchemaDef} {out out' : Entries}
    (herase : Value.eraseEntries out' = Value.eraseEntries out)
    (hapart : ∀ a b : String, a ≠ b → Apart host (out.field a) (out.field b))
    (h : CrossHolds host schema out) : CrossHolds host schema out' := by
  have hpresent : present out' = present out := by
    funext name
    rw [← present_erase out', herase, present_erase]
  have hfield : ∀ name, (out'.field name).erase = (out.field name).erase := by
    intro name
    unfold Entries.field
    rw [← Value.get_eraseEntries, herase, Value.get_eraseEntries]
  have hform : ∀ name, contentForm host (out'.field name) = contentForm host (out.field name) := by
    intro name
    rw [← contentForm_erase, hfield, contentForm_erase]
  refine ⟨?_, ?_, ?_, ?_, ?_⟩
  · rw [hpresent]
    exact h.atLeastOne
  · rw [hpresent]
    exact h.mutuallyExclusive
  · rw [hpresent]
    exact h.dependentRequired
  · intro g hg
    obtain ⟨c, hc⟩ := h.equalFields g hg
    rw [hpresent]
    by_cases htable : ∃ p, c = .table p
    · obtain ⟨p, rfl⟩ := htable
      by_cases hany : ∃ n ∈ g.fields, present out n = true
      · obtain ⟨n, hn, hp⟩ := hany
        have hnone := contentForm_eq_none.mpr ⟨p, hc n hn hp⟩
        rw [← hform] at hnone
        obtain ⟨p', hp'⟩ := contentForm_eq_none.mp hnone
        refine ⟨.table p', fun m hm hpm => ?_⟩
        have hmn : m = n := by
          by_contra hne
          exact hapart m n hne p (hc m hm hpm) (hc n hn hp)
        rw [hmn, hp']
      · exact ⟨.table p, fun n hn hp => absurd ⟨n, hn, hp⟩ hany⟩
    · refine ⟨c, fun n hn hp => ?_⟩
      have hsome := contentForm_eq_some.mpr ⟨hc n hn hp, not_exists.mp htable⟩
      rw [← hform] at hsome
      exact (contentForm_eq_some.mp hsome).1
  · have hcomparables : ∀ names, comparables host schema out' names =
        comparables host schema out names := by
      intro names
      unfold comparables
      congr 1
      funext name
      rw [← comparable_erase, hfield, comparable_erase]
    intro g hg
    rw [hcomparables]
    exact h.ordered g hg

end

end Nitr.Validate
