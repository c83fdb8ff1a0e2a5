import Nitr.Validate.Identities

/-! # What a passing value keeps

A schema without scripts defers nothing, and an output that passes keeps apart
what `unique` and `min_keys` count. -/

namespace Nitr.Validate

/-! ## Nothing is deferred -/

def QuietFor (host : Host) (rule : Rule) : Prop :=
  ∀ {strict : Bool} {v w : Value} {site : Site} {n n' : ℕ} {d : List Pending},
    Checks host strict rule v site n w n' d → d = []

section Quiet

variable {host : Host} {strict : Bool} {n n' : ℕ} {d : List Pending}

theorem ChecksItems.quiet {keys : RuleKeys} {items : Rule} (hr : QuietFor host items)
    {site : Site} {out i : ℕ} {seen : List Canonical} {vs ws : List Value}
    (h : ChecksItems host strict keys items site out i seen vs n ws n' d) : d = [] := by
  induction vs generalizing i seen n ws d with
  | nil =>
      cases h
      rfl
  | cons v vs ih =>
      cases h with
      | cons unique item rest => rw [hr item, ih rest, List.append_nil]

theorem ChecksPairs.quiet {keys : Option Rule} {values : Rule}
    (hk : ∀ r, keys = some r → QuietFor host r) (hv : QuietFor host values) {site : Site}
    {pointer : ℕ} {es built out : Entries}
    (h : ChecksPairs host strict keys values site pointer es built n out n' d) : d = [] := by
  induction es generalizing n built d with
  | nil =>
      cases h
      rfl
  | cons e es ih =>
      cases h with
      | cons key value rest =>
          rw [hv value, ih rest]
          cases key with
          | free => rfl
          | ruled checked => rw [hk _ rfl checked]; rfl

theorem ChecksFieldList.quiet {fields : List (String × Rule)}
    (hf : ∀ f ∈ fields, QuietFor host f.2) {owner : SchemaOptions} {input built out : Entries}
    {path : FieldPath} {pointer : ℕ}
    (h : ChecksFieldList host strict fields owner input path pointer built n out n' d) :
    d = [] := by
  induction fields generalizing n built d with
  | nil =>
      cases h
      rfl
  | cons f fields ih =>
      have hf' : ∀ f ∈ fields, QuietFor host f.2 := by
        intro f hmem
        exact hf f (List.mem_cons_of_mem _ hmem)
      cases h with
      | absent missing optional rest => exact ih hf' rest
      | present given value rest =>
          rw [hf _ (List.mem_cons_self ..) value, ih hf' rest, List.append_nil]

theorem ChecksFields.quiet {schema : SchemaDef} (hc : schema.options.checks = [])
    (hf : ∀ f ∈ schema.fields, QuietFor host f.2) {input out : Entries} {path : FieldPath}
    {pointer : ℕ} (h : ChecksFields host strict schema input path pointer n out n' d) : d = [] := by
  cases h with
  | intro list known cross =>
      rw [list.quiet hf]
      simp [schemaPending, hc]

/-- Without hooks and files no check is deferred. -/
theorem Rule.Plain.quiet {rule : Rule} (h : rule.Plain) : QuietFor host rule := by
  induction h with
  | @intro rule kind check transform format _ _ _ checks _ items keys values fields =>
      intro strict v w site n n' d h
      have hhooks : ∀ site w, hookPending rule.toRuleKeys site w = [] := by
        intro site w
        simp [hookPending, RuleKeys.hooks, check, transform]
      cases h with
      | intro hkind =>
          rw [hhooks, List.append_nil]
          cases hkind with
          | string =>
              unfold formatPending
              split
              · rename_i custom hc
                exact absurd hc (format custom)
              · rfl
          | number => rfl
          | boolean => rfl
          | any => rfl
          | array kind sequence length nested each tests => exact each.quiet (items _ nested)
          | table kind nested each => exact each.quiet (checks _ nested) (fields _ nested)
          | map kind count nested each => exact each.quiet keys (values _ nested)
          | file hfile => exact absurd hfile kind

end Quiet

/-! ## What a passing value keeps -/

section Keeping

variable {host : Host} {strict : Bool} {n n' : ℕ} {d : List Pending}

theorem noteUnique_eq_some {rule : RuleKeys} {seen seen' : List Canonical} {v : Value}
    (hu : rule.unique = true) :
    noteUnique host rule seen v = .ok (some seen') ↔
      ∃ c, canonical host v = .ok c ∧ c ∉ seen ∧ seen' = seen ++ [c] := by
  unfold noteUnique
  rw [if_pos hu]
  cases canonical host v with
  | error fault => simp
  | ok c =>
      by_cases hc : c ∈ seen
      · simp [hc]
      · simp [hc, eq_comm]

/-- No item has a form that was seen, or that another item has. -/
structure Unrepeated (host : Host) (seen : List Canonical) (vs : List Value) : Prop where
  formed : ∀ v ∈ vs, ∃ c, canonical host v = .ok c ∧ c ∉ seen
  apart : vs.Pairwise fun a b => ∀ c, canonical host a = .ok c → canonical host b ≠ .ok c

theorem unrepeated_cons {seen : List Canonical} {v : Value} {vs : List Value} :
    Unrepeated host seen (v :: vs) ↔
      ∃ c, canonical host v = .ok c ∧ c ∉ seen ∧ Unrepeated host (seen ++ [c]) vs := by
  constructor
  · rintro ⟨hformed, hapart⟩
    obtain ⟨c, hc, hseen⟩ := hformed v (List.mem_cons_self ..)
    rw [List.pairwise_cons] at hapart
    refine ⟨c, hc, hseen, ?_, hapart.2⟩
    intro x hx
    obtain ⟨c', hc', hseen'⟩ := hformed x (List.mem_cons_of_mem _ hx)
    refine ⟨c', hc', ?_⟩
    rw [List.mem_append, List.mem_singleton, not_or]
    refine ⟨hseen', ?_⟩
    rintro rfl
    exact hapart.1 x hx c' hc hc'
  · rintro ⟨c, hc, hseen, hformed, hapart⟩
    refine ⟨?_, List.pairwise_cons.mpr ⟨?_, hapart⟩⟩
    · intro x hx
      obtain rfl | hx := List.mem_cons.mp hx
      · exact ⟨c, hc, hseen⟩
      · obtain ⟨c', hc', hseen'⟩ := hformed x hx
        exact ⟨c', hc', fun hm => hseen' (List.mem_append_left _ hm)⟩
    · intro x hx c' hv hx'
      obtain ⟨c'', hc'', hseen''⟩ := hformed x hx
      rw [hc] at hv
      rw [hc''] at hx'
      cases hv
      cases hx'
      exact hseen'' (List.mem_append_right _ (List.mem_singleton.mpr rfl))

theorem ChecksItems.unrepeated {keys : RuleKeys} {items : Rule} {site : Site} {out i : ℕ}
    {seen : List Canonical} {vs ws : List Value}
    (h : ChecksItems host strict keys items site out i seen vs n ws n' d)
    (hu : keys.unique = true) : Unrepeated host seen vs := by
  induction vs generalizing i seen n ws d with
  | nil => exact ⟨by simp, .nil⟩
  | cons v vs ih =>
      cases h with
      | cons unique item rest =>
          obtain ⟨c, hc, hseen, rfl⟩ := (noteUnique_eq_some hu).mp unique
          exact unrepeated_cons.mpr ⟨c, hc, hseen, ih rest⟩

theorem ChecksItems.checked {keys : RuleKeys} {items : Rule} {site : Site} {out i : ℕ}
    {seen : List Canonical} {vs ws : List Value}
    (h : ChecksItems host strict keys items site out i seen vs n ws n' d) {v : Value}
    (hv : v ∈ vs) : ∃ site n w n' d, Checks host strict items v site n w n' d := by
  induction vs generalizing i seen n ws d with
  | nil => cases hv
  | cons v' vs ih =>
      cases h with
      | cons unique item rest =>
          cases hv with
          | head => exact ⟨_, _, _, _, _, item⟩
          | tail _ hv => exact ih rest hv

theorem Unrepeated.distinct {seen : List Canonical} {vs : List Value}
    (h : Unrepeated host seen vs) : Distinct host vs := by
  constructor
  · intro v hv fault hf
    obtain ⟨c, hc, -⟩ := h.formed v hv
    unfold contentForm at hf
    rw [hc] at hf
    cases c <;> cases hf
  · refine h.apart.imp ?_
    intro a b hab c ha hb
    exact hab c (contentForm_eq_some.mp ha).1 (contentForm_eq_some.mp hb).1

/-- Items that are distinct by contents, and no two of them one table, are told apart. -/
theorem Distinct.unrepeated {vs : List Value} (h : Distinct host vs)
    (ha : vs.Pairwise (Apart host)) : Unrepeated host [] vs := by
  constructor
  · intro v hv
    cases hc : canonical host v with
    | error fault =>
        refine absurd ?_ (h.formed v hv fault)
        unfold contentForm
        rw [hc]
    | ok c => exact ⟨c, rfl, by simp⟩
  · refine h.apart.imp₂ ?_ ha
    intro a b hab hapart c hca hcb
    by_cases htable : ∃ p, c = .table p
    · obtain ⟨p, rfl⟩ := htable
      exact hapart p hca hcb
    · have hne := not_exists.mp htable
      exact hab c (contentForm_eq_some.mpr ⟨hca, hne⟩) (contentForm_eq_some.mpr ⟨hcb, hne⟩)

theorem keeps_string (host : Host) (rule : Rule) (k : LuaString) : Keeps host rule (.string k) := by
  refine .intro ?_ ?_ ?_ ?_ ?_
  · intro p len es _ hv
    cases hv
  · intro p len es min _ hv
    cases hv
  · intro p len es r _ hv
    cases hv
  · intro p len es r _ hv
    cases hv
  · intro p len es s _ hv
    cases hv

theorem fieldValue_of_ne_nil {rule : RuleKeys} {input : Entries} {name : String}
    (h : input.field name ≠ .nil) : fieldValue rule input name = input.field name := by
  unfold fieldValue
  split
  · rename_i hnil _
    exact absurd hnil h
  · rfl

theorem fieldValue_eq_nil {rule : RuleKeys} {input : Entries} {name : String} :
    fieldValue rule input name = .nil ↔ input.field name = .nil ∧ rule.default = none := by
  unfold fieldValue
  cases hd : rule.default with
  | none =>
      cases hf : input.field name <;> simp
  | some l =>
      cases hf : input.field name <;> simp [l.toLua_ne_nil]

theorem ChecksFieldList.checked {fields : List (String × Rule)} {owner : SchemaOptions}
    {input built out : Entries} {path : FieldPath} {pointer : ℕ}
    (h : ChecksFieldList host strict fields owner input path pointer built n out n' d)
    {f : String × Rule} (hf : f ∈ fields) (hgiven : fieldValue f.2.toRuleKeys input f.1 ≠ .nil) :
    ∃ site n w n' d, Checks host strict f.2 (fieldValue f.2.toRuleKeys input f.1) site n w n' d := by
  induction fields generalizing n built d with
  | nil => cases hf
  | cons g fields ih =>
      cases h with
      | absent missing optional rest =>
          cases hf with
          | head => exact absurd missing hgiven
          | tail _ hf => exact ih rest hf
      | present given value rest =>
          cases hf with
          | head => exact ⟨_, _, _, _, _, value⟩
          | tail _ hf => exact ih rest hf

theorem ChecksPairs.checked {keys : Option Rule} {values : Rule} {site : Site} {pointer : ℕ}
    {es built out : Entries}
    (h : ChecksPairs host strict keys values site pointer es built n out n' d)
    {e : Key × Value} (he : e ∈ es) :
    ∃ site n w n' d, Checks host strict values e.2 site n w n' d := by
  induction es generalizing n built d with
  | nil => cases he
  | cons e' es ih =>
      cases h with
      | cons key value rest =>
          cases he with
          | head => exact ⟨_, _, _, _, _, value⟩
          | tail _ he => exact ih rest he

/-- What passes its rule has distinct items and enough keys wherever the rule asks. -/
theorem checks_keeps (rule : Rule) : ∀ {strict : Bool} {v w : Value} {site : Site} {n n' : ℕ}
    {d : List Pending}, Checks host strict rule v site n w n' d → Keeps host rule v := by
  induction rule using Rule.induct with
  | step rule items keys values filename fields =>
      intro strict v w site n n' d h
      cases h with
      | intro kind =>
          refine .intro ?_ ?_ ?_ ?_ ?_
          · rintro p len es hk rfl hu
            cases kind with
            | array _ sequence length nested each tests => exact (each.unrepeated hu).distinct
            | number hnum value => cases value
            | _ hkind => exact absurd (hk.symm.trans hkind) (by decide)
          · rintro p len es min hk rfl hmin
            cases kind with
            | map _ count nested each =>
                have h := count _ (List.mem_cons_self ..)
                simpa [demand, hmin] using h
            | number hnum value => cases value
            | _ hkind => exact absurd (hk.symm.trans hkind) (by decide)
          · rintro p len es r hk rfl hr x hx
            cases kind with
            | array _ sequence length nested each tests =>
                rw [hr] at nested
                cases nested
                obtain ⟨site, n, w, n', d, hw⟩ := each.checked hx
                exact items r hr hw
            | number hnum value => cases value
            | _ hkind => exact absurd (hk.symm.trans hkind) (by decide)
          · rintro p len es r hk rfl hr e he
            cases kind with
            | map _ count nested each =>
                rw [hr] at nested
                cases nested
                obtain ⟨site, n, w, n', d, hw⟩ := each.checked he
                exact values r hr hw
            | number hnum value => cases value
            | _ hkind => exact absurd (hk.symm.trans hkind) (by decide)
          · rintro p len es s hk rfl hs f hf hne
            cases kind with
            | table _ nested each =>
                rw [hs] at nested
                cases nested
                cases each with
                | intro list known cross =>
                    have hgiven : fieldValue f.2.toRuleKeys es f.1 = es.field f.1 :=
                      fieldValue_of_ne_nil hne
                    obtain ⟨site, n, w, n', d, hw⟩ := list.checked hf (by rwa [hgiven])
                    rw [hgiven] at hw
                    exact fields s hs f hf hw
            | number hnum value => cases value
            | _ hkind => exact absurd (hk.symm.trans hkind) (by decide)

theorem Distinct.of_erase {xs ys : List Value} (h : Distinct host xs)
    (he : ys.map Value.erase = xs.map Value.erase) : Distinct host ys := by
  have hforms : ys.map (contentForm host) = xs.map (contentForm host) := by
    have hmap : ∀ zs : List Value,
        zs.map (contentForm host) = (zs.map Value.erase).map (contentForm host) := by
      intro zs
      simp
    rw [hmap, he, ← hmap]
  have hpair : ∀ zs : List Value, (zs.Pairwise fun a b =>
        ∀ c, contentForm host a = .ok (some c) → contentForm host b ≠ .ok (some c)) ↔
      (zs.map (contentForm host)).Pairwise fun a b => ∀ c, a = .ok (some c) → b ≠ .ok (some c) := by
    intro zs
    rw [List.pairwise_map]
  constructor
  · intro v hv fault hf
    have hmem := List.mem_map_of_mem (f := contentForm host) hv
    rw [hforms, hf] at hmem
    obtain ⟨x, hx, hxf⟩ := List.mem_map.mp hmem
    exact h.formed x hx fault hxf
  · rw [hpair, hforms, ← hpair]
    exact h.apart

/-- Keeping is a matter of contents. -/
theorem Keeps.of_erase {rule : Rule} {v v' : Value} (h : Keeps host rule v)
    (he : v'.erase = v.erase) : Keeps host rule v' := by
  induction h generalizing v' with
  | @intro rule v unique count items values fields items_ih values_ih fields_ih =>
      have htable : ∀ {p len es}, v' = .table p len es →
          ∃ p' es', v = .table p' len es' ∧ Value.eraseEntries es = Value.eraseEntries es' := by
        rintro p len es rfl
        cases v with
        | table p' len' es' =>
            simp only [Value.erase, Value.table.injEq, true_and] at he
            exact ⟨p', es', by rw [he.1], he.2⟩
        | _ => cases he
      refine .intro ?_ ?_ ?_ ?_ ?_
      · rintro p len es hk hv hu
        obtain ⟨p', es', rfl, hes⟩ := htable hv
        refine (unique p' len es' hk rfl hu).of_erase ?_
        rw [← Value.itemsOf_eraseEntries, hes, Value.itemsOf_eraseEntries]
      · rintro p len es min hk hv hmin
        obtain ⟨p', es', rfl, hes⟩ := htable hv
        have hlen := congrArg List.length hes
        simp only [Value.length_eraseEntries] at hlen
        rw [hlen]
        exact count p' len es' min hk rfl hmin
      · rintro p len es r hk hv hr x hx
        obtain ⟨p', es', rfl, hes⟩ := htable hv
        have hitems : (itemsOf len es).map Value.erase = (itemsOf len es').map Value.erase := by
          rw [← Value.itemsOf_eraseEntries, hes, Value.itemsOf_eraseEntries]
        have hx' := List.mem_map_of_mem (f := Value.erase) hx
        rw [hitems] at hx'
        obtain ⟨y, hy, hyx⟩ := List.mem_map.mp hx'
        exact items_ih p' len es' r hk rfl hr y hy hyx.symm
      · rintro p len es r hk hv hr e hmem
        obtain ⟨p', es', rfl, hes⟩ := htable hv
        rw [Value.eraseEntries_eq_map, Value.eraseEntries_eq_map] at hes
        have hmem' := List.mem_map_of_mem (f := fun e : Key × Value => (e.1, e.2.erase)) hmem
        rw [hes] at hmem'
        obtain ⟨e', he', heq⟩ := List.mem_map.mp hmem'
        exact values_ih p' len es' r hk rfl hr e' he' (congrArg Prod.snd heq).symm
      · rintro p len es s hk hv hs f hf hne
        obtain ⟨p', es', rfl, hes⟩ := htable hv
        have hfield : (es.field f.1).erase = (Entries.field es' f.1).erase := by
          unfold Entries.field
          rw [← Value.get_eraseEntries, hes, Value.get_eraseEntries]
        refine fields_ih p' len es' s hk rfl hs f hf ?_ hfield
        intro hnil
        rw [hnil] at hfield
        exact hne (Value.erase_eq_nil.mp hfield)

end Keeping

end Nitr.Validate
