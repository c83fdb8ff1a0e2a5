import Mathlib.Data.List.Dedup
import Nitr.Lib.StableSort
import Nitr.Validate.Undeclared

/-! # The field loop, field by field

The loop over the fields of a table answers what its fields answer one at a time, and what
it builds holds declared keys only. -/

namespace Nitr.Validate

open Check

/-! ## The field loop, field by field -/

section Loop

variable {host : Host} {owner : SchemaOptions} {input : Entries} {path : FieldPath}

/-- The entries added to two tables are the same but for the identities of tables. -/
def SameAdded (built built' : Entries) (a b : Bool × Entries) : Prop :=
  ∃ added, Value.eraseEntries a.2 = Value.eraseEntries built ++ added ∧
    Value.eraseEntries b.2 = Value.eraseEntries built' ++ added

/-- None of the fields is in the table. -/
def Unset (fields : List (String × Rule)) (built : Entries) : Prop :=
  ∀ f ∈ fields, Key.ofString f.1 ∉ built.keys

theorem unset_nil (fields : List (String × Rule)) : Unset fields [] := fun _ _ h => nomatch h

theorem Entries.set_append {built : Entries} {key : Key} (h : key ∉ built.keys) (more : Entries)
    (w : Value) : Entries.set (built ++ more) key w = built ++ more.set key w := by
  induction built with
  | nil => rfl
  | cons e built ih =>
      rw [Entries.keys_cons, List.mem_cons, not_or] at h
      rw [List.cons_append, Entries.set, if_neg (Ne.symm h.1), ih h.2, List.cons_append]

theorem eraseEntries_append (a b : Entries) :
    Value.eraseEntries (a ++ b) = Value.eraseEntries a ++ Value.eraseEntries b := by
  simp only [Value.eraseEntries_eq_map, List.map_append]

/-- The loop adds the same to any two tables without its fields. -/
theorem checkFieldList_added {fields : List (String × Rule)}
    (hf : ∀ f ∈ fields, Blind (checkValue host f.2)) (pointer pointer' : ℕ) {built built' : Entries}
    (hbuilt : Unset fields built) (hbuilt' : Unset fields built') :
    ∀ (ok ok' : Bool) (more more' : Entries), Value.eraseEntries more = Value.eraseEntries more' →
      Alike (SameAdded built built')
        (checkFieldList host fields owner input path pointer ok (built ++ more))
        (checkFieldList host fields owner input path pointer' ok' (built' ++ more')) := by
  induction fields with
  | nil =>
      intro ok ok' more more' hmore
      unfold checkFieldList
      exact Alike.pure ⟨Value.eraseEntries more, eraseEntries_append _ _,
        hmore ▸ eraseEntries_append _ _⟩
  | cons f rest ih =>
      intro ok ok' more more' hmore
      obtain ⟨name, rule⟩ := f
      have hrest := ih (fun f hmem => hf f (List.mem_cons_of_mem _ hmem))
        (fun f hmem => hbuilt f (List.mem_cons_of_mem _ hmem))
        (fun f hmem => hbuilt' f (List.mem_cons_of_mem _ hmem))
      unfold checkFieldList
      dsimp only
      split
      · split
        · exact Alike.bind (reject_alike rfl rfl _ _ _) fun _ _ _ =>
            hrest false false more more' hmore
        · exact hrest ok ok' more more' hmore
      · refine Alike.bind (hf (name, rule) (List.mem_cons_self ..) _ _ _ rfl rfl) fun w w' hw => ?_
        cases w with
        | none =>
            cases w' with
            | some w' => cases hw
            | none => exact hrest false false more more' hmore
        | some w =>
            cases w' with
            | none => cases hw
            | some w' =>
                simp only [Entries.set_append (hbuilt (name, rule) (List.mem_cons_self ..)),
                  Entries.set_append (hbuilt' (name, rule) (List.mem_cons_self ..))]
                exact hrest ok ok' _ _ (eraseEntries_set hmore (Option.some.inj hw) _)

/-- The loop takes the first field, then the others. -/
theorem checkFieldList_cons (f : String × Rule) (rest : List (String × Rule)) (pointer : ℕ)
    (ok : Bool) (built : Entries) :
    checkFieldList host (f :: rest) owner input path pointer ok built =
      checkFieldList host [f] owner input path pointer ok built >>= fun r =>
        checkFieldList host rest owner input path pointer r.1 r.2 := by
  obtain ⟨name, rule⟩ := f
  simp only [checkFieldList]
  split
  · split
    · rw [bind_assoc]
      simp only [pure_bind]
    · rw [pure_bind]
  · rw [bind_assoc]
    congr 1
    funext w
    cases w with
    | none => rw [pure_bind]
    | some w => rw [pure_bind]

theorem checkFieldList_append (first rest : List (String × Rule)) (pointer : ℕ) (ok : Bool)
    (built : Entries) :
    checkFieldList host (first ++ rest) owner input path pointer ok built =
      checkFieldList host first owner input path pointer ok built >>= fun r =>
        checkFieldList host rest owner input path pointer r.1 r.2 := by
  induction first generalizing ok built with
  | nil => simp only [List.nil_append, checkFieldList, pure_bind]
  | cons f first ih =>
      rw [List.cons_append, checkFieldList_cons, checkFieldList_cons f first, bind_assoc]
      congr 1
      funext r
      exact ih r.1 r.2

theorem checkFieldList_keys {fields : List (String × Rule)} {pointer : ℕ} {ok ok' : Bool}
    {built out : Entries} {ctx c : Ctx}
    (h : checkFieldList host fields owner input path pointer ok built ctx = .ok ((ok', out), c))
    {key : Key} (hkey : key ∈ out.keys) :
    key ∈ built.keys ∨ ∃ f ∈ fields, key = .ofString f.1 := by
  induction fields generalizing ok built ctx with
  | nil =>
      unfold checkFieldList at h
      cases h
      exact .inl hkey
  | cons f rest ih =>
      obtain ⟨name, rule⟩ := f
      have hlater : ∀ {ok : Bool} {ctx : Ctx},
          checkFieldList host rest owner input path pointer ok built ctx = .ok ((ok', out), c) →
          key ∈ built.keys ∨ ∃ f ∈ (name, rule) :: rest, key = .ofString f.1 := by
        intro ok ctx h
        obtain hmem | ⟨f, hf, heq⟩ := ih h
        · exact .inl hmem
        · exact .inr ⟨f, List.mem_cons_of_mem _ hf, heq⟩
      simp only [checkFieldList] at h
      split at h
      · split at h
        · obtain ⟨_, _, -, h⟩ := bind_eq_ok.mp h
          exact hlater h
        · exact hlater h
      · obtain ⟨w, _, -, h⟩ := bind_eq_ok.mp h
        cases w with
        | none => exact hlater h
        | some w =>
            obtain hmem | ⟨f, hf, heq⟩ := ih h
            · obtain hmem | rfl := Entries.mem_keys_set hmem
              · exact .inl hmem
              · exact .inr ⟨_, List.mem_cons_self .., rfl⟩
            · exact .inr ⟨f, List.mem_cons_of_mem _ hf, heq⟩

variable {pointer : ℕ} {ctx : Ctx}

/-- The loop over the fields, onto the table, adds these errors and, but for the
identities of tables, these entries. -/
def YieldsOnto (host : Host) (owner : SchemaOptions) (input : Entries) (path : FieldPath)
    (pointer : ℕ) (ok : Bool) (built : Entries) (ctx : Ctx) (fields : List (String × Rule))
    (errors : List ErrorEntry) (entries : Entries) : Prop :=
  ∃ ok' out n, checkFieldList host fields owner input path pointer ok built ctx =
      .ok ((ok', out), { ctx with next := n, errors := ctx.errors ++ errors }) ∧
    Value.eraseEntries out = Value.eraseEntries built ++ entries

/-- What the loop adds depends neither on the table nor on what was checked before. -/
theorem YieldsOnto.onto {fields : List (String × Rule)}
    (hf : ∀ f ∈ fields, Blind (checkValue host f.2)) {ok : Bool} {built : Entries}
    {errors : List ErrorEntry} {entries : Entries}
    (h : YieldsOnto host owner input path pointer ok built ctx fields errors entries)
    (hbuilt : Unset fields built) {ctx' : Ctx} (hstrict : ctx.strict = ctx'.strict) (ok' : Bool)
    {built' : Entries} (hbuilt' : Unset fields built') :
    YieldsOnto host owner input path pointer ok' built' ctx' fields errors entries := by
  obtain ⟨_, _, _, hloop, hout⟩ := h
  have houtcome := @checkFieldList_added host owner input path fields hf pointer pointer built built'
    hbuilt hbuilt' ok ok' [] [] rfl ctx ctx' hstrict
  rw [List.append_nil, List.append_nil, hloop] at houtcome
  unfold YieldsOnto
  generalize checkFieldList host fields owner input path pointer ok' built' ctx' = r at houtcome ⊢
  generalize hc : ({ ctx with next := _, errors := ctx.errors ++ errors } : Ctx) = c at houtcome
  cases houtcome with
  | ok related added n n' =>
      obtain ⟨more, ha, hb⟩ := related
      obtain rfl : errors = added := List.append_cancel_left (congrArg Ctx.errors hc)
      obtain rfl : entries = more := List.append_cancel_left (hout.symm.trans ha)
      exact ⟨_, _, _, rfl, hb⟩

/-- The loop over the fields, onto an empty table. -/
def Yields (host : Host) (owner : SchemaOptions) (input : Entries) (path : FieldPath)
    (pointer : ℕ) (ctx : Ctx) (fields : List (String × Rule)) (part : List ErrorEntry × Entries) :
    Prop :=
  YieldsOnto host owner input path pointer true [] ctx fields part.1 part.2

/-- The loop adds errors to its context and draws pointers. -/
theorem yieldsOnto_of_eq {fields : List (String × Rule)}
    (hf : ∀ f ∈ fields, Blind (checkValue host f.2)) {ok ok' : Bool} {built out : Entries} {c : Ctx}
    (hbuilt : Unset fields built)
    (h : checkFieldList host fields owner input path pointer ok built ctx = .ok ((ok', out), c)) :
    ∃ n errors entries, c = { ctx with next := n, errors := ctx.errors ++ errors } ∧
      Value.eraseEntries out = Value.eraseEntries built ++ entries := by
  have houtcome := @checkFieldList_added host owner input path fields hf pointer pointer built built
    hbuilt hbuilt ok ok [] [] rfl ctx ctx rfl
  rw [List.append_nil, h] at houtcome
  cases houtcome with
  | ok related added n n' =>
      obtain ⟨more, ha, -⟩ := related
      exact ⟨n, added, more, rfl, ha⟩

/-- No field of the one list has the name of a field of the other. -/
def Disjoint (first rest : List (String × Rule)) : Prop := ∀ f ∈ first, ∀ g ∈ rest, f.1 ≠ g.1

theorem yields_append {first rest : List (String × Rule)}
    (hf : ∀ f ∈ first ++ rest, Blind (checkValue host f.2)) (hdisjoint : Disjoint first rest)
    {whole : List ErrorEntry × Entries} :
    Yields host owner input path pointer ctx (first ++ rest) whole ↔
      ∃ part more, Yields host owner input path pointer ctx first part ∧
        Yields host owner input path pointer ctx rest more ∧
        whole = (part.1 ++ more.1, part.2 ++ more.2) := by
  have hfirst : ∀ f ∈ first, Blind (checkValue host f.2) := fun f hmem =>
    hf f (List.mem_append_left _ hmem)
  have hrest : ∀ f ∈ rest, Blind (checkValue host f.2) := fun f hmem =>
    hf f (List.mem_append_right _ hmem)
  -- What the first fields build has none of the others.
  have hunset : ∀ {ok : Bool} {out : Entries} {c : Ctx},
      checkFieldList host first owner input path pointer true [] ctx = .ok ((ok, out), c) →
      Unset rest out := by
    intro ok out c h g hg hmem
    obtain hmem | ⟨f, hfm, heq⟩ := checkFieldList_keys h hmem
    · cases hmem
    · exact hdisjoint f hfm g hg (Key.ofString_inj.mp heq).symm
  constructor
  · rintro ⟨ok, out, n, h, hout⟩
    rw [checkFieldList_append] at h
    obtain ⟨⟨ok₁, out₁⟩, c₁, hhead, htail⟩ := bind_eq_ok.mp h
    obtain ⟨n₁, errors₁, entries₁, rfl, hentries₁⟩ := yieldsOnto_of_eq hfirst (unset_nil _) hhead
    obtain ⟨n₂, errors₂, entries₂, hc, hentries₂⟩ := yieldsOnto_of_eq hrest (hunset hhead) htail
    have herrors := congrArg Ctx.errors hc
    simp only [List.append_assoc, List.append_cancel_left_eq] at herrors
    rw [hc] at htail
    have hmore : Yields host owner input path pointer ctx rest (errors₂, entries₂) := by
      refine YieldsOnto.onto hrest ⟨_, _, _, htail, hentries₂⟩ (hunset hhead) ?_ true (unset_nil _)
      rfl
    refine ⟨(errors₁, entries₁), (errors₂, entries₂), ⟨_, _, _, hhead, hentries₁⟩, hmore, ?_⟩
    rw [hentries₂, hentries₁] at hout
    simp only [Value.eraseEntries, List.nil_append] at hout
    exact Prod.ext herrors hout.symm
  · rintro ⟨⟨errors₁, entries₁⟩, ⟨errors₂, entries₂⟩, ⟨ok₁, out₁, n₁, hhead, hentries₁⟩, hmore, rfl⟩
    obtain ⟨ok, out, n, htail, hentries₂⟩ := YieldsOnto.onto hrest hmore (unset_nil _)
      (show ctx.strict = Ctx.strict { ctx with next := n₁, errors := ctx.errors ++ errors₁ } from rfl)
      ok₁ (hunset hhead)
    refine ⟨ok, out, n, ?_, ?_⟩
    · rw [checkFieldList_append]
      refine bind_eq_ok.mpr ⟨_, _, hhead, ?_⟩
      rw [htail]
      simp only [List.append_assoc]
    · rw [hentries₂, hentries₁]
      simp [Value.eraseEntries]

theorem yields_nil {whole : List ErrorEntry × Entries} :
    Yields host owner input path pointer ctx [] whole ↔ whole = ([], []) := by
  obtain ⟨errors, entries⟩ := whole
  have hloop : checkFieldList host [] owner input path pointer true [] ctx =
      .ok ((true, []), ctx) := by
    unfold checkFieldList
    rfl
  constructor
  · rintro ⟨ok, out, n, h, hout⟩
    rw [hloop, Except.ok.injEq, Prod.mk.injEq, Prod.mk.injEq] at h
    obtain ⟨⟨-, rfl⟩, hctx⟩ := h
    have herrors : ctx.errors = ctx.errors ++ errors := congrArg Ctx.errors hctx
    rw [List.self_eq_append_right.mp herrors]
    exact congrArg (Prod.mk []) hout.symm
  · intro h
    obtain ⟨rfl, rfl⟩ := Prod.mk.inj h
    refine ⟨true, [], ctx.next, ?_, rfl⟩
    rw [hloop, List.append_nil]

/-- The loop over groups of fields is the loops over each group, one after the other. -/
theorem yields_flatten {groups : List (List (String × Rule))}
    (hf : ∀ f ∈ groups.flatten, Blind (checkValue host f.2)) (hdisjoint : groups.Pairwise Disjoint)
    {whole : List ErrorEntry × Entries} :
    Yields host owner input path pointer ctx groups.flatten whole ↔
      ∃ parts, List.Forall₂ (fun group part =>
        Yields host owner input path pointer ctx group part) groups parts ∧
        whole = (parts.flatMap (·.1), parts.flatMap (·.2)) := by
  induction groups generalizing whole with
  | nil =>
      rw [List.flatten_nil, yields_nil]
      constructor
      · rintro rfl
        exact ⟨[], .nil, rfl⟩
      · rintro ⟨parts, hparts, rfl⟩
        cases hparts
        rfl
  | cons group groups ih =>
      rw [List.flatten_cons] at hf ⊢
      rw [List.pairwise_cons] at hdisjoint
      have hapart : Disjoint group groups.flatten := by
        intro f hfm g hg
        obtain ⟨other, hother, hg⟩ := List.mem_flatten.mp hg
        exact hdisjoint.1 other hother f hfm g hg
      have hmore := fun {more : List ErrorEntry × Entries} =>
        @ih (fun f hmem => hf f (List.mem_append_right _ hmem)) hdisjoint.2 more
      rw [yields_append hf hapart]
      constructor
      · rintro ⟨part, more, hpart, hyields, rfl⟩
        obtain ⟨parts, hparts, rfl⟩ := hmore.mp hyields
        exact ⟨part :: parts, .cons hpart hparts, rfl⟩
      · rintro ⟨parts, hparts, rfl⟩
        cases hparts with
        | cons hpart hparts => exact ⟨_, _, hpart, hmore.mpr ⟨_, hparts, rfl⟩, rfl⟩

end Loop

/-! ## Declared keys only -/

mutual

/-- Every key of the value is a declared field of the table rule at its position. An
array's keys are positions, a map's keys are its own, and `any` values are free. -/
inductive Contained : Rule → Value → Prop where
  | scalar {rule : Rule} {v : Value} (h : ∀ p len es, v ≠ .table p len es) : Contained rule v
  | any {rule : Rule} {v : Value} (kind : rule.kind = .any) : Contained rule v
  | array {rule items : Rule} {p len : ℕ} {es : Entries} (kind : rule.kind = .array)
      (nested : rule.items = some items) (positions : ∀ e ∈ es, ∃ i : ℕ, e.1 = .integer i)
      (each : ∀ e ∈ es, Contained items e.2) : Contained rule (.table p len es)
  | map {rule values : Rule} {p len : ℕ} {es : Entries} (kind : rule.kind = .map)
      (nested : rule.values = some values) (each : ∀ e ∈ es, Contained values e.2) :
      Contained rule (.table p len es)
  | table {rule : Rule} {schema : SchemaDef} {p len : ℕ} {es : Entries}
      (kind : rule.kind = .table) (nested : rule.fields = some schema)
      (each : ∀ e ∈ es, ContainedField schema e) : Contained rule (.table p len es)

/-- The key is a declared field, and so are the keys below it. -/
inductive ContainedField : SchemaDef → Key × Value → Prop where
  | intro {schema : SchemaDef} {e : Key × Value} {f : String × Rule}
      (declared : f ∈ schema.fields) (key : e.1 = .ofString f.1) (value : Contained f.2 e.2) :
      ContainedField schema e

end

section Containment

variable {host : Host} {strict : Bool} {n n' : ℕ} {d : List Pending}

theorem mem_setItems {i : ℕ} {ws : List Value} {es : Entries} {e : Key × Value}
    (h : e ∈ setItems i ws es) : e ∈ es ∨ (∃ j : ℕ, e.1 = .integer j) ∧ e.2 ∈ ws := by
  induction ws generalizing i es with
  | nil => exact .inl h
  | cons w ws ih =>
      obtain h | ⟨hkey, hmem⟩ := ih h
      · obtain h | rfl := Entries.mem_set h
        · exact .inl h
        · exact .inr ⟨⟨i, rfl⟩, List.mem_cons_self ..⟩
      · exact .inr ⟨hkey, List.mem_cons_of_mem _ hmem⟩

theorem ChecksItems.made {keys : RuleKeys} {items : Rule} {site : Site} {out i : ℕ}
    {seen : List Canonical} {vs ws : List Value}
    (h : ChecksItems host strict keys items site out i seen vs n ws n' d) {w : Value}
    (hw : w ∈ ws) : ∃ v site n n' d, Checks host strict items v site n w n' d := by
  induction vs generalizing i seen n ws d with
  | nil =>
      cases h
      cases hw
  | cons v vs ih =>
      cases h with
      | cons unique item rest =>
          cases hw with
          | head => exact ⟨_, _, _, _, _, item⟩
          | tail _ hw => exact ih rest hw

theorem ChecksFieldList.made {fields : List (String × Rule)} {owner : SchemaOptions}
    {input built out : Entries} {path : FieldPath} {pointer : ℕ}
    (h : ChecksFieldList host strict fields owner input path pointer built n out n' d)
    {e : Key × Value} (he : e ∈ out) :
    e ∈ built ∨ ∃ f ∈ fields, e.1 = .ofString f.1 ∧
      ∃ v site n n' d, Checks host strict f.2 v site n e.2 n' d := by
  induction fields generalizing n built d with
  | nil =>
      cases h
      exact .inl he
  | cons f fields ih =>
      cases h with
      | absent missing optional rest =>
          obtain he | ⟨f, hf, hmade⟩ := ih rest
          · exact .inl he
          · exact .inr ⟨f, List.mem_cons_of_mem _ hf, hmade⟩
      | present given value rest =>
          obtain he | ⟨f, hf, hmade⟩ := ih rest
          · obtain he | rfl := Entries.mem_set he
            · exact .inl he
            · exact .inr ⟨_, List.mem_cons_self .., rfl, _, _, _, _, _, value⟩
          · exact .inr ⟨f, List.mem_cons_of_mem _ hf, hmade⟩

/-- What a rule accepts holds declared keys only. -/
def ContainedFor (host : Host) (rule : Rule) : Prop :=
  ∀ {strict : Bool} {v w : Value} {site : Site} {n n' : ℕ} {d : List Pending},
    Checks host strict rule v site n w n' d → Contained rule w

theorem ChecksFieldList.contained {schema : SchemaDef}
    (hf : ∀ f ∈ schema.fields, ContainedFor host f.2) {owner : SchemaOptions} {input out : Entries}
    {path : FieldPath} {pointer : ℕ}
    (h : ChecksFieldList host strict schema.fields owner input path pointer [] n out n' d) :
    ∀ e ∈ out, ContainedField schema e := by
  intro e he
  obtain he | ⟨f, hmem, hkey, _, _, _, _, _, hchecks⟩ := h.made he
  · cases he
  · exact .intro hmem hkey (hf f hmem hchecks)

theorem checks_contained (host : Host) (rule : Rule) : ContainedFor host rule := by
  induction rule using Rule.induct with
  | step rule items keys values filename fields =>
      intro strict v w site n n' d h
      cases h with
      | intro kind =>
          cases kind with
          | string => exact .scalar (by simp [Value.ofString])
          | number hkind value =>
              refine .scalar ?_
              rintro p len es rfl
              cases value
          | boolean => exact .scalar (by simp)
          | any hkind => exact .any hkind
          | file => exact .scalar (by simp)
          | array hkind sequence length nested each tests =>
              refine .array hkind nested ?_ ?_
              · intro e he
                obtain he | ⟨hkey, -⟩ := mem_setItems he
                · cases he
                · exact hkey
              · intro e he
                obtain he | ⟨-, hmem⟩ := mem_setItems he
                · cases he
                · obtain ⟨_, _, _, _, _, hchecks⟩ := each.made hmem
                  exact items _ nested hchecks
          | map hkind count nested each =>
              refine .map hkind nested ?_
              intro e he
              obtain ⟨_, -, -, _, _, _, _, _, hchecks⟩ :=
                each.madeBy (fun _ hnone => absurd hnone List.not_mem_nil) e he
              exact values _ nested hchecks
          | table hkind nested each =>
              cases each with
              | intro list known cross =>
                  exact .table hkind nested (list.contained fun f hf => fields _ nested f hf)

end Containment

end Nitr.Validate
