import Nitr.Validate.WellFormed

/-! # Schemas built by composition

Any finite composition of `nitr.validate.schema`, `partial`, `pick`, `omit`,
`extend` and `with`, each call on schemas built before. The calls keep schemas
well formed as long as `extend` is handed usable field names and no two keys of
a field table decode to one name; neither is checked. -/

namespace Nitr.Validate

open Except

/-! ## Group consistency -/

theorem SchemaDef.rule_eq_some {schema : SchemaDef} {name : String} {r : Rule}
    (h : schema.rule name = some r) : (name, r) ∈ schema.fields := by
  obtain ⟨f, hf, rfl⟩ := Option.map_eq_some_iff.mp h
  have hn : f.1 = name := by simpa using List.find?_some hf
  rw [← hn]
  exact List.mem_of_find?_eq_some hf

/-- Neighbours that share a comparison class share it all along the list. -/
theorem adjacent_orderable {kinds : List (Kind × Option String)}
    (ho : ∀ k ∈ kinds, isOrderable k = true)
    (hf : ∀ k ∈ kinds, k.1 ≠ .string → k.2 = none)
    (ha : adjacent (fun a b => (a.1.isNumeric && b.1.isNumeric) || a.2 = b.2) kinds = true) :
    (∀ k ∈ kinds, k.1.isNumeric = true) ∨
      ∃ format ∈ ["date", "datetime", "time"], ∀ k ∈ kinds, k.1 = .string ∧ k.2 = some format := by
  induction kinds with
  | nil => exact .inl (by simp)
  | cons a rest ih =>
    have hrest := ih (fun k hk => ho k (List.mem_cons_of_mem _ hk))
      (fun k hk => hf k (List.mem_cons_of_mem _ hk)) (by
        cases rest with
        | nil => rfl
        | cons b rest =>
            simp only [adjacent, Bool.and_eq_true] at ha
            exact ha.2)
    have hclass : a.1.isNumeric = true ∧ a.2 = none ∨
        ∃ format ∈ ["date", "datetime", "time"], a.1 = .string ∧ a.2 = some format := by
      have hao := ho a (List.mem_cons_self ..)
      have haf := hf a (List.mem_cons_self ..)
      unfold isOrderable at hao
      cases hnum : a.1.isNumeric with
      | true =>
          refine .inl ⟨rfl, haf ?_⟩
          intro hs
          rw [hs] at hnum
          exact absurd hnum (by decide)
      | false =>
          right
          simp only [hnum, Bool.false_or, Bool.and_eq_true, Bool.or_eq_true,
            decide_eq_true_eq] at hao
          obtain ⟨hs, (h | h) | h⟩ := hao
          · exact ⟨"date", by simp, hs, h⟩
          · exact ⟨"datetime", by simp, hs, h⟩
          · exact ⟨"time", by simp, hs, h⟩
    cases rest with
    | nil =>
        rcases hclass with ⟨hnum, _⟩ | ⟨format, hm, hs⟩
        · exact .inl (by simpa using hnum)
        · exact .inr ⟨format, hm, by simpa using hs⟩
    | cons b rest =>
        simp only [adjacent, Bool.and_eq_true, Bool.or_eq_true, decide_eq_true_eq] at ha
        have hab := ha.1
        have hb : b ∈ b :: rest := List.mem_cons_self ..
        rcases hrest with hnums | ⟨format, hm, hstrs⟩
        · rcases hclass with ⟨hnum, _⟩ | ⟨format', _, hs, hfmt⟩
          · left
            intro k hk
            rcases List.mem_cons.mp hk with rfl | hk
            · exact hnum
            · exact hnums k hk
          · -- A temporal string next to a number: neither side of the test holds.
            exfalso
            have hbn := hnums b hb
            have hbf : b.2 = none := hf b (by simp) (by
              intro hbs
              rw [hbs] at hbn
              exact absurd hbn (by decide))
            rcases hab with ⟨h, _⟩ | h
            · rw [hs] at h
              exact absurd h (by decide)
            · rw [hfmt, hbf] at h
              cases h
        · right
          refine ⟨format, hm, ?_⟩
          intro k hk
          rcases List.mem_cons.mp hk with rfl | hk
          · obtain ⟨hbs, hbf⟩ := hstrs b hb
            rcases hab with ⟨_, h⟩ | h
            · rw [hbs] at h
              exact absurd h (by decide)
            · rw [hbf] at h
              rcases hclass with ⟨_, hnone⟩ | ⟨_, _, hs, _⟩
              · rw [hnone] at h
                cases h
              · exact ⟨hs, h⟩
          · exact hstrs k hk

theorem SchemaDef.grouped_of_checkGroups {schema : SchemaDef} {what : String} {u : Unit}
    (hw : ∀ f ∈ schema.fields, f.2.WellFormed) (h : schema.checkGroups what = .ok u) :
    schema.Grouped := by
  unfold SchemaDef.checkGroups at h
  dsimp only at h
  split at h
  · cases h
  · rename_i hnone
    have hdecl : ∀ g ∈ schema.options.groups, ∀ n ∈ g.2.fields, ∃ r, schema.rule n = some r := by
      intro g hg n hn
      have hg' := List.findSome?_eq_none_iff.mp hnone g hg
      have hu : schema.unknownField g.2 = none := by simpa using hg'
      have := List.find?_eq_none.mp hu n hn
      exact Option.ne_none_iff_exists'.mp (by simpa using this)
    refine ⟨?_, ?_⟩
    · intro g hg n hn
      obtain ⟨r, hr⟩ := hdecl g hg n hn
      exact ⟨(n, r), rule_eq_some hr, rfl⟩
    · intro g hg
      split at h
      swap
      · cases h
      rename_i hall
      have hcmp := List.all_eq_true.mp hall g hg
      unfold SchemaDef.groupComparable at hcmp
      simp only [Bool.and_eq_true, List.all_eq_true] at hcmp
      obtain ⟨hord, hadj⟩ := hcmp
      have hdecl' : ∀ n ∈ g.fields, ∃ r, schema.rule n = some r :=
        hdecl ("ordered", g) (by simp [SchemaOptions.groups, hg])
      have hmem : ∀ n ∈ g.fields, ∀ r, schema.rule n = some r →
          r.orderKey ∈ (g.fields.filterMap schema.rule).map Rule.orderKey := by
        intro n hn r hr
        exact List.mem_map_of_mem (List.mem_filterMap.mpr ⟨n, hn, hr⟩)
      have hfmt : ∀ k ∈ (g.fields.filterMap schema.rule).map Rule.orderKey,
          k.1 ≠ .string → k.2 = none := by
        intro k hk hne
        obtain ⟨r, hr, rfl⟩ := List.mem_map.mp hk
        obtain ⟨n, _, hn⟩ := List.mem_filterMap.mp hr
        obtain ⟨hc, -⟩ := hw _ (rule_eq_some hn)
        simpa [Rule.orderKey] using hc.format hne
      rcases adjacent_orderable hord hfmt hadj with hnum | ⟨format, hm, hs⟩
      · left
        intro n hn
        obtain ⟨r, hr⟩ := hdecl' n hn
        exact ⟨r, hr, hnum _ (hmem n hn r hr)⟩
      · right
        refine ⟨format, hm, fun n hn => ?_⟩
        obtain ⟨r, hr⟩ := hdecl' n hn
        exact ⟨r, hr, hs _ (hmem n hn r hr)⟩

/-! ## The calls -/

/-- A call that builds a schema. -/
inductive Call where
  | schema (fields : Entries) (opts : Option Entries)
  | partialFields (schema : SchemaDef)
  | pick (schema : SchemaDef) (names : List String)
  | omitFields (schema : SchemaDef) (names : List String)
  | extend (schema : SchemaDef) (extra : Entries)
  | withOptions (schema : SchemaDef) (opts : Entries)

namespace Call

def run (lib : Library) : Call → Except String SchemaDef
  | schema fields opts => compileSchema lib fields opts
  | partialFields base => base.partialFields
  | pick base names => base.pick names
  | omitFields base names => base.omitFields names
  | extend base extra => base.extend lib extra
  | withOptions base opts => base.withOptions lib opts

/-- The schema is the one the call is made on, or one handed to it inside the
rules of its argument. -/
def Uses : Call → SchemaDef → Prop
  | schema fields _, s => ∃ e ∈ fields, e.2.Has s
  | partialFields base, s | pick base _, s | omitFields base _, s | withOptions base _, s =>
    s = base
  | extend base extra, s => s = base ∨ ∃ e ∈ extra, e.2.Has s

/-- No field table inside the rules has two keys that decode to one name. -/
def TidyRules (rules : Entries) : Prop := ∀ e ∈ rules, ∀ t, FieldTable t e.2 → DistinctNames t

/-- Field tables have distinct names, and `extend` adds usable names only. -/
def Tidy : Call → Prop
  | schema fields _ => DistinctNames fields ∧ TidyRules fields
  | extend _ extra =>
    TidyRules extra ∧
      ∀ e ∈ extra, e.2 ≠ .boolean false → ∀ name, e.1.text = some name → validFieldName name = true
  | _ => True

end Call

/-- The schema is the result of a finite composition of successful calls, each
admitted by `ok`. The format registry and its like may change between calls. -/
inductive Built (ok : Call → Prop) : SchemaDef → Prop where
  | call {lib : Library} {c : Call} {schema : SchemaDef}
      (uses : ∀ s, c.Uses s → Built ok s) (admitted : ok c) (returns : c.run lib = .ok schema) :
      Built ok schema

theorem Built.mono {p q : Call → Prop} (hpq : ∀ c, p c → q c) {schema : SchemaDef}
    (h : Built p schema) : Built q schema := by
  induction h with
  | call _ admitted returns ih => exact .call ih (hpq _ admitted) returns

/-! ## What each call keeps -/

theorem SchemaDef.derive_ensures {schema : SchemaDef} {fields : List (String × Rule)}
    (hn : SchemaDef.Named ⟨fields, schema.options⟩) (hw : ∀ f ∈ fields, f.2.WellFormed) :
    Ensures (schema.derive fields) SchemaDef.WellFormed := by
  unfold SchemaDef.derive
  apply Ensures.bind
  intro _ hg
  apply Ensures.pure
  exact .intro hn (SchemaDef.grouped_of_checkGroups hw hg) hw

theorem SchemaDef.applyOptions_ensures {lib : Library} {schema : SchemaDef} {opts : Entries}
    {what : String} (hn : schema.Named) (hw : ∀ f ∈ schema.fields, f.2.WellFormed) :
    Ensures (schema.applyOptions lib opts what) SchemaDef.WellFormed := by
  unfold SchemaDef.applyOptions
  apply Ensures.bind
  intro options _
  apply Ensures.bind
  intro _ hg
  apply Ensures.pure
  exact .intro ⟨hn.sorted, hn.nonempty, hn.plain, hn.found⟩
    (SchemaDef.grouped_of_checkGroups hw hg) hw

theorem compileSchema_ensures {lib : Library} {fields : Entries} {opts : Option Entries}
    (hd : DistinctNames fields) (hs : ∀ e ∈ fields, e.2.Sound) :
    Ensures (compileSchema lib fields opts) SchemaDef.WellFormed := by
  unfold compileSchema
  apply Ensures.bind
  intro fs hfs
  obtain ⟨hn, hw⟩ := compileFields_ensures
    (fun v sub hv => compileRuleValue_ensures lib (maxDepth + 1) hv) hs hd fs hfs
  cases opts with
  | none => exact Ensures.pure (.intro hn (SchemaDef.grouped_default fs) hw)
  | some opts => exact SchemaDef.applyOptions_ensures hn hw

/-- Dropping fields keeps what the names satisfy. -/
theorem SchemaDef.Named.sublist {schema : SchemaDef} (h : schema.Named)
    {fields : List (String × Rule)} (hs : fields.Sublist schema.fields) :
    SchemaDef.Named ⟨fields, schema.options⟩ := by
  apply SchemaDef.named_of_sorted
  · exact h.sorted_le.sublist hs
  · exact h.nodup.sublist (hs.map _)
  · intro f hf
    exact h.valid (hs.subset hf)

theorem SchemaDef.partialFields_ensures {schema : SchemaDef} (h : schema.WellFormed) :
    Ensures schema.partialFields SchemaDef.WellFormed := by
  obtain ⟨hn, _, hw⟩ := h
  apply SchemaDef.derive_ensures
  · apply SchemaDef.named_of_sorted
    · exact List.pairwise_map.mpr hn.sorted_le
    · simpa [Function.comp_def] using hn.nodup
    · intro f hf
      obtain ⟨g, hg, rfl⟩ := List.mem_map.mp hf
      exact SchemaDef.Named.valid hn (f := g) hg
  · intro f hf
    obtain ⟨g, hg, rfl⟩ := List.mem_map.mp hf
    exact (hw g hg).optional

theorem SchemaDef.select_ensures {schema : SchemaDef} (h : schema.WellFormed) (call : String)
    (keep : Bool) (names : List String) :
    Ensures (schema.select call keep names) SchemaDef.WellFormed := by
  obtain ⟨hn, _, hw⟩ := h
  unfold SchemaDef.select
  split
  · exact Ensures.error
  · apply SchemaDef.derive_ensures
    · exact hn.sublist List.filter_sublist
    · intro f hf
      exact hw f (List.mem_filter.mp hf).1

theorem SchemaDef.extendFields_ensures {lib : Library} {fields : List (String × Rule)}
    {extra : Entries} (hd : (fields.map (·.1)).Nodup)
    (hf : ∀ f ∈ fields, validFieldName f.1 = true ∧ f.2.WellFormed)
    (hs : ∀ e ∈ extra, e.2.Sound)
    (hv : ∀ e ∈ extra, e.2 ≠ .boolean false → ∀ name, e.1.text = some name →
      validFieldName name = true) :
    Ensures (SchemaDef.extendFields lib fields extra) (fun fs =>
      (fs.map (·.1)).Nodup ∧ ∀ f ∈ fs, validFieldName f.1 = true ∧ f.2.WellFormed) := by
  induction extra generalizing fields with
  | nil => exact Ensures.ok ⟨hd, hf⟩
  | cons e rest ih =>
    obtain ⟨key, value⟩ := e
    have hs' : ∀ e ∈ rest, e.2.Sound := fun e he => hs e (List.mem_cons_of_mem _ he)
    have hv' : ∀ e ∈ rest, e.2 ≠ .boolean false → ∀ name, e.1.text = some name →
        validFieldName name = true := fun e he => hv e (List.mem_cons_of_mem _ he)
    cases key with
    | string key =>
        have hothers : ((fields.filter (fun f => f.1 ≠ key.toStringLossy)).map (·.1)).Nodup :=
          hd.sublist (List.filter_sublist.map _)
        have hmem : ∀ f ∈ fields.filter (fun f => f.1 ≠ key.toStringLossy),
            f.1 ≠ key.toStringLossy ∧ validFieldName f.1 = true ∧ f.2.WellFormed := by
          intro f hm
          obtain ⟨hm, hne⟩ := List.mem_filter.mp hm
          exact ⟨by simpa using hne, hf f hm⟩
        unfold SchemaDef.extendFields
        dsimp only
        split
        · exact ih hothers (fun f hm => (hmem f hm).2) hs' hv'
        · rename_i hne
          apply Ensures.bind
          intro rule hrule
          have hw := compileRuleValue_ensures lib (maxDepth + 1)
            (hs _ (List.mem_cons_self ..)) rule hrule
          have hvalid := hv _ (List.mem_cons_self ..) (fun h => hne h) _ rfl
          refine ih ?_ ?_ hs' hv'
          · rw [List.map_append, List.nodup_append]
            refine ⟨hothers, by simp, ?_⟩
            intro a ha b hb
            obtain ⟨f, hm, rfl⟩ := List.mem_map.mp ha
            simp only [List.map_cons, List.map_nil, List.mem_singleton] at hb
            rw [hb]
            exact (hmem f hm).1
          · intro f hm
            rcases List.mem_append.mp hm with hm | hm
            · exact (hmem f hm).2
            · rw [List.mem_singleton] at hm
              rw [hm]
              exact ⟨hvalid, hw⟩
    | integer i => exact Ensures.error
    | other p => exact Ensures.error

theorem SchemaDef.extend_ensures {lib : Library} {schema : SchemaDef} {extra : Entries}
    (h : schema.WellFormed) (hs : ∀ e ∈ extra, e.2.Sound)
    (hv : ∀ e ∈ extra, e.2 ≠ .boolean false → ∀ name, e.1.text = some name →
      validFieldName name = true) :
    Ensures (schema.extend lib extra) SchemaDef.WellFormed := by
  obtain ⟨hn, _, hw⟩ := h
  unfold SchemaDef.extend
  apply Ensures.bind
  intro fields hfields
  obtain ⟨hd, hf⟩ := SchemaDef.extendFields_ensures hn.nodup
    (fun f hf => ⟨hn.valid hf, hw f hf⟩) hs hv fields hfields
  have hp := perm_sortFields fields
  apply SchemaDef.derive_ensures
  · apply SchemaDef.named_of_sorted (sorted_sortFields fields)
    · exact ((hp.map (·.1)).nodup_iff).mpr hd
    · intro f hm
      exact (hf f (hp.mem_iff.mp hm)).1
  · intro f hm
    exact (hf f (hp.mem_iff.mp hm)).2

/-- One tidy call on well-formed schemas builds a well-formed schema. -/
theorem Call.run_ensures {lib : Library} {c : Call} (ht : c.Tidy)
    (hu : ∀ s, c.Uses s → s.WellFormed) : Ensures (c.run lib) SchemaDef.WellFormed := by
  cases c with
  | schema fields opts =>
      exact compileSchema_ensures ht.1
        (fun e he => ⟨fun s hs => hu s ⟨e, he, hs⟩, fun t h => ht.2 e he t h⟩)
  | partialFields base => exact SchemaDef.partialFields_ensures (hu base rfl)
  | pick base names => exact SchemaDef.select_ensures (hu base rfl) "pick" true names
  | omitFields base names => exact SchemaDef.select_ensures (hu base rfl) "omit" false names
  | extend base extra =>
      exact SchemaDef.extend_ensures (hu _ (.inl rfl))
        (fun e he => ⟨fun s hs => hu s (.inr ⟨e, he, hs⟩), fun t h => ht.1 e he t h⟩) ht.2
  | withOptions base opts =>
      obtain ⟨hn, _, hw⟩ := hu base rfl
      exact SchemaDef.applyOptions_ensures hn hw

theorem Built.wellFormed {schema : SchemaDef} (h : Built Call.Tidy schema) :
    schema.WellFormed := by
  induction h with
  | call _ admitted returns ih => exact Call.run_ensures admitted ih _ returns

/-! ## The order of the fields -/

/-- The fields come in the order of their names. -/
def SchemaDef.Sorted (schema : SchemaDef) : Prop := schema.fields.Pairwise fun f g => f.1 ≤ g.1

theorem SchemaDef.derive_sorted {schema : SchemaDef} {fields : List (String × Rule)}
    (h : fields.Pairwise fun f g => f.1 ≤ g.1) :
    Ensures (schema.derive fields) SchemaDef.Sorted := by
  unfold SchemaDef.derive
  apply Ensures.bind
  intro _ _
  exact Ensures.pure h

theorem SchemaDef.select_sorted {schema : SchemaDef} (h : schema.Sorted) (call : String)
    (keep : Bool) (names : List String) :
    Ensures (schema.select call keep names) SchemaDef.Sorted := by
  unfold SchemaDef.select
  split
  · exact Ensures.error
  · exact SchemaDef.derive_sorted (h.sublist List.filter_sublist)

theorem SchemaDef.applyOptions_sorted {lib : Library} {schema : SchemaDef} {opts : Entries}
    {what : String} (h : schema.Sorted) :
    Ensures (schema.applyOptions lib opts what) SchemaDef.Sorted := by
  unfold SchemaDef.applyOptions
  apply Ensures.bind
  intro options _
  apply Ensures.bind
  intro _ _
  exact Ensures.pure h

theorem compileSchema_sorted (lib : Library) (fields : Entries) (opts : Option Entries) :
    Ensures (compileSchema lib fields opts) SchemaDef.Sorted := by
  unfold compileSchema
  apply Ensures.bind
  intro fs hfs
  have hsorted : SchemaDef.Sorted ⟨fs, {}⟩ := by
    have hensures : Ensures (compileFields (maxDepth + 1) (compileRuleValue lib (maxDepth + 1))
        fields "") fun fs => fs.Pairwise fun f g => f.1 ≤ g.1 := by
      unfold compileFields
      apply Ensures.bind
      intro _ _
      apply Ensures.bind
      intro compiled _
      exact Ensures.pure (sorted_sortFields compiled)
    exact hensures fs hfs
  cases opts with
  | none => exact Ensures.pure hsorted
  | some opts => exact SchemaDef.applyOptions_sorted hsorted

/-- Whatever the calls, the fields stay in order. -/
theorem Built.sorted {ok : Call → Prop} {schema : SchemaDef} (h : Built ok schema) :
    schema.Sorted := by
  induction h with
  | @call lib c schema uses admitted returns ih =>
      have hensures : Ensures (c.run lib) SchemaDef.Sorted := by
        cases c with
        | schema fields opts => exact compileSchema_sorted lib fields opts
        | partialFields base => exact SchemaDef.derive_sorted (List.pairwise_map.mpr (ih base rfl))
        | pick base names => exact SchemaDef.select_sorted (ih base rfl) "pick" true names
        | omitFields base names => exact SchemaDef.select_sorted (ih base rfl) "omit" false names
        | extend base extra =>
            change Ensures (base.extend lib extra) _
            unfold SchemaDef.extend
            apply Ensures.bind
            intro fields _
            exact SchemaDef.derive_sorted (sorted_sortFields fields)
        | withOptions base opts => exact SchemaDef.applyOptions_sorted (ih base rfl)
      exact hensures schema returns

end Nitr.Validate
