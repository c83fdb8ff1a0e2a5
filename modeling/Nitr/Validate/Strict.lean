import Nitr.Validate.Body
import Nitr.Validate.Revalidate

/-! # Strict validation

Which keys of an accepted body are declared where `strict` is in force. -/

namespace Nitr.Validate

/-! ## The tables a walk checks -/

mutual

/-- `Within schema input s t`: checking `input` against `schema` checks the table `t`
against the field map `s`. -/
inductive Within : SchemaDef → Entries → SchemaDef → Entries → Prop where
  | here {schema : SchemaDef} {input : Entries} : Within schema input schema input
  | field {schema s : SchemaDef} {input t : Entries} {f : String × Rule}
      (declared : f ∈ schema.fields) (given : fieldValue f.2.toRuleKeys input f.1 ≠ .nil)
      (visits : Visits f.2 (fieldValue f.2.toRuleKeys input f.1) s t) : Within schema input s t

/-- The same for a value against a rule. -/
inductive Visits : Rule → Value → SchemaDef → Entries → Prop where
  | table {rule : Rule} {p len : ℕ} {input t : Entries} {schema s : SchemaDef}
      (kind : rule.kind = .table) (nested : rule.fields = some schema)
      (inside : Within schema input s t) : Visits rule (.table p len input) s t
  | item {rule items : Rule} {p len : ℕ} {es t : Entries} {s : SchemaDef} {v : Value}
      (kind : rule.kind = .array) (nested : rule.items = some items) (mem : v ∈ itemsOf len es)
      (visits : Visits items v s t) : Visits rule (.table p len es) s t
  | entry {rule values : Rule} {p len : ℕ} {es t : Entries} {s : SchemaDef} {e : Key × Value}
      (kind : rule.kind = .map) (nested : rule.values = some values) (mem : e ∈ es)
      (visits : Visits values e.2 s t) : Visits rule (.table p len es) s t

end

/-- Every key is a string. -/
def StringKeys (es : Entries) : Prop := ∀ e ∈ es, ∃ name, e.1 = .ofString name

/-- A value of a request body: its tables are lists, or have only string keys. -/
inductive Shaped : Value → Prop where
  | scalar {v : Value} (h : ∀ p len es, v ≠ .table p len es) : Shaped v
  | list {p len : ℕ} {es : Entries} (keys : isSequence len es = true) (count : es.length = len)
      (values : ∀ e ∈ es, Shaped e.2) : Shaped (.table p len es)
  | object {p : ℕ} {es : Entries} (keys : StringKeys es) (values : ∀ e ∈ es, Shaped e.2) :
      Shaped (.table p 0 es)

theorem Shaped.entries {p len : ℕ} {es : Entries} (h : Shaped (.table p len es)) :
    ∀ e ∈ es, Shaped e.2 := by
  cases h with
  | scalar h => exact absurd rfl (h p len es)
  | list keys count values => exact values
  | object keys values => exact values

theorem Shaped.get {es : Entries} (h : ∀ e ∈ es, Shaped e.2) (key : Key) : Shaped (es.get key) := by
  by_cases hnil : es.get key = .nil
  · rw [hnil]
    exact .scalar (by simp)
  · exact h _ (Entries.mem_of_get hnil)

/-- A table with string keys only has no border, and conversely. -/
theorem Shaped.stringKeys_iff {p len : ℕ} {es : Entries} (h : Shaped (.table p len es)) :
    StringKeys es ↔ len = 0 := by
  cases h with
  | scalar h => exact absurd rfl (h p len es)
  | list keys count values =>
      constructor
      · intro hstrings
        cases es with
        | nil => exact count.symm
        | cons e es =>
            obtain ⟨name, hname⟩ := hstrings e (List.mem_cons_self ..)
            have hkey := List.all_eq_true.mp keys e (List.mem_cons_self ..)
            rw [hname] at hkey
            cases hkey
      · intro hlen
        rw [hlen, List.length_eq_zero_iff] at count
        rw [count]
        exact fun e he => nomatch he
  | object keys values => exact iff_of_true keys rfl

theorem shaped_toLua (l : Literal) : Shaped l.toLua := by
  refine .scalar fun p len es => ?_
  cases l with
  | str s => simp [Literal.toLua, Value.ofString]
  | num n =>
      simp only [Literal.toLua]
      split <;> simp
  | bool b => simp [Literal.toLua]

theorem shaped_fieldValue {es : Entries} (h : ∀ e ∈ es, Shaped e.2) (rule : RuleKeys)
    (name : String) : Shaped (fieldValue rule es name) := by
  unfold fieldValue
  split
  · exact shaped_toLua _
  · exact Shaped.get h _

/-! ## What an accepted table's keys are -/

section Known

variable {host : Host} {strict : Bool} {n n' : ℕ} {d : List Pending}

/-- The table's keys are declared where that is asked for. -/
def DeclaredKeys (strict : Bool) (schema : SchemaDef) (input : Entries) : Prop :=
  (strict || schema.options.strict) = true →
    ∀ e ∈ input, ∃ name, e.1 = .ofString name ∧ (schema.rule name).isSome

theorem Known.declaredKeys {schema : SchemaDef} {input : Entries} (h : Known strict schema input)
    (hs : StringKeys input) : DeclaredKeys strict schema input := by
  intro hstrict e he
  obtain ⟨name, hname⟩ := hs e he
  refine ⟨name, hname, ?_⟩
  have hunknown := List.filterMap_eq_nil_iff.mp (h hstrict) e he
  rw [hname] at hunknown
  simp only [Key.ofString, LuaString.toStringLossy_ofString] at hunknown
  by_contra hnone
  rw [if_neg hnone] at hunknown
  cases hunknown

/-- Every table checked inside an accepted value has declared keys. -/
def KnownFor (host : Host) (rule : Rule) : Prop :=
  ∀ {strict : Bool} {v w : Value} {site : Site} {n n' : ℕ} {d : List Pending},
    Checks host strict rule v site n w n' d → Shaped v →
      ∀ s t, Visits rule v s t → DeclaredKeys strict s t

theorem ChecksFields.known_of_within {schema s : SchemaDef} {input out t : Entries}
    {path : FieldPath} {pointer : ℕ}
    (h : ChecksFields host strict schema input path pointer n out n' d)
    (hf : ∀ f ∈ schema.fields, KnownFor host f.2) (hs : ∀ e ∈ input, Shaped e.2)
    (hroot : DeclaredKeys strict schema input) (hw : Within schema input s t) :
    DeclaredKeys strict s t := by
  cases hw with
  | here => exact hroot
  | field declared given visits =>
      cases h with
      | intro fields known cross =>
          obtain ⟨site, n, w, n', d, hc⟩ := fields.checked declared given
          exact hf _ declared hc (shaped_fieldValue hs ..) s t visits

theorem checks_known (host : Host) (rule : Rule) : KnownFor host rule := by
  induction rule using Rule.induct with
  | step rule items keys values filename fields =>
      intro strict v w site n n' d h hs s t hv
      cases h with
      | intro kind =>
          cases hv with
          | table hkind nested inside =>
              cases kind with
              | table _ nested' each =>
                  rw [nested] at nested'
                  cases nested'
                  cases each with
                  | intro list known cross =>
                      have hroot := known.declaredKeys (hs.stringKeys_iff.mpr rfl)
                      exact (ChecksFields.intro list known cross).known_of_within
                        (fields _ nested) hs.entries hroot inside
              | number hnum value => cases value
              | _ hk => exact absurd (hkind.symm.trans hk) (by decide)
          | item hkind nested mem visits =>
              cases kind with
              | array _ sequence length nested' each tests =>
                  rw [nested] at nested'
                  cases nested'
                  obtain ⟨site, n, w, n', d, hc⟩ := each.checked mem
                  obtain ⟨i, -, rfl⟩ := List.mem_map.mp mem
                  exact items _ nested hc (Shaped.get hs.entries _) s t visits
              | number hnum value => cases value
              | _ hk => exact absurd (hkind.symm.trans hk) (by decide)
          | entry hkind nested mem visits =>
              cases kind with
              | map _ count nested' each =>
                  rw [nested] at nested'
                  cases nested'
                  obtain ⟨site, n, w, n', d, hc⟩ := each.checked mem
                  exact values _ nested hc (hs.entries _ mem) s t visits
              | number hnum value => cases value
              | _ hk => exact absurd (hkind.symm.trans hk) (by decide)

end Known

/-! ## Accepted values -/

section Runs

variable {host : Host} {scripts : Scripts} {schema : SchemaDef} {start : Start}

/-- Every table that checking the value checks has declared keys. -/
def AllDeclared (strict : Bool) (schema : SchemaDef) (value : Value) : Prop :=
  ∀ p len input, value = .table p len input →
    ∀ s t, Within schema input s t → DeclaredKeys strict s t

/-- `strict` holds for the root table. -/
def rootStrict (schema : SchemaDef) (start : Start) : Bool :=
  start.strict.getD false || schema.options.strict

/-- An accepted value has undeclared keys exactly if it is a list whose root is strict. -/
theorem run_allDeclared_iff {value output : Value}
    (h : run host scripts schema value start = .ok (.ok output)) (hs : Shaped value) :
    AllDeclared (start.strict.getD false) schema value ↔
      (rootStrict schema start = true → ∀ p len es, value = .table p len es → len = 0) := by
  obtain ⟨-, out, n, d, writes, hwalks, -⟩ := run_eq_accepted.mp h
  cases hwalks with
  | @intro p len _ _ input _ _ fields =>
      constructor
      · intro hall hstrict p' len' es heq
        cases heq
        have hroot := hall p len input rfl schema input .here hstrict
        refine hs.stringKeys_iff.mp fun e he => ?_
        obtain ⟨name, hname, -⟩ := hroot e he
        exact ⟨name, hname⟩
      · intro hlen p' len' input' heq s t hw
        cases heq
        refine fields.known_of_within (fun f _ => checks_known host f.2) hs.entries ?_ hw
        intro hstrict
        cases fields with
        | intro list known cross =>
            exact known.declaredKeys (hs.stringKeys_iff.mpr (hlen hstrict p len input rfl)) hstrict

end Runs

/-! ## Tables built from text -/

section Text

variable {parsers : Parsers} {schema : SchemaDef}

theorem mem_addPair {name : String} {value : TextValue} {grouped : List (String × List TextValue)}
    {g : String × List TextValue} (h : g ∈ addPair name value grouped) (hne : ∀ g ∈ grouped, g.2 ≠ []) :
    g.2 ≠ [] := by
  induction grouped with
  | nil =>
      rw [addPair, List.mem_singleton] at h
      simp [h]
  | cons g' rest ih =>
      rw [addPair] at h
      split at h
      · rcases List.mem_cons.mp h with rfl | h
        · simp
        · exact hne g (List.mem_cons_of_mem _ h)
      · rcases List.mem_cons.mp h with rfl | h
        · exact hne _ (List.mem_cons_self ..)
        · exact ih h fun g hg => hne g (List.mem_cons_of_mem _ hg)

theorem names_addPair (name : String) (value : TextValue)
    (grouped : List (String × List TextValue)) :
    name ∈ (addPair name value grouped).map (·.1) ∧
      ∀ n ∈ grouped.map (·.1), n ∈ (addPair name value grouped).map (·.1) := by
  induction grouped with
  | nil => simp [addPair]
  | cons g rest ih =>
      rw [addPair]
      split
      · rename_i heq
        exact ⟨by simp [heq], by simp⟩
      · refine ⟨List.mem_cons_of_mem _ ih.1, fun n hn => ?_⟩
        rcases List.mem_cons.mp hn with rfl | hn
        · exact List.mem_cons_self ..
        · exact List.mem_cons_of_mem _ (ih.2 n hn)

/-- Every pair is in the group of its name. -/
theorem mem_groupPairs {pairs : List (String × TextValue)} {pair : String × TextValue}
    (h : pair ∈ pairs) :
    ∃ values, (normalName pair.1, values) ∈ groupPairs pairs ∧ values ≠ [] := by
  have hfold : ∀ (pairs : List (String × TextValue)) (grouped : List (String × List TextValue)),
      (∀ g ∈ grouped, g.2 ≠ []) →
      (∀ g ∈ pairs.foldl (fun grouped p => addPair (normalName p.1) p.2 grouped) grouped,
        g.2 ≠ []) ∧
      ∀ n, n ∈ grouped.map (·.1) ∨ n ∈ pairs.map (fun p => normalName p.1) →
        n ∈ (pairs.foldl (fun grouped p => addPair (normalName p.1) p.2 grouped) grouped).map
          (·.1) := by
    intro pairs
    induction pairs with
    | nil =>
        intro grouped hne
        exact ⟨hne, fun n hn => by simpa using hn⟩
    | cons p pairs ih =>
        intro grouped hne
        obtain ⟨hname, hkept⟩ := names_addPair (normalName p.1) p.2 grouped
        obtain ⟨hvalues, hnames⟩ := ih (addPair (normalName p.1) p.2 grouped)
          fun g hg => mem_addPair hg hne
        refine ⟨hvalues, fun n hn => hnames n ?_⟩
        rw [List.map_cons, List.mem_cons] at hn
        rcases hn with hn | rfl | hn
        · exact .inl (hkept n hn)
        · exact .inl hname
        · exact .inr hn
  obtain ⟨hvalues, hnames⟩ := hfold pairs [] (by simp)
  have hmem := hnames (normalName pair.1)
    (.inr (List.mem_map_of_mem (f := fun p : String × TextValue => normalName p.1) h))
  obtain ⟨g, hg, hname⟩ := List.mem_map.mp hmem
  exact ⟨g.2, by rw [← hname]; exact hg, hvalues g hg⟩

theorem coerceScalar_scalar (kind : Kind) (text : String) :
    coerceScalar parsers kind text ≠ .nil ∧
      ∀ p len es, coerceScalar parsers kind text ≠ .table p len es := by
  unfold coerceScalar
  split
  · split <;> simp [Value.ofString]
  · split
    · split <;> simp
    · simp [Value.ofString]
  · split <;> simp [Value.ofString]
  · simp [Value.ofString]

theorem toValue_scalar {kind : Kind} {value : TextValue} {v : Value}
    (h : value.toValue parsers kind = some v) : v ≠ .nil ∧ ∀ p len es, v ≠ .table p len es := by
  cases value with
  | text s =>
      simp only [TextValue.toValue] at h
      split at h
      · cases h
      · cases h
        exact coerceScalar_scalar ..
  | file pointer info =>
      cases h
      simp

theorem raw_scalar (value : TextValue) :
    value.raw ≠ .nil ∧ ∀ p len es, value.raw ≠ .table p len es := by
  cases value <;> simp [TextValue.raw, Value.ofString]

theorem isSequence_zipIdx (list : List Value) :
    isSequence list.length (list.zipIdx.map fun e => (.integer (e.2 + 1), e.1)) = true := by
  rw [isSequence, List.all_eq_true]
  intro e he
  obtain ⟨⟨v, i⟩, hmem, rfl⟩ := List.mem_map.mp he
  have hlt := (List.mem_zipIdx hmem).2.1
  simp only [decide_eq_true_eq]
  omega

/-- The list an array field is given. -/
theorem shaped_list {pointer : ℕ} {list : List Value} (h : ∀ v ∈ list, Shaped v) :
    Shaped (.table pointer list.length
      (list.zipIdx.map fun e => (.integer (e.2 + 1), e.1))) := by
  refine .list (isSequence_zipIdx list) (by simp) ?_
  intro e he
  obtain ⟨⟨v, i⟩, hmem, rfl⟩ := List.mem_map.mp he
  exact h v (List.fst_mem_of_mem_zipIdx hmem)

theorem groupValue_shaped {pointer : ℕ} {name : String} {values : List TextValue} {v : Value}
    (h : groupValue parsers schema pointer name values = .ok (some v)) : v ≠ .nil ∧ Shaped v := by
  unfold groupValue at h
  split at h
  · split at h
    · split at h
      · cases h
      · cases h
        refine ⟨by simp, shaped_list fun v hv => ?_⟩
        obtain ⟨value, -, hvalue⟩ := List.mem_filterMap.mp hv
        exact .scalar (toValue_scalar hvalue).2
    · obtain ⟨value, -, hvalue⟩ := Option.bind_eq_some_iff.mp (Except.ok.inj h)
      obtain ⟨hne, hscalar⟩ := toValue_scalar hvalue
      exact ⟨hne, .scalar hscalar⟩
  · obtain ⟨value, -, rfl⟩ := Option.map_eq_some_iff.mp (Except.ok.inj h)
    exact ⟨(raw_scalar value).1, .scalar (raw_scalar value).2⟩

/-- What the table has been built to. -/
structure TextTable (es : Entries) : Prop where
  keys : StringKeys es
  values : ∀ e ∈ es, Shaped e.2

theorem TextTable.set {es : Entries} (h : TextTable es) {name : String} {v : Value}
    (hv : Shaped v) : TextTable (es.set (.ofString name) v) := by
  constructor
  · intro e he
    rcases Entries.mem_set he with he | rfl
    · exact h.keys e he
    · exact ⟨name, rfl⟩
  · intro e he
    rcases Entries.mem_set he with he | rfl
    · exact h.values e he
    · exact hv

/-- The field loop keeps what is there and adds every undeclared name. -/
theorem buildEntries_spec {grouped : List (String × List TextValue)} {next after : ℕ}
    {out es : Entries} (h : buildEntries parsers schema grouped next out = .ok (es, after))
    (hout : TextTable out) :
    TextTable es ∧ (∀ key, out.get key ≠ .nil → es.get key ≠ .nil) ∧
      ∀ g ∈ grouped, g.2 ≠ [] → schema.rule g.1 = none → es.field g.1 ≠ .nil := by
  induction grouped generalizing next out with
  | nil =>
      cases h
      exact ⟨hout, fun _ hkey => hkey, by simp⟩
  | cons g rest ih =>
      obtain ⟨name, values⟩ := g
      rw [buildEntries] at h
      cases hvalue : groupValue parsers schema next name values with
      | error fault =>
          rw [hvalue] at h
          cases h
      | ok value =>
          rw [hvalue] at h
          cases value with
          | none =>
              obtain ⟨htable, hkept, hadded⟩ := ih h hout
              refine ⟨htable, hkept, fun g hg hne hnone => ?_⟩
              rcases List.mem_cons.mp hg with rfl | hg
              · -- An undeclared name always has a value.
                rw [groupValue, hnone] at hvalue
                have hlast := Option.map_eq_none_iff.mp (Except.ok.inj hvalue)
                exact absurd (List.getLast?_eq_none_iff.mp hlast) hne
              · exact hadded g hg hne hnone
          | some v =>
              obtain ⟨hnil, hshaped⟩ := groupValue_shaped hvalue
              obtain ⟨htable, hkept, hadded⟩ := ih h (hout.set hshaped)
              refine ⟨htable, fun key hkey => hkept key ?_, fun g hg hne hnone => ?_⟩
              · by_cases heq : Key.ofString name = key
                · rw [← heq, Entries.get_set_self hnil]
                  exact hnil
                · rw [Entries.get_set_ne heq]
                  exact hkey
              · rcases List.mem_cons.mp hg with rfl | hg
                · refine hkept _ ?_
                  rw [Entries.get_set_self hnil]
                  exact hnil
                · exact hadded g hg hne hnone

theorem buildTable_spec {pairs : List (String × TextValue)} {next after : ℕ} {value : Value}
    (h : buildTable parsers schema pairs next = .ok (value, after)) :
    ∃ es : Entries, value = .table next 0 es ∧ TextTable es ∧
      ∀ pair ∈ pairs, schema.rule (normalName pair.1) = none →
        es.field (normalName pair.1) ≠ .nil := by
  unfold buildTable at h
  cases hentries : buildEntries parsers schema (groupPairs pairs) (next + 1) [] with
  | error fault =>
      rw [hentries] at h
      cases h
  | ok built =>
      rw [hentries] at h
      cases h
      obtain ⟨htable, -, hadded⟩ := buildEntries_spec hentries ⟨by simp [StringKeys], by simp⟩
      refine ⟨built.1, rfl, htable, fun pair hpair hnone => ?_⟩
      obtain ⟨values, hmem, hne⟩ := mem_groupPairs hpair
      exact hadded _ hmem hne hnone

variable {host : Host} {scripts : Scripts} {start : Start}

/-- A text body that is accepted has only declared keys, and each pair a declared name. -/
theorem checkText_allDeclared {pairs : List (String × TextValue)} {output : Value}
    (h : checkText parsers host scripts schema pairs start = .ok (.ok output)) :
    (∀ value after, buildTable parsers schema pairs start.next = .ok (value, after) →
      AllDeclared (start.strict.getD false) schema value) ∧
    (rootStrict schema start = true →
      ∀ pair ∈ pairs, (schema.rule (normalName pair.1)).isSome) := by
  unfold checkText at h
  cases hbuild : buildTable parsers schema pairs start.next with
  | error fault =>
      rw [hbuild] at h
      cases h
  | ok built =>
      rw [hbuild] at h
      obtain ⟨es, hes, htable, hadded⟩ := buildTable_spec hbuild
      have hshaped : Shaped built.1 := by
        rw [hes]
        exact .object htable.keys htable.values
      have hall := (run_allDeclared_iff h hshaped).mpr fun _ p len es' heq => by
        rw [hes] at heq
        cases heq
        rfl
      refine ⟨fun value after heq => ?_, fun hstrict pair hpair => ?_⟩
      · cases heq
        exact hall
      · cases hrule : schema.rule (normalName pair.1) with
        | some rule => rfl
        | none =>
            have hmem := Entries.mem_of_get (hadded pair hpair hrule)
            obtain ⟨name, hname, hsome⟩ := hall _ _ _ hes schema es .here hstrict _ hmem
            rw [← Key.ofString_inj.mp hname, hrule] at hsome
            cases hsome

end Text

/-! ## Bodies -/

section Bodies

variable {schema : SchemaDef} {limits : Limits} {uploads : Uploads}

/-- The part's name, or that name without `[]`, is a declared field. -/
def Part.Declared (schema : SchemaDef) (part : Part) : Prop :=
  (schema.rule (part.name.getD "")).isSome ∨ (schema.rule (normalName (part.name.getD ""))).isSome

/-- The part loop keeps every text part. -/
theorem readParts_text {ending : Ending} {parts : List Part} {count index : ℕ}
    {out pairs : List (String × TextValue)}
    (h : readParts schema limits uploads ending parts count index out = .ok (some pairs)) :
    (∀ pair ∈ out, pair ∈ pairs) ∧
      ∀ part ∈ parts, part.filename = none → ∃ value, (part.name.getD "", value) ∈ pairs := by
  induction parts generalizing count index out with
  | nil =>
      cases ending with
      | done =>
          simp only [readParts, Except.ok.injEq, Option.some.injEq] at h
          subst h
          exact ⟨fun pair hpair => hpair, by simp⟩
      | failed msg => simp [readParts] at h
      | malformed => simp [readParts] at h
  | cons part rest ih =>
      rw [readParts] at h
      split at h
      · cases h
      · cases hfilename : part.filename with
        | none =>
            rw [hfilename] at h
            simp only at h
            cases htext : readText limits (part.name.getD "") part with
            | error fault =>
                rw [htext] at h
                cases h
            | ok value =>
                rw [htext] at h
                obtain ⟨hout, hrest⟩ := ih h
                refine ⟨fun pair hpair => hout pair (List.mem_append_left _ hpair), ?_⟩
                intro part' hpart' hnone
                rcases List.mem_cons.mp hpart' with rfl | hpart'
                · exact ⟨value, hout _ (by simp)⟩
                · exact hrest part' hpart' hnone
        | some filename =>
            have hskip : ∀ {count index : ℕ} {more : List (String × TextValue)},
                readParts schema limits uploads ending rest count index (out ++ more) =
                  .ok (some pairs) →
                (∀ pair ∈ out, pair ∈ pairs) ∧ ∀ part' ∈ part :: rest, part'.filename = none →
                  ∃ value, (part'.name.getD "", value) ∈ pairs := by
              intro count index more h
              obtain ⟨hout, hrest⟩ := ih h
              refine ⟨fun pair hpair => hout pair (List.mem_append_left _ hpair), ?_⟩
              intro part' hpart' hnone
              rcases List.mem_cons.mp hpart' with rfl | hpart'
              · rw [hfilename] at hnone
                cases hnone
              · exact hrest part' hpart' hnone
            rw [hfilename] at h
            simp only at h
            split at h
            · split at h
              · exact @hskip _ _ [] (by rwa [List.append_nil])
              · cases h
            · cases hfile : readFile schema limits uploads (index + 1) (part.name.getD "") filename
                part with
              | error fault =>
                  rw [hfile] at h
                  cases h
              | ok value =>
                  rw [hfile] at h
                  cases value with
                  | none => exact @hskip _ _ [] (by rwa [List.append_nil])
                  | some value => exact hskip h

theorem readMultipart_text {stream : Stream} {pairs : List (String × TextValue)}
    (h : readMultipart schema limits uploads stream = .ok (some pairs)) :
    ∀ part ∈ stream.parts, part.filename = none → ∃ value, (part.name.getD "", value) ∈ pairs := by
  unfold readMultipart at h
  split at h
  · cases h
  · split at h
    · cases h
    · split at h
      · cases h
      · exact (readParts_text h).2

variable (parsers : Parsers) (limits : Limits) (uploads : Uploads) (schema : SchemaDef)
  (start : Start)

/-- A JSON value is one the parser builds. -/
def Body.Shaped : Body → Prop
  | .json (some value) => Validate.Shaped value
  | _ => True

/-- Every key of every table checked where `strict` is in force is declared, and so is the
name of every part. -/
def OnlyDeclared : Body → Prop
  | .json none => True
  | .json (some value) => AllDeclared (start.strict.getD false) schema value
  | .form pairs => ∀ value after,
      buildTable parsers schema (pairs.map fun p => (p.1, .text p.2)) start.next =
        .ok (value, after) → AllDeclared (start.strict.getD false) schema value
  | .multipart stream =>
      (∀ pairs value after, readMultipart schema limits uploads stream = .ok (some pairs) →
        buildTable parsers schema pairs start.next = .ok (value, after) →
        AllDeclared (start.strict.getD false) schema value) ∧
      (rootStrict schema start = true → ∀ part ∈ stream.parts, part.Declared schema)

/-- Where the root is strict, the body is no non-empty list, and no file part has an
undeclared name. -/
def NothingSkipped : Body → Prop
  | .json (some value) =>
      rootStrict schema start = true → ∀ p len es, value = .table p len es → len = 0
  | .multipart stream =>
      rootStrict schema start = true →
        ∀ part ∈ stream.parts, part.filename.isSome → part.Declared schema
  | _ => True

/-- An accepted body has only declared names exactly if strict checking skips none. -/
theorem checkBody_onlyDeclared_iff {host : Host} {scripts : Scripts} {body : Body}
    {output : Value} (hs : body.Shaped)
    (h : checkBody host scripts parsers limits uploads schema start body = .ok (.ok output)) :
    OnlyDeclared parsers limits uploads schema start body ↔ NothingSkipped schema start body := by
  cases body with
  | json value =>
      cases value with
      | none =>
          rw [checkBody] at h
          cases h
      | some value =>
          rw [checkBody] at h
          exact run_allDeclared_iff h hs
  | form pairs =>
      rw [checkBody] at h
      exact iff_of_true (checkText_allDeclared h).1 trivial
  | multipart stream =>
      rw [checkBody] at h
      cases hread : readMultipart schema limits uploads stream with
      | error fault =>
          rw [hread] at h
          cases h
      | ok pairs =>
          rw [hread] at h
          cases pairs with
          | none => cases h
          | some pairs =>
              obtain ⟨hall, hnames⟩ := checkText_allDeclared h
              constructor
              · intro hdeclared hstrict part hpart hfile
                exact hdeclared.2 hstrict part hpart
              · intro hskipped
                refine ⟨fun pairs' value after hread' hbuild => ?_, fun hstrict part hpart => ?_⟩
                · rw [hread] at hread'
                  cases hread'
                  exact hall value after hbuild
                · cases hfilename : part.filename with
                  | some filename => exact hskipped hstrict part hpart (by simp [hfilename])
                  | none =>
                      obtain ⟨value, hmem⟩ := readMultipart_text hread part hpart hfilename
                      have hname := hnames hstrict (part.name.getD "", value) hmem
                      exact Or.inr hname

end Bodies

/-- No uploads are read. -/
def noUploads : Uploads := ⟨false, false, fun _ _ _ _ _ => .error (.raised "no uploads")⟩

/-- Parsers that agree with the real ones on texts without blanks or numbers. -/
def plainParsers : Parsers := ⟨fun s => s, fun _ => none⟩

theorem shaped_tagsValue (first second : String) : Shaped (tagsValue first second) := by
  refine .object ?_ ?_
  · intro e he
    rw [List.mem_singleton.mp he]
    exact ⟨"tags", rfl⟩
  · intro e he
    rw [List.mem_singleton.mp he]
    refine .list rfl rfl fun e he => .scalar ?_
    simp only [List.mem_cons, List.not_mem_nil, or_false] at he
    rcases he with rfl | rfl <;> simp [Value.ofString]

/-- `{ "tags": ["a", "b"] }` under `strict`. -/
theorem checkBody_onlyDeclared_iff_tags :
    checkBody .ascii noScripts plainParsers ⟨1, 1, 1⟩ noUploads tagsSchema ⟨some true, 5⟩
        (.json (some (tagsValue "a" "b"))) =
      .ok (.ok (.table 5 0 [(.ofString "tags", .table 6 2 [(.integer 1, .ofString "a"),
        (.integer 2, .ofString "b")])])) ∧
    OnlyDeclared plainParsers ⟨1, 1, 1⟩ noUploads tagsSchema ⟨some true, 5⟩
      (.json (some (tagsValue "a" "b"))) := by
  have haccepted : checkBody .ascii noScripts plainParsers ⟨1, 1, 1⟩ noUploads tagsSchema
      ⟨some true, 5⟩ (.json (some (tagsValue "a" "b"))) =
      .ok (.ok (.table 5 0 [(.ofString "tags", .table 6 2 [(.integer 1, .ofString "a"),
        (.integer 2, .ofString "b")])])) := rfl
  have hshaped : Body.Shaped (.json (some (tagsValue "a" "b"))) := shaped_tagsValue "a" "b"
  refine ⟨haccepted, (checkBody_onlyDeclared_iff _ _ _ _ _ hshaped haccepted).mpr ?_⟩
  intro _ p len es heq
  cases heq
  rfl

/-- The body `[7]` is accepted under `strict` though no field is named by its element. -/
theorem list_body_undeclared :
    ¬∀ (host : Host) (scripts : Scripts) (parsers : Parsers) (limits : Limits)
      (uploads : Uploads) (schema : SchemaDef) (start : Start) (body : Body) (output : Value),
      Built (fun _ => True) schema → body.Shaped →
      checkBody host scripts parsers limits uploads schema start body = .ok (.ok output) →
      OnlyDeclared parsers limits uploads schema start body := by
  intro h
  have hshaped : Shaped (.table 0 1 [(.integer 1, .integer 7)]) := by
    refine .list rfl rfl fun e he => .scalar ?_
    rw [List.mem_singleton.mp he]
    simp
  have hall := h .ascii noScripts plainParsers ⟨1, 1, 1⟩ noUploads tagsSchema ⟨some true, 5⟩
    (.json (some (.table 0 1 [(.integer 1, .integer 7)]))) (.table 5 0 []) tagsSchema_built
    hshaped rfl
  obtain ⟨name, hname, -⟩ := hall 0 1 _ rfl tagsSchema _ .here rfl (.integer 1, .integer 7)
    (List.mem_singleton_self _)
  cases hname

end Nitr.Validate
