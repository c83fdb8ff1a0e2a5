import Nitr.Validate.Acceptance
import Nitr.Validate.Cross
import Nitr.Validate.Safe

/-! # The normal form of an accepted value

What a rule makes of a value it accepts, as a function of the value: the strings
in the rule's case, the items and the fields normalised, the rest as it is. -/

namespace Nitr.Validate

/-! ## Schemas without scripts -/

/-- No script hook and no file rule, at any depth. -/
inductive Rule.Plain : Rule → Prop where
  | intro {rule : Rule} (kind : rule.kind ≠ .file) (check : rule.check = none)
      (transform : rule.transform = none) (format : ∀ c, rule.format ≠ some (.custom c))
      (items : ∀ r, rule.items = some r → r.Plain) (keys : ∀ r, rule.keys = some r → r.Plain)
      (values : ∀ r, rule.values = some r → r.Plain)
      (checks : ∀ s, rule.fields = some s → s.options.checks = [])
      (fields : ∀ s, rule.fields = some s → ∀ f ∈ s.fields, f.2.Plain) : rule.Plain

structure SchemaDef.Plain (schema : SchemaDef) : Prop where
  checks : schema.options.checks = []
  fields : ∀ f ∈ schema.fields, f.2.Plain

/-- No table of fields declares a name twice, at any depth. -/
inductive Rule.Unambiguous : Rule → Prop where
  | intro {rule : Rule} (items : ∀ r, rule.items = some r → r.Unambiguous)
      (keys : ∀ r, rule.keys = some r → r.Unambiguous)
      (values : ∀ r, rule.values = some r → r.Unambiguous)
      (names : ∀ s, rule.fields = some s → (s.fields.map (·.1)).Nodup)
      (fields : ∀ s, rule.fields = some s → ∀ f ∈ s.fields, f.2.Unambiguous) : rule.Unambiguous

structure SchemaDef.Unambiguous (schema : SchemaDef) : Prop where
  names : (schema.fields.map (·.1)).Nodup
  fields : ∀ f ∈ schema.fields, f.2.Unambiguous

/-- `trim` and `case`, as a rule combines them, change nothing the second time. -/
def Host.Idempotent (host : Host) : Prop :=
  ∀ rule text, host.normalise rule (host.normalise rule text) = host.normalise rule text

/-! ## Normal forms -/

/-- The key a key rule makes of a key. -/
def keyText (normal : Value → Value) (key : LuaString) : LuaString :=
  match normal (.string key) with
  | .string key' => key'
  | _ => key

/-- The entries under their normalised keys; a later entry replaces an earlier one. -/
def normalPairs (key : LuaString → LuaString) (value : Value → Value) : Entries → Entries → Entries
  | [], built => built
  | (.string k, v) :: rest, built =>
    normalPairs key value rest (built.set (.string (key k)) (value v))
  | _ :: rest, built => normalPairs key value rest built

/-- What the key rule, if any, makes of the keys. -/
def keysText (normal : Rule → Value → Value) : Option Rule → LuaString → LuaString
  | some r => keyText (normal r)
  | none => id

mutual

/-- The value with every string in it trimmed and cased as its rule says, defaults filled
in and undeclared fields left out. -/
def Rule.normal (host : Host) : Rule → Value → Value
  | ⟨rule, items, fields, keys, values, _⟩, v =>
    let item : Value → Value := match items with
      | some r => r.normal host
      | none => id
    let key : LuaString → LuaString := match keys with
      | some r => keyText (r.normal host)
      | none => id
    let value : Value → Value := match values with
      | some r => r.normal host
      | none => id
    let table : Entries → Entries := match fields with
      | some s => s.normal host
      | none => id
    match rule.kind, v with
    | .string, .string s => .ofString (host.normalise rule s.toStringLossy)
    | .array, .table _ len es => .table 0 len (setItems 1 ((itemsOf len es).map item) [])
    | .table, .table _ _ es => .table 0 0 (table es)
    | .map, .table _ _ es => .table 0 0 (normalPairs key value es [])
    | _, v => v
  termination_by structural r => r

def SchemaDef.normal (host : Host) : SchemaDef → Entries → Entries
  | ⟨fields, _⟩, input => normalFields host fields input []
  termination_by structural s => s

def normalFields (host : Host) : List (String × Rule) → Entries → Entries → Entries
  | [], _, built => built
  | (name, rule) :: rest, input, built =>
    match fieldValue rule.toRuleKeys input name with
    | .nil => normalFields host rest input built
    | value => normalFields host rest input (built.set (.ofString name) (rule.normal host value))
  termination_by structural f => f

end

/-- The root table of an input, normalised. -/
def SchemaDef.normalRoot (host : Host) (schema : SchemaDef) : Value → Entries
  | .table _ _ input => schema.normal host input
  | _ => []

/-! ## What normalising must not merge -/

section

variable (host : Host)

/-- No two of the items have the same canonical form, and each has one. -/
structure Distinct (items : List Value) : Prop where
  formed : ∀ v ∈ items, ∀ fault, contentForm host v ≠ .error fault
  apart : items.Pairwise fun a b =>
    ∀ c, contentForm host a = .ok (some c) → contentForm host b ≠ .ok (some c)

/-- At every depth, the items of a `unique` array are distinct and a map has the keys
`min_keys` asks for. -/
inductive Keeps : Rule → Value → Prop where
  | intro {rule : Rule} {v : Value}
      (unique : ∀ p len es, rule.kind = .array → v = .table p len es → rule.unique = true →
        Distinct host (itemsOf len es))
      (count : ∀ p len es min, rule.kind = .map → v = .table p len es →
        rule.minKeys = some min → min ≤ es.length)
      (items : ∀ p len es r, rule.kind = .array → v = .table p len es → rule.items = some r →
        ∀ x ∈ itemsOf len es, Keeps r x)
      (values : ∀ p len es r, rule.kind = .map → v = .table p len es → rule.values = some r →
        ∀ e ∈ es, Keeps r e.2)
      (fields : ∀ p len (es : Entries) s, rule.kind = .table → v = .table p len es →
        rule.fields = some s → ∀ f ∈ s.fields, es.field f.1 ≠ .nil → Keeps f.2 (es.field f.1)) :
      Keeps rule v

/-- The fields of a table keep their distinctions. -/
def SchemaDef.Keeps (schema : SchemaDef) (es : Entries) : Prop :=
  ∀ f ∈ schema.fields, es.field f.1 ≠ .nil → Nitr.Validate.Keeps host f.2 (es.field f.1)

end

/-! ## Equations of the normal form -/

section Normal

variable {host : Host} {rule r : Rule} {p len : ℕ} {es : Entries}

theorem Rule.normal_string (h : rule.kind = .string) (s : LuaString) :
    rule.normal host (.string s) = .ofString (host.normalise rule.toRuleKeys s.toStringLossy) := by
  obtain ⟨keys, items, fields, mapKeys, values, filename⟩ := rule
  unfold Rule.normal
  simp only [show keys.kind = .string from h]

theorem Rule.normal_of_kind (v : Value)
    (h : rule.kind ∉ [Kind.string, .array, .table, .map]) : rule.normal host v = v := by
  obtain ⟨keys, items, fields, mapKeys, values, filename⟩ := rule
  unfold Rule.normal
  have h' : keys.kind ∉ [Kind.string, .array, .table, .map] := h
  cases hk : keys.kind <;> simp_all

theorem Rule.normal_array (h : rule.kind = .array) (hr : rule.items = some r) :
    rule.normal host (.table p len es) =
      .table 0 len (setItems 1 ((itemsOf len es).map (r.normal host)) []) := by
  obtain ⟨keys, items, fields, mapKeys, values, filename⟩ := rule
  obtain rfl : items = some r := hr
  unfold Rule.normal
  simp only [show keys.kind = .array from h]

theorem Rule.normal_table {s : SchemaDef} (h : rule.kind = .table) (hs : rule.fields = some s) :
    rule.normal host (.table p len es) = .table 0 0 (normalFields host s.fields es []) := by
  obtain ⟨keys, items, fields, mapKeys, values, filename⟩ := rule
  obtain ⟨fs, options⟩ := s
  obtain rfl : fields = some ⟨fs, options⟩ := hs
  unfold Rule.normal
  simp only [show keys.kind = .table from h]
  rfl

theorem Rule.normal_map (h : rule.kind = .map) (hr : rule.values = some r) :
    rule.normal host (.table p len es) =
      .table 0 0 (normalPairs (keysText (Rule.normal host) rule.keys) (r.normal host) es []) := by
  obtain ⟨keys, items, fields, mapKeys, values, filename⟩ := rule
  obtain rfl : values = some r := hr
  unfold Rule.normal
  simp only [show keys.kind = .map from h]
  cases mapKeys <;> rfl

end Normal

/-! ## The output is the normal form -/

def NormalFor (host : Host) (rule : Rule) : Prop :=
  ∀ {strict : Bool} {v w : Value} {site : Site} {n n' : ℕ} {d : List Pending},
    Checks host strict rule v site n w n' d → w.erase = (rule.normal host v).erase

section Output

variable {host : Host} {strict : Bool} {n n' : ℕ} {d : List Pending}

theorem ChecksItems.erase_eq {keys : RuleKeys} {items : Rule} (hr : NormalFor host items)
    {site : Site} {out i : ℕ} {seen : List Canonical} {vs ws : List Value}
    (h : ChecksItems host strict keys items site out i seen vs n ws n' d) :
    ws.map Value.erase = (vs.map (items.normal host)).map Value.erase := by
  induction vs generalizing i seen n ws d with
  | nil =>
      cases h
      rfl
  | cons v vs ih =>
      cases h with
      | cons unique item rest =>
          rw [List.map_cons, List.map_cons, List.map_cons, hr item, ih rest]

theorem Value.eq_string_of_erase {v : Value} {k : LuaString} (h : v.erase = .string k) :
    v = .string k := by
  cases v with
  | string s => exact h
  | _ => cases h

theorem ChecksKey.keyText_eq {keys : Option Rule} (hk : ∀ r, keys = some r → NormalFor host r)
    {k k' : LuaString} {site : Site} (h : ChecksKey host strict keys k site n k' n' d) :
    keysText (Rule.normal host) keys k = k' := by
  cases h with
  | free => rfl
  | @ruled _ rule _ _ _ _ _ _ checked =>
      have h := (hk rule rfl checked).symm
      change (rule.normal host (.string k)).erase = .string k' at h
      change keyText (rule.normal host) k = k'
      unfold keyText
      rw [Value.eq_string_of_erase h]

theorem ChecksPairs.erase_eq {keys : Option Rule} {values : Rule}
    (hk : ∀ r, keys = some r → NormalFor host r) (hv : NormalFor host values) {site : Site}
    {pointer : ℕ} {es built built' out : Entries}
    (h : ChecksPairs host strict keys values site pointer es built n out n' d)
    (hb : Value.eraseEntries built = Value.eraseEntries built') :
    Value.eraseEntries out = Value.eraseEntries
      (normalPairs (keysText (Rule.normal host) keys) (values.normal host) es built') := by
  induction es generalizing n built built' d with
  | nil =>
      cases h
      exact hb
  | cons e es ih =>
      cases h with
      | cons key value rest =>
          refine ih rest ?_
          rw [key.keyText_eq hk, ← Value.set_eraseEntries, ← Value.set_eraseEntries, hb, hv value]

theorem ChecksFieldList.erase_eq {fields : List (String × Rule)}
    (hf : ∀ f ∈ fields, NormalFor host f.2) {owner : SchemaOptions}
    {input built built' out : Entries} {path : FieldPath} {pointer : ℕ}
    (h : ChecksFieldList host strict fields owner input path pointer built n out n' d)
    (hb : Value.eraseEntries built = Value.eraseEntries built') :
    Value.eraseEntries out = Value.eraseEntries (normalFields host fields input built') := by
  induction fields generalizing n built built' d with
  | nil =>
      cases h
      unfold normalFields
      exact hb
  | cons f fields ih =>
      have hf' : ∀ f ∈ fields, NormalFor host f.2 := by
        intro f hmem
        exact hf f (List.mem_cons_of_mem _ hmem)
      unfold normalFields
      cases h with
      | absent missing optional rest =>
          rw [missing]
          exact ih hf' rest hb
      | @present _ name rule _ _ _ _ _ _ _ _ _ _ w _ _ given value rest =>
          have hw := hf (name, rule) (List.mem_cons_self ..) value
          split
          · rename_i hnil
            exact absurd hnil given
          · refine ih hf' rest ?_
            rw [← Value.set_eraseEntries, ← Value.set_eraseEntries, hb, hw]

theorem checks_normal (host : Host) (rule : Rule) : NormalFor host rule := by
  induction rule using Rule.induct with
  | step rule items keys values filename fields =>
      intro strict v w site n n' d h
      cases h with
      | intro kind =>
          cases kind with
          | string kind tests => rw [Rule.normal_string kind]
          | number kind =>
              rw [Rule.normal_of_kind]
              intro hm
              cases hk : rule.kind <;> simp_all [Kind.isNumeric]
          | boolean kind =>
              rw [Rule.normal_of_kind]
              simp [kind]
          | any kind =>
              rw [Rule.normal_of_kind]
              simp [kind]
          | array kind sequence length nested each tests =>
              rw [Rule.normal_array kind nested]
              simp only [Value.erase]
              rw [← Value.setItems_eraseEntries, ← Value.setItems_eraseEntries,
                each.erase_eq (items _ nested)]
          | table kind nested each =>
              cases each with
              | intro list known cross =>
                  rw [Rule.normal_table kind nested]
                  simp only [Value.erase]
                  rw [list.erase_eq (fields _ nested) rfl]
          | map kind count nested each =>
              rw [Rule.normal_map kind nested]
              simp only [Value.erase]
              rw [each.erase_eq keys (values _ nested) rfl]
          | file kind =>
              rw [Rule.normal_of_kind]
              simp [kind]

end Output

end Nitr.Validate
