import Nitr.Validate.Visits

/-! # Visits and the pointers they draw

The tables a visit builds have the pointers it draws, each its own. So the slot of a visited
value belongs to one table, and a write through it reaches no other. -/

namespace Nitr.Validate

/-! ## Old tables -/

mutual

/-- Every table in the value is older than the pointer. -/
def Value.Old (s : ℕ) : Value → Prop
  | .table p _ es => p < s ∧ Value.OldEntries s es
  | .nil | .boolean _ | .integer _ | .number _ | .string _ | .function _ | .schema _ | .file ..
  | .other _ => True

def Value.OldEntries (s : ℕ) : List (Key × Value) → Prop
  | [] => True
  | (_, v) :: rest => v.Old s ∧ Value.OldEntries s rest

end

section Old

variable {s : ℕ}

theorem Value.oldEntries_iff {es : Entries} : Value.OldEntries s es ↔ ∀ e ∈ es, e.2.Old s := by
  induction es with
  | nil => simp [Value.OldEntries]
  | cons e es ih => simp [Value.OldEntries, ih]

theorem Value.old_nil : Value.nil.Old s := by simp [Value.Old]

theorem Value.old_string (k : LuaString) : (Value.string k).Old s := by simp [Value.Old]

theorem Value.OldEntries.get {es : Entries} (h : Value.OldEntries s es) (key : Key) :
    (es.get key).Old s := by
  obtain hnil | hmem := Entries.get_eq_nil_or_mem es key
  · rw [hnil]
    exact Value.old_nil
  · exact Value.oldEntries_iff.mp h _ hmem

theorem Literal.old_toLua (l : Literal) : l.toLua.Old s := by
  cases l with
  | str text => exact Value.old_string _
  | num n =>
      simp only [Literal.toLua]
      split <;> simp [Value.Old]
  | bool b => simp [Literal.toLua, Value.Old]

theorem Value.OldEntries.fieldValue {input : Entries} (h : Value.OldEntries s input)
    (rule : RuleKeys) (name : String) : (fieldValue rule input name).Old s := by
  unfold Nitr.Validate.fieldValue
  split
  · exact Literal.old_toLua _
  · exact h.get _

theorem Value.OldEntries.items {es : Entries} (h : Value.OldEntries s es) {len : ℕ} :
    ∀ v ∈ itemsOf len es, v.Old s := by
  intro v hv
  obtain ⟨i, -, rfl⟩ := List.mem_map.mp hv
  exact h.get _

end Old

/-! ## Trees as a walk makes them -/

/-- The rule of what is put under the key. -/
def Rule.nested (rule : Rule) (key : Key) : Option Rule :=
  match rule.kind with
  | .array => rule.items
  | .map => rule.values
  | .table => rule.fields.bind fun s => (s.fields.find? fun f => Key.ofString f.1 = key).map (·.2)
  | _ => none

def Kind.isContainer : Kind → Bool
  | .array | .table | .map => true
  | _ => false

section Formed

variable (s : ℕ)

mutual

/-- The visit drew the pointers from `n` up to `n'`, the first one for its own table; other
tables in it are older than `s`. -/
inductive Formed : ℕ → ℕ → Visit → Prop where
  | leaf {rule : Rule} {site : Site} {v : Value} {n : ℕ} (kind : rule.kind.isContainer = false)
      (old : v.Old s) : Formed n n (.mk rule site v [])
  | file {rule : Rule} {site : Site} {p : ℕ} {info : FileInfo} {name : Visit} {n n' : ℕ}
      (kind : rule.kind.isContainer = false) (slot : name.slot = ⟨n, .integer 1⟩)
      (leaf : name.rule.kind.isContainer = false) (formed : Formed (n + 1) n' name) :
      Formed n n' (.mk rule site (.file p info) [(.filename, name)])
  | table {rule : Rule} {site : Site} {len : ℕ} {parts : List (Role × Visit)} {n n' : ℕ}
      (kind : rule.kind.isContainer = true) (formed : FormedParts rule n (n + 1) n' parts) :
      Formed n n' (.mk rule site (.table n len (build Visit.checked parts [])) parts)

/-- The parts of a table of pointer `m`, from the pointer `n` on. -/
inductive FormedParts : Rule → ℕ → ℕ → ℕ → List (Role × Visit) → Prop where
  | nil {rule : Rule} {m n : ℕ} : FormedParts rule m n n []
  | value {rule : Rule} {m n n₁ n' : ℕ} {key : Key} {visit : Visit} {rest : List (Role × Visit)}
      (typed : rule.nested key = some visit.rule) (slot : visit.slot = ⟨m, key⟩)
      (formed : Formed n n₁ visit) (more : FormedParts rule m n₁ n' rest) :
      FormedParts rule m n n' ((.value key, visit) :: rest)
  | key {rule : Rule} {m n n₁ n' : ℕ} {k : LuaString} {name visit : Visit}
      {rest : List (Role × Visit)} (slot : name.slot = ⟨n, .integer 1⟩)
      (text : name.checked = .string k) (leaf : name.rule.kind.isContainer = false)
      (formed : Formed (n + 1) n₁ name)
      (more : FormedParts rule m n₁ n' ((.value (.string k), visit) :: rest)) :
      FormedParts rule m n n' ((.key (.string k), name) :: (.value (.string k), visit) :: rest)

end

end Formed

/-! ## Equations of visiting -/

section Equations

variable {host : Host} {rule r : Rule} {site : Site} {n p len : ℕ} {es : Entries}

theorem Rule.visit_leaf {v : Value} (h : rule.kind.isNumeric ∨ rule.kind = .boolean ∨ rule.kind = .any) :
    rule.visit host v site n = (.mk rule site v [], n) := by
  obtain ⟨keys, items, fields, mapKeys, values, filename⟩ := rule
  unfold Rule.visit
  have h' : keys.kind.isNumeric ∨ keys.kind = .boolean ∨ keys.kind = .any := h
  cases hk : keys.kind <;> simp_all [Kind.isNumeric]

theorem Rule.visit_string (h : rule.kind = .string) (k : LuaString) :
    rule.visit host (.string k) site n =
      (.mk rule site (.ofString (host.normalise rule.toRuleKeys k.toStringLossy)) [], n) := by
  obtain ⟨keys, items, fields, mapKeys, values, filename⟩ := rule
  unfold Rule.visit
  simp only [show keys.kind = .string from h]

end Equations

/-! ## The visits of an accepted value -/

/-- The visit is that of a value checked to `w`, with what was deferred for it. -/
structure Records (s n n' : ℕ) (rule : Rule) (site : Site) (w : Value) (d : List Pending)
    (visit : Visit) : Prop where
  rule : visit.rule = rule
  slot : visit.slot = site.slot
  checked : visit.checked = w
  pending : visit.pending = d
  formed : Formed s n n' visit

def RecordedFor (host : Host) (rule : Rule) : Prop :=
  ∀ {strict : Bool} {v w : Value} {site : Site} {n n' s : ℕ} {d : List Pending},
    Checks host strict rule v site n w n' d → rule.Unambiguous → v.Old s →
      ∃ visit, rule.visit host v site n = (visit, n') ∧ Records s n n' rule site w d visit

section Recorded

variable {host : Host} {strict : Bool} {n n' s : ℕ} {d : List Pending}

theorem partsPending_value (key : Key) (visit : Visit) (rest : List (Role × Visit)) :
    partsPending ((.value key, visit) :: rest) = visit.pending ++ partsPending rest := by
  rw [partsPending]
  simp

theorem partsPending_key (key : Key) (visit : Visit) (rest : List (Role × Visit)) :
    partsPending ((.key key, visit) :: rest) = visit.pending ++ partsPending rest := by
  rw [partsPending]
  simp

theorem ChecksItems.recorded {rule items : Rule} (hr : RecordedFor host items)
    (hu : items.Unambiguous) (hkind : rule.kind = .array) (hitems : rule.items = some items)
    {site : Site} {out i : ℕ} {seen : List Canonical} {vs ws : List Value}
    (h : ChecksItems host strict rule.toRuleKeys items site out i seen vs n ws n' d)
    (hold : ∀ v ∈ vs, v.Old s) (built : Entries) :
    ∃ parts, visitItems (items.visit host) site out i vs n = (parts, n') ∧
      partsPending parts = d ∧ build Visit.checked parts built = setItems i ws built ∧
      FormedParts s rule out n n' parts := by
  have hnested : ∀ key, rule.nested key = some items := fun key => by
    rw [Rule.nested, hkind]
    exact hitems
  induction vs generalizing i seen n ws d built with
  | nil =>
      cases h
      exact ⟨[], rfl, rfl, rfl, .nil⟩
  | cons v vs ih =>
      cases h with
      | @cons _ _ _ _ _ _ _ n₁ _ _ _ _ w _ ws _ d₂ unique item rest =>
          obtain ⟨visit, hvisit, hrec⟩ := hr item hu (hold v List.mem_cons_self)
          obtain ⟨more, hmore, hpending, hbuild, hformed⟩ :=
            ih rest (fun x hx => hold x (List.mem_cons_of_mem _ hx)) (built.set (.integer i) w)
          refine ⟨(.value (.integer i), visit) :: more, ?_, ?_, ?_, ?_⟩
          · rw [visitItems, hvisit, hmore]
          · rw [partsPending_value, hrec.pending, hpending]
          · rw [build, hrec.checked, hbuild, setItems]
          · exact .value (by rw [hnested, hrec.rule]) hrec.slot hrec.formed hformed

theorem RuleKeys.customFormat_eq_nil {rule : RuleKeys} (h : rule.kind ≠ .string) :
    rule.customFormat = [] := by
  unfold RuleKeys.customFormat
  split
  · rename_i hkind _
    exact absurd hkind h
  · rfl

theorem ownPending_string {rule : Rule} (h : rule.kind = .string) (site : Site) (w : Value) :
    ownPending rule site w =
      formatPending rule.toRuleKeys site w ++ hookPending rule.toRuleKeys site w := by
  rw [ownPending, Rule.schema, h, if_neg (by decide), RuleKeys.scripts, List.map_append,
    hookPending, formatPending, RuleKeys.customFormat, h]
  cases rule.format with
  | none => rfl
  | some format => cases format <;> rfl

theorem ownPending_other {rule : Rule} (hstring : rule.kind ≠ .string) (htable : rule.kind ≠ .table)
    (site : Site) (w : Value) : ownPending rule site w = hookPending rule.toRuleKeys site w := by
  rw [ownPending, Rule.schema, if_neg htable, RuleKeys.scripts,
    RuleKeys.customFormat_eq_nil hstring]
  rfl

/-- A leaf defers its own hooks only. -/
theorem records_leaf {rule : Rule} {site : Site} {w : Value}
    (hkind : rule.kind.isContainer = false) (hw : w.Old s) :
    Records s n n rule site w (ownPending rule site w) (.mk rule site w []) := by
  refine ⟨rfl, rfl, rfl, ?_, .leaf hkind hw⟩
  rw [Visit.pending, partsPending, List.nil_append]

theorem Checks.recorded_string {rule : Rule} {k : LuaString} {w : Value} {site : Site}
    (h : Checks host strict rule (.string k) site n w n' d) (s : ℕ) :
    ∃ visit, rule.visit host (.string k) site n = (visit, n') ∧
      Records s n n' rule site w d visit ∧ visit.rule.kind.isContainer = false := by
  cases h with
  | intro kind =>
      cases kind with
      | string hkind tests =>
          have hleaf : rule.kind.isContainer = false := by
            rw [hkind]
            rfl
          rw [Rule.visit_string hkind, ← ownPending_string hkind]
          exact ⟨_, rfl, records_leaf hleaf (Value.old_string _), hleaf⟩
      | any hkind =>
          have hleaf : rule.kind.isContainer = false := by
            rw [hkind]
            rfl
          rw [Rule.visit_leaf (.inr (.inr hkind)), List.nil_append,
            ← ownPending_other (by rw [hkind]; decide) (by rw [hkind]; decide)]
          exact ⟨_, rfl, records_leaf hleaf (Value.old_string _), hleaf⟩
      | number hkind value => cases value

theorem ChecksKey.recorded {keys : Option Rule} {site : Site} {k k' : LuaString}
    (h : ChecksKey host strict keys k (site.entry k) n k' n' d) (s : ℕ) :
    (visitKey (keys.map (Rule.visit host)) site k n = (k', [], n') ∧ n = n' ∧ d = []) ∨
      ∃ name, visitKey (keys.map (Rule.visit host)) site k n =
          (k', [(.key (.string k'), name)], n') ∧
        name.slot = ⟨n, .integer 1⟩ ∧ name.checked = .string k' ∧ name.pending = d ∧
        name.rule.kind.isContainer = false ∧ Formed s (n + 1) n' name := by
  cases h with
  | free => exact .inl ⟨rfl, rfl, rfl⟩
  | @ruled _ r _ _ _ _ _ _ checked =>
      obtain ⟨name, hvisit, hrec, hleaf⟩ := checked.recorded_string s
      refine .inr ⟨name, ?_, hrec.slot, hrec.checked, hrec.pending, hleaf, hrec.formed⟩
      simp only [visitKey, Option.map_some, hvisit, hrec.checked]

theorem ChecksPairs.recorded {rule values : Rule} (hr : RecordedFor host values)
    (hu : values.Unambiguous) (hkind : rule.kind = .map) (hvalues : rule.values = some values) {site : Site} {out : ℕ}
    {es built result : Entries}
    (h : ChecksPairs host strict rule.keys values site out es built n result n' d)
    (hold : Value.OldEntries s es) :
    ∃ parts, visitPairs (rule.keys.map (Rule.visit host)) (values.visit host) site out es n =
        (parts, n') ∧
      partsPending parts = d ∧ build Visit.checked parts built = result ∧
      FormedParts s rule out n n' parts := by
  have hnested : ∀ key, rule.nested key = some values := fun key => by
    rw [Rule.nested, hkind]
    exact hvalues
  induction es generalizing n built d with
  | nil =>
      cases h
      exact ⟨[], rfl, rfl, rfl, .nil⟩
  | cons e es ih =>
      obtain ⟨hv, hold⟩ := hold
      cases h with
      | @cons _ _ _ _ _ _ n₁ n₂ _ k k' v w _ _ _ d₁ d₂ d₃ key value rest =>
          obtain ⟨visit, hvisit, hrec⟩ := hr value hu hv
          obtain ⟨more, hmore, hpending, hbuild, hformed⟩ := ih rest hold
          have htyped : rule.nested (.string k') = some visit.rule := by rw [hnested, hrec.rule]
          obtain ⟨hkey, rfl, rfl⟩ | ⟨name, hkey, hslot, htext, hdeferred, hleaf, hname⟩ :=
            key.recorded s
          · refine ⟨(.value (.string k'), visit) :: more, ?_, ?_, ?_, ?_⟩
            · simp only [visitPairs, hkey, hvisit, hmore, List.nil_append]
            · rw [partsPending_value, hrec.pending, hpending, List.nil_append]
            · rw [build, hrec.checked, hbuild]
            · exact .value htyped hrec.slot hrec.formed hformed
          · refine ⟨(.key (.string k'), name) :: (.value (.string k'), visit) :: more, ?_, ?_, ?_, ?_⟩
            · simp only [visitPairs, hkey, hvisit, hmore, List.singleton_append]
            · rw [partsPending_key, hdeferred, partsPending_value, hrec.pending, hpending,
                List.append_assoc]
            · rw [build_key, build, hrec.checked, hbuild]
            · exact .key hslot htext hleaf hname (.value htyped hrec.slot hrec.formed hformed)

theorem Rule.nested_field {rule : Rule} {schema : SchemaDef} (hkind : rule.kind = .table)
    (hschema : rule.fields = some schema) (hd : (schema.fields.map (·.1)).Nodup)
    {f : String × Rule} (hf : f ∈ schema.fields) : rule.nested (.ofString f.1) = some f.2 := by
  have hfind := SchemaDef.rule_of_mem hd hf
  rw [Rule.nested, hkind]
  simp only [hschema, Option.bind_some, Key.ofString_inj]
  exact hfind

theorem ChecksFieldList.recorded {rule : Rule} {schema : SchemaDef} (hkind : rule.kind = .table)
    (hschema : rule.fields = some schema) (hd : (schema.fields.map (·.1)).Nodup)
    {fields : List (String × Rule)} (hsub : fields ⊆ schema.fields)
    (hf : ∀ f ∈ fields, RecordedFor host f.2) (hu : ∀ f ∈ fields, f.2.Unambiguous)
    {owner : SchemaOptions} {input built out : Entries} {path : FieldPath} {pointer : ℕ}
    (h : ChecksFieldList host strict fields owner input path pointer built n out n' d)
    (hold : Value.OldEntries s input) :
    ∃ parts, visitFields host fields owner input path pointer n = (parts, n') ∧
      partsPending parts = d ∧ build Visit.checked parts built = out ∧
      FormedParts s rule pointer n n' parts := by
  induction fields generalizing n built d with
  | nil =>
      cases h
      exact ⟨[], by rw [visitFields], rfl, rfl, .nil⟩
  | cons f fields ih =>
      have hsub' : fields ⊆ schema.fields := fun g hg => hsub (List.mem_cons_of_mem _ hg)
      have hf' : ∀ f ∈ fields, RecordedFor host f.2 := fun g hg => hf g (List.mem_cons_of_mem _ hg)
      have hu' : ∀ f ∈ fields, f.2.Unambiguous := fun g hg => hu g (List.mem_cons_of_mem _ hg)
      cases h with
      | absent missing optional rest =>
          obtain ⟨more, hmore, hpending, hbuild, hformed⟩ := ih hsub' hf' hu' rest
          refine ⟨more, ?_, hpending, hbuild, hformed⟩
          rw [visitFields, missing, hmore]
      | @present _ name r _ _ _ _ _ _ _ _ _ _ w d₁ d₂ given value rest =>
          have hmem : (name, r) ∈ schema.fields := hsub List.mem_cons_self
          obtain ⟨visit, hvisit, hrec⟩ := hf (name, r) List.mem_cons_self value
            (hu (name, r) List.mem_cons_self) (hold.fieldValue _ _)
          obtain ⟨more, hmore, hpending, hbuild, hformed⟩ := ih hsub' hf' hu' rest
          refine ⟨(.value (.ofString name), visit) :: more, ?_, ?_, ?_, ?_⟩
          · rw [visitFields]
            split
            · rename_i hnil
              exact absurd hnil given
            · simp only [hvisit, hmore]
          · rw [partsPending_value, hrec.pending, hpending]
          · rw [build, hrec.checked, hbuild]
          · refine .value ?_ hrec.slot hrec.formed hformed
            rw [hrec.rule]
            exact Rule.nested_field hkind hschema hd hmem

theorem ChecksName.recorded {filename : Option Rule} {info : FileInfo}
    (h : ChecksName host filename info n n') (s : ℕ) :
    (visitName (filename.map (Rule.visit host)) info n = ([], n') ∧ n = n') ∨
      ∃ name, visitName (filename.map (Rule.visit host)) info n = ([(.filename, name)], n') ∧
        name.slot = ⟨n, .integer 1⟩ ∧ name.rule.kind.isContainer = false ∧
        Formed s (n + 1) n' name := by
  cases h with
  | undeclared => exact .inl ⟨rfl, rfl⟩
  | unnamed optional missing =>
      refine .inl ⟨?_, rfl⟩
      unfold visitName
      rw [missing]
      rfl
  | @named r _ text w _ _ dropped given checked =>
      obtain ⟨name, hvisit, hrec, hleaf⟩ := Checks.recorded_string checked s
      refine .inr ⟨name, ?_, hrec.slot, hleaf, hrec.formed⟩
      simp only [visitName, Option.map_some, given, Value.ofString, hvisit]

end Recorded

end Nitr.Validate
