import Nitr.Validate.Run

/-! # Big-step semantics of a passing walk

`Checks` relates a rule and a value it accepts to the checked value, the
pointers drawn and the script checks deferred on the way. It is the graph of
`checkValue` where that succeeds, so what holds of every accepted value is proved
by induction on derivations. -/

namespace Nitr.Validate

/-! ## What a passing step adds to the context -/

/-- None of the tests is violated. -/
def Passes (tests : List Test) : Prop := ∀ t ∈ tests, t.violated = false

theorem firstViolated_eq_none {tests : List Test} : firstViolated tests = none ↔ Passes tests := by
  unfold firstViolated Passes
  rw [List.find?_eq_none]
  simp

/-- A script check deferred at a site. -/
def Site.pending (site : Site) (rule : RuleKeys) (value : Value) (check : PendingCheck) : Pending :=
  .field site.slot site.path.render site.path.fieldName rule site.owner value check

def formatPending (rule : RuleKeys) (site : Site) (value : Value) : List Pending :=
  match rule.format with
  | some (.custom custom) => [site.pending rule value (.format custom)]
  | _ => []

def hookPending (rule : RuleKeys) (site : Site) (value : Value) : List Pending :=
  rule.hooks.map (site.pending rule value)

def schemaPending (schema : SchemaDef) (table : Value) (path : FieldPath) : List Pending :=
  (List.range schema.options.checks.length).map (.schema table path.render schema)

/-- The context after drawing pointers up to `next` and deferring `items`. -/
def Ctx.advance (ctx : Ctx) (next : ℕ) (items : List Pending) : Ctx :=
  { ctx with next, pending := ctx.pending ++ items }

namespace Ctx

variable (ctx : Ctx) (n m : ℕ) (xs ys : List Pending)

@[simp] theorem advance_strict : (ctx.advance n xs).strict = ctx.strict := rfl
@[simp] theorem advance_next : (ctx.advance n xs).next = n := rfl
@[simp] theorem advance_errors : (ctx.advance n xs).errors = ctx.errors := rfl
@[simp] theorem advance_pending : (ctx.advance n xs).pending = ctx.pending ++ xs := rfl

@[simp] theorem advance_advance :
    (ctx.advance n xs).advance m ys = ctx.advance m (xs ++ ys) := by
  simp [advance]

@[simp] theorem advance_self : ctx.advance ctx.next [] = ctx := by
  simp [advance]

end Ctx

/-! ## Small parts of the relation -/

/-- The output of an item loop: every item under its index. -/
def setItems : ℕ → List Value → Entries → Entries
  | _, [], out => out
  | i, w :: ws, out => setItems (i + 1) ws (out.set (.integer i) w)

def totalBytes (items : List Value) : ℕ := items.foldl addBytes 0

/-- Where the `i`-th item of an array is checked. -/
def Site.item (site : Site) (out i : ℕ) : Site :=
  { site with path := .index i :: site.path, slot := ⟨out, .integer i⟩ }

/-- Where an entry of a map is checked, but for the slot. -/
def Site.entry (site : Site) (key : LuaString) : Site :=
  { site with path := .key key.toStringLossy :: site.path }

def Site.within (site : Site) (slot : Slot) : Site := { site with slot }

/-- Where a field of a table is checked. -/
def fieldSite (owner : SchemaOptions) (path : FieldPath) (pointer : ℕ) (name : String) : Site :=
  { owner, path := .field name :: path, slot := ⟨pointer, .ofString name⟩ }

def filenameSite (pointer : ℕ) : Site :=
  { owner := {}, path := [.field "filename"], slot := ⟨pointer, .integer 1⟩ }

/-- No undeclared key, where that is asked for. -/
def Known (strict : Bool) (schema : SchemaDef) (input : Entries) : Prop :=
  (strict || schema.options.strict) = true → unknownKeys schema input = []

/-! ## The relation -/

section

variable (host : Host)

mutual

/-- `Checks strict rule value site n checked n' deferred`: the rule accepts the value
at the site, drawing the pointers from `n` up to `n'`. -/
inductive Checks : Bool → Rule → Value → Site → ℕ → Value → ℕ → List Pending → Prop where
  | intro {strict : Bool} {rule : Rule} {v w : Value} {site : Site} {n n' : ℕ}
      {deferred : List Pending} (kind : ChecksKind strict rule v site n w n' deferred) :
      Checks strict rule v site n w n' (deferred ++ hookPending rule.toRuleKeys site w)

/-- The same up to the rule's own `check` and `transform`. -/
inductive ChecksKind : Bool → Rule → Value → Site → ℕ → Value → ℕ → List Pending → Prop where
  | string {strict : Bool} {rule : Rule} {s : LuaString} {site : Site} {n : ℕ}
      (kind : rule.kind = .string)
      (tests : Passes (stringTests host rule.toRuleKeys
        (host.normalise rule.toRuleKeys s.toStringLossy))) :
      ChecksKind strict rule (.string s) site n
        (.ofString (host.normalise rule.toRuleKeys s.toStringLossy)) n
        (formatPending rule.toRuleKeys site
          (.ofString (host.normalise rule.toRuleKeys s.toStringLossy)))
  | number {strict : Bool} {rule : Rule} {v : Value} {site : Site} {n : ℕ} {f : F64}
      (kind : rule.kind.isNumeric = true) (value : v.toF64 = some f) (finite : f.isFinite = true)
      (whole : rule.kind = .integer → f.isWhole = true)
      (tests : Passes (numberTests host rule.toRuleKeys v f)) :
      ChecksKind strict rule v site n v n []
  | boolean {strict : Bool} {rule : Rule} {b : Bool} {site : Site} {n : ℕ}
      (kind : rule.kind = .boolean) (tests : Passes (commonTests rule.toRuleKeys (.boolean b))) :
      ChecksKind strict rule (.boolean b) site n (.boolean b) n []
  | any {strict : Bool} {rule : Rule} {v : Value} {site : Site} {n max : ℕ} {json : String}
      (kind : rule.kind = .any) (bounds : host.checkJsonBounds v.erase = .ok ())
      (bytes : rule.maxBytes = some max) (text : host.toJson v.erase = some json)
      (size : json.utf8ByteSize ≤ max) : ChecksKind strict rule v site n v n []
  | array {strict : Bool} {rule items : Rule} {site : Site} {n n' p len : ℕ} {es : Entries}
      {ws : List Value} {deferred : List Pending} (kind : rule.kind = .array)
      (sequence : isSequence len es = true) (length : Passes (lengthTests rule.toRuleKeys len))
      (nested : rule.items = some items)
      (each : ChecksItems strict rule.toRuleKeys items site n 1 [] (itemsOf len es) (n + 1) ws n'
        deferred)
      (tests : Passes (itemTests rule.toRuleKeys (totalBytes (itemsOf len es))
        (itemsOf len (setItems 1 ws [])))) :
      ChecksKind strict rule (.table p len es) site n (.table n len (setItems 1 ws [])) n' deferred
  | table {strict : Bool} {rule : Rule} {schema : SchemaDef} {site : Site} {n n' p : ℕ}
      {input out : Entries} {deferred : List Pending} (kind : rule.kind = .table)
      (nested : rule.fields = some schema)
      (fields : ChecksFields strict schema input site.path n (n + 1) out n' deferred) :
      ChecksKind strict rule (.table p 0 input) site n (.table n 0 out) n' deferred
  | map {strict : Bool} {rule values : Rule} {site : Site} {n n' p len : ℕ} {es out : Entries}
      {deferred : List Pending} (kind : rule.kind = .map)
      (count : Passes (countTests rule.toRuleKeys es.length)) (nested : rule.values = some values)
      (each : ChecksPairs strict rule.keys values site n es [] (n + 1) out n' deferred) :
      ChecksKind strict rule (.table p len es) site n (.table n 0 out) n' deferred
  | file {strict : Bool} {rule : Rule} {site : Site} {n n' p max : ℕ} {info : FileInfo}
      {file : FileRule} (kind : rule.kind = .file) (part : rule.file = some file)
      (bytes : rule.maxBytes = some max)
      (tests : Passes (fileTests host file (min max info.cap) info))
      (name : ChecksName rule.filename info n n')
      (content : Passes (contentTests host file info)) :
      ChecksKind strict rule (.file p info) site n (.file p info) n' []

/-- The item loop from the `i`-th item on, with the canonical forms seen. -/
inductive ChecksItems : Bool → RuleKeys → Rule → Site → ℕ → ℕ → List Canonical → List Value →
    ℕ → List Value → ℕ → List Pending → Prop where
  | nil {strict : Bool} {rule : RuleKeys} {items : Rule} {site : Site} {out i n : ℕ}
      {seen : List Canonical} : ChecksItems strict rule items site out i seen [] n [] n []
  | cons {strict : Bool} {rule : RuleKeys} {items : Rule} {site : Site} {out i n n₁ n₂ : ℕ}
      {seen seen' : List Canonical} {v w : Value} {vs ws : List Value} {d₁ d₂ : List Pending}
      (unique : noteUnique host rule seen v = .ok (some seen'))
      (item : Checks strict items v (site.item out i) n w n₁ d₁)
      (rest : ChecksItems strict rule items site out (i + 1) seen' vs n₁ ws n₂ d₂) :
      ChecksItems strict rule items site out i seen (v :: vs) n (w :: ws) n₂ (d₁ ++ d₂)

/-- The entry loop of a map, from what is built to the output. -/
inductive ChecksPairs : Bool → Option Rule → Rule → Site → ℕ → Entries → Entries → ℕ → Entries →
    ℕ → List Pending → Prop where
  | nil {strict : Bool} {keys : Option Rule} {values : Rule} {site : Site} {pointer n : ℕ}
      {built : Entries} : ChecksPairs strict keys values site pointer [] built n built n []
  | cons {strict : Bool} {keys : Option Rule} {values : Rule} {site : Site}
      {pointer n n₁ n₂ n₃ : ℕ} {k k' : LuaString} {v w : Value} {more built out : Entries}
      {d₁ d₂ d₃ : List Pending}
      (key : ChecksKey strict keys k (site.entry k) n k' n₁ d₁)
      (value : Checks strict values v ((site.entry k).within ⟨pointer, .string k'⟩) n₁ w n₂ d₂)
      (rest : ChecksPairs strict keys values site pointer more (built.set (.string k') w) n₂ out
        n₃ d₃) :
      ChecksPairs strict keys values site pointer ((.string k, v) :: more) built n out n₃
        (d₁ ++ d₂ ++ d₃)

/-- The key of an entry; its slot is a scratch table. -/
inductive ChecksKey : Bool → Option Rule → LuaString → Site → ℕ → LuaString → ℕ → List Pending →
    Prop where
  | free {strict : Bool} {k : LuaString} {site : Site} {n : ℕ} :
      ChecksKey strict none k site n k n []
  | ruled {strict : Bool} {rule : Rule} {k k' : LuaString} {site : Site} {n n' : ℕ}
      {deferred : List Pending}
      (checked : Checks strict rule (.string k) (site.within ⟨n, .integer 1⟩) (n + 1) (.string k')
        n' deferred) : ChecksKey strict (some rule) k site n k' n' deferred

/-- A table against a schema: its fields, its keys, its groups. -/
inductive ChecksFields : Bool → SchemaDef → Entries → FieldPath → ℕ → ℕ → Entries → ℕ →
    List Pending → Prop where
  | intro {strict : Bool} {schema : SchemaDef} {input out : Entries} {path : FieldPath}
      {pointer n n' : ℕ} {deferred : List Pending}
      (fields : ChecksFieldList strict schema.fields schema.options input path pointer [] n out n'
        deferred)
      (known : Known strict schema input)
      (cross : crossFailures host schema out path = .ok []) :
      ChecksFields strict schema input path pointer n out n'
        (deferred ++ schemaPending schema (.table pointer 0 out) path)

inductive ChecksFieldList : Bool → List (String × Rule) → SchemaOptions → Entries → FieldPath →
    ℕ → Entries → ℕ → Entries → ℕ → List Pending → Prop where
  | nil {strict : Bool} {owner : SchemaOptions} {input built : Entries} {path : FieldPath}
      {pointer n : ℕ} : ChecksFieldList strict [] owner input path pointer built n built n []
  | absent {strict : Bool} {name : String} {rule : Rule} {fields : List (String × Rule)}
      {owner : SchemaOptions} {input built out : Entries} {path : FieldPath} {pointer n n' : ℕ}
      {deferred : List Pending} (missing : fieldValue rule.toRuleKeys input name = .nil)
      (optional : rule.required = false)
      (rest : ChecksFieldList strict fields owner input path pointer built n out n' deferred) :
      ChecksFieldList strict ((name, rule) :: fields) owner input path pointer built n out n'
        deferred
  | present {strict : Bool} {name : String} {rule : Rule} {fields : List (String × Rule)}
      {owner : SchemaOptions} {input built out : Entries} {path : FieldPath}
      {pointer n n₁ n₂ : ℕ} {w : Value} {d₁ d₂ : List Pending}
      (given : fieldValue rule.toRuleKeys input name ≠ .nil)
      (value : Checks strict rule (fieldValue rule.toRuleKeys input name)
        (fieldSite owner path pointer name) n w n₁ d₁)
      (rest : ChecksFieldList strict fields owner input path pointer
        (built.set (.ofString name) w) n₁ out n₂ d₂) :
      ChecksFieldList strict ((name, rule) :: fields) owner input path pointer built n out n₂
        (d₁ ++ d₂)

/-- The filename rule of a file, in a scratch context. -/
inductive ChecksName : Option Rule → FileInfo → ℕ → ℕ → Prop where
  | undeclared {info : FileInfo} {n : ℕ} : ChecksName none info n n
  | unnamed {rule : Rule} {info : FileInfo} {n : ℕ} (optional : rule.required = false)
      (missing : info.safeFilename = none) : ChecksName (some rule) info n n
  | named {rule : Rule} {info : FileInfo} {name : String} {w : Value} {n n' : ℕ}
      {dropped : List Pending} (given : info.safeFilename = some name)
      (checked : Checks false rule (.ofString name) (filenameSite n) (n + 1) w n' dropped) :
      ChecksName (some rule) info n n'

end

end

/-! ## Induction over rules -/

mutual

theorem Rule.induct {P : Rule → Prop}
    (step : ∀ rule : Rule, (∀ r, rule.items = some r → P r) → (∀ r, rule.keys = some r → P r) →
      (∀ r, rule.values = some r → P r) → (∀ r, rule.filename = some r → P r) →
      (∀ s, rule.fields = some s → ∀ f ∈ s.fields, P f.2) → P rule) : ∀ rule, P rule
  | ⟨rule, items, fields, keys, values, filename⟩ => by
      refine step _ ?_ ?_ ?_ ?_ ?_
      · exact Rule.inductOption step items
      · exact Rule.inductOption step keys
      · exact Rule.inductOption step values
      · exact Rule.inductOption step filename
      · exact SchemaDef.inductOption step fields
  termination_by structural r => r

theorem Rule.inductOption {P : Rule → Prop}
    (step : ∀ rule : Rule, (∀ r, rule.items = some r → P r) → (∀ r, rule.keys = some r → P r) →
      (∀ r, rule.values = some r → P r) → (∀ r, rule.filename = some r → P r) →
      (∀ s, rule.fields = some s → ∀ f ∈ s.fields, P f.2) → P rule) :
    ∀ (rule : Option Rule), ∀ r, rule = some r → P r
  | some rule, _, rfl => Rule.induct step rule
  termination_by structural r => r

theorem SchemaDef.inductOption {P : Rule → Prop}
    (step : ∀ rule : Rule, (∀ r, rule.items = some r → P r) → (∀ r, rule.keys = some r → P r) →
      (∀ r, rule.values = some r → P r) → (∀ r, rule.filename = some r → P r) →
      (∀ s, rule.fields = some s → ∀ f ∈ s.fields, P f.2) → P rule) :
    ∀ (schema : Option SchemaDef), ∀ s, schema = some s → ∀ f ∈ s.fields, P f.2
  | some ⟨fields, _⟩, _, rfl => Rule.inductList step fields
  termination_by structural s => s

theorem Rule.inductList {P : Rule → Prop}
    (step : ∀ rule : Rule, (∀ r, rule.items = some r → P r) → (∀ r, rule.keys = some r → P r) →
      (∀ r, rule.values = some r → P r) → (∀ r, rule.filename = some r → P r) →
      (∀ s, rule.fields = some s → ∀ f ∈ s.fields, P f.2) → P rule) :
    ∀ (fields : List (String × Rule)), ∀ f ∈ fields, P f.2
  | [], _, h => nomatch h
  | (_, rule) :: rest, f, h => by
      cases h with
      | head => exact Rule.induct step rule
      | tail _ h => exact Rule.inductList step rest f h
  termination_by structural f => f

end

/-! ## Inverting the walk -/

namespace Check

variable {α β : Type}

theorem bind_eq_ok {x : Check α} {f : α → Check β} {ctx ctx' : Ctx} {b : β} :
    (x >>= f) ctx = .ok (b, ctx') ↔
      ∃ a c, x ctx = .ok (a, c) ∧ f a c = .ok (b, ctx') := by
  change (x ctx >>= fun p => f p.1 p.2) = _ ↔ _
  cases hx : x ctx with
  | error fault =>
      constructor
      · intro h
        cases h
      · rintro ⟨a, c, h, -⟩
        cases h
  | ok p =>
      constructor
      · intro h
        exact ⟨p.1, p.2, rfl, h⟩
      · rintro ⟨a, c, h, hf⟩
        cases h
        exact hf

@[simp] theorem pure_apply (a : α) (ctx : Ctx) : (Pure.pure a : Check α) ctx = .ok (a, ctx) := rfl

theorem lift_eq_ok {x : Except Fault α} {ctx ctx' : Ctx} {a : α} :
    Check.lift x ctx = .ok (a, ctx') ↔ x = .ok a ∧ ctx' = ctx := by
  cases x with
  | error fault => simp [Check.lift]
  | ok b => simp [Check.lift, eq_comm]

@[simp] theorem createTable_apply (ctx : Ctx) :
    createTable ctx = .ok (ctx.next, { ctx with next := ctx.next + 1 }) := rfl

end Check

section Walk

variable {host : Host} {rule : RuleKeys} {site : Site}

theorem reject_apply (code : String) (params : Params) (reason : Option String) (ctx : Ctx) :
    ∃ entry, reject host rule site code params reason ctx =
      .ok (none, { ctx with errors := ctx.errors ++ [entry] }) := ⟨_, rfl⟩

theorem applyTests_eq_some {tests : List Test} {next : Check (Option Value)} {ctx ctx' : Ctx}
    {w : Value} :
    applyTests host rule site tests next ctx = .ok (some w, ctx') ↔
      Passes tests ∧ next ctx = .ok (some w, ctx') := by
  unfold applyTests
  rw [← firstViolated_eq_none]
  cases h : firstViolated tests with
  | none => simp
  | some test =>
      obtain ⟨entry, he⟩ := @reject_apply host rule site test.rule test.params none ctx
      simp [he]

theorem deferFormat_apply (value : Value) (ctx : Ctx) :
    deferFormat rule site value ctx =
      .ok ((), ctx.advance ctx.next (formatPending rule site value)) := by
  unfold deferFormat formatPending
  cases rule.format with
  | none => simp
  | some format =>
      cases format with
      | builtin format => simp
      | custom custom => rfl

theorem deferHooks_some (value : Value) (ctx : Ctx) :
    deferHooks rule site (some value) ctx =
      .ok (some value, ctx.advance ctx.next (hookPending rule site value)) := by
  have h : ∀ (hooks : List PendingCheck) (ctx : Ctx), deferAll rule site value hooks ctx =
      .ok ((), ctx.advance ctx.next (hooks.map (site.pending rule value))) := by
    intro hooks
    induction hooks with
    | nil => simp [deferAll]
    | cons check rest ih =>
        intro ctx
        apply Check.bind_eq_ok.mpr
        refine ⟨(), _, rfl, ?_⟩
        rw [ih]
        simp [Ctx.advance, Site.pending]
  apply Check.bind_eq_ok.mpr
  exact ⟨(), _, h rule.hooks ctx, rfl⟩

theorem rejectType_ne_some {ctx ctx' : Ctx} {w : Value} :
    rejectType host rule site ctx ≠ .ok (some w, ctx') := by
  intro h
  cases h

end Walk

end Nitr.Validate
