import Nitr.Validate.Revalidate

/-! # Checks do not see their surroundings

Without script hooks a check adds to the context and reads nothing from it but the
`strict` flag: from two contexts it ends alike, with the same errors and with values that
differ in the identities of new tables only. -/

namespace Nitr.Validate

/-! ## Alike computations -/

/-- Two results: the same fault, or related values with the same errors added. -/
inductive Outcome {α β : Type} (R : α → β → Prop) (ctx ctx' : Ctx) :
    Except Fault (α × Ctx) → Except Fault (β × Ctx) → Prop where
  | fault (fault : Fault) : Outcome R ctx ctx' (.error fault) (.error fault)
  | ok {a : α} {b : β} (related : R a b) (added : List ErrorEntry) (n n' : ℕ) :
      Outcome R ctx ctx' (.ok (a, { ctx with next := n, errors := ctx.errors ++ added }))
        (.ok (b, { ctx' with next := n', errors := ctx'.errors ++ added }))

def Alike {α β : Type} (R : α → β → Prop) (x : Check α) (y : Check β) : Prop :=
  ∀ ctx ctx', ctx.strict = ctx'.strict → Outcome R ctx ctx' (x ctx) (y ctx')

namespace Alike

variable {α β γ δ : Type} {R : α → β → Prop} {S : γ → δ → Prop}

theorem pure {a : α} {b : β} (h : R a b) :
    Alike R (Pure.pure a : Check α) (Pure.pure b : Check β) := by
  intro ctx ctx' _
  have := @Outcome.ok α β R ctx ctx' a b h [] ctx.next ctx'.next
  simpa using this

/-- The second parts need to be alike only for results the first parts can have. -/
theorem bind_of_reached {x : Check α} {y : Check β} {f : α → Check γ} {g : β → Check δ}
    (hx : Alike R x y)
    (hf : ∀ a b, R a b → (∃ ctx c, x ctx = .ok (a, c)) → (∃ ctx c, y ctx = .ok (b, c)) →
      Alike S (f a) (g b)) : Alike S (x >>= f) (y >>= g) := by
  intro ctx ctx' hstrict
  change Outcome S ctx ctx' (x ctx >>= fun p => f p.1 p.2) (y ctx' >>= fun p => g p.1 p.2)
  generalize hr : x ctx = r
  generalize hr' : y ctx' = r'
  have houtcome := hx ctx ctx' hstrict
  rw [hr, hr'] at houtcome
  cases houtcome with
  | fault fault => exact .fault fault
  | @ok a b related added n n' =>
      have hnext := hf a b related ⟨_, _, hr⟩ ⟨_, _, hr'⟩
        { ctx with next := n, errors := ctx.errors ++ added }
        { ctx' with next := n', errors := ctx'.errors ++ added } hstrict
      change Outcome S ctx ctx' (f a { ctx with next := n, errors := ctx.errors ++ added })
        (g b { ctx' with next := n', errors := ctx'.errors ++ added })
      generalize f a { ctx with next := n, errors := ctx.errors ++ added } = s at hnext
      generalize g b { ctx' with next := n', errors := ctx'.errors ++ added } = s' at hnext
      cases hnext with
      | fault fault => exact .fault fault
      | ok related' added' m m' =>
          simp only [List.append_assoc]
          exact .ok related' (added ++ added') m m'

theorem bind {x : Check α} {y : Check β} {f : α → Check γ} {g : β → Check δ} (hx : Alike R x y)
    (hf : ∀ a b, R a b → Alike S (f a) (g b)) : Alike S (x >>= f) (y >>= g) :=
  bind_of_reached hx fun a b hab _ _ => hf a b hab

theorem throw (fault : Fault) : Alike R (Check.throw fault) (Check.throw fault) := by
  intro ctx ctx' _
  exact .fault fault


theorem lift (x : Except Fault α) : Alike Eq (Check.lift x) (Check.lift x) := by
  intro ctx ctx' hstrict
  cases x with
  | error fault => exact .fault fault
  | ok a => exact pure (rfl : a = a) ctx ctx' hstrict

theorem createTable : Alike (fun _ _ => True) Check.createTable Check.createTable := by
  intro ctx ctx' _
  have := @Outcome.ok ℕ ℕ (fun _ _ => True) ctx ctx' ctx.next ctx'.next trivial [] (ctx.next + 1)
    (ctx'.next + 1)
  simpa using this

theorem push (entry : ErrorEntry) : Alike (fun _ _ => True) (Check.push entry) (Check.push entry) := by
  intro ctx ctx' _
  exact .ok trivial [entry] ctx.next ctx'.next

theorem fail (host : Host) (f : Failure) :
    Alike (fun _ _ => True) (Check.fail host f) (Check.fail host f) :=
  push _

theorem failAll (host : Host) (fs : List Failure) :
    Alike (fun _ _ => True) (Check.failAll host fs) (Check.failAll host fs) := by
  induction fs with
  | nil => exact pure trivial
  | cons f rest ih => exact bind (fail host f) fun _ _ _ => ih

end Alike

/-! ## Rules without hooks -/

/-- No script hook at any depth. -/
inductive Rule.Hookless : Rule → Prop where
  | intro {rule : Rule} (check : rule.check = none) (transform : rule.transform = none)
      (format : ∀ c, rule.format ≠ some (.custom c))
      (items : ∀ r, rule.items = some r → r.Hookless) (keys : ∀ r, rule.keys = some r → r.Hookless)
      (values : ∀ r, rule.values = some r → r.Hookless)
      (filename : ∀ r, rule.filename = some r → r.Hookless)
      (checks : ∀ s, rule.fields = some s → s.options.checks = [])
      (fields : ∀ s, rule.fields = some s → ∀ f ∈ s.fields, f.2.Hookless) : rule.Hookless

structure SchemaDef.Hookless (schema : SchemaDef) : Prop where
  checks : schema.options.checks = []
  fields : ∀ f ∈ schema.fields, f.2.Hookless

/-- The same value but for the identities of tables, or none. -/
def SameOption (a b : Option Value) : Prop := a.map Value.erase = b.map Value.erase

/-- Where a value lands is not seen by the check. -/
def Blind (check : Checker) : Prop :=
  ∀ v (site site' : Site), site.owner = site'.owner → site.path = site'.path →
    Alike SameOption (check v site) (check v site')

section Scalars

variable {host : Host} {rule : RuleKeys} {site site' : Site}

theorem reject_alike (howner : site.owner = site'.owner) (hpath : site.path = site'.path)
    (code : String) (params : Params) (reason : Option String) :
    Alike SameOption (reject host rule site code params reason)
      (reject host rule site' code params reason) := by
  unfold reject
  rw [howner, hpath]
  exact Alike.bind (Alike.fail host _) fun _ _ _ => Alike.pure rfl

theorem applyTests_alike (howner : site.owner = site'.owner) (hpath : site.path = site'.path)
    {tests tests' : List Test} (htests : tests = tests') {next next' : Check (Option Value)}
    (hnext : Alike SameOption next next') :
    Alike SameOption (applyTests host rule site tests next)
      (applyTests host rule site' tests' next') := by
  rw [htests]
  unfold applyTests
  split
  · exact reject_alike howner hpath _ _ _
  · exact hnext

theorem deferFormat_eq (hformat : ∀ c, rule.format ≠ some (.custom c)) (site : Site)
    (value : Value) : deferFormat rule site value = pure () := by
  unfold deferFormat
  split
  · rename_i custom hcustom
    exact absurd hcustom (hformat custom)
  · rfl

theorem checkString_blind (hformat : ∀ c, rule.format ≠ some (.custom c)) :
    Blind (checkString host rule) := by
  intro v site site' howner hpath
  cases v with
  | string s =>
      simp only [checkString, deferFormat_eq hformat, pure_bind]
      exact applyTests_alike howner hpath rfl (Alike.pure rfl)
  | _ => exact reject_alike howner hpath _ _ _

theorem checkNumber_blind : Blind (checkNumber host rule) := by
  intro v site site' howner hpath
  unfold checkNumber
  split
  · split
    · exact reject_alike howner hpath _ _ _
    · exact applyTests_alike howner hpath rfl (Alike.pure rfl)
  · exact reject_alike howner hpath _ _ _

theorem checkBoolean_blind : Blind (checkBoolean host rule) := by
  intro v site site' howner hpath
  cases v with
  | boolean b => exact applyTests_alike howner hpath rfl (Alike.pure rfl)
  | _ => exact reject_alike howner hpath _ _ _

theorem checkAny_blind : Blind (checkAny host rule) := by
  intro v site site' howner hpath
  unfold checkAny
  split
  · exact Alike.throw _
  · split
    · exact Alike.throw _
    · split
      · exact reject_alike howner hpath _ _ _
      · split
        · exact reject_alike howner hpath _ _ _
        · exact Alike.pure rfl

end Scalars

/-! ## Containers -/

section Containers

variable {host : Host} {rule : RuleKeys}

/-- The item loop so far, but for the identities of tables. -/
structure SameItems (a b : ItemState) : Prop where
  seen : a.seen = b.seen
  ok : a.ok = b.ok
  totalBytes : a.totalBytes = b.totalBytes
  out : Value.eraseEntries a.out = Value.eraseEntries b.out

/-- Both loops went on, or both stopped. -/
def SameLoop (a b : Option ItemState) : Prop :=
  match a, b with
  | some s, some s' => SameItems s s'
  | none, none => True
  | _, _ => False

theorem eraseEntries_set {es es' : Entries} {w w' : Value}
    (hes : Value.eraseEntries es = Value.eraseEntries es') (hw : w.erase = w'.erase) (key : Key) :
    Value.eraseEntries (es.set key w) = Value.eraseEntries (es'.set key w') := by
  rw [← Value.set_eraseEntries, ← Value.set_eraseEntries, hes, hw]

theorem checkItems_alike {check : Checker} (hcheck : Blind check) {site site' : Site}
    (howner : site.owner = site'.owner) (hpath : site.path = site'.path) (out out' : ℕ)
    (items : List Value) :
    ∀ (i : ℕ) (state state' : ItemState), SameItems state state' →
      Alike SameLoop (checkItems host rule check site out i items state)
        (checkItems host rule check site' out' i items state') := by
  induction items with
  | nil =>
      intro i state state' hstate
      exact Alike.pure hstate
  | cons item rest ih =>
      intro i state state' hstate
      unfold checkItems
      rw [hstate.seen]
      refine Alike.bind (Alike.lift _) ?_
      rintro seen _ rfl
      cases seen with
      | none =>
          refine Alike.bind (reject_alike howner hpath _ _ _) fun _ _ _ => ?_
          exact Alike.pure trivial
      | some seen =>
          refine Alike.bind (hcheck item _ _ howner (by rw [hpath])) fun w w' hw => ?_
          cases w with
          | none =>
              cases w' with
              | some w' => cases hw
              | none =>
                  refine ih (i + 1) _ _ ⟨rfl, rfl, ?_, hstate.out⟩
                  simp only [hstate.totalBytes]
          | some w =>
              cases w' with
              | none => cases hw
              | some w' =>
                  refine ih (i + 1) _ _ ⟨rfl, hstate.ok, ?_, ?_⟩
                  · simp only [hstate.totalBytes]
                  · exact eraseEntries_set hstate.out (Option.some.inj hw) _

theorem itemTests_of_erase {len total : ℕ} {es es' : Entries}
    (h : Value.eraseEntries es = Value.eraseEntries es') :
    itemTests rule total (itemsOf len es) = itemTests rule total (itemsOf len es') := by
  have hmap : (itemsOf len es).map Value.erase = (itemsOf len es').map Value.erase := by
    rw [← Value.itemsOf_eraseEntries, ← Value.itemsOf_eraseEntries, h]
  unfold itemTests
  rw [hasItem_of_erase hmap]

theorem checkArray_blind {items : Option Checker} (hitems : ∀ c, items = some c → Blind c) :
    Blind (checkArray host rule items) := by
  intro v site site' howner hpath
  cases v with
  | table p len entries =>
      simp only [checkArray]
      split
      · exact reject_alike howner hpath _ _ _
      · refine applyTests_alike howner hpath rfl ?_
        cases items with
        | none => exact Alike.throw _
        | some check =>
            refine Alike.bind Alike.createTable fun out out' _ => ?_
            refine Alike.bind (checkItems_alike (hitems check rfl) howner hpath out out' _ 1 _ _
              ⟨rfl, rfl, rfl, rfl⟩) fun state state' hstate => ?_
            cases state with
            | none =>
                cases state' with
                | some state' => exact hstate.elim
                | none => exact Alike.pure rfl
            | some state =>
                cases state' with
                | none => exact hstate.elim
                | some state' =>
                    have hsame : SameItems state state' := hstate
                    simp only [hsame.ok]
                    split
                    · exact Alike.pure rfl
                    · rw [hsame.totalBytes]
                      refine applyTests_alike howner hpath (itemTests_of_erase hsame.out) ?_
                      refine Alike.pure ?_
                      simp [SameOption, Value.erase, hsame.out]
  | _ => exact reject_alike howner hpath _ _ _

/-- The same flag, and the same entries but for the identities of tables. -/
def SameBuilt (a b : Bool × Entries) : Prop :=
  a.1 = b.1 ∧ Value.eraseEntries a.2 = Value.eraseEntries b.2

theorem checkPairKey_alike {keys : Option Checker} (hkeys : ∀ c, keys = some c → Blind c)
    {site site' : Site} (howner : site.owner = site'.owner) (hpath : site.path = site'.path)
    (key : LuaString) :
    Alike SameOption (checkPairKey keys site key) (checkPairKey keys site' key) := by
  cases keys with
  | none => exact Alike.pure rfl
  | some check =>
      exact Alike.bind Alike.createTable fun _ _ _ => hkeys check rfl _ _ _ howner hpath

theorem eq_string_of_erase_eq {w w' : Value} (h : w.erase = w'.erase) {k : LuaString}
    (hw : w = .string k) : w' = .string k := by
  rw [hw] at h
  exact Value.eq_string_of_erase h.symm

theorem checkPairs_alike {keys : Option Checker} {check : Checker}
    (hkeys : ∀ c, keys = some c → Blind c) (hcheck : Blind check) {site site' : Site}
    (howner : site.owner = site'.owner) (hpath : site.path = site'.path) (out out' : ℕ)
    (entries : Entries) :
    ∀ (ok : Bool) (built built' : Entries),
      Value.eraseEntries built = Value.eraseEntries built' →
      Alike SameBuilt (checkPairs host rule keys check site out entries ok built)
        (checkPairs host rule keys check site' out' entries ok built') := by
  induction entries with
  | nil =>
      intro ok built built' hbuilt
      exact Alike.pure ⟨rfl, hbuilt⟩
  | cons e rest ih =>
      intro ok built built' hbuilt
      obtain ⟨key, item⟩ := e
      cases key with
      | string key =>
          unfold checkPairs
          refine Alike.bind (@checkPairKey_alike keys hkeys
            { site with path := .key key.toStringLossy :: site.path }
            { site' with path := .key key.toStringLossy :: site'.path } howner
            (by rw [hpath]) key) fun w w' hw => ?_
          cases w with
          | none =>
              cases w' with
              | some w' => cases hw
              | none => exact ih false built built' hbuilt
          | some w =>
              cases w' with
              | none => cases hw
              | some w' =>
                  have herase : w.erase = w'.erase := Option.some.inj hw
                  by_cases hstring : ∃ k, w = .string k
                  · obtain ⟨k, rfl⟩ := hstring
                    rw [eq_string_of_erase_eq herase rfl]
                    refine Alike.bind (hcheck item _ _ howner (by simp only [hpath]))
                      fun x x' hx => ?_
                    cases x with
                    | none =>
                        cases x' with
                        | some x' => cases hx
                        | none => exact ih false built built' hbuilt
                    | some x =>
                        cases x' with
                        | none => cases hx
                        | some x' =>
                            exact ih ok _ _ (eraseEntries_set hbuilt (Option.some.inj hx) _)
                  · have hstring' : ¬∃ k, w' = .string k := by
                      intro h
                      obtain ⟨k, hk⟩ := h
                      exact hstring ⟨k, eq_string_of_erase_eq herase.symm hk⟩
                    cases w with
                    | string k => exact absurd ⟨k, rfl⟩ hstring
                    | _ =>
                        cases w' with
                        | string k => exact absurd ⟨k, rfl⟩ hstring'
                        | _ => exact ih false built built' hbuilt
      | _ =>
          unfold checkPairs
          exact Alike.bind (reject_alike howner hpath _ _ _) fun _ _ _ =>
            ih false built built' hbuilt

theorem checkMap_blind {keys values : Option Checker} (hkeys : ∀ c, keys = some c → Blind c)
    (hvalues : ∀ c, values = some c → Blind c) : Blind (checkMap host rule keys values) := by
  intro v site site' howner hpath
  cases v with
  | table p len entries =>
      refine applyTests_alike howner hpath rfl ?_
      cases values with
      | none => exact Alike.throw _
      | some check =>
          refine Alike.bind Alike.createTable fun out out' _ => ?_
          refine Alike.bind (checkPairs_alike hkeys (hvalues check rfl) howner hpath out out' _ true
            _ _ rfl) ?_
          rintro ⟨ok, built⟩ ⟨ok', built'⟩ ⟨hok, hbuilt⟩
          dsimp only at hok hbuilt ⊢
          rw [hok]
          refine Alike.pure ?_
          split
          · simp [SameOption, Value.erase, hbuilt]
          · rfl
  | _ => exact reject_alike howner hpath _ _ _

end Containers

/-! ## Files -/

section Files

variable {host : Host} {rule : RuleKeys}

theorem checkFilename_alike {check : Checker} (hcheck : Blind check) (name : String) :
    Alike Eq (checkFilename check name) (checkFilename check name) := by
  intro ctx ctx' _
  let scratch (ctx : Ctx) : Ctx := { strict := false, next := ctx.next + 1, errors := [], pending := [] }
  have houtcome := hcheck (.ofString name)
    { owner := {}, path := [.field "filename"], slot := ⟨ctx.next, .integer 1⟩ }
    { owner := {}, path := [.field "filename"], slot := ⟨ctx'.next, .integer 1⟩ } rfl rfl
    (scratch ctx) (scratch ctx') rfl
  unfold checkFilename
  dsimp only
  generalize check (.ofString name)
    { owner := {}, path := [.field "filename"], slot := ⟨ctx.next, .integer 1⟩ }
    { strict := false, next := ctx.next + 1, errors := [], pending := [] } = r at houtcome ⊢
  generalize check (.ofString name)
    { owner := {}, path := [.field "filename"], slot := ⟨ctx'.next, .integer 1⟩ }
    { strict := false, next := ctx'.next + 1, errors := [], pending := [] } = r' at houtcome ⊢
  cases houtcome with
  | fault fault => exact .fault fault
  | @ok w w' related added n n' =>
      cases w with
      | some w =>
          cases w' with
          | none => cases related
          | some w' =>
              have := @Outcome.ok _ _ Eq ctx ctx' (none : Option String) none rfl [] n n'
              simpa using this
      | none =>
          cases w' with
          | some w' => cases related
          | none =>
              have := @Outcome.ok _ _ Eq ctx ctx' (some ((added.head?.map (·.message)).getD ""))
                _ rfl [] n n'
              simpa [scratch] using this

theorem filenameFailure_alike {filename : Option (Bool × Checker)}
    (hfilename : ∀ c, filename = some c → Blind c.2) (info : FileInfo) :
    Alike Eq (filenameFailure info filename) (filenameFailure info filename) := by
  unfold filenameFailure
  split
  · exact Alike.pure rfl
  · exact Alike.pure rfl
  · refine Alike.bind (checkFilename_alike (hfilename _ rfl) _) ?_
    rintro reason _ rfl
    cases reason with
    | none => exact Alike.pure rfl
    | some reason => exact Alike.pure rfl

theorem checkFile_blind {filename : Option (Bool × Checker)}
    (hfilename : ∀ c, filename = some c → Blind c.2) : Blind (checkFile host rule filename) := by
  intro v site site' howner hpath
  cases v with
  | file p info =>
      simp only [checkFile]
      split
      · refine applyTests_alike howner hpath rfl ?_
        refine Alike.bind (filenameFailure_alike hfilename info) ?_
        rintro params _ rfl
        cases params with
        | some params => exact reject_alike howner hpath _ _ _
        | none => exact applyTests_alike howner hpath rfl (Alike.pure rfl)
      · exact Alike.throw _
      · exact Alike.throw _
  | _ => exact reject_alike howner hpath _ _ _

end Files

/-! ## Groups -/

section Groups

variable {host : Host} {schema : SchemaDef} {out out' : Entries} {path : FieldPath}

/-- Two outputs with the same contents, in which different fields are never the same table. -/
structure SameOutput (host : Host) (out out' : Entries) : Prop where
  erase : Value.eraseEntries out = Value.eraseEntries out'
  apart : ∀ a b : String, a ≠ b → Apart host (out.field a) (out.field b)
  apart' : ∀ a b : String, a ≠ b → Apart host (out'.field a) (out'.field b)

theorem SameOutput.field (h : SameOutput host out out') (name : String) :
    (out.field name).erase = (out'.field name).erase := by
  unfold Entries.field
  rw [← Value.get_eraseEntries, h.erase, Value.get_eraseEntries]

theorem SameOutput.present (h : SameOutput host out out') :
    Validate.present out = Validate.present out' := by
  funext name
  rw [← present_erase out, h.erase, present_erase]

theorem SameOutput.contentForm (h : SameOutput host out out') (name : String) :
    Validate.contentForm host (out.field name) = Validate.contentForm host (out'.field name) := by
  rw [← contentForm_erase, h.field, contentForm_erase]

/-- Forms of two fields are equal in both outputs or in neither. -/
theorem SameOutput.canonical_eq_iff (h : SameOutput host out out') {a b : String}
    {c d c' d' : Canonical} (hc : canonical host (out.field a) = .ok c)
    (hd : canonical host (out.field b) = .ok d) (hc' : canonical host (out'.field a) = .ok c')
    (hd' : canonical host (out'.field b) = .ok d') : c = d ↔ c' = d' := by
  by_cases hab : a = b
  · subst hab
    rw [hc] at hd
    rw [hc'] at hd'
    cases hd
    cases hd'
    exact iff_of_true rfl rfl
  · have hform : ∀ {name : String} {e e' : Canonical}, canonical host (out.field name) = .ok e →
        canonical host (out'.field name) = .ok e' →
        (e = e' ∧ ∀ p, e ≠ .table p) ∨ ∃ p p', e = .table p ∧ e' = .table p' := by
      intro name e e' he he'
      by_cases htable : ∃ p, e = .table p
      · obtain ⟨p, rfl⟩ := htable
        have hnone := contentForm_eq_none.mpr ⟨p, he⟩
        rw [h.contentForm] at hnone
        obtain ⟨p', hp'⟩ := contentForm_eq_none.mp hnone
        rw [he'] at hp'
        cases hp'
        exact .inr ⟨p, p', rfl, rfl⟩
      · have hsome := contentForm_eq_some.mpr ⟨he, not_exists.mp htable⟩
        rw [h.contentForm] at hsome
        have := (contentForm_eq_some.mp hsome).1
        rw [he'] at this
        cases this
        exact .inl ⟨rfl, not_exists.mp htable⟩
    rcases hform hc hc' with ⟨rfl, hcne⟩ | ⟨p, p', rfl, rfl⟩
    · rcases hform hd hd' with ⟨rfl, -⟩ | ⟨q, q', rfl, rfl⟩
      · exact Iff.rfl
      · exact iff_of_false (hcne q) (hcne q')
    · refine iff_of_false ?_ ?_
      · rintro rfl
        exact h.apart a b hab p hc hd
      · rintro rfl
        exact h.apart' a b hab p' hc' hd'

/-- The first form of a group, taken from the same field of both outputs. -/
inductive SameFirst (host : Host) (out out' : Entries) :
    Option (String × Canonical) → Option (String × Canonical) → Prop where
  | none : SameFirst host out out' none none
  | some {name : String} {c c' : Canonical} (hc : canonical host (out.field name) = .ok c)
      (hc' : canonical host (out'.field name) = .ok c') :
      SameFirst host out out' (some (name, c)) (some (name, c'))

theorem equalFieldsFailure_congr (h : SameOutput host out out') (group : Group)
    (names : List String) {first first' : Option (String × Canonical)}
    (hfirst : SameFirst host out out' first first') :
    equalFieldsFailure host schema out path group names first =
      equalFieldsFailure host schema out' path group names first' := by
  induction names generalizing first first' with
  | nil => rfl
  | cons name rest ih =>
      unfold equalFieldsFailure
      rw [h.present]
      split
      · exact ih hfirst
      · have hform := h.contentForm name
        cases hd : canonical host (out.field name) with
        | error fault =>
            simp only [contentForm, hd] at hform
            cases hd' : canonical host (out'.field name) with
            | error fault' =>
                rw [hd'] at hform
                cases hform
                rfl
            | ok d' =>
                rw [hd'] at hform
                cases d' <;> cases hform
        | ok d =>
            cases hd' : canonical host (out'.field name) with
            | error fault' =>
                simp only [contentForm, hd, hd'] at hform
                cases d <;> cases hform
            | ok d' =>
                cases hfirst with
                | none => exact ih (.some hd hd')
                | some hc hc' =>
                    simp only [h.canonical_eq_iff hc hd hc' hd']
                    split
                    · exact ih (.some hc hc')
                    · rfl

theorem orderedFailure_congr (h : SameOutput host out out') (group : Group)
    (names : List String) (prev : Option (String × Comparable)) :
    orderedFailure host schema out path group names prev =
      orderedFailure host schema out' path group names prev := by
  induction names generalizing prev with
  | nil => rfl
  | cons name rest ih =>
      have hcomparable : ∀ format, comparable host (out.field name) format =
          comparable host (out'.field name) format := by
        intro format
        rw [← comparable_erase, h.field, comparable_erase]
      unfold orderedFailure
      rw [hcomparable]
      split
      · exact ih prev
      · cases prev with
        | none => exact ih _
        | some prev =>
            simp only
            split
            · exact ih _
            · rfl

/-- The groups of a table say the same of two outputs with the same contents. -/
theorem crossFailures_congr (h : SameOutput host out out') :
    crossFailures host schema out path = crossFailures host schema out' path := by
  have hequal : (fun group : Group =>
      equalFieldsFailure host schema out path group group.fields none) =
      fun group : Group => equalFieldsFailure host schema out' path group group.fields none := by
    funext group
    exact equalFieldsFailure_congr h group group.fields .none
  have hordered : (fun group : Group =>
      orderedFailure host schema out path group group.fields none) =
      fun group : Group => orderedFailure host schema out' path group group.fields none := by
    funext group
    exact orderedFailure_congr h group group.fields none
  have hatLeastOne : atLeastOneFailure schema out path = atLeastOneFailure schema out' path := by
    funext group
    unfold atLeastOneFailure
    rw [h.present]
  have hexclusive : mutuallyExclusiveFailure schema out path =
      mutuallyExclusiveFailure schema out' path := by
    funext group
    unfold mutuallyExclusiveFailure
    rw [h.present]
  have hdependent : dependentRequiredFailure schema out path =
      dependentRequiredFailure schema out' path := by
    funext dependent
    unfold dependentRequiredFailure
    rw [h.present]
  unfold crossFailures
  rw [hequal, hordered, hatLeastOne, hexclusive, hdependent]

end Groups

/-! ## Tables -/

section Tables

variable {host : Host}

theorem checkKnown_alike (schema : SchemaDef) (input : Entries) (path : FieldPath) :
    Alike Eq (checkKnown host schema input path) (checkKnown host schema input path) := by
  intro ctx ctx' hstrict
  unfold checkKnown
  rw [hstrict]
  split
  · refine Alike.bind (Alike.failAll host _) (fun _ _ _ => ?_) ctx ctx' hstrict
    refine Alike.bind (R := fun _ _ => True) ?_ fun _ _ _ => Alike.pure rfl
    unfold reportExtra
    split
    · exact Alike.pure trivial
    · exact Alike.push _
  · exact Alike.pure rfl ctx ctx' hstrict

theorem finishFields_alike {schema : SchemaDef} (hchecks : schema.options.checks = [])
    (input : Entries) (path : FieldPath) (pointer pointer' : ℕ) (ok : Bool) {out out' : Entries}
    (hout : ok = true → SameOutput host out out') :
    Alike Eq (finishFields host schema input path pointer ok out)
      (finishFields host schema input path pointer' ok out') := by
  refine Alike.bind (checkKnown_alike schema input path) ?_
  rintro known _ rfl
  cases hok : ok && known with
  | false => exact Alike.pure rfl
  | true =>
      have hsame := hout (Bool.and_eq_true_iff.mp hok).1
      have hcross : checkCross host schema out path = checkCross host schema out' path := by
        unfold checkCross
        rw [crossFailures_congr hsame]
      simp only [hcross, hchecks, List.length_nil, List.range_zero, deferSchemaChecks]
      refine Alike.bind (R := Eq) ?_ ?_
      · refine Alike.bind (Alike.lift _) ?_
        rintro failures _ rfl
        exact Alike.bind (Alike.failAll host failures) fun _ _ _ => Alike.pure rfl
      · rintro held _ rfl
        cases held with
        | false => exact Alike.pure rfl
        | true => exact Alike.bind (R := fun _ _ => True) (Alike.pure trivial) fun _ _ _ => Alike.pure rfl

theorem checkFieldList_alike {fields : List (String × Rule)}
    (hf : ∀ f ∈ fields, Blind (checkValue host f.2)) (owner : SchemaOptions) (input : Entries)
    (path : FieldPath) (pointer pointer' : ℕ) :
    ∀ (ok : Bool) (built built' : Entries),
      Value.eraseEntries built = Value.eraseEntries built' →
      Alike SameBuilt (checkFieldList host fields owner input path pointer ok built)
        (checkFieldList host fields owner input path pointer' ok built') := by
  induction fields with
  | nil =>
      intro ok built built' hbuilt
      unfold checkFieldList
      exact Alike.pure ⟨rfl, hbuilt⟩
  | cons f rest ih =>
      intro ok built built' hbuilt
      obtain ⟨name, rule⟩ := f
      have hrest := ih fun f hmem => hf f (List.mem_cons_of_mem _ hmem)
      unfold checkFieldList
      dsimp only
      split
      · split
        · exact Alike.bind (reject_alike rfl rfl _ _ _) fun _ _ _ => hrest false built built' hbuilt
        · exact hrest ok built built' hbuilt
      · refine Alike.bind (hf (name, rule) (List.mem_cons_self ..) _ _ _ rfl rfl) fun w w' hw => ?_
        cases w with
        | none =>
            cases w' with
            | some w' => cases hw
            | none => exact hrest false built built' hbuilt
        | some w =>
            cases w' with
            | none => cases hw
            | some w' => exact hrest ok _ _ (eraseEntries_set hbuilt (Option.some.inj hw) _)

/-- Different fields of a table whose fields all passed are different tables. -/
theorem checkFieldList_apart {fields : List (String × Rule)} {owner : SchemaOptions}
    {input out : Entries} {path : FieldPath} {pointer : ℕ} {ok : Bool} {ctx c : Ctx}
    (h : checkFieldList host fields owner input path pointer ok [] ctx = .ok ((true, out), c)) :
    ∀ a b : String, a ≠ b → Apart host (out.field a) (out.field b) := by
  obtain ⟨-, d, hlist, -⟩ := checkFieldList_sound (fun f _ => checkValue_sound host f.2) h
  obtain ⟨-, hscattered⟩ := hlist.fresh (fun f _ => checks_fresh host f.2) le_rfl scattered_nil
  intro a b hab
  exact hscattered.apart _ _ (by simpa using hab)

theorem checkFields_alike {schema : SchemaDef} (hchecks : schema.options.checks = [])
    (hf : ∀ f ∈ schema.fields, Blind (checkValue host f.2)) (input : Entries) (path : FieldPath)
    (pointer pointer' : ℕ) :
    Alike SameBuilt (checkFields host schema input path pointer)
      (checkFields host schema input path pointer') := by
  obtain ⟨fields, options⟩ := schema
  unfold checkFields
  refine Alike.bind_of_reached
    (checkFieldList_alike hf options input path pointer pointer' true [] [] rfl) ?_
  rintro ⟨ok, out⟩ ⟨ok', out'⟩ ⟨hok, hout⟩ ⟨ctx, c, hx⟩ ⟨ctx', c', hy⟩
  dsimp only at hok hout ⊢
  subst hok
  refine Alike.bind (finishFields_alike hchecks input path pointer pointer' ok ?_) ?_
  · rintro rfl
    exact ⟨hout, checkFieldList_apart hx, checkFieldList_apart hy⟩
  · rintro ok' _ rfl
    exact Alike.pure ⟨rfl, hout⟩

theorem checkTable_blind {rule : RuleKeys} {fields : Option SchemaDef}
    (hchecks : ∀ s, fields = some s → s.options.checks = [])
    (hf : ∀ s, fields = some s → ∀ f ∈ s.fields, Blind (checkValue host f.2)) :
    Blind (checkTable host rule fields) := by
  intro v site site' howner hpath
  unfold checkTable
  cases v with
  | table p len input =>
      dsimp only
      split
      · exact reject_alike howner hpath _ _ _
      · cases fields with
        | none => exact Alike.throw _
        | some schema =>
            refine Alike.bind Alike.createTable fun pointer pointer' _ => ?_
            rw [hpath]
            refine Alike.bind (checkFields_alike (hchecks schema rfl) (hf schema rfl) input _
              pointer pointer') ?_
            rintro ⟨ok, out⟩ ⟨ok', out'⟩ ⟨hok, hout⟩
            dsimp only at hok hout ⊢
            rw [hok]
            refine Alike.pure ?_
            split
            · simp [SameOption, Value.erase, hout]
            · rfl
  | _ => exact reject_alike howner hpath _ _ _

/-- A rule without hooks does not see where its value lands nor what was checked before. -/
theorem checkValue_blind {rule : Rule} (h : rule.Hookless) : Blind (checkValue host rule) := by
  induction rule using Rule.induct with
  | step rule items keys values filename fields =>
      cases h with
      | intro hcheck htransform hformat hitems hkeys hvalues hfilename hchecks hfields =>
          have hmapped : ∀ (o : Option Rule) (_ : ∀ r, o = some r → Blind (checkValue host r))
              (c : Checker), o.map (checkValue host) = some c → Blind c := by
            intro o ho c hc
            obtain ⟨r, hr, rfl⟩ := Option.map_eq_some_iff.mp hc
            exact ho r hr
          intro v site site' howner hpath
          have hhooks : rule.hooks = [] := by simp [RuleKeys.hooks, hcheck, htransform]
          rw [checkValue_eq, checkValue_eq]
          refine Alike.bind (R := SameOption) ?_ ?_
          · unfold checkKind
            split
            · exact checkString_blind hformat v site site' howner hpath
            · exact checkNumber_blind v site site' howner hpath
            · exact checkNumber_blind v site site' howner hpath
            · exact checkBoolean_blind v site site' howner hpath
            · exact checkArray_blind (hmapped _ fun r hr => items r hr (hitems r hr)) v site site'
                howner hpath
            · exact checkTable_blind hchecks (fun s hs f hf => fields s hs f hf (hfields s hs f hf))
                v site site' howner hpath
            · exact checkMap_blind (hmapped _ fun r hr => keys r hr (hkeys r hr))
                (hmapped _ fun r hr => values r hr (hvalues r hr)) v site site' howner hpath
            · exact checkAny_blind v site site' howner hpath
            · refine checkFile_blind ?_ v site site' howner hpath
              intro c hc
              obtain ⟨r, hr, rfl⟩ := Option.map_eq_some_iff.mp hc
              exact filename r hr (hfilename r hr)
          · intro w w' hw
            cases w with
            | none =>
                cases w' with
                | some w' => cases hw
                | none => exact Alike.pure rfl
            | some w =>
                cases w' with
                | none => cases hw
                | some w' =>
                    simp only [deferHooks, hhooks, deferAll]
                    exact Alike.bind (R := fun _ _ => True) (Alike.pure trivial) fun _ _ _ =>
                      Alike.pure hw

end Tables

end Nitr.Validate
