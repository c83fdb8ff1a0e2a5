import Nitr.Validate.Semantics

/-! # Every accepted value is derivable

A walk that accepts took only steps `Checks` has a rule for, so it leaves a derivation
behind. -/

namespace Nitr.Validate

section Sound

variable {host : Host} {rule : Rule} {site : Site} {ctx ctx' : Ctx} {v w : Value}

theorem checkString_sound (hk : rule.kind = .string)
    (h : checkString host rule.toRuleKeys v site ctx = .ok (some w, ctx')) :
    ∃ d, ChecksKind host ctx.strict rule v site ctx.next w ctx'.next d ∧
      ctx' = ctx.advance ctx'.next d := by
  cases v with
  | string s =>
      obtain ⟨ht, h⟩ := applyTests_eq_some.mp h
      obtain ⟨⟨⟩, c, hd, h⟩ := Check.bind_eq_ok.mp h
      rw [deferFormat_apply] at hd
      cases hd
      cases h
      exact ⟨_, .string hk ht, rfl⟩
  | _ => exact absurd h rejectType_ne_some

theorem checkNumber_sound (hk : rule.kind.isNumeric = true)
    (h : checkNumber host rule.toRuleKeys v site ctx = .ok (some w, ctx')) :
    ∃ d, ChecksKind host ctx.strict rule v site ctx.next w ctx'.next d ∧
      ctx' = ctx.advance ctx'.next d := by
  unfold checkNumber at h
  cases hf : v.toF64 with
  | none =>
      rw [hf] at h
      exact absurd h rejectType_ne_some
  | some f =>
      rw [hf] at h
      dsimp only at h
      split at h
      · exact absurd h rejectType_ne_some
      · rename_i hfin
        simp only [Bool.or_eq_true, Bool.not_eq_true', Bool.and_eq_true, decide_eq_true_eq,
          not_or, not_and, Bool.not_eq_false] at hfin
        obtain ⟨ht, h⟩ := applyTests_eq_some.mp h
        cases h
        exact ⟨[], .number hk hf hfin.1 hfin.2 ht, by simp⟩

theorem checkBoolean_sound (hk : rule.kind = .boolean)
    (h : checkBoolean host rule.toRuleKeys v site ctx = .ok (some w, ctx')) :
    ∃ d, ChecksKind host ctx.strict rule v site ctx.next w ctx'.next d ∧
      ctx' = ctx.advance ctx'.next d := by
  cases v with
  | boolean b =>
      obtain ⟨ht, h⟩ := applyTests_eq_some.mp h
      cases h
      exact ⟨[], .boolean hk ht, by simp⟩
  | _ => exact absurd h rejectType_ne_some

theorem checkAny_sound (hk : rule.kind = .any)
    (h : checkAny host rule.toRuleKeys v site ctx = .ok (some w, ctx')) :
    ∃ d, ChecksKind host ctx.strict rule v site ctx.next w ctx'.next d ∧
      ctx' = ctx.advance ctx'.next d := by
  unfold checkAny at h
  cases hb : host.checkJsonBounds v.erase with
  | error msg =>
      rw [hb] at h
      cases h
  | ok _ =>
      rw [hb] at h
      cases hmax : rule.maxBytes with
      | none =>
          rw [hmax] at h
          cases h
      | some max =>
          rw [hmax] at h
          cases hjson : host.toJson v.erase with
          | none =>
              rw [hjson] at h
              exact absurd h rejectType_ne_some
          | some json =>
              rw [hjson] at h
              dsimp only at h
              split at h
              · cases h
              · rename_i hsize
                cases h
                exact ⟨[], .any hk hb hmax hjson (not_lt.mp hsize), by simp⟩

/-- The checker derives a passing walk for every value it accepts. -/
def SoundFor (host : Host) (rule : Rule) : Prop :=
  ∀ {v : Value} {site : Site} {ctx : Ctx} {w : Value} {ctx' : Ctx},
    checkValue host rule v site ctx = .ok (some w, ctx') →
    ∃ d, Checks host ctx.strict rule v site ctx.next w ctx'.next d ∧ ctx' = ctx.advance ctx'.next d

theorem checkItems_sound {keys : RuleKeys} {items : Rule} (hs : SoundFor host items) {out i : ℕ}
    {vs : List Value} {state state' : ItemState}
    (h : checkItems host keys (checkValue host items) site out i vs state ctx =
      .ok (some state', ctx')) (hok : state'.ok = true) :
    state.ok = true ∧ ∃ ws d,
      ChecksItems host ctx.strict keys items site out i state.seen vs ctx.next ws ctx'.next d ∧
      ctx' = ctx.advance ctx'.next d ∧ state'.out = setItems i ws state.out ∧
      state'.totalBytes = vs.foldl addBytes state.totalBytes := by
  induction vs generalizing i state ctx with
  | nil =>
      cases h
      exact ⟨hok, [], [], .nil, by simp, rfl, rfl⟩
  | cons v vs ih =>
      obtain ⟨seen, c₀, hseen, h⟩ := Check.bind_eq_ok.mp h
      obtain ⟨hu, rfl⟩ := Check.lift_eq_ok.mp hseen
      cases seen with
      | none =>
          obtain ⟨_, _, _, h⟩ := Check.bind_eq_ok.mp h
          cases h
      | some seen =>
          obtain ⟨w, c, hw, h⟩ := Check.bind_eq_ok.mp h
          cases w with
          | none =>
              obtain ⟨hfalse, -⟩ := ih h
              cases hfalse
          | some w =>
              obtain ⟨d₁, hw, hc⟩ := hs hw
              obtain ⟨hok', ws, d₂, hrest, hc', hout, htotal⟩ := ih h
              have hstrict : c.strict = c₀.strict := by rw [hc]; rfl
              rw [hstrict] at hrest
              refine ⟨hok', w :: ws, d₁ ++ d₂, .cons hu hw hrest, ?_, hout, htotal⟩
              rw [hc', hc]
              simp

theorem checkArray_sound (hk : rule.kind = .array)
    (hs : ∀ r, rule.items = some r → SoundFor host r)
    (h : checkArray host rule.toRuleKeys (rule.items.map (checkValue host)) v site ctx =
      .ok (some w, ctx')) :
    ∃ d, ChecksKind host ctx.strict rule v site ctx.next w ctx'.next d ∧
      ctx' = ctx.advance ctx'.next d := by
  unfold checkArray at h
  split at h
  · rename_i p len es
    split at h
    · exact absurd h rejectType_ne_some
    · rename_i hseq
      obtain ⟨hlen, h⟩ := applyTests_eq_some.mp h
      cases hitems : rule.items with
      | none =>
          rw [hitems] at h
          cases h
      | some items =>
          rw [hitems] at h
          obtain ⟨out, c, hout, h⟩ := Check.bind_eq_ok.mp h
          cases hout
          obtain ⟨state, c, hstate, h⟩ := Check.bind_eq_ok.mp h
          cases state with
          | none => cases h
          | some state =>
              dsimp only at h
              split at h
              · cases h
              · rename_i hok
                obtain ⟨-, ws, d, heach, hc, hout, htotal⟩ := checkItems_sound
                  (hs items hitems) hstate (by simpa using hok)
                obtain ⟨ht, h⟩ := applyTests_eq_some.mp h
                cases h
                rw [hout, htotal] at ht
                rw [hout]
                refine ⟨d, .array hk (by simpa using hseq) hlen hitems heach ht, ?_⟩
                rw [hc]
                simp [Ctx.advance]
  · exact absurd h rejectType_ne_some

theorem checkPairKey_sound {keys : Option Rule} (hk : ∀ r, keys = some r → SoundFor host r)
    {k k' : LuaString}
    (h : checkPairKey (keys.map (checkValue host)) site k ctx = .ok (some (.string k'), ctx')) :
    ∃ d, ChecksKey host ctx.strict keys k site ctx.next k' ctx'.next d ∧
      ctx' = ctx.advance ctx'.next d := by
  cases keys with
  | none =>
      cases h
      exact ⟨[], .free, by simp⟩
  | some r =>
      obtain ⟨scratch, c, hs, h⟩ := Check.bind_eq_ok.mp h
      cases hs
      obtain ⟨d, hd, hc⟩ := hk r rfl h
      exact ⟨d, .ruled hd, hc⟩

theorem checkPairs_sound {keys : Option Rule} {values : Rule} {rule : RuleKeys}
    (hk : ∀ r, keys = some r → SoundFor host r) (hv : SoundFor host values) {out : ℕ} {ok : Bool}
    {es built built' : Entries}
    (h : checkPairs host rule (keys.map (checkValue host)) (checkValue host values) site out es ok
      built ctx = .ok ((true, built'), ctx')) :
    ok = true ∧ ∃ d,
      ChecksPairs host ctx.strict keys values site out es built ctx.next built' ctx'.next d ∧
      ctx' = ctx.advance ctx'.next d := by
  induction es generalizing ok built ctx with
  | nil =>
      cases h
      exact ⟨rfl, [], .nil, by simp⟩
  | cons e es ih =>
      obtain ⟨key, v⟩ := e
      cases key with
      | integer i =>
          obtain ⟨_, _, _, h⟩ := Check.bind_eq_ok.mp h
          cases (ih h).1
      | other p =>
          obtain ⟨_, _, _, h⟩ := Check.bind_eq_ok.mp h
          cases (ih h).1
      | string k =>
          obtain ⟨checked, c₁, hkey, h⟩ := Check.bind_eq_ok.mp h
          split at h
          · rename_i k'
            obtain ⟨d₁, hkey, hc₁⟩ := checkPairKey_sound hk hkey
            obtain ⟨w, c₂, hw, h⟩ := Check.bind_eq_ok.mp h
            cases w with
            | none => cases (ih h).1
            | some w =>
                obtain ⟨d₂, hw, hc₂⟩ := hv hw
                obtain ⟨hok, d₃, hrest, hc₃⟩ := ih h
                have hstrict₁ : c₁.strict = ctx.strict := by rw [hc₁]; rfl
                have hstrict₂ : c₂.strict = ctx.strict := by rw [hc₂, ← hstrict₁]; rfl
                rw [hstrict₁] at hw
                rw [hstrict₂] at hrest
                refine ⟨hok, d₁ ++ d₂ ++ d₃, .cons hkey hw hrest, ?_⟩
                rw [hc₃, hc₂, hc₁]
                simp
          · cases (ih h).1

theorem checkMap_sound (hkind : rule.kind = .map)
    (hk : ∀ r, rule.keys = some r → SoundFor host r)
    (hv : ∀ r, rule.values = some r → SoundFor host r)
    (h : checkMap host rule.toRuleKeys (rule.keys.map (checkValue host))
      (rule.values.map (checkValue host)) v site ctx = .ok (some w, ctx')) :
    ∃ d, ChecksKind host ctx.strict rule v site ctx.next w ctx'.next d ∧
      ctx' = ctx.advance ctx'.next d := by
  cases v with
  | table p len es =>
      obtain ⟨hcount, h⟩ := applyTests_eq_some.mp h
      cases hvalues : rule.values with
      | none =>
          rw [hvalues] at h
          cases h
      | some values =>
          rw [hvalues] at h
          obtain ⟨out, c, hout, h⟩ := Check.bind_eq_ok.mp h
          cases hout
          obtain ⟨⟨ok, built⟩, c, hpairs, h⟩ := Check.bind_eq_ok.mp h
          cases ok with
          | false => cases h
          | true =>
              cases h
              obtain ⟨-, d, hpairs, hc⟩ := checkPairs_sound hk (hv values hvalues) hpairs
              refine ⟨d, .map hkind hcount hvalues hpairs, ?_⟩
              rw [hc]
              simp [Ctx.advance]
  | _ => exact absurd h rejectType_ne_some

theorem filenameFailure_sound {info : FileInfo} {filename : Option Rule}
    (hf : ∀ r, filename = some r → SoundFor host r)
    (h : filenameFailure info (filename.map fun r => (r.required, checkValue host r)) ctx =
      .ok (none, ctx')) :
    ChecksName host filename info ctx.next ctx'.next ∧ ctx' = ctx.advance ctx'.next [] := by
  cases filename with
  | none =>
      cases h
      exact ⟨.undeclared, by simp⟩
  | some r =>
      unfold filenameFailure at h
      cases hname : info.safeFilename with
      | none =>
          rw [hname] at h
          cases hr : r.required with
          | true =>
              simp only [Option.map_some, hr] at h
              cases h
          | false =>
              simp only [Option.map_some, hr] at h
              cases h
              exact ⟨.unnamed hr hname, by simp⟩
      | some name =>
          rw [hname] at h
          obtain ⟨reason, c, hc, h⟩ := Check.bind_eq_ok.mp h
          cases reason with
          | some reason => cases h
          | none =>
              cases h
              unfold checkFilename at hc
              dsimp only at hc
              split at hc
              · cases hc
              · rename_i w sub hsub
                cases hc
                obtain ⟨d, hd, -⟩ := hf r rfl hsub
                exact ⟨.named hname hd, by simp [Ctx.advance]⟩
              · cases hc

theorem checkFile_sound (hk : rule.kind = .file)
    (hf : ∀ r, rule.filename = some r → SoundFor host r)
    (h : checkFile host rule.toRuleKeys
      (rule.filename.map fun r => (r.required, checkValue host r)) v site ctx =
        .ok (some w, ctx')) :
    ∃ d, ChecksKind host ctx.strict rule v site ctx.next w ctx'.next d ∧
      ctx' = ctx.advance ctx'.next d := by
  cases v with
  | file p info =>
      unfold checkFile at h
      cases hfile : rule.file with
      | none =>
          rw [hfile] at h
          cases h
      | some file =>
          cases hmax : rule.maxBytes with
          | none =>
              rw [hfile, hmax] at h
              cases h
          | some max =>
              rw [hfile, hmax] at h
              obtain ⟨ht, h⟩ := applyTests_eq_some.mp h
              obtain ⟨failure, c, hname, h⟩ := Check.bind_eq_ok.mp h
              cases failure with
              | some params => cases h
              | none =>
                  obtain ⟨hname, hc⟩ := filenameFailure_sound hf hname
                  obtain ⟨hcontent, h⟩ := applyTests_eq_some.mp h
                  cases h
                  exact ⟨[], .file hk hfile hmax ht hname hcontent, hc⟩
  | _ => exact absurd h rejectType_ne_some

theorem checkKnown_eq_true {schema : SchemaDef} {input : Entries} {path : FieldPath} :
    checkKnown host schema input path ctx = .ok (true, ctx') ↔
      Known ctx.strict schema input ∧ ctx' = ctx := by
  unfold checkKnown Known
  cases hs : (ctx.strict || schema.options.strict) with
  | false =>
      simp only [Bool.false_eq_true, reduceIte, false_implies, true_and, Except.ok.injEq,
        Prod.mk.injEq]
      exact eq_comm
  | true =>
      simp only [reduceIte, forall_const]
      constructor
      · intro h
        obtain ⟨_, _, hall, h⟩ := Check.bind_eq_ok.mp h
        obtain ⟨_, _, hextra, h⟩ := Check.bind_eq_ok.mp h
        cases hu : unknownKeys schema input with
        | nil =>
            rw [hu] at hall hextra h
            cases hall
            cases hextra
            cases h
            exact ⟨rfl, rfl⟩
        | cons key rest =>
            rw [hu] at h
            cases h
      · rintro ⟨hu, rfl⟩
        unfold reportUnknown
        rw [hu]
        rfl

theorem checkCross_eq_true {schema : SchemaDef} {out : Entries} {path : FieldPath} :
    checkCross host schema out path ctx = .ok (true, ctx') ↔
      crossFailures host schema out path = .ok [] ∧ ctx' = ctx := by
  unfold checkCross
  simp only [Check.bind_eq_ok, Check.lift_eq_ok, Check.pure_apply]
  constructor
  · rintro ⟨failures, _, ⟨hf, rfl⟩, _, _, hall, h⟩
    cases failures with
    | nil =>
        cases hall
        cases h
        exact ⟨hf, rfl⟩
    | cons f rest => cases h
  · rintro ⟨hf, rfl⟩
    exact ⟨[], _, ⟨hf, rfl⟩, (), _, rfl, rfl⟩

theorem deferSchemaChecks_apply (schema : SchemaDef) (table : Value) (path : FieldPath)
    (indices : List ℕ) (ctx : Ctx) :
    deferSchemaChecks schema table path indices ctx =
      .ok ((), ctx.advance ctx.next (indices.map (.schema table path.render schema))) := by
  induction indices generalizing ctx with
  | nil => simp [deferSchemaChecks]
  | cons index rest ih =>
      apply Check.bind_eq_ok.mpr
      refine ⟨(), _, rfl, ?_⟩
      rw [ih]
      simp [Ctx.advance]

theorem finishFields_eq_true {schema : SchemaDef} {input out : Entries} {path : FieldPath}
    {pointer : ℕ} {ok : Bool} :
    finishFields host schema input path pointer ok out ctx = .ok (true, ctx') ↔
      ok = true ∧ Known ctx.strict schema input ∧ crossFailures host schema out path = .ok [] ∧
      ctx' = ctx.advance ctx.next (schemaPending schema (.table pointer 0 out) path) := by
  unfold finishFields
  constructor
  · intro h
    obtain ⟨known, c, hknown, hrest⟩ := Check.bind_eq_ok.mp h
    clear h
    cases hok : ok && known with
    | false =>
        rw [hok] at hrest
        cases hrest
    | true =>
        rw [hok] at hrest
        obtain ⟨rfl, rfl⟩ := Bool.and_eq_true_iff.mp hok
        obtain ⟨hk, rfl⟩ := checkKnown_eq_true.mp hknown
        obtain ⟨held, c', hcross, hlast⟩ := Check.bind_eq_ok.mp hrest
        cases held with
        | false => cases hlast
        | true =>
            obtain ⟨hx, rfl⟩ := checkCross_eq_true.mp hcross
            obtain ⟨_, c'', hd, hend⟩ := Check.bind_eq_ok.mp hlast
            rw [deferSchemaChecks_apply] at hd
            cases hd
            cases hend
            exact ⟨rfl, hk, hx, rfl⟩
  · rintro ⟨rfl, hk, hx, rfl⟩
    refine Check.bind_eq_ok.mpr ⟨true, ctx, checkKnown_eq_true.mpr ⟨hk, rfl⟩, ?_⟩
    refine Check.bind_eq_ok.mpr ⟨true, ctx, checkCross_eq_true.mpr ⟨hx, rfl⟩, ?_⟩
    exact Check.bind_eq_ok.mpr ⟨(), _, deferSchemaChecks_apply _ _ _ _ _, rfl⟩

theorem checkFieldList_sound {fields : List (String × Rule)} (hf : ∀ f ∈ fields, SoundFor host f.2)
    {owner : SchemaOptions} {input out out' : Entries} {path : FieldPath} {pointer : ℕ} {ok : Bool}
    (h : checkFieldList host fields owner input path pointer ok out ctx =
      .ok ((true, out'), ctx')) :
    ok = true ∧ ∃ d,
      ChecksFieldList host ctx.strict fields owner input path pointer out ctx.next out' ctx'.next
        d ∧
      ctx' = ctx.advance ctx'.next d := by
  induction fields generalizing ok out ctx with
  | nil =>
      unfold checkFieldList at h
      cases h
      exact ⟨rfl, [], .nil, by simp⟩
  | cons f fields ih =>
      obtain ⟨name, rule⟩ := f
      have hf' : ∀ f ∈ fields, SoundFor host f.2 := by
        intro f hm
        exact hf f (List.mem_cons_of_mem _ hm)
      unfold checkFieldList at h
      dsimp only at h
      cases hnil : (fieldValue rule.toRuleKeys input name).isNil with
      | true =>
          rw [hnil] at h
          cases hr : rule.required with
          | true =>
              simp only [hr, reduceIte] at h
              obtain ⟨_, _, _, h⟩ := Check.bind_eq_ok.mp h
              cases (ih hf' h).1
          | false =>
              simp only [hr, reduceIte, Bool.false_eq_true] at h
              obtain ⟨hok, d, hrest, hc⟩ := ih hf' h
              exact ⟨hok, d, .absent (Value.isNil_eq_true.mp hnil) hr hrest, hc⟩
      | false =>
          rw [hnil] at h
          simp only [reduceIte, Bool.false_eq_true] at h
          obtain ⟨w, c, hw, h⟩ := Check.bind_eq_ok.mp h
          cases w with
          | none => cases (ih hf' h).1
          | some w =>
              obtain ⟨d₁, hw, hc⟩ := hf (name, rule) (List.mem_cons_self ..) hw
              obtain ⟨hok, d₂, hrest, hc'⟩ := ih hf' h
              have hstrict : c.strict = ctx.strict := by rw [hc]; rfl
              rw [hstrict] at hrest
              refine ⟨hok, d₁ ++ d₂, .present (Value.isNil_eq_false.mp hnil) hw hrest, ?_⟩
              rw [hc', hc]
              simp

theorem checkFields_sound {schema : SchemaDef} (hf : ∀ f ∈ schema.fields, SoundFor host f.2)
    {input out : Entries} {path : FieldPath} {pointer : ℕ}
    (h : checkFields host schema input path pointer ctx = .ok ((true, out), ctx')) :
    ∃ d, ChecksFields host ctx.strict schema input path pointer ctx.next out ctx'.next d ∧
      ctx' = ctx.advance ctx'.next d := by
  obtain ⟨fields, options⟩ := schema
  unfold checkFields at h
  obtain ⟨⟨ok, out'⟩, c, hlist, h⟩ := Check.bind_eq_ok.mp h
  obtain ⟨ok', c', hfin, h⟩ := Check.bind_eq_ok.mp h
  cases h
  obtain ⟨rfl, hk, hx, hc'⟩ := finishFields_eq_true.mp hfin
  obtain ⟨-, d, hlist, hc⟩ := checkFieldList_sound hf hlist
  have hstrict : c.strict = ctx.strict := by rw [hc]; rfl
  rw [hstrict] at hk
  have hnext : ctx'.next = c.next := by rw [hc']; rfl
  rw [hnext]
  refine ⟨_, .intro hlist hk hx, ?_⟩
  rw [hc', hc]
  simp

theorem checkTable_sound (hk : rule.kind = .table)
    (hf : ∀ s, rule.fields = some s → ∀ f ∈ s.fields, SoundFor host f.2)
    (h : checkTable host rule.toRuleKeys rule.fields v site ctx = .ok (some w, ctx')) :
    ∃ d, ChecksKind host ctx.strict rule v site ctx.next w ctx'.next d ∧
      ctx' = ctx.advance ctx'.next d := by
  unfold checkTable at h
  cases v with
  | table p len input =>
      dsimp only at h
      split at h
      · exact absurd h rejectType_ne_some
      · rename_i hlen
        obtain rfl : len = 0 := by omega
        cases hfields : rule.fields with
        | none =>
            rw [hfields] at h
            cases h
        | some schema =>
            rw [hfields] at h
            obtain ⟨pointer, c, hp, h⟩ := Check.bind_eq_ok.mp h
            cases hp
            obtain ⟨⟨ok, out⟩, c, hout, h⟩ := Check.bind_eq_ok.mp h
            cases ok with
            | false => cases h
            | true =>
                cases h
                obtain ⟨d, hd, hc⟩ := checkFields_sound (hf schema hfields) hout
                refine ⟨d, .table hk hfields hd, ?_⟩
                rw [hc]
                simp [Ctx.advance]
  | _ => exact absurd h rejectType_ne_some

theorem checkValue_sound (host : Host) (rule : Rule) : SoundFor host rule := by
  induction rule using Rule.induct with
  | step rule items keys values filename fields =>
      intro v site ctx w ctx' h
      rw [checkValue_eq] at h
      obtain ⟨checked, c, hkind, h⟩ := Check.bind_eq_ok.mp h
      cases checked with
      | none => cases h
      | some w' =>
          rw [deferHooks_some] at h
          cases h
          have hsound : ∃ d, ChecksKind host ctx.strict rule v site ctx.next w c.next d ∧
              c = ctx.advance c.next d := by
            unfold checkKind at hkind
            cases hk : rule.kind with
            | string => exact checkString_sound hk (by simpa only [hk] using hkind)
            | number => exact checkNumber_sound (by rw [hk]; rfl) (by simpa only [hk] using hkind)
            | integer => exact checkNumber_sound (by rw [hk]; rfl) (by simpa only [hk] using hkind)
            | boolean => exact checkBoolean_sound hk (by simpa only [hk] using hkind)
            | array => exact checkArray_sound hk items (by simpa only [hk] using hkind)
            | table => exact checkTable_sound hk fields (by simpa only [hk] using hkind)
            | map => exact checkMap_sound hk keys values (by simpa only [hk] using hkind)
            | any => exact checkAny_sound hk (by simpa only [hk] using hkind)
            | file => exact checkFile_sound hk filename (by simpa only [hk] using hkind)
          obtain ⟨d, hd, hc⟩ := hsound
          refine ⟨_, .intro hd, ?_⟩
          rw [hc]
          simp

end Sound

end Nitr.Validate
