import Nitr.Validate.Sound

/-! # Every derivable value is accepted

A derivation of `Checks` is followed by the checker step for step, so what is
derivable is accepted, with the value, the pointers and the deferred checks the
derivation says. -/

namespace Nitr.Validate

/-- The checker accepts whatever is derivable. -/
def CompleteFor (host : Host) (rule : Rule) : Prop :=
  ∀ {strict : Bool} {v w : Value} {site : Site} {n n' : ℕ} {d : List Pending},
    Checks host strict rule v site n w n' d → ∀ ctx : Ctx, ctx.strict = strict → ctx.next = n →
    checkValue host rule v site ctx = .ok (some w, ctx.advance n' d)

section Complete

variable {host : Host} {rule : Rule} {site : Site} {strict : Bool} {n n' : ℕ}
  {d : List Pending} {v w : Value}

theorem checkItems_complete {keys : RuleKeys} {items : Rule} (hc : CompleteFor host items)
    {out i : ℕ} {vs ws : List Value} {state : ItemState}
    (h : ChecksItems host strict keys items site out i state.seen vs n ws n' d) (ctx : Ctx)
    (hstrict : ctx.strict = strict) (hn : ctx.next = n) (hok : state.ok = true) :
    ∃ seen, checkItems host keys (checkValue host items) site out i vs state ctx =
      .ok (some ⟨seen, setItems i ws state.out, true, vs.foldl addBytes state.totalBytes⟩,
        ctx.advance n' d) := by
  induction vs generalizing i state n ws d ctx with
  | nil =>
      cases h
      refine ⟨state.seen, ?_⟩
      rw [← hok, ← hn, Ctx.advance_self]
      rfl
  | cons v vs ih =>
      cases h with
      | @cons _ _ _ _ _ _ _ n₁ _ _ seen' _ w _ ws d₁ d₂ unique item rest =>
          obtain ⟨seen, hrest⟩ := @ih n₁ d₂ (i + 1) ws
            ⟨seen', state.out.set (.integer i) w, state.ok, addBytes state.totalBytes v⟩ rest
            (ctx.advance n₁ d₁) (by simpa using hstrict) rfl hok
          refine ⟨seen, ?_⟩
          unfold checkItems
          refine Check.bind_eq_ok.mpr ⟨_, _, Check.lift_eq_ok.mpr ⟨unique, rfl⟩, ?_⟩
          refine Check.bind_eq_ok.mpr ⟨_, _, hc item ctx hstrict hn, ?_⟩
          rw [Ctx.advance_advance] at hrest
          exact hrest

theorem checkPairKey_complete {keys : Option Rule} (hc : ∀ r, keys = some r → CompleteFor host r)
    {k k' : LuaString} (h : ChecksKey host strict keys k site n k' n' d) (ctx : Ctx)
    (hstrict : ctx.strict = strict) (hn : ctx.next = n) :
    checkPairKey (keys.map (checkValue host)) site k ctx =
      .ok (some (.string k'), ctx.advance n' d) := by
  cases h with
  | free =>
      rw [← hn, Ctx.advance_self]
      rfl
  | @ruled _ rule _ _ _ _ _ _ checked =>
      refine Check.bind_eq_ok.mpr ⟨ctx.next, { ctx with next := ctx.next + 1 }, rfl, ?_⟩
      have h := hc rule rfl checked { ctx with next := ctx.next + 1 } hstrict (by rw [← hn])
      rw [← hn] at h
      exact h

theorem checkPairs_complete {keys : Option Rule} {values : Rule} {rule : RuleKeys}
    (hk : ∀ r, keys = some r → CompleteFor host r) (hv : CompleteFor host values) {out : ℕ}
    {es built built' : Entries}
    (h : ChecksPairs host strict keys values site out es built n built' n' d) (ctx : Ctx)
    (hstrict : ctx.strict = strict) (hn : ctx.next = n) :
    checkPairs host rule (keys.map (checkValue host)) (checkValue host values) site out es true
      built ctx = .ok ((true, built'), ctx.advance n' d) := by
  induction es generalizing built n d ctx with
  | nil =>
      cases h
      rw [← hn, Ctx.advance_self]
      rfl
  | cons e es ih =>
      cases h with
      | @cons _ _ _ _ _ _ n₁ n₂ _ k k' v w _ _ _ d₁ d₂ d₃ key value rest =>
          have hkey := checkPairKey_complete hk key ctx hstrict hn
          have hvalue := hv value (ctx.advance n₁ d₁) hstrict rfl
          have hrest := ih rest ((ctx.advance n₁ d₁).advance n₂ d₂) hstrict rfl
          unfold checkPairs
          refine Check.bind_eq_ok.mpr ⟨_, _, hkey, ?_⟩
          refine Check.bind_eq_ok.mpr ⟨_, _, hvalue, ?_⟩
          simpa using hrest

theorem checkFieldList_complete {fields : List (String × Rule)}
    (hf : ∀ f ∈ fields, CompleteFor host f.2) {owner : SchemaOptions} {input out out' : Entries}
    {path : FieldPath} {pointer : ℕ}
    (h : ChecksFieldList host strict fields owner input path pointer out n out' n' d) (ctx : Ctx)
    (hstrict : ctx.strict = strict) (hn : ctx.next = n) :
    checkFieldList host fields owner input path pointer true out ctx =
      .ok ((true, out'), ctx.advance n' d) := by
  induction fields generalizing out n d ctx with
  | nil =>
      cases h
      unfold checkFieldList
      rw [← hn, Ctx.advance_self]
      rfl
  | cons f fields ih =>
      have hf' : ∀ f ∈ fields, CompleteFor host f.2 := by
        intro f hm
        exact hf f (List.mem_cons_of_mem _ hm)
      unfold checkFieldList
      cases h with
      | absent missing optional rest =>
          simp only [missing, Value.isNil, optional, reduceIte, Bool.false_eq_true]
          exact ih hf' rest ctx hstrict hn
      | @present _ name rule _ _ _ _ _ _ _ _ n₁ _ w d₁ d₂ given value rest =>
          have hvalue := hf (name, rule) (List.mem_cons_self ..) value ctx hstrict hn
          have hrest := ih hf' rest (ctx.advance n₁ d₁) hstrict rfl
          dsimp only
          rw [Value.isNil_eq_false.mpr given]
          refine Check.bind_eq_ok.mpr ⟨_, _, hvalue, ?_⟩
          simpa using hrest

theorem checkFields_complete {schema : SchemaDef} (hf : ∀ f ∈ schema.fields, CompleteFor host f.2)
    {input out : Entries} {path : FieldPath} {pointer : ℕ}
    (h : ChecksFields host strict schema input path pointer n out n' d) (ctx : Ctx)
    (hstrict : ctx.strict = strict) (hn : ctx.next = n) :
    checkFields host schema input path pointer ctx = .ok ((true, out), ctx.advance n' d) := by
  obtain ⟨fields, options⟩ := schema
  cases h with
  | @intro _ _ _ _ _ _ _ _ d fields known cross =>
      have hlist := checkFieldList_complete hf fields ctx hstrict hn
      have hfin := (@finishFields_eq_true host (ctx.advance n' d) _ _ _ _ _ pointer true).mpr
        ⟨rfl, by rw [Ctx.advance_strict, hstrict]; exact known, cross, rfl⟩
      unfold checkFields
      refine Check.bind_eq_ok.mpr ⟨_, _, hlist, ?_⟩
      refine Check.bind_eq_ok.mpr ⟨_, _, hfin, ?_⟩
      simp

theorem filenameFailure_complete {filename : Option Rule}
    (hf : ∀ r, filename = some r → CompleteFor host r) {info : FileInfo}
    (h : ChecksName host filename info n n') (ctx : Ctx) (hn : ctx.next = n) :
    filenameFailure info (filename.map fun r => (r.required, checkValue host r)) ctx =
      .ok (none, ctx.advance n' []) := by
  cases h with
  | undeclared =>
      rw [← hn, Ctx.advance_self]
      rfl
  | unnamed optional missing =>
      unfold filenameFailure
      rw [missing, ← hn, Ctx.advance_self]
      simp [optional]
  | @named rule _ name w _ _ dropped given checked =>
      have h := hf rule rfl checked
        { strict := false, next := n + 1, errors := [], pending := [] } rfl rfl
      unfold filenameFailure
      rw [given]
      refine Check.bind_eq_ok.mpr ⟨none, ctx.advance n' [], ?_, rfl⟩
      unfold checkFilename
      dsimp only
      rw [hn]
      unfold filenameSite at h
      rw [h]
      simp [Ctx.advance]

theorem checkKind_complete (items : ∀ r, rule.items = some r → CompleteFor host r)
    (keys : ∀ r, rule.keys = some r → CompleteFor host r)
    (values : ∀ r, rule.values = some r → CompleteFor host r)
    (filename : ∀ r, rule.filename = some r → CompleteFor host r)
    (fields : ∀ s, rule.fields = some s → ∀ f ∈ s.fields, CompleteFor host f.2)
    (h : ChecksKind host strict rule v site n w n' d) (ctx : Ctx) (hstrict : ctx.strict = strict)
    (hn : ctx.next = n) :
    checkKind host rule v site ctx = .ok (some w, ctx.advance n' d) := by
  unfold checkKind
  cases h with
  | string kind tests =>
      rw [kind, ← hn]
      refine applyTests_eq_some.mpr ⟨tests, ?_⟩
      exact Check.bind_eq_ok.mpr ⟨(), _, deferFormat_apply _ _, rfl⟩
  | @number _ _ _ _ _ f kind value finite whole tests =>
      have h : checkNumber host rule.toRuleKeys v site ctx = .ok (some v, ctx) := by
        have hfin : (!f.isFinite || (decide (rule.kind = .integer) && !f.isWhole)) = false := by
          simpa [finite] using whole
        unfold checkNumber
        simp only [value, hfin, Bool.false_eq_true, reduceIte]
        exact applyTests_eq_some.mpr ⟨tests, rfl⟩
      rw [← hn, Ctx.advance_self]
      cases hk : rule.kind with
      | number => exact h
      | integer => exact h
      | _ =>
          rw [hk] at kind
          cases kind
  | boolean kind tests =>
      rw [kind, ← hn, Ctx.advance_self]
      exact applyTests_eq_some.mpr ⟨tests, rfl⟩
  | any kind bounds bytes text size =>
      rw [kind, ← hn, Ctx.advance_self]
      simp only [checkAny, bounds, bytes, text, not_lt.mpr size, reduceIte]
      rfl
  | @array _ _ r _ _ _ p len es ws _ kind sequence length nested each tests =>
      obtain ⟨seen, h⟩ := @checkItems_complete host site strict _ _ _ rule.toRuleKeys r
        (items r nested) n 1 (itemsOf len es) ws ⟨[], [], true, 0⟩ each
        { ctx with next := ctx.next + 1 } hstrict (by rw [← hn]) rfl
      rw [kind, nested, ← hn]
      rw [← hn] at h
      unfold checkArray
      simp only [sequence, Bool.not_true, Bool.false_eq_true, reduceIte]
      refine applyTests_eq_some.mpr ⟨length, ?_⟩
      refine Check.bind_eq_ok.mpr ⟨_, _, rfl, ?_⟩
      refine Check.bind_eq_ok.mpr ⟨_, _, h, ?_⟩
      exact applyTests_eq_some.mpr ⟨tests, rfl⟩
  | @table _ _ schema _ _ _ p input out _ kind nested each =>
      have h := checkFields_complete (fields schema nested) each
        { ctx with next := ctx.next + 1 } hstrict (by rw [← hn])
      rw [kind, nested, ← hn]
      rw [← hn] at h
      unfold checkTable
      refine Check.bind_eq_ok.mpr ⟨_, _, rfl, ?_⟩
      exact Check.bind_eq_ok.mpr ⟨_, _, h, rfl⟩
  | @map _ _ r _ _ _ p len es out _ kind count nested each =>
      have h := @checkPairs_complete host site strict _ _ _ rule.keys r rule.toRuleKeys keys
        (values r nested) n es [] out each { ctx with next := ctx.next + 1 } hstrict
        (by rw [← hn])
      rw [kind, nested, ← hn]
      rw [← hn] at h
      refine applyTests_eq_some.mpr ⟨count, ?_⟩
      refine Check.bind_eq_ok.mpr ⟨_, _, rfl, ?_⟩
      exact Check.bind_eq_ok.mpr ⟨_, _, h, rfl⟩
  | file kind part bytes tests name content =>
      have h := filenameFailure_complete filename name ctx hn
      rw [kind]
      unfold checkFile
      simp only [part, bytes]
      refine applyTests_eq_some.mpr ⟨tests, ?_⟩
      refine Check.bind_eq_ok.mpr ⟨_, _, h, ?_⟩
      exact applyTests_eq_some.mpr ⟨content, rfl⟩

theorem checkValue_complete (host : Host) (rule : Rule) : CompleteFor host rule := by
  induction rule using Rule.induct with
  | step rule items keys values filename fields =>
      intro strict v w site n n' d h ctx hstrict hn
      rw [checkValue_eq]
      cases h with
      | intro kind =>
          have h := checkKind_complete items keys values filename fields kind ctx hstrict hn
          refine Check.bind_eq_ok.mpr ⟨_, _, h, ?_⟩
          rw [deferHooks_some]
          simp

end Complete

end Nitr.Validate
