import Nitr.Validate.Complete
import Nitr.Validate.Deferred

/-! # Accepting walks and runs

The walk accepts exactly the values `Checks` relates, and a walk that does not
accept records an error. So a run accepts exactly when its root is derivable and
the deferred script checks record nothing. -/

namespace Nitr.Validate

open Check

section Runs

variable {host : Host} {scripts : Scripts} {schema : SchemaDef} {value : Value}

/-- The root table passes the walk, as the table of pointer `n` with the given entries. -/
inductive Walks (host : Host) (strict : Bool) (schema : SchemaDef) :
    Value → ℕ → Entries → ℕ → List Pending → Prop where
  | intro {p len n n' : ℕ} {input out : Entries} {deferred : List Pending}
      (fields : ChecksFields host strict schema input [] n (n + 1) out n' deferred) :
      Walks host strict schema (.table p len input) n out n' deferred

theorem walk_eq_ok {ctx ctx' : Ctx} {table : Value} :
    (walk host schema value ctx = .ok (table, ctx') ∧ ctx'.errors.length ≤ ctx.errors.length) ↔
      ∃ out d, Walks host ctx.strict schema value ctx.next out ctx'.next d ∧
        table = .table ctx.next 0 out ∧ ctx' = ctx.advance ctx'.next d := by
  constructor
  · rintro ⟨h, hlen⟩
    obtain ⟨pointer, c, hp, h⟩ := bind_eq_ok.mp h
    cases hp
    cases value with
    | table p len input =>
        obtain ⟨⟨ok, out⟩, c', hfields, h⟩ := bind_eq_ok.mp h
        cases h
        cases ok with
        | false =>
            have hreports := checkFields_reports (fun f _ => checkValue_reports host f.2) _ _ _
              _ _ _ hfields
            exact absurd (hreports.2 rfl) (not_lt.mpr hlen)
        | true =>
            obtain ⟨d, hd, hc⟩ := checkFields_sound (fun f _ => checkValue_sound host f.2) hfields
            refine ⟨out, d, .intro hd, rfl, ?_⟩
            rw [hc]
            simp [Ctx.advance]
    | _ =>
        obtain ⟨_, c', hfail, h⟩ := bind_eq_ok.mp h
        cases h
        have hgrown := (Reports.fail host _ _ _ _ hfail).2 trivial
        exact absurd hgrown (not_lt.mpr hlen)
  · rintro ⟨out, d, hwalks, rfl, hc⟩
    cases hwalks with
    | intro fields =>
        have h := checkFields_complete (fun f _ => checkValue_complete host f.2) fields
          { ctx with next := ctx.next + 1 } rfl rfl
        refine ⟨?_, by rw [hc]; rfl⟩
        rw [hc]
        refine bind_eq_ok.mpr ⟨_, _, rfl, ?_⟩
        exact bind_eq_ok.mpr ⟨_, _, h, rfl⟩

/-- A run accepts exactly when its root walks and the deferred checks pass; its output
is the table walked to, after the transforms' writes. -/
theorem run_eq_accepted {start : Start} {output : Value} :
    run host scripts schema value start = .ok (.ok output) ↔
      host.nesting < maxNesting ∧ ∃ out n d writes,
        Walks host (start.strict.getD false) schema value start.next out n d ∧
        FieldsPass scripts d [] writes ∧ SchemasPass scripts d writes ∧
        output = (Value.table start.next 0 out).deref writes := by
  unfold run
  constructor
  · intro h
    split at h
    · cases h
    · rename_i hnest
      refine ⟨not_le.mp hnest, ?_⟩
      dsimp only at h
      split at h
      · cases h
      · rename_i table ctx hwalk
        split at h
        · cases h
        · rename_i writes ctx' hdeferred
          split at h
          · rename_i hempty
            cases h
            obtain ⟨hnil, hpass, hschemas, -⟩ :=
              runDeferred_eq_ok.mp ⟨hdeferred, List.isEmpty_iff.mp hempty⟩
            obtain ⟨out, d, hwalks, rfl, hctx⟩ := walk_eq_ok.mp ⟨hwalk, by simp [hnil]⟩
            rw [hctx] at hpass hschemas
            exact ⟨out, ctx.next, d, writes, hwalks, by simpa using hpass, by simpa using hschemas,
              rfl⟩
          · cases h
  · rintro ⟨hnest, out, n, d, writes, hwalks, hpass, hschemas, rfl⟩
    have hctx : ∀ ctx : Ctx, ctx.strict = start.strict.getD false → ctx.next = start.next →
        ctx.errors = [] → ctx.pending = [] →
        walk host schema value ctx = .ok (.table start.next 0 out, ctx.advance n d) ∧
        runDeferred host scripts (ctx.advance n d) =
          .ok (writes, { ctx.advance n d with pending := [] }) := by
      intro ctx hstrict hn herrors hpending
      constructor
      · refine (walk_eq_ok.mpr ⟨out, d, ?_, ?_, rfl⟩).1
        · rw [hstrict, hn]
          exact hwalks
        · rw [hn]
      · refine (@runDeferred_eq_ok host scripts writes (ctx.advance n d) _).mpr
          ⟨herrors, ?_, ?_, rfl⟩ |>.1
        · simpa [hpending] using hpass
        · simpa [hpending] using hschemas
    obtain ⟨hwalk, hdeferred⟩ := hctx
      { strict := start.strict.getD false, next := start.next, errors := [], pending := [] }
      rfl rfl rfl rfl
    rw [if_neg (not_le.mpr hnest)]
    dsimp only
    rw [hwalk]
    dsimp only
    rw [hdeferred]
    rfl

end Runs

end Nitr.Validate
