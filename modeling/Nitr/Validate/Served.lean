import Nitr.Validate.Calls
import Nitr.Validate.Deref

/-! # What an accepting run calls for each visit

The hooks deferred on a visit, run in order. What is written and called for a visited value is
found again in the calls and the replacements of the whole run, and nothing else is. -/

namespace Nitr.Validate

/-! ## Two deferred lists -/

section Append

variable {scripts : Scripts} {ps qs : List Pending} {ws ws' : Writes}

theorem fieldCalls_append :
    fieldCalls scripts (ps ++ qs) ws =
      fieldCalls scripts ps ws ++ fieldCalls scripts qs (fieldWrites scripts ps ws) := by
  induction ps generalizing ws with
  | nil => rfl
  | cons p ps ih =>
      cases p with
      | schema table root schema index => exact ih
      | field slot path field rule owner value check =>
          rw [List.cons_append, fieldCalls, fieldCalls, ih, List.cons_append]
          cases check <;> rfl

theorem fieldsPass_append :
    FieldsPass scripts (ps ++ qs) ws ws' ↔
      FieldsPass scripts ps ws (fieldWrites scripts ps ws) ∧
        FieldsPass scripts qs (fieldWrites scripts ps ws) ws' := by
  induction ps generalizing ws with
  | nil => exact ⟨fun h => ⟨.nil, h⟩, fun h => h.2⟩
  | cons p ps ih =>
      constructor
      · intro h
        cases h with
        | schema rest => exact ⟨.schema (ih.mp rest).1, (ih.mp rest).2⟩
        | check hne holds rest =>
            rw [fieldWrites_check hne]
            exact ⟨.check hne holds (ih.mp rest).1, (ih.mp rest).2⟩
        | transform called typed rest =>
            rw [fieldWrites, Scripts.answer_of_call called]
            exact ⟨.transform called typed (ih.mp rest).1, (ih.mp rest).2⟩
      · rintro ⟨h, hqs⟩
        cases h with
        | schema rest => exact .schema (ih.mpr ⟨rest, hqs⟩)
        | check hne holds rest =>
            rw [fieldWrites_check hne] at rest hqs
            exact .check hne holds (ih.mpr ⟨rest, hqs⟩)
        | transform called typed rest =>
            rw [fieldWrites, Scripts.answer_of_call called] at rest hqs
            exact .transform called typed (ih.mpr ⟨rest, hqs⟩)

end Append

/-! ## The hooks of one value -/

/-- The call of a script check of a visit, on what the visit shows after the writes. -/
def Visit.call (scripts : Scripts) (ws : Writes) (x : Visit) (check : PendingCheck) : HookCall :=
  ⟨x.site.pending x.rule.toRuleKeys x.checked check, x.shown ws,
    scripts.answer check.func (x.shown ws)⟩

/-- The visits whose hooks are deferred: all but the names of uploads. -/
def Visit.Inside (visit x : Visit) : Prop :=
  ∃ standing, standing ≠ .filename ∧ visit.Reaches standing x

/-- The hooks of the visit ran: its checks hold, and what its transform answered is written. -/
structure Served (scripts : Scripts) (final added : Writes) (calls : List HookCall) (x : Visit) :
    Prop where
  holds : ∀ check ∈ x.rule.scripts, (∀ f, check ≠ .transform f) →
    scripts.Holds check.func (x.shown final)
  called : ∀ check ∈ x.rule.scripts, x.call scripts final check ∈ calls
  written : ∀ f, x.rule.transform = some f → (x.slot, scripts.answer f (x.shown final)) ∈ added

/-- The writes and calls are those for the hooks of some visits, and no others. -/
structure Accounts (scripts : Scripts) (inside : Visit → Prop) (final added : Writes)
    (calls : List HookCall) : Prop where
  served : ∀ x, inside x → Served scripts final added calls x
  written : ∀ w ∈ added, ∃ x f, inside x ∧ x.rule.transform = some f ∧
    w = (x.slot, scripts.answer f (x.shown final))
  made : ∀ call ∈ calls, ∃ x check, inside x ∧ check ∈ x.rule.scripts ∧
    call = x.call scripts final check

section Accounts

variable {scripts : Scripts} {final added added' : Writes} {calls calls' : List HookCall}
  {P Q R : Visit → Prop}

theorem Served.mono {x : Visit} (h : Served scripts final added calls x) (ha : added ⊆ added')
    (hc : calls ⊆ calls') : Served scripts final added' calls' x :=
  ⟨h.holds, fun check hcheck => hc (h.called check hcheck), fun f hf => ha (h.written f hf)⟩

theorem Accounts.append (h : Accounts scripts P final added calls)
    (h' : Accounts scripts Q final added' calls') (hR : ∀ x, R x ↔ P x ∨ Q x) :
    Accounts scripts R final (added' ++ added) (calls ++ calls') := by
  refine ⟨fun x hx => ?_, fun w hw => ?_, fun call hcall => ?_⟩
  · obtain hx | hx := (hR x).mp hx
    · exact (h.served x hx).mono (List.subset_append_right ..) (List.subset_append_left ..)
    · exact (h'.served x hx).mono (List.subset_append_left ..) (List.subset_append_right ..)
  · obtain hw | hw := List.mem_append.mp hw
    · obtain ⟨x, f, hx, hf, heq⟩ := h'.written w hw
      exact ⟨x, f, (hR x).mpr (.inr hx), hf, heq⟩
    · obtain ⟨x, f, hx, hf, heq⟩ := h.written w hw
      exact ⟨x, f, (hR x).mpr (.inl hx), hf, heq⟩
  · obtain hcall | hcall := List.mem_append.mp hcall
    · obtain ⟨x, check, hx, hcheck, heq⟩ := h.made call hcall
      exact ⟨x, check, (hR x).mpr (.inl hx), hcheck, heq⟩
    · obtain ⟨x, check, hx, hcheck, heq⟩ := h'.made call hcall
      exact ⟨x, check, (hR x).mpr (.inr hx), hcheck, heq⟩

end Accounts

section Own

variable {scripts : Scripts} {ws ws' : Writes} {ps : List Pending} {rule : RuleKeys} {site : Site}
  {value : Value}

/-- The script checks of a rule but its transform. -/
def RuleKeys.checks (rule : RuleKeys) : List PendingCheck :=
  rule.customFormat ++ (rule.check.map .custom).toList

theorem RuleKeys.scripts_eq (rule : RuleKeys) :
    rule.scripts = rule.checks ++ (rule.transform.map .transform).toList := by
  rw [RuleKeys.scripts, RuleKeys.checks, RuleKeys.hooks, List.append_assoc]

theorem RuleKeys.ne_transform_of_mem_checks {check : PendingCheck} (h : check ∈ rule.checks)
    (f : Function) : check ≠ .transform f := by
  obtain h | h := List.mem_append.mp h
  · unfold RuleKeys.customFormat at h
    split at h
    · rw [List.mem_singleton.mp h]
      simp
    · cases h
  · cases hcheck : rule.check with
    | none =>
        rw [hcheck] at h
        cases h
    | some g =>
        rw [hcheck] at h
        rw [List.mem_singleton.mp h]
        simp

theorem RuleKeys.mem_scripts {check : PendingCheck} :
    check ∈ rule.scripts ↔
      check ∈ rule.checks ∨ ∃ f, rule.transform = some f ∧ check = .transform f := by
  rw [RuleKeys.scripts_eq, List.mem_append]
  refine or_congr_right ?_
  cases rule.transform with
  | none => simp
  | some f => simp

theorem FieldsPass.checks {checks : List PendingCheck}
    (h : FieldsPass scripts (checks.map (site.pending rule value)) ws ws')
    (hne : ∀ check ∈ checks, ∀ f, check ≠ .transform f) :
    ∀ check ∈ checks, scripts.Holds check.func (value.deref ws) := by
  induction checks with
  | nil => exact fun _ hc => absurd hc List.not_mem_nil
  | cons check checks ih =>
      cases h with
      | transform => exact absurd rfl (hne _ List.mem_cons_self _)
      | check _ holds rest =>
          intro c hc
          cases hc with
          | head => exact holds
          | tail _ hc => exact ih rest (fun d hd => hne d (List.mem_cons_of_mem _ hd)) c hc

end Own

/-! ## The hooks of a tree -/

section Inside

variable {s n n' : ℕ} {visit x : Visit}

/-- The visits inside the parts whose hooks are deferred. -/
def InsideParts (parts : List (Role × Visit)) (x : Visit) : Prop :=
  ∃ p ∈ parts, p.1 ≠ .filename ∧ p.2.Inside x

theorem insideParts_cons {p : Role × Visit} {parts : List (Role × Visit)} (hp : p.1 ≠ .filename) :
    InsideParts (p :: parts) x ↔ p.2.Inside x ∨ InsideParts parts x := by
  constructor
  · rintro ⟨q, hq, hne, hx⟩
    cases hq with
    | head => exact .inl hx
    | tail _ hq => exact .inr ⟨q, hq, hne, hx⟩
  · rintro (hx | ⟨q, hq, hne, hx⟩)
    · exact ⟨p, List.mem_cons_self, hp, hx⟩
    · exact ⟨q, List.mem_cons_of_mem _ hq, hne, hx⟩

theorem partsPending_cons {p : Role × Visit} {parts : List (Role × Visit)} (hp : p.1 ≠ .filename) :
    partsPending (p :: parts) = p.2.pending ++ partsPending parts := by
  obtain ⟨role, part⟩ := p
  cases role with
  | value key => exact partsPending_value key part parts
  | key key => exact partsPending_key key part parts
  | filename => exact absurd rfl hp

theorem PartFormed.ne_filename {rule : Rule} {m a b : ℕ} {p : Role × Visit}
    (h : PartFormed s rule m a b p) : p.1 ≠ .filename := by
  cases h <;> simp

end Inside

section Trees

variable {scripts : Scripts} {s n n' : ℕ} {ws ws' : Writes}

/-- The writes go to tables built by the run, but not to those of the pointers. -/
def Elsewhere (s n n' : ℕ) (ws : Writes) : Prop :=
  ∀ w ∈ ws, s ≤ w.1.table ∧ (w.1.table < n ∨ n' ≤ w.1.table)

theorem Elsewhere.append {ws₁ ws₂ : Writes} (h₁ : Elsewhere s n n' ws₁) (h₂ : Elsewhere s n n' ws₂) :
    Elsewhere s n n' (ws₁ ++ ws₂) := by
  intro w hw
  obtain hw | hw := List.mem_append.mp hw
  · exact h₁ w hw
  · exact h₂ w hw

theorem Elsewhere.mono {m m' : ℕ} (h : Elsewhere s n n' ws) (hn : n ≤ m) (hn' : m' ≤ n') :
    Elsewhere s m m' ws := by
  intro w hw
  obtain ⟨hs, hor⟩ := h w hw
  exact ⟨hs, by omega⟩

/-- The slot of a visit that declares a transform is in a table older than its own. -/
def Visit.Seated (s n : ℕ) (visit : Visit) : Prop :=
  visit.rule.transform = none ∨ s ≤ visit.slot.table ∧ visit.slot.table < n

/-- The deferred hooks of a tree account for what they write and call, also after writes
elsewhere. -/
def AccountedFor (scripts : Scripts) (visit : Visit) : Prop :=
  ∀ {s n n' : ℕ} {ws ws' : Writes}, Formed s n n' visit → s ≤ n → visit.Seated s n →
    FieldsPass scripts visit.pending ws ws' →
      ∃ added, ws' = added ++ ws ∧
        (∀ w ∈ added, w.1.table = visit.slot.table ∧ visit.rule.transform ≠ none ∨
          n ≤ w.1.table ∧ w.1.table < n') ∧
        ∀ later, Elsewhere s n n' later →
          Accounts scripts visit.Inside (later ++ (added ++ ws)) added
            (fieldCalls scripts visit.pending ws)

theorem FormedParts.accounts {rule : Rule} {m : ℕ} {parts : List (Role × Visit)}
    (ih : ∀ p ∈ parts, AccountedFor scripts p.2) (h : FormedParts s rule m n n' parts) (hs : s ≤ m)
    (hm : m < n) (hp : FieldsPass scripts (partsPending parts) ws ws') :
    ∃ added, ws' = added ++ ws ∧
      (∀ w ∈ added, w.1.table = m ∨ n ≤ w.1.table ∧ w.1.table < n') ∧
      ∀ later, Elsewhere s n n' later →
        Accounts scripts (InsideParts parts) (later ++ (added ++ ws)) added
          (fieldCalls scripts (partsPending parts) ws) := by
  induction parts generalizing n ws with
  | nil =>
      cases hp
      refine ⟨[], rfl, fun w hw => absurd hw List.not_mem_nil, fun later _ => ?_⟩
      refine ⟨?_, fun w hw => absurd hw List.not_mem_nil, fun call hc => absurd hc List.not_mem_nil⟩
      rintro x ⟨p, hp, -⟩
      cases hp
  | cons p parts ihParts =>
      obtain ⟨n₁, hpart, hrest⟩ := h.cons
      have hrole := hpart.ne_filename
      rw [partsPending_cons hrole] at hp ⊢
      obtain ⟨hfirst, hmore⟩ := fieldsPass_append.mp hp
      -- The part drew its own pointers after the slot of a key's scratch table.
      have hformed : ∃ a, n ≤ a ∧ Formed s a n₁ p.2 ∧ p.2.slot.table < a ∧
          (p.2.slot.table = m ∨ p.2.slot.table = n ∧ n < n₁) := by
        cases hpart with
        | value typed slot formed =>
            exact ⟨n, le_rfl, formed, by rw [slot]; exact hm, .inl (by rw [slot])⟩
        | key slot text leaf formed =>
            exact ⟨n + 1, Nat.le_succ n, formed, by rw [slot]; exact Nat.lt_succ_self n,
              .inr ⟨by rw [slot], formed.le⟩⟩
      obtain ⟨a, hna, hformed, hseat, hslot⟩ := hformed
      have hle := hformed.le
      have hle' := hrest.le
      obtain ⟨added₁, hadded₁, hrange₁, haccounts₁⟩ := ih p List.mem_cons_self hformed
        (by omega) (.inr ⟨by omega, hseat⟩) hfirst
      obtain ⟨added₂, hadded₂, hrange₂, haccounts₂⟩ := ihParts
        (fun q hq => ih q (List.mem_cons_of_mem _ hq)) hrest (by omega) hmore
      refine ⟨added₂ ++ added₁, ?_, fun w hw => ?_, fun later hlater => ?_⟩
      · rw [hadded₂, hadded₁, List.append_assoc]
      · obtain hw | hw := List.mem_append.mp hw
        · have := hrange₂ w hw
          omega
        · have := hrange₁ w hw
          omega
      · have helse : Elsewhere s a n₁ added₂ := by
          intro w hw
          have := hrange₂ w hw
          omega
        have hone := haccounts₁ (later ++ added₂)
          ((hlater.mono hna (by omega)).append helse)
        have htwo := haccounts₂ later (hlater.mono (by omega) le_rfl)
        rw [hadded₁] at htwo
        rw [fieldCalls_append, hadded₁]
        rw [List.append_assoc later] at hone
        rw [List.append_assoc added₂]
        exact hone.append htwo fun x => insideParts_cons hrole

theorem Visit.pending_eq (visit : Visit) :
    visit.pending =
      partsPending visit.parts ++ ownPending visit.rule visit.site visit.checked := by
  obtain ⟨rule, site, checked, parts⟩ := visit
  rw [Visit.pending]
  rfl

end Trees

end Nitr.Validate
