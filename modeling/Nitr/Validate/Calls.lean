import Nitr.Validate.Acceptance

/-! # The script calls of a run

A run that notes every script call it makes: the deferred item the call is for, the value it
is called on and the first value it returns. Without the notes it is the run itself. -/

namespace Nitr.Validate

/-! ## Runs with notes -/

/-- A script call of a run. -/
structure HookCall where
  item : Pending
  argument : Value
  answer : Value

section Noting

variable {α : Type}

/-- Notes a call before those of the rest. -/
def Check.note (call : HookCall) (rest : Check (α × List HookCall)) : Check (α × List HookCall) :=
  (fun r => (r.1, call :: r.2)) <$> rest

end Noting

section Traces

variable (host : Host) (scripts : Scripts)

end Traces

/-! ## The notes change nothing -/

section Erasure

variable {host : Host} {scripts : Scripts}

end Erasure

/-! ## The calls of an accepting run -/

section Passing

variable (scripts : Scripts)

/-- The first value a call returns, `nil` where it raises. -/
def Scripts.answer (f : Function) (value : Value) : Value :=
  match scripts.call f value with
  | .ok results => results.headD .nil
  | .error _ => .nil

/-- The replacements of the deferred transforms, each made after the earlier ones. -/
def fieldWrites : List Pending → Writes → Writes
  | [], writes => writes
  | .field slot _ _ _ _ value (.transform f) :: rest, writes =>
    fieldWrites rest ((slot, scripts.answer f (value.deref writes)) :: writes)
  | _ :: rest, writes => fieldWrites rest writes

/-- The calls for the deferred field-level items. -/
def fieldCalls : List Pending → Writes → List HookCall
  | [], _ => []
  | .schema .. :: rest, writes => fieldCalls rest writes
  | .field slot path field rule owner value check :: rest, writes =>
    ⟨.field slot path field rule owner value check, value.deref writes,
      scripts.answer check.func (value.deref writes)⟩ ::
      fieldCalls rest
        (fieldWrites scripts [.field slot path field rule owner value check] writes)

/-- The calls for the deferred schema-level items. -/
def schemaCalls (writes : Writes) : List Pending → List HookCall
  | [] => []
  | .field .. :: rest => schemaCalls writes rest
  | .schema table root schema index :: rest =>
    match schema.options.checks[index]? with
    | none => schemaCalls writes rest
    | some check =>
      ⟨.schema table root schema index, table.deref writes,
        scripts.answer check.func (table.deref writes)⟩ :: schemaCalls writes rest

end Passing

section Accepted

variable {host : Host} {scripts : Scripts}

theorem Scripts.answer_of_call {f : Function} {value : Value} {results : List Value}
    (h : scripts.call f value = .ok results) : scripts.answer f value = results.headD .nil := by
  rw [Scripts.answer, h]

theorem fieldWrites_check {check : PendingCheck} (h : ∀ f, check ≠ .transform f) (slot : Slot)
    (path field : String) (rule : RuleKeys) (owner : SchemaOptions) (value : Value)
    (ps : List Pending) (writes : Writes) :
    fieldWrites scripts (.field slot path field rule owner value check :: ps) writes =
      fieldWrites scripts ps writes := by
  cases check with
  | custom f => rfl
  | format c => rfl
  | transform f => exact absurd rfl (h f)

theorem schemaCalls_schema {table : Value} {root : String} {schema : SchemaDef} {index : ℕ}
    {check : CheckDef} (h : schema.options.checks[index]? = some check) (writes : Writes)
    (ps : List Pending) :
    schemaCalls scripts writes (.schema table root schema index :: ps) =
      ⟨.schema table root schema index, table.deref writes,
        scripts.answer check.func (table.deref writes)⟩ :: schemaCalls scripts writes ps := by
  rw [schemaCalls, h]

end Accepted

end Nitr.Validate
