import Mathlib.Data.List.Basic

/-! # Systems that take actions

A system is a partial step function: an action that a state does not allow has no successor.
`runFrom` takes the actions of a list one after another, so a list of actions is one interleaving
of everything that the parts of the system do. -/

namespace Actions

variable {σ α : Type*}

/-- The state after the actions, if each was allowed where it was taken. -/
def runFrom (step : σ → α → Option σ) (s : σ) : List α → Option σ
  | [] => some s
  | a :: acts => (step s a).bind fun s' => runFrom step s' acts

/-- Each action of the run is taken in a state that suits it. -/
def Along (step : σ → α → Option σ) (ok : σ → α → Prop) (s : σ) : List α → Prop
  | [] => True
  | a :: acts => ok s a ∧ ∀ s' ∈ step s a, Along step ok s' acts

instance decidableAlong (step : σ → α → Option σ) (ok : σ → α → Prop)
    [∀ s a, Decidable (ok s a)] : ∀ s acts, Decidable (Along step ok s acts)
  | _, [] => isTrue trivial
  | s, a :: acts =>
    let _ := fun s' => decidableAlong step ok s' acts
    inferInstanceAs (Decidable (ok s a ∧ ∀ s' ∈ step s a, Along step ok s' acts))

variable {step : σ → α → Option σ} {ok : σ → α → Prop} {s s' : σ} {acts : List α}

@[simp] theorem runFrom_nil : runFrom step s [] = some s := rfl

theorem runFrom_cons_eq_some {a : α} :
    runFrom step s (a :: acts) = some s' ↔
      ∃ mid, step s a = some mid ∧ runFrom step mid acts = some s' := by
  rw [runFrom, Option.bind_eq_some_iff]

theorem runFrom_append (acts acts' : List α) :
    runFrom step s (acts ++ acts') =
      (runFrom step s acts).bind fun mid => runFrom step mid acts' := by
  induction acts generalizing s with
  | nil => rfl
  | cons a acts ih =>
      rw [List.cons_append, runFrom, runFrom, Option.bind_assoc]
      exact congrArg _ (funext fun mid => ih)

theorem runFrom_append_eq_some {acts' : List α} :
    runFrom step s (acts ++ acts') = some s' ↔
      ∃ mid, runFrom step s acts = some mid ∧ runFrom step mid acts' = some s' := by
  rw [runFrom_append, Option.bind_eq_some_iff]

theorem Along.of_forall {q : α → Prop} (hq : ∀ a ∈ acts, q a) :
    Along step (fun _ a => q a) s acts := by
  induction acts generalizing s with
  | nil => trivial
  | cons a acts ih =>
      exact ⟨hq a (List.mem_cons_self ..), fun s' _ => ih fun b hb => hq b (List.mem_cons_of_mem a hb)⟩

theorem Along.and_of_forall {q : α → Prop} (h : Along step ok s acts) (hq : ∀ a ∈ acts, q a) :
    Along step (fun s a => ok s a ∧ q a) s acts := by
  induction acts generalizing s with
  | nil => trivial
  | cons a acts ih =>
      refine ⟨⟨h.1, hq a (List.mem_cons_self ..)⟩, fun s' hs' => ih (h.2 s' hs') fun b hb => ?_⟩
      exact hq b (List.mem_cons_of_mem a hb)

/-! ## Invariants -/

/-- What every step keeps, every run keeps. -/
theorem runFrom_keeps {inv : σ → Prop} (hstep : ∀ s a s', inv s → step s a = some s' → inv s')
    (hinv : inv s) (h : runFrom step s acts = some s') : inv s' := by
  induction acts generalizing s with
  | nil =>
      cases h
      exact hinv
  | cons a acts ih =>
      obtain ⟨mid, hmid, hrest⟩ := runFrom_cons_eq_some.mp h
      exact ih (hstep s a mid hinv hmid) hrest

/-- What every suitable step keeps, every run of suitable steps keeps. -/
theorem runFrom_keeps_along {inv : σ → Prop}
    (hstep : ∀ s a s', inv s → ok s a → step s a = some s' → inv s')
    (hinv : inv s) (halong : Along step ok s acts) (h : runFrom step s acts = some s') :
    inv s' := by
  induction acts generalizing s with
  | nil =>
      cases h
      exact hinv
  | cons a acts ih =>
      obtain ⟨mid, hmid, hrest⟩ := runFrom_cons_eq_some.mp h
      exact ih (hstep s a mid hinv halong.1 hmid) (halong.2 mid hmid) hrest

/-- A reflexive and transitive relation that every step meets, while an invariant holds, relates
the ends of every run. -/
theorem runFrom_related (inv : σ → Prop) (rel : σ → σ → Prop) (hrefl : ∀ s, rel s s)
    (htrans : ∀ a b c, rel a b → rel b c → rel a c)
    (hstep : ∀ s a s', inv s → step s a = some s' → inv s' ∧ rel s s')
    (hinv : inv s) (h : runFrom step s acts = some s') : rel s s' := by
  induction acts generalizing s with
  | nil =>
      cases h
      exact hrefl _
  | cons a acts ih =>
      obtain ⟨mid, hmid, hrest⟩ := runFrom_cons_eq_some.mp h
      obtain ⟨hinv', hrel⟩ := hstep s a mid hinv hmid
      exact htrans s mid s' hrel (ih hinv' hrest)

/-- A run that leaves a set of states left it by one step. -/
theorem exists_exit {p : σ → Prop} [DecidablePred p] (hs : p s) (hs' : ¬p s')
    (h : runFrom step s acts = some s') :
    ∃ before a after mid mid', acts = before ++ a :: after ∧ runFrom step s before = some mid ∧
      p mid ∧ step mid a = some mid' ∧ ¬p mid' ∧ runFrom step mid' after = some s' := by
  induction acts generalizing s with
  | nil =>
      cases h
      exact absurd hs hs'
  | cons a acts ih =>
      obtain ⟨mid, hmid, hrest⟩ := runFrom_cons_eq_some.mp h
      by_cases hp : p mid
      · obtain ⟨before, b, after, m, m', rfl, hbefore, hm⟩ := ih hp hrest
        exact ⟨a :: before, b, after, m, m', rfl,
          runFrom_cons_eq_some.mpr ⟨mid, hmid, hbefore⟩, hm⟩
      · exact ⟨[], a, acts, s, mid, rfl, rfl, hs, hmid, hp, hrest⟩

end Actions
