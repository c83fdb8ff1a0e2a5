import Mathlib.Order.Basic

/-! # Runs that keep their state

A computation over a state that ends with a result or an error and with the state it left in
either case, or does not end within the steps it is given. `Ends` is its postcondition, for
errors as well as for results; `Extends` compares a run with one that is given more steps. -/

universe u

/-- `none` where the run did not end. -/
def Run (σ ε : Type u) (α : Type u) : Type u := σ → Option (Except ε α × σ)

namespace Run

variable {σ ε α β : Type u}

instance : Monad (Run σ ε) where
  pure a := fun s => some (.ok a, s)
  bind x f := fun s =>
    match x s with
    | none => none
    | some (.error e, s) => some (.error e, s)
    | some (.ok a, s) => f a s

def fail (e : ε) : Run σ ε α := fun s => some (.error e, s)

/-- A fallible step that leaves the state alone. -/
def lift (x : Except ε α) : Run σ ε α := fun s => some (x, s)

/-! ## Postconditions -/

/-- The run ends, with this of its outcome and of the state it leaves. -/
def Ends (x : Run σ ε α) (s : σ) (post : Except ε α → σ → Prop) : Prop :=
  ∃ r s', x s = some (r, s') ∧ post r s'

namespace Ends

variable {s : σ} {post post' : Except ε α → σ → Prop}

theorem mono {x : Run σ ε α} (h : Ends x s post) (hpost : ∀ r s', post r s' → post' r s') :
    Ends x s post' := by
  have ⟨r, s', hrun, hr⟩ := h
  exact ⟨r, s', hrun, hpost r s' hr⟩

theorem pure {a : α} (h : post (.ok a) s) : Ends (Pure.pure a : Run σ ε α) s post :=
  ⟨.ok a, s, rfl, h⟩

theorem fail {e : ε} (h : post (.error e) s) : Ends (Run.fail e : Run σ ε α) s post :=
  ⟨.error e, s, rfl, h⟩

theorem lift {x : Except ε α} (h : post x s) : Ends (Run.lift x : Run σ ε α) s post :=
  ⟨x, s, rfl, h⟩

/-- An error ends the whole; a result is handed on. -/
theorem bind {x : Run σ ε α} {f : α → Run σ ε β} {post : Except ε β → σ → Prop}
    (h : Ends x s fun r s' => match r with
      | .error e => post (.error e) s'
      | .ok a => Ends (f a) s' post) : Ends (x >>= f) s post := by
  have ⟨r, s', hrun, hr⟩ := h
  cases r with
  | error e => exact ⟨.error e, s', by simp only [Bind.bind, hrun], hr⟩
  | ok a =>
      have ⟨r, s'', hrun', hr'⟩ := hr
      exact ⟨r, s'', by simp only [Bind.bind, hrun, hrun'], hr'⟩

end Ends

/-! ## More steps -/

/-- Where one run ends the other ends alike. -/
def Extends (x y : Run σ ε α) : Prop := ∀ s r, x s = some r → y s = some r

namespace Extends

theorem refl (x : Run σ ε α) : Extends x x := fun _ _ h => h

theorem bind {x y : Run σ ε α} {f g : α → Run σ ε β} (hxy : Extends x y)
    (hfg : ∀ a, Extends (f a) (g a)) : Extends (x >>= f) (y >>= g) := by
  intro s r h
  simp only [Bind.bind] at h ⊢
  cases hx : x s with
  | none =>
      rw [hx] at h
      cases h
  | some out =>
      rw [hx] at h
      rw [hxy s out hx]
      have ⟨result, s'⟩ := out
      cases result with
      | error e => exact h
      | ok a => exact hfg a s' r h

end Extends

end Run
