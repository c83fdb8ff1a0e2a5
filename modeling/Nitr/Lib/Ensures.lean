import Mathlib.Data.List.Forall2

/-! # Postconditions of fallible computations

`Ensures x p` says that `p` holds of the result whenever `x` returns one. The
rules follow the constructors of a `do` block, so a long checker is verified by
walking its text once. -/

namespace Except

universe u

variable {ε : Type*} {α β : Type u}

def Ensures (x : Except ε α) (p : α → Prop) : Prop := ∀ a, x = .ok a → p a

namespace Ensures

variable {p : α → Prop} {q : β → Prop}

theorem ok {a : α} (h : p a) : Ensures (.ok a : Except ε α) p := by
  intro b hb
  cases hb
  exact h

theorem pure {a : α} (h : p a) : Ensures (Pure.pure a : Except ε α) p := ok h

theorem error {e : ε} : Ensures (.error e) p := by
  intro b hb
  cases hb

theorem bind {x : Except ε α} {f : α → Except ε β} (h : ∀ a, x = .ok a → Ensures (f a) q) :
    Ensures (x >>= f) q := by
  intro b hb
  cases x with
  | error e => cases hb
  | ok a => exact h a rfl b hb

theorem map {x : Except ε α} {f : α → β} (h : ∀ a, x = .ok a → q (f a)) :
    Ensures (f <$> x) q := by
  intro b hb
  cases x with
  | error e => cases hb
  | ok a =>
      cases hb
      exact h a rfl

theorem mono {x : Except ε α} {p' : α → Prop} (h : Ensures x p) (hp : ∀ a, p a → p' a) :
    Ensures x p' := fun a ha => hp a (h a ha)

/-- Every result of a mapped list comes from one of its elements. -/
theorem mapM {f : α → Except ε β} (xs : List α) :
    Ensures (xs.mapM f) (List.Forall₂ (fun x y => f x = .ok y) xs) := by
  induction xs with
  | nil => exact pure List.Forall₂.nil
  | cons x xs ih =>
    rw [List.mapM_cons]
    apply Ensures.bind
    intro y hy
    apply Ensures.bind
    intro ys hys
    exact pure (List.Forall₂.cons hy (ih ys hys))

/-- What a mapped list returns, element by element. -/
theorem exists_of_mem_mapM {f : α → Except ε β} {xs : List α} {ys : List β}
    (h : xs.mapM f = .ok ys) {y : β} (hy : y ∈ ys) : ∃ x ∈ xs, f x = .ok y := by
  have hall := mapM xs ys h
  clear h
  induction hall with
  | nil => cases hy
  | @cons x y' xs ys hx _ ih =>
      rcases List.mem_cons.mp hy with rfl | hy
      · exact ⟨x, List.mem_cons_self, hx⟩
      · obtain ⟨x', hx', hf⟩ := ih hy
        exact ⟨x', List.mem_cons_of_mem x hx', hf⟩

end Ensures

/-- A sequence returns through a result of its first part. -/
theorem bind_eq_ok_iff {x : Except ε α} {f : α → Except ε β} {b : β} :
    x >>= f = .ok b ↔ ∃ a, x = .ok a ∧ f a = .ok b := by
  constructor
  · intro h
    cases x with
    | error e => cases h
    | ok a => exact ⟨a, rfl, h⟩
  · rintro ⟨a, rfl, h⟩
    exact h

end Except
