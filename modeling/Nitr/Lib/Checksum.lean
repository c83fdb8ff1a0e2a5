import Mathlib.Algebra.BigOperators.Group.List.Basic
import Mathlib.Data.Int.ModEq
import Mathlib.Data.Nat.Digits.Lemmas

/-! # Check sums

A sum of weights by position and a number in digits, each taken modulo `m`: a change of one
symbol changes either, where the weights of the two symbols differ modulo `m` and where `m`
shares no factor with the base. -/

namespace Checksum

/-! ## Sums of weights -/

section

variable {α : Type*}

/-- The sum of what each symbol weighs at its position. -/
def weigh (weight : ℕ → α → ℕ) (symbols : List α) : ℕ := (symbols.mapIdx weight).sum

@[simp] theorem weigh_nil (weight : ℕ → α → ℕ) : weigh weight [] = 0 := rfl

theorem weigh_cons (weight : ℕ → α → ℕ) (x : α) (symbols : List α) :
    weigh weight (x :: symbols) = weight 0 x + weigh (fun i => weight (i + 1)) symbols := by
  rw [weigh, List.mapIdx_cons, List.sum_cons]
  rfl

theorem weigh_append (weight : ℕ → α → ℕ) (front back : List α) :
    weigh weight (front ++ back) =
      weigh weight front + weigh (fun i => weight (i + front.length)) back := by
  rw [weigh, List.mapIdx_append, List.sum_append]
  rfl

theorem weigh_le {weight : ℕ → α → ℕ} {bound : ℕ} {symbols : List α}
    (h : ∀ i, ∀ x ∈ symbols, weight i x ≤ bound) :
    weigh weight symbols ≤ bound * symbols.length := by
  induction symbols generalizing weight with
  | nil => exact Nat.zero_le _
  | cons x symbols ih =>
      have hx := h 0 x List.mem_cons_self
      have hrest : weigh (fun i => weight (i + 1)) symbols ≤ bound * symbols.length :=
        ih fun i y hy => h (i + 1) y (List.mem_cons_of_mem _ hy)
      rw [weigh_cons, List.length_cons, Nat.mul_succ]
      omega

/-- A change of one symbol changes the sum by what its weight changes. -/
theorem weigh_change {weight : ℕ → α → ℕ} {front back : List α} {x y : α} {m : ℕ}
    (h : ¬weight front.length x ≡ weight front.length y [MOD m]) :
    ¬weigh weight (front ++ x :: back) ≡ weigh weight (front ++ y :: back) [MOD m] := by
  intro heq
  simp only [weigh_append, weigh_cons, Nat.zero_add, ← Nat.add_assoc] at heq
  exact h (Nat.ModEq.add_left_cancel' _ (Nat.ModEq.add_right_cancel' _ heq))

end

/-! ## Numbers in digits -/

/-- The number that digits stand for, the first the most significant. -/
def number (base : ℕ) (digits : List ℕ) : ℕ := Nat.ofDigits base digits.reverse

theorem number_append (base : ℕ) (front back : List ℕ) :
    number base (front ++ back) =
      number base front * base ^ back.length + number base back := by
  rw [number, List.reverse_append, Nat.ofDigits_append, List.length_reverse, Nat.add_comm,
    Nat.mul_comm]
  rfl

theorem number_singleton (base d : ℕ) : number base [d] = d := Nat.ofDigits_singleton

theorem number_cons (base d : ℕ) (back : List ℕ) :
    number base (d :: back) = d * base ^ back.length + number base back := by
  rw [← List.singleton_append, number_append, number_singleton]

theorem number_change {base m d e : ℕ} (front back : List ℕ) (hm : m.Coprime base) (hd : d < m)
    (he : e < m) (hne : d ≠ e) :
    ¬number base (front ++ d :: back) ≡ number base (front ++ e :: back) [MOD m] := by
  intro heq
  simp only [number_append, number_cons, List.length_cons, ← Nat.add_assoc] at heq
  have hdigit := Nat.ModEq.add_left_cancel' _ (Nat.ModEq.add_right_cancel' _ heq)
  have hmod := Nat.ModEq.cancel_right_of_coprime (hm.pow_right back.length) hdigit
  exact hne (hmod.eq_of_lt_of_lt hd he)

end Checksum
