import Mathlib.Data.List.Basic

/-! # Canonical decimals

A text is the decimal of a number exactly if it is digits, with no zero in front of others. -/

namespace Decimal

/-- Digits without a leading zero, or `0`. -/
def isCanonical (text : List Char) : Bool :=
  text ≠ [] && text.all Char.isDigit && (text = ['0'] || text.head? ≠ some '0')

theorem digitChar_toNat_sub {c : Char} (h : c.isDigit = true) :
    c.toNat - 48 < 10 ∧ (c.toNat - 48).digitChar = c := by
  obtain ⟨hlow, hhigh⟩ : 48 ≤ c.toNat ∧ c.toNat ≤ 57 := by
    simpa [Char.isDigit, UInt32.le_iff_toNat_le] using h
  refine ⟨by omega, ?_⟩
  apply Char.toNat_inj.mp
  rw [Nat.toNat_digitChar_of_lt_ten (by omega)]
  omega

/-- Digits behind those of a positive number. -/
theorem exists_toDigits_append {n : ℕ} (hn : 0 < n) {digits : List Char}
    (h : ∀ c ∈ digits, c.isDigit = true) : ∃ m, Nat.toDigits 10 n ++ digits = Nat.toDigits 10 m := by
  induction digits generalizing n with
  | nil => exact ⟨n, List.append_nil _⟩
  | cons c digits ih =>
      obtain ⟨hlt, hchar⟩ := digitChar_toNat_sub (h c List.mem_cons_self)
      have hpos : 0 < 10 * n + (c.toNat - 48) := by omega
      obtain ⟨m, hm⟩ := ih hpos fun d hd => h d (List.mem_cons_of_mem c hd)
      have hstep := Nat.toDigits_append_toDigits (b := 10) (n := n) (d := c.toNat - 48) (by decide)
        hn hlt
      rw [Nat.toDigits_of_lt_base hlt, hchar] at hstep
      refine ⟨m, ?_⟩
      rw [← hm, ← hstep, List.append_assoc]
      rfl

theorem toDigits_injective {n m : ℕ} (h : Nat.toDigits 10 n = Nat.toDigits 10 m) : n = m := by
  rw [← Nat.ofDigitChars_ten_toDigits (n := n), h, Nat.ofDigitChars_ten_toDigits]

/-- Only zero starts with a zero. -/
theorem head_toDigits {n : ℕ} (h : (Nat.toDigits 10 n).head? = some '0') : n = 0 := by
  induction n using Nat.strongRecOn with
  | ind n ih =>
      by_cases hn : n < 10
      · rw [Nat.toDigits_of_lt_base hn, List.head?_cons, Option.some.injEq] at h
        have hdigit : ∀ m < 10, m.digitChar = '0' → m = 0 := by decide
        exact hdigit n hn h
      · have hpos : 0 < n / 10 := by omega
        have hsplit : Nat.toDigits 10 n = Nat.toDigits 10 (n / 10) ++ Nat.toDigits 10 (n % 10) := by
          rw [Nat.toDigits_append_toDigits (by decide) hpos (Nat.mod_lt n (by decide)),
            Nat.div_add_mod]
        rw [hsplit, List.head?_append_of_ne_nil _ Nat.toDigits_ne_nil] at h
        have hzero := ih (n / 10) (by omega) h
        omega

theorem isCanonical_iff {text : List Char} :
    isCanonical text = true ↔ ∃ n, text = Nat.toDigits 10 n := by
  unfold isCanonical
  simp only [Bool.and_eq_true, Bool.or_eq_true, decide_eq_true_eq, List.all_eq_true]
  constructor
  · rintro ⟨⟨hne, hdigits⟩, hzero⟩
    cases text with
    | nil => exact absurd rfl hne
    | cons c rest =>
        obtain hzero | hhead := hzero
        · exact ⟨0, hzero⟩
        · obtain ⟨hlt, hchar⟩ := digitChar_toNat_sub (hdigits c List.mem_cons_self)
          have hpos : 0 < c.toNat - 48 := by
            refine Nat.pos_of_ne_zero fun h0 => hhead ?_
            rw [h0] at hchar
            rw [← hchar]
            rfl
          obtain ⟨m, hm⟩ := exists_toDigits_append hpos fun d hd => hdigits d (List.mem_cons_of_mem c hd)
          rw [Nat.toDigits_of_lt_base hlt, hchar] at hm
          exact ⟨m, hm⟩
  · rintro ⟨n, rfl⟩
    refine ⟨⟨Nat.toDigits_ne_nil, fun c hc => ?_⟩, ?_⟩
    · exact Nat.isDigit_of_mem_toDigits (by decide) (by decide) hc
    · by_cases hn : n = 0
      · exact .inl (by rw [hn]; rfl)
      · exact .inr fun h => hn (head_toDigits h)

end Decimal
