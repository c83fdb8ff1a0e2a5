import Mathlib.Algebra.Order.Field.Rat
import Mathlib.Tactic.FieldSimp
import Mathlib.Tactic.Ring
import Nitr.Json.Text

/-! # Integers that doubles hold

`i as f64` is exact for the integers that are doubles and for no other. -/

namespace Nitr.Validate.F64

theorem dvd_roundTo (step n : ℕ) : step ∣ roundTo step n := by
  rw [roundTo]
  split
  · exact Nat.dvd_mul_left ..
  · exact Nat.dvd_mul_left ..

theorem roundTo_of_dvd {step n : ℕ} (hpos : 0 < step) (h : step ∣ n) : roundTo step n = n := by
  have hmod : n % step = 0 := Nat.mod_eq_zero_of_dvd h
  have hnear : ¬(step < 2 * (n % step) ∨ (2 * (n % step) = step ∧ n / step % 2 = 1)) := by
    rw [hmod]
    omega
  simp only [roundTo]
  rw [if_neg hnear, Nat.div_mul_cancel h]

theorem roundNat_eq_iff {n : ℕ} : roundNat n = n ↔ 2 ^ (n.log2 - 52) ∣ n := by
  constructor
  · intro h
    have hdvd := dvd_roundTo (2 ^ (n.log2 - 52)) n
    rw [roundNat] at h
    rwa [h] at hdvd
  · exact roundTo_of_dvd (Nat.two_pow_pos _)

theorem ofInt_eq_iff {i : ℤ} : ofInt i = .finite i ↔ roundNat i.natAbs = i.natAbs := by
  have hi : i.sign * (i.natAbs : ℤ) = i := Int.sign_mul_natAbs i
  rw [ofInt, F64.finite.injEq, Int.cast_inj]
  constructor
  · intro h
    by_cases hzero : i = 0
    · rw [hzero]
      rfl
    · have hsign : i.sign ≠ 0 := fun hs => hzero (Int.sign_eq_zero_iff_zero.mp hs)
      have hmul : i.sign * (roundNat i.natAbs : ℤ) = i.sign * (i.natAbs : ℤ) := h.trans hi.symm
      exact Int.ofNat_inj.mp (mul_left_cancel₀ hsign hmul)
  · intro h
    rw [h, hi]

/-- An integer that a double holds is converted to it. -/
theorem ofInt_of_isDouble {i : ℤ} (h : (F64.finite i).IsDouble) : ofInt i = .finite i := by
  have ⟨m, e, hm, _, _, heq⟩ := h
  have hbits : m.natAbs < 2 ^ 53 := by
    rw [Int.abs_eq_natAbs] at hm
    exact_mod_cast hm
  rw [ofInt_eq_iff, roundNat_eq_iff]
  by_cases hsmall : i.natAbs < 2 ^ 53
  · have hlog : i.natAbs.log2 - 52 = 0 := by
      by_cases hzero : i.natAbs = 0
      · rw [hzero]
        rfl
      · have hlt := (Nat.log2_lt hzero).mpr hsmall
        omega
    rw [hlog]
    exact Nat.one_dvd _
  · cases e with
    | ofNat k =>
        -- The exponent covers the bits that would be lost.
        have hint : i = m * 2 ^ k := by
          have hcast : ((i : ℤ) : ℚ) = ((m * 2 ^ k : ℤ) : ℚ) := by
            rw [heq]
            push_cast
            rfl
          exact_mod_cast hcast
        have habs : i.natAbs = m.natAbs * 2 ^ k := by
          rw [hint, Int.natAbs_mul, Int.natAbs_pow]
          rfl
        have hbound : i.natAbs < 2 ^ (53 + k) := by
          rw [habs, pow_add]
          exact Nat.mul_lt_mul_of_pos_right hbits (Nat.two_pow_pos k)
        have hne : i.natAbs ≠ 0 := by omega
        have hlog := (Nat.log2_lt hne).mpr hbound
        rw [habs]
        rw [habs] at hlog
        exact Dvd.dvd.mul_left (pow_dvd_pow 2 (by omega)) _
    | negSucc k =>
        exfalso
        have hscaled : i * 2 ^ (k + 1) = m := by
          have hcast : ((i * 2 ^ (k + 1) : ℤ) : ℚ) = ((m : ℤ) : ℚ) := by
            push_cast
            rw [heq, zpow_negSucc]
            field_simp
          exact_mod_cast hcast
        have habs : m.natAbs = i.natAbs * 2 ^ (k + 1) := by
          rw [← hscaled, Int.natAbs_mul, Int.natAbs_pow]
          rfl
        have hle : i.natAbs ≤ m.natAbs := by
          rw [habs]
          exact Nat.le_mul_of_pos_right _ (Nat.two_pow_pos _)
        omega

/-- An integer of 64 bits that is converted exactly is a double. -/
theorem isDouble_of_ofInt {i : ℤ} (hlow : -2 ^ 63 ≤ i) (hhigh : i < 2 ^ 63)
    (h : ofInt i = .finite i) : (F64.finite i).IsDouble := by
  have ⟨k, hk⟩ := roundNat_eq_iff.mp (ofInt_eq_iff.mp h)
  have hlog : i.natAbs.log2 ≤ 63 := by
    by_cases hzero : i.natAbs = 0
    · rw [hzero]
      exact Nat.zero_le _
    · have hlt : i.natAbs < 2 ^ 64 := by omega
      exact Nat.le_of_lt_succ ((Nat.log2_lt hzero).mpr hlt)
  have hkey : k < 2 ^ 53 := by
    by_contra hge
    have hge' : 2 ^ 53 ≤ k := Nat.le_of_not_lt hge
    have hbig : 2 ^ (i.natAbs.log2 - 52) * 2 ^ 53 ≤ i.natAbs := by
      calc 2 ^ (i.natAbs.log2 - 52) * 2 ^ 53
          ≤ 2 ^ (i.natAbs.log2 - 52) * k := Nat.mul_le_mul_left _ hge'
        _ = i.natAbs := hk.symm
    rw [← pow_add] at hbig
    have hself : i.natAbs < 2 ^ (i.natAbs.log2 + 1) := Nat.lt_log2_self
    have hpow : 2 ^ (i.natAbs.log2 + 1) ≤ 2 ^ (i.natAbs.log2 - 52 + 53) :=
      Nat.pow_le_pow_right (by decide) (by omega)
    omega
  refine ⟨i.sign * k, (i.natAbs.log2 - 52 : ℕ), ?_, ?_, ?_, ?_⟩
  · have hsign : i.sign.natAbs ≤ 1 := by
      rcases lt_trichotomy i 0 with hneg | hzero | hpos
      · rw [Int.sign_eq_neg_one_of_neg hneg]
        decide
      · rw [hzero]
        decide
      · rw [Int.sign_eq_one_of_pos hpos]
        decide
    have habs : (i.sign * (k : ℤ)).natAbs < 2 ^ 53 := by
      calc (i.sign * (k : ℤ)).natAbs = i.sign.natAbs * k := by
            rw [Int.natAbs_mul, Int.natAbs_natCast]
        _ ≤ 1 * k := Nat.mul_le_mul_right k hsign
        _ < 2 ^ 53 := by rwa [Nat.one_mul]
    rw [Int.abs_eq_natAbs]
    exact_mod_cast habs
  · omega
  · omega
  · have hint : i = i.sign * k * 2 ^ (i.natAbs.log2 - 52) := by
      calc i = i.sign * (i.natAbs : ℤ) := (Int.sign_mul_natAbs i).symm
        _ = i.sign * ((2 ^ (i.natAbs.log2 - 52) * k : ℕ) : ℤ) := by rw [← hk]
        _ = i.sign * k * 2 ^ (i.natAbs.log2 - 52) := by push_cast; ring
    have hcast := congrArg (Int.cast : ℤ → ℚ) hint
    rw [Int.cast_mul, Int.cast_pow, Int.cast_ofNat] at hcast
    rw [zpow_natCast]
    exact hcast

end Nitr.Validate.F64
