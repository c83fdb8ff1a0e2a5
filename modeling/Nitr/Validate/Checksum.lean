import Nitr.Lib.Checksum
import Nitr.Lib.Machine

/-! # Checksum formats

`luhn` and `iban_mod97` of `validate/format.rs`, with their sums in words of 32 bits, and the
two formats of `Format::check` that call them. -/

namespace Nitr.Validate.Checksum

open Machine

/-! ## Luhn -/

/-- `char::to_digit(10)`. -/
def toDigit (c : Char) : Option ℕ := if c.isDigit then some (c.toNat - 48) else none

/-- What a digit adds at a position from the right. -/
def luhnDigit (i d : ℕ) : Checked ℕ :=
  if i % 2 = 1 then do
    let doubled ← mulBelow (2 ^ 32) d 2
    if 9 < doubled then sub doubled 9 else pure doubled
  else pure d

def luhnFrom (i sum : ℕ) : List Char → Checked Bool
  | [] => pure (sum % 10 == 0)
  | c :: rest =>
      match toDigit c with
      | none => pure false
      | some d => do
          let d ← luhnDigit i d
          let sum ← addBelow (2 ^ 32) sum d
          luhnFrom (i + 1) sum rest

def luhn (digits : List Char) : Checked Bool := luhnFrom 0 0 digits.reverse

/-- What a byte of an account number stands for. -/
def ibanPiece (b : UInt8) : Checked (Option ℕ) :=
  if 48 ≤ b.toNat ∧ b.toNat ≤ 57 then do
    let piece ← sub b.toNat 48
    pure (some piece)
  else if 65 ≤ b.toNat ∧ b.toNat ≤ 90 then do
    let letter ← sub b.toNat 65
    let piece ← addBelow (2 ^ 32) letter 10
    pure (some piece)
  else pure none

def ibanFrom (rem : ℕ) : List UInt8 → Checked Bool
  | [] => pure (rem == 1)
  | b :: rest => do
      let piece ← ibanPiece b
      match piece with
      | none => pure false
      | some piece =>
          let shifted ← mulBelow (2 ^ 32) rem (if 10 ≤ piece then 100 else 10)
          let next ← addBelow (2 ^ 32) shifted piece
          ibanFrom (next % 97) rest

def ibanMod97 (value : List UInt8) : Checked Bool :=
  if value.length < 5 then pure false
  else do
    let rest ← slice value 4 value.length
    let front ← slice value 0 4
    ibanFrom 0 (rest ++ front)

/-! ## The formats -/

def creditCard (value : List Char) : Checked Bool :=
  let digits := value.filter fun c => c != ' ' && c != '-'
  let size := (digits.map Char.utf8Size).sum
  if 12 ≤ size ∧ size ≤ 19 ∧ digits.all Char.isDigit then luhn digits else pure false

def isUpper (b : UInt8) : Bool := 65 ≤ b.toNat && b.toNat ≤ 90

def isDigit (b : UInt8) : Bool := 48 ≤ b.toNat && b.toNat ≤ 57

def isAlphanumeric (b : UInt8) : Bool :=
  isUpper b || isDigit b || (97 ≤ b.toNat && b.toNat ≤ 122)

def iban (value : List UInt8) : Checked Bool :=
  if 15 ≤ value.length ∧ value.length ≤ 34 ∧ (value.take 2).all isUpper ∧
      ((value.drop 2).take 2).all isDigit ∧ value.all isAlphanumeric then
    ibanMod97 value
  else pure false

/-! ## What the checksums are -/

def digitValue (c : Char) : ℕ := c.toNat - 48

/-- A digit, or at every second position the digits of its double. -/
def luhnWeight (i n : ℕ) : ℕ := if i % 2 = 1 then (Nat.digits 10 (2 * n)).sum else n

/-- The Luhn sum, read from the right. -/
def luhnSum (digits : List Char) : ℕ := Checksum.weigh luhnWeight (digits.map digitValue).reverse

/-- The decimal digits of a digit, and of a letter's code from 10 to 35. -/
def codeDigits (b : UInt8) : List ℕ :=
  if isDigit b then [b.toNat - 48] else [(b.toNat - 55) / 10, (b.toNat - 55) % 10]

/-- The first four moved to the end and each letter replaced, as a decimal number. -/
def ibanNumber (value : List UInt8) : ℕ :=
  Checksum.number 10 ((value.rotate 4).flatMap codeDigits)

/-! ## Luhn is its sum -/

theorem digitValue_lt {c : Char} (h : c.isDigit = true) : digitValue c < 10 := by
  have hrange : 48 ≤ c.toNat ∧ c.toNat ≤ 57 := Char.isDigit_iff_toNat.mp h
  rw [digitValue]
  omega

theorem digitValue_inj {c c' : Char} (h : c.isDigit = true) (h' : c'.isDigit = true)
    (heq : digitValue c = digitValue c') : c = c' := by
  have hrange : 48 ≤ c.toNat ∧ c.toNat ≤ 57 := Char.isDigit_iff_toNat.mp h
  have hrange' : 48 ≤ c'.toNat ∧ c'.toNat ≤ 57 := Char.isDigit_iff_toNat.mp h'
  rw [digitValue, digitValue] at heq
  exact Char.toNat_inj.mp (by omega)

theorem double_digits : ∀ d < 10, (if 9 < d * 2 then d * 2 - 9 else d * 2) =
    (Nat.digits 10 (2 * d)).sum := by decide

theorem luhnDigit_eq (i : ℕ) {d : ℕ} (hd : d < 10) : luhnDigit i d = .ok (luhnWeight i d) := by
  rw [luhnDigit, luhnWeight]
  split
  · rw [mulBelow_eq (by omega), ok_bind, ← double_digits d hd]
    split
    · exact sub_eq (by omega)
    · rfl
  · rfl

theorem luhnWeight_lt (i : ℕ) {d : ℕ} (hd : d < 10) : luhnWeight i d ≤ 9 := by
  rw [luhnWeight]
  split
  · have := double_digits d hd
    split at this <;> omega
  · omega

/-- The sum never shrinks, so that it overflows where the whole of it does. -/
theorem luhnFrom_eq {digits : List Char} (hdigits : ∀ c ∈ digits, c.isDigit = true) {i sum : ℕ}
    (hsum : sum < 2 ^ 32) :
    luhnFrom i sum digits =
      let total := sum + Checksum.weigh (fun j => luhnWeight (j + i)) (digits.map digitValue)
      if total < 2 ^ 32 then .ok (decide (10 ∣ total)) else .error .overflow := by
  induction digits generalizing i sum with
  | nil =>
      rw [luhnFrom, List.map_nil, Checksum.weigh_nil, Nat.add_zero]
      refine .trans ?_ (if_pos hsum).symm
      exact congrArg Except.ok (decide_eq_decide.mpr (Nat.dvd_iff_mod_eq_zero ..).symm)
  | cons c digits ih =>
      have hc := hdigits c List.mem_cons_self
      have hrest : ∀ c ∈ digits, c.isDigit = true := fun c' hc' =>
        hdigits c' (List.mem_cons_of_mem _ hc')
      have hshift : (fun j => luhnWeight (j + 1 + i)) = fun j => luhnWeight (j + (i + 1)) := by
        funext j
        rw [Nat.add_assoc, Nat.add_comm 1]
      have hdigit : toDigit c = some (digitValue c) := if_pos hc
      rw [List.map_cons, Checksum.weigh_cons, Nat.zero_add, ← Nat.add_assoc, hshift, luhnFrom,
        hdigit]
      change (luhnDigit i (digitValue c) >>= _) = _
      rw [luhnDigit_eq i (digitValue_lt hc), ok_bind, addBelow]
      by_cases hnext : sum + luhnWeight i (digitValue c) < 2 ^ 32
      · rw [if_pos hnext, ok_bind]
        exact ih hrest hnext
      · rw [if_neg hnext, error_bind]
        exact (if_neg (by omega)).symm

theorem luhn_eq_ite {digits : List Char} (hdigits : ∀ c ∈ digits, c.isDigit = true) :
    luhn digits =
      if luhnSum digits < 2 ^ 32 then .ok (decide (10 ∣ luhnSum digits))
      else .error .overflow := by
  have hsum : 0 + Checksum.weigh (fun j => luhnWeight (j + 0)) (digits.reverse.map digitValue) =
      luhnSum digits := by
    rw [Nat.zero_add, List.map_reverse]
    rfl
  rw [luhn, luhnFrom_eq (fun c hc => hdigits c (List.mem_reverse.mp hc)) (Nat.two_pow_pos _), hsum]

theorem luhn_eq {digits : List Char} (hdigits : ∀ c ∈ digits, c.isDigit = true)
    (hfits : luhnSum digits < 2 ^ 32) :
    luhn digits = .ok (decide (10 ∣ luhnSum digits)) := by
  rw [luhn_eq_ite hdigits, if_pos hfits]

theorem dvd_of_luhn {digits : List Char} (hdigits : ∀ c ∈ digits, c.isDigit = true)
    (h : luhn digits = .ok true) : 10 ∣ luhnSum digits := by
  rw [luhn_eq_ite hdigits] at h
  split at h
  · exact of_decide_eq_true (Except.ok.inj h)
  · cases h

theorem luhnSum_le {digits : List Char} (hdigits : ∀ c ∈ digits, c.isDigit = true) :
    luhnSum digits ≤ 9 * digits.length := by
  have hbound : ∀ i, ∀ n ∈ (digits.map digitValue).reverse, luhnWeight i n ≤ 9 := by
    intro i n hn
    have ⟨c, hc, hvalue⟩ := List.mem_map.mp (List.mem_reverse.mp hn)
    exact hvalue ▸ luhnWeight_lt i (digitValue_lt (hdigits c hc))
  have hle := Checksum.weigh_le hbound
  rwa [List.length_reverse, List.length_map] at hle

/-- At every position different digits add different amounts. -/
theorem luhnWeight_inj (i : ℕ) : ∀ d < 10, ∀ e < 10, luhnWeight i d = luhnWeight i e → d = e := by
  unfold luhnWeight
  split
  · decide
  · exact fun d _ e _ h => h

theorem luhnSum_change (front back : List Char) {c c' : Char} (hc : c.isDigit = true)
    (hc' : c'.isDigit = true) (hne : c ≠ c') :
    ¬luhnSum (front ++ c :: back) ≡ luhnSum (front ++ c' :: back) [MOD 10] := by
  rw [luhnSum, luhnSum, List.map_append, List.map_append, List.map_cons, List.map_cons,
    List.reverse_append, List.reverse_append, List.reverse_cons, List.reverse_cons,
    List.append_assoc, List.append_assoc]
  refine Checksum.weigh_change fun heq => hne (digitValue_inj hc hc' ?_)
  have hweight := luhnWeight_lt (back.map digitValue).reverse.length (digitValue_lt hc)
  have hweight' := luhnWeight_lt (back.map digitValue).reverse.length (digitValue_lt hc')
  exact luhnWeight_inj _ _ (digitValue_lt hc) _ (digitValue_lt hc')
    (heq.eq_of_lt_of_lt (by omega) (by omega))

theorem size_of_digits {digits : List Char} (hdigits : ∀ c ∈ digits, c.isDigit = true) :
    (digits.map Char.utf8Size).sum = digits.length := by
  have hone : ∀ c ∈ digits, c.utf8Size = 1 := by
    intro c hc
    have hrange : 48 ≤ c.toNat ∧ c.toNat ≤ 57 := Char.isDigit_iff_toNat.mp (hdigits c hc)
    exact Char.utf8Size_eq_one_iff.mpr (UInt32.le_iff_toNat_le.mpr (Nat.le_trans hrange.2 (by decide)))
  rw [List.map_congr_left hone, List.map_const', List.sum_replicate_nat, Nat.mul_one]

/-- The sums of the numbers that are long enough for a card never come near the word. -/
theorem creditCard_eq (value : List Char) :
    creditCard value =
      .ok (decide (
        let digits := value.filter fun c => c != ' ' && c != '-'
        digits.all Char.isDigit ∧ 12 ≤ digits.length ∧ digits.length ≤ 19 ∧
          10 ∣ luhnSum digits)) := by
  simp only [creditCard]
  generalize value.filter (fun c => c != ' ' && c != '-') = digits
  by_cases hdigits : ∀ c ∈ digits, c.isDigit = true
  · have hle := luhnSum_le hdigits
    rw [size_of_digits hdigits]
    by_cases hlength : 12 ≤ digits.length ∧ digits.length ≤ 19
    · rw [if_pos ⟨hlength.1, hlength.2, List.all_eq_true.mpr hdigits⟩, luhn_eq hdigits (by omega)]
      exact congrArg Except.ok (decide_eq_decide.mpr
        ⟨fun h => ⟨List.all_eq_true.mpr hdigits, hlength.1, hlength.2, h⟩, fun h => h.2.2.2⟩)
    · rw [if_neg fun h => hlength ⟨h.1, h.2.1⟩]
      exact congrArg Except.ok (decide_eq_false fun h => hlength ⟨h.2.1, h.2.2.1⟩).symm
  · have hall : ¬digits.all Char.isDigit = true := mt List.all_eq_true.mp hdigits
    rw [if_neg fun h => hall h.2.2]
    exact congrArg Except.ok (decide_eq_false fun h => hall h.1).symm

/-! ## The number of an account -/

/-- What a digit or a letter stands for. -/
def pieceValue (b : UInt8) : ℕ := if isDigit b then b.toNat - 48 else b.toNat - 55

/-- A digit is one place long and a letter two. -/
def pieceScale (b : UInt8) : ℕ := if isDigit b then 10 else 100

theorem isDigit_iff {b : UInt8} : isDigit b = true ↔ 48 ≤ b.toNat ∧ b.toNat ≤ 57 := by
  simp only [isDigit, Bool.and_eq_true, decide_eq_true_eq]

theorem isUpper_iff {b : UInt8} : isUpper b = true ↔ 65 ≤ b.toNat ∧ b.toNat ≤ 90 := by
  simp only [isUpper, Bool.and_eq_true, decide_eq_true_eq]

section

variable {b : UInt8}

theorem isUpper_of_not_isDigit (h : (isUpper b || isDigit b) = true) (hdigit : ¬isDigit b = true) :
    isUpper b = true :=
  (Bool.or_eq_true _ _ ▸ h).resolve_right hdigit

theorem ibanPiece_eq (h : (isUpper b || isDigit b) = true) :
    ibanPiece b = .ok (some (pieceValue b)) := by
  rw [ibanPiece, pieceValue]
  by_cases hdigit : isDigit b = true
  · have hrange := isDigit_iff.mp hdigit
    rw [if_pos hrange, if_pos hdigit, sub_eq hrange.1]
    rfl
  · have hrange := isUpper_iff.mp (isUpper_of_not_isDigit h hdigit)
    rw [if_neg (mt isDigit_iff.mpr hdigit), if_pos hrange, if_neg hdigit, sub_eq hrange.1, ok_bind,
      addBelow_eq (by omega), ok_bind, show b.toNat - 65 + 10 = b.toNat - 55 by omega]
    rfl

theorem pieceScale_eq (h : (isUpper b || isDigit b) = true) :
    (if 10 ≤ pieceValue b then 100 else 10) = pieceScale b := by
  rw [pieceScale, pieceValue]
  by_cases hdigit : isDigit b = true
  · have hrange := isDigit_iff.mp hdigit
    rw [if_pos hdigit, if_pos hdigit, if_neg (by omega)]
  · have hrange := isUpper_iff.mp (isUpper_of_not_isDigit h hdigit)
    rw [if_neg hdigit, if_neg hdigit, if_pos (by omega)]

theorem pieceValue_lt (h : (isUpper b || isDigit b) = true) : pieceValue b < 36 := by
  rw [pieceValue]
  by_cases hdigit : isDigit b = true
  · have hrange := isDigit_iff.mp hdigit
    rw [if_pos hdigit]
    omega
  · have hrange := isUpper_iff.mp (isUpper_of_not_isDigit h hdigit)
    rw [if_neg hdigit]
    omega

/-- The places that a piece fills. -/
theorem number_codeDigits (done : List ℕ) :
    Checksum.number 10 (done ++ codeDigits b) =
      Checksum.number 10 done * pieceScale b + pieceValue b := by
  rw [Checksum.number_append, codeDigits, pieceScale, pieceValue]
  split
  · rw [Checksum.number_singleton, List.length_singleton, Nat.pow_one]
  · rw [Checksum.number_cons, Checksum.number_singleton]
    change _ * 10 ^ 2 + ((b.toNat - 55) / 10 * 10 ^ 1 + _) = _
    omega

end

theorem ibanFrom_eq {value : List UInt8} (hvalue : ∀ b ∈ value, (isUpper b || isDigit b) = true)
    (done : List ℕ) :
    ibanFrom (Checksum.number 10 done % 97) value =
      .ok (decide (Checksum.number 10 (done ++ value.flatMap codeDigits) % 97 = 1)) := by
  induction value generalizing done with
  | nil =>
      rw [ibanFrom, List.flatMap_nil, List.append_nil]
      rfl
  | cons b value ih =>
      have hb := hvalue b List.mem_cons_self
      have hpiece := pieceValue_lt hb
      have hscale : pieceScale b ≤ 100 := by
        rw [pieceScale]
        split <;> decide
      have hrem : Checksum.number 10 done % 97 ≤ 96 := by omega
      have hshifted : Checksum.number 10 done % 97 * pieceScale b ≤ 96 * 100 :=
        Nat.mul_le_mul hrem hscale
      have hnext : (Checksum.number 10 done % 97 * pieceScale b + pieceValue b) % 97 =
          Checksum.number 10 (done ++ codeDigits b) % 97 := by
        rw [number_codeDigits]
        exact ((Nat.mod_modEq _ _).mul_right _).add_right _
      rw [ibanFrom, ibanPiece_eq hb, ok_bind]
      simp only [pieceScale_eq hb]
      rw [mulBelow_eq (by omega), ok_bind, addBelow_eq (by omega), ok_bind, hnext,
        ih (fun b hb => hvalue b (List.mem_cons_of_mem _ hb)), List.append_assoc, List.flatMap_cons]

/-- Any other byte ends the reading, and nothing overflows before it. -/
theorem ibanFrom_other {value : List UInt8} (hvalue : ∃ b ∈ value, (isUpper b || isDigit b) = false)
    {rem : ℕ} (hrem : rem < 97) : ibanFrom rem value = .ok false := by
  induction value generalizing rem with
  | nil =>
      have ⟨_, hb, _⟩ := hvalue
      cases hb
  | cons b value ih =>
      rw [ibanFrom]
      by_cases hb : (isUpper b || isDigit b) = true
      · have hpiece := pieceValue_lt hb
        have hrest : ∃ b ∈ value, (isUpper b || isDigit b) = false := by
          have ⟨b', hmem, hother⟩ := hvalue
          cases List.mem_cons.mp hmem with
          | inl heq => exact absurd (heq ▸ hb) (by rw [hother]; decide)
          | inr hmem => exact ⟨b', hmem, hother⟩
        have hscale : pieceScale b ≤ 100 := by
          rw [pieceScale]
          split <;> decide
        have hshifted : rem * pieceScale b ≤ 96 * 100 := Nat.mul_le_mul (by omega) hscale
        rw [ibanPiece_eq hb, ok_bind]
        simp only [pieceScale_eq hb]
        rw [mulBelow_eq (by omega), ok_bind, addBelow_eq (by omega), ok_bind]
        exact ih hrest (Nat.mod_lt _ (by decide))
      · have hparts := not_or.mp (Bool.or_eq_true _ _ ▸ hb)
        rw [ibanPiece, if_neg (mt isDigit_iff.mpr hparts.2), if_neg (mt isUpper_iff.mpr hparts.1)]
        rfl

theorem ibanMod97_eq {value : List UInt8} (hlen : 5 ≤ value.length)
    (hvalue : ∀ b ∈ value, (isUpper b || isDigit b) = true) :
    ibanMod97 value = .ok (decide (ibanNumber value ≡ 1 [MOD 97])) := by
  have hrotate : value.rotate 4 = value.drop 4 ++ value.take 4 :=
    List.rotate_eq_drop_append_take (by omega)
  have hrotated : ∀ b ∈ value.rotate 4, (isUpper b || isDigit b) = true := fun b hb =>
    hvalue b (List.mem_rotate.mp hb)
  have hfrom := ibanFrom_eq hrotated []
  have hfour : 4 ≤ value.length := by omega
  rw [ibanMod97, if_neg (by omega), slice_eq hfour (Nat.le_refl _), ok_bind,
    slice_eq (Nat.zero_le _) hfour, ok_bind, List.drop_zero, Nat.sub_zero,
    List.take_of_length_le (by rw [List.length_drop]), ← hrotate]
  exact hfrom

theorem ibanMod97_other {value : List UInt8}
    (hvalue : ∃ b ∈ value, (isUpper b || isDigit b) = false) : ibanMod97 value = .ok false := by
  rw [ibanMod97]
  split
  · rfl
  · have hfour : 4 ≤ value.length := by omega
    have ⟨b, hb, hother⟩ := hvalue
    rw [slice_eq hfour (Nat.le_refl _), ok_bind, slice_eq (Nat.zero_le _) hfour, ok_bind,
      List.drop_zero, Nat.sub_zero, List.take_of_length_le (by rw [List.length_drop]),
      ← List.rotate_eq_drop_append_take hfour]
    exact ibanFrom_other ⟨b, List.mem_rotate.mpr hb, hother⟩ (by decide)

/-- An account number in capitals, of a country's length, whose number leaves one. -/
theorem iban_eq (value : List UInt8) :
    iban value =
      .ok (decide (value.all (fun b => isUpper b || isDigit b) ∧ 15 ≤ value.length ∧
        value.length ≤ 34 ∧ (value.take 2).all isUpper ∧ ((value.drop 2).take 2).all isDigit ∧
        ibanNumber value ≡ 1 [MOD 97])) := by
  rw [iban]
  by_cases hvalue : ∀ b ∈ value, (isUpper b || isDigit b) = true
  · have hall : value.all isAlphanumeric = true := List.all_eq_true.mpr fun b hb => by
      rw [isAlphanumeric, hvalue b hb, Bool.true_or]
    split
    · rename_i hshape
      have ⟨hlow, hhigh, hcountry, hcheck, _⟩ := hshape
      rw [ibanMod97_eq (by omega) hvalue]
      exact congrArg Except.ok (decide_eq_decide.mpr
        ⟨fun h => ⟨List.all_eq_true.mpr hvalue, hlow, hhigh, hcountry, hcheck, h⟩,
          fun h => h.2.2.2.2.2⟩)
    · rename_i hshape
      refine congrArg Except.ok (decide_eq_false fun h => hshape ?_).symm
      exact ⟨h.2.1, h.2.2.1, h.2.2.2.1, h.2.2.2.2.1, hall⟩
  · have hother : ∃ b ∈ value, (isUpper b || isDigit b) = false := by
      simpa only [not_forall, Bool.not_eq_true, exists_prop] using hvalue
    rw [ibanMod97_other hother]
    refine (ite_self _).trans (congrArg Except.ok (decide_eq_false fun h => ?_).symm)
    exact hvalue (List.all_eq_true.mp h.1)

theorem forall_mem_change {α : Type} {p : α → Prop} {front back : List α} {x y : α}
    (h : ∀ z ∈ front ++ x :: back, p z) (hy : p y) : ∀ z ∈ front ++ y :: back, p z := by
  intro z hz
  cases List.mem_append.mp hz with
  | inl hfront => exact h z (List.mem_append_left _ hfront)
  | inr hrest =>
      cases List.mem_cons.mp hrest with
      | inl heq => exact heq ▸ hy
      | inr hback => exact h z (List.mem_append_right _ (List.mem_cons_of_mem _ hback))

/-- Where a symbol goes when the first four are moved does not depend on it. -/
theorem rotate_change {α : Type} (front back : List α) (h : 4 ≤ front.length + back.length + 1) :
    ∃ front' back', ∀ y : α, (front ++ y :: back).rotate 4 = front' ++ y :: back' := by
  have hrotate (y : α) : (front ++ y :: back).rotate 4 =
      (front ++ y :: back).drop 4 ++ (front ++ y :: back).take 4 := by
    refine List.rotate_eq_drop_append_take ?_
    rw [List.length_append, List.length_cons]
    omega
  by_cases hfront : 4 ≤ front.length
  · refine ⟨front.drop 4, back ++ front.take 4, fun y => ?_⟩
    rw [hrotate, List.drop_append_of_le_length hfront, List.take_append_of_le_length hfront,
      List.append_assoc, List.cons_append]
  · have hrest : 4 - front.length = 3 - front.length + 1 := by omega
    refine ⟨back.drop (3 - front.length) ++ front, back.take (3 - front.length), fun y => ?_⟩
    rw [hrotate, List.drop_append, List.take_append, hrest, List.drop_succ_cons,
      List.take_succ_cons, List.drop_eq_nil_of_le (by omega), List.take_of_length_le (by omega),
      List.nil_append, List.append_assoc]

theorem ibanNumber_change (front back : List UInt8) {b b' : UInt8}
    (hlen : 4 ≤ front.length + back.length + 1) (hb : isDigit b = true) (hb' : isDigit b' = true)
    (hne : b ≠ b') :
    ¬ibanNumber (front ++ b :: back) ≡ ibanNumber (front ++ b' :: back) [MOD 97] := by
  have ⟨front', back', hrotate⟩ := rotate_change front back hlen
  have hrange := isDigit_iff.mp hb
  have hrange' := isDigit_iff.mp hb'
  have hdigits {c : UInt8} (hc : isDigit c = true) : codeDigits c = [c.toNat - 48] := if_pos hc
  have hvalue : b.toNat - 48 ≠ b'.toNat - 48 := fun heq => hne (UInt8.toNat_inj.mp (by omega))
  rw [ibanNumber, ibanNumber, hrotate, hrotate, List.flatMap_append, List.flatMap_append,
    List.flatMap_cons, List.flatMap_cons, hdigits hb, hdigits hb', List.singleton_append,
    List.singleton_append]
  exact Checksum.number_change _ _ (by decide) (by omega) (by omega) hvalue

/-! ## Both checks -/

/-- The checks are those of the definitions, and neither accepts a text that differs from an
accepted one in a digit. -/
theorem checksums_eq :
    (∀ digits : List Char, (∀ c ∈ digits, c.isDigit = true) → luhnSum digits < 2 ^ 32 →
      luhn digits = .ok (decide (10 ∣ luhnSum digits))) ∧
    (∀ value : List UInt8, 5 ≤ value.length → (∀ b ∈ value, (isUpper b || isDigit b) = true) →
      ibanMod97 value = .ok (decide (ibanNumber value ≡ 1 [MOD 97]))) ∧
    (∀ (front back : List Char) (c c' : Char), (∀ x ∈ front ++ c :: back, x.isDigit = true) →
      c'.isDigit = true → c ≠ c' → luhn (front ++ c :: back) = .ok true →
      luhn (front ++ c' :: back) ≠ .ok true ∧
        (luhnSum (front ++ c' :: back) < 2 ^ 32 → luhn (front ++ c' :: back) = .ok false)) ∧
    (∀ (front back : List UInt8) (b b' : UInt8), 5 ≤ (front ++ b :: back).length →
      (∀ x ∈ front ++ b :: back, (isUpper x || isDigit x) = true) →
      isDigit b = true → isDigit b' = true → b ≠ b' → ibanMod97 (front ++ b :: back) = .ok true →
      ibanMod97 (front ++ b' :: back) = .ok false) := by
  refine ⟨fun _ => luhn_eq, fun _ => ibanMod97_eq, ?_, ?_⟩
  · intro front back c c' hdigits hc' hne haccept
    have hc := hdigits c (List.mem_append_right _ List.mem_cons_self)
    have hdigits' : ∀ x ∈ front ++ c' :: back, x.isDigit = true :=
      forall_mem_change hdigits hc'
    have hdvd := dvd_of_luhn hdigits haccept
    have hndvd : ¬10 ∣ luhnSum (front ++ c' :: back) := fun hdvd' =>
      luhnSum_change front back hc hc' hne
        ((Nat.modEq_zero_iff_dvd.mpr hdvd).trans (Nat.modEq_zero_iff_dvd.mpr hdvd').symm)
    refine ⟨fun haccept' => hndvd (dvd_of_luhn hdigits' haccept'), fun hfits => ?_⟩
    rw [luhn_eq hdigits' hfits]
    exact congrArg Except.ok (decide_eq_false hndvd)
  · intro front back b b' hlen hvalue hb hb' hne haccept
    have hvalue' : ∀ x ∈ front ++ b' :: back, (isUpper x || isDigit x) = true :=
      forall_mem_change hvalue (by rw [hb', Bool.or_true])
    have hlen' : 5 ≤ (front ++ b' :: back).length := by
      rw [List.length_append, List.length_cons] at hlen ⊢
      exact hlen
    rw [ibanMod97_eq hlen hvalue] at haccept
    rw [ibanMod97_eq hlen' hvalue']
    have hone : ibanNumber (front ++ b :: back) ≡ 1 [MOD 97] :=
      of_decide_eq_true (Except.ok.inj haccept)
    rw [List.length_append, List.length_cons] at hlen
    refine congrArg Except.ok (decide_eq_false fun hone' =>
      ibanNumber_change front back (by omega) hb hb' hne ?_)
    exact hone.trans hone'.symm

theorem checksums_eq_sample :
    luhn "4111111111111112".toList ≠ .ok true ∧ ibanMod97 [48, 48, 48, 50, 48] = .ok false :=
  ⟨(checksums_eq.2.2.1 "411111111111111".toList [] '1' '2' (List.all_eq_true.mp (by decide))
      (by decide) (by decide) (by decide)).1,
    checksums_eq.2.2.2 [48, 48, 48] [48] 49 50 (by decide) (List.all_eq_true.mp (by decide))
      (by decide) (by decide) (by decide) (by decide)⟩

end Nitr.Validate.Checksum
