import Mathlib.Data.List.GetD
import Mathlib.Data.List.Nodup

/-! # Unpadded base64url

The strict codec: three bytes are four symbols, a rest of one or two bytes is two or three
symbols whose unused bits are zero, and nothing else is read. -/

namespace Base64Url

def alphabet : List Char :=
  ['A', 'B', 'C', 'D', 'E', 'F', 'G', 'H', 'I', 'J', 'K', 'L', 'M', 'N', 'O', 'P', 'Q', 'R', 'S',
    'T', 'U', 'V', 'W', 'X', 'Y', 'Z', 'a', 'b', 'c', 'd', 'e', 'f', 'g', 'h', 'i', 'j', 'k', 'l',
    'm', 'n', 'o', 'p', 'q', 'r', 's', 't', 'u', 'v', 'w', 'x', 'y', 'z', '0', '1', '2', '3', '4',
    '5', '6', '7', '8', '9', '-', '_']

/-- The symbol of a value below 64. -/
def symbol (n : ℕ) : Char := alphabet.getD n 'A'

def value (c : Char) : Option ℕ :=
  if c ∈ alphabet then some (alphabet.idxOf c) else none

def encode : List UInt8 → List Char
  | [] => []
  | [a] => [symbol (a.toNat / 4), symbol (a.toNat % 4 * 16)]
  | [a, b] =>
      [symbol (a.toNat / 4), symbol (a.toNat % 4 * 16 + b.toNat / 16), symbol (b.toNat % 16 * 4)]
  | a :: b :: c :: rest =>
      symbol (a.toNat / 4) :: symbol (a.toNat % 4 * 16 + b.toNat / 16) ::
        symbol (b.toNat % 16 * 4 + c.toNat / 64) :: symbol (c.toNat % 64) :: encode rest

def decode : List Char → Option (List UInt8)
  | [] => some []
  | [_] => none
  | [p, q] => do
      let p ← value p
      let q ← value q
      if q % 16 = 0 then some [.ofNat (p * 4 + q / 16)] else none
  | [p, q, r] => do
      let p ← value p
      let q ← value q
      let r ← value r
      if r % 4 = 0 then some [.ofNat (p * 4 + q / 16), .ofNat (q % 16 * 16 + r / 4)] else none
  | p :: q :: r :: s :: rest => do
      let p ← value p
      let q ← value q
      let r ← value r
      let s ← value s
      let bytes ← decode rest
      some (.ofNat (p * 4 + q / 16) :: .ofNat (q % 16 * 16 + r / 4) :: .ofNat (r % 4 * 64 + s) ::
        bytes)

/-! ## Symbols -/

theorem nodup_alphabet : alphabet.Nodup := by decide

theorem value_symbol {n : ℕ} (h : n < 64) : value (symbol n) = some n := by
  have hlength : n < alphabet.length := h
  have hget : symbol n = alphabet[n] := by
    unfold symbol
    rw [List.getD_eq_getElem _ _ hlength]
  unfold value
  rw [hget, if_pos (List.getElem_mem hlength), nodup_alphabet.idxOf_getElem]

theorem value_eq_some {c : Char} {n : ℕ} (h : value c = some n) : n < 64 ∧ symbol n = c := by
  unfold value at h
  split at h
  · rename_i hmem
    cases h
    have hlength : alphabet.idxOf c < alphabet.length := List.idxOf_lt_length_of_mem hmem
    refine ⟨hlength, ?_⟩
    unfold symbol
    rw [List.getD_eq_getElem _ _ hlength, List.getElem_idxOf]
  · cases h

theorem symbol_mem {n : ℕ} (h : n < 64) : symbol n ∈ alphabet := by
  unfold symbol
  rw [List.getD_eq_getElem _ _ h]
  exact List.getElem_mem h

theorem ofNat_eq {n : ℕ} {a : UInt8} (h : n = a.toNat) : UInt8.ofNat n = a := by
  rw [h, UInt8.ofNat_toNat]

/-! ## Round trips -/

theorem decode_encode (bytes : List UInt8) : decode (encode bytes) = some bytes := by
  induction bytes using encode.induct with
  | case1 => rfl
  | case2 a =>
      have ha := a.toNat_lt
      simp only [encode, decode, value_symbol (by omega : a.toNat / 4 < 64),
        value_symbol (by omega : a.toNat % 4 * 16 < 64), Option.bind_eq_bind, Option.bind_some]
      rw [if_pos (by omega), ofNat_eq (a := a) (by omega)]
  | case3 a b =>
      have ha := a.toNat_lt
      have hb := b.toNat_lt
      simp only [encode, decode, value_symbol (by omega : a.toNat / 4 < 64),
        value_symbol (by omega : a.toNat % 4 * 16 + b.toNat / 16 < 64),
        value_symbol (by omega : b.toNat % 16 * 4 < 64), Option.bind_eq_bind, Option.bind_some]
      rw [if_pos (by omega), ofNat_eq (a := a) (by omega), ofNat_eq (a := b) (by omega)]
  | case4 a b c rest ih =>
      have ha := a.toNat_lt
      have hb := b.toNat_lt
      have hc := c.toNat_lt
      simp only [encode, decode, value_symbol (by omega : a.toNat / 4 < 64),
        value_symbol (by omega : a.toNat % 4 * 16 + b.toNat / 16 < 64),
        value_symbol (by omega : b.toNat % 16 * 4 + c.toNat / 64 < 64),
        value_symbol (by omega : c.toNat % 64 < 64), ih, Option.bind_eq_bind, Option.bind_some]
      rw [ofNat_eq (a := a) (by omega), ofNat_eq (a := b) (by omega), ofNat_eq (a := c) (by omega)]

theorem toNat_ofNat {n : ℕ} (h : n < 256) : (UInt8.ofNat n).toNat = n :=
  UInt8.toNat_ofNat_of_lt h

/-- Only what `encode` writes is read. -/
theorem encode_of_decode {text : List Char} {bytes : List UInt8} (h : decode text = some bytes) :
    encode bytes = text := by
  induction text using decode.induct generalizing bytes with
  | case1 =>
      cases h
      rfl
  | case2 c => cases h
  | case3 p q =>
      simp only [decode, Option.bind_eq_bind, Option.bind_eq_some_iff] at h
      obtain ⟨i, hi, j, hj, h⟩ := h
      obtain ⟨hi, rfl⟩ := value_eq_some hi
      obtain ⟨hj, rfl⟩ := value_eq_some hj
      split at h
      · cases h
        have h₁ : (i * 4 + j / 16) / 4 = i := by omega
        have h₂ : (i * 4 + j / 16) % 4 * 16 = j := by omega
        rw [encode, toNat_ofNat (by omega), h₁, h₂]
      · cases h
  | case4 p q r =>
      simp only [decode, Option.bind_eq_bind, Option.bind_eq_some_iff] at h
      obtain ⟨i, hi, j, hj, k, hk, h⟩ := h
      obtain ⟨hi, rfl⟩ := value_eq_some hi
      obtain ⟨hj, rfl⟩ := value_eq_some hj
      obtain ⟨hk, rfl⟩ := value_eq_some hk
      split at h
      · cases h
        have h₁ : (i * 4 + j / 16) / 4 = i := by omega
        have h₂ : (i * 4 + j / 16) % 4 * 16 + (j % 16 * 16 + k / 4) / 16 = j := by omega
        have h₃ : (j % 16 * 16 + k / 4) % 16 * 4 = k := by omega
        rw [encode, toNat_ofNat (n := i * 4 + j / 16) (by omega),
          toNat_ofNat (n := j % 16 * 16 + k / 4) (by omega), h₁, h₂, h₃]
      · cases h
  | case5 p q r s rest ih =>
      simp only [decode, Option.bind_eq_bind, Option.bind_eq_some_iff] at h
      obtain ⟨i, hi, j, hj, k, hk, l, hl, bytes', hrest, h⟩ := h
      obtain ⟨hi, rfl⟩ := value_eq_some hi
      obtain ⟨hj, rfl⟩ := value_eq_some hj
      obtain ⟨hk, rfl⟩ := value_eq_some hk
      obtain ⟨hl, rfl⟩ := value_eq_some hl
      cases h
      have h₁ : (i * 4 + j / 16) / 4 = i := by omega
      have h₂ : (i * 4 + j / 16) % 4 * 16 + (j % 16 * 16 + k / 4) / 16 = j := by omega
      have h₃ : (j % 16 * 16 + k / 4) % 16 * 4 + (k % 4 * 64 + l) / 64 = k := by omega
      have h₄ : (k % 4 * 64 + l) % 64 = l := by omega
      rw [encode, toNat_ofNat (n := i * 4 + j / 16) (by omega),
        toNat_ofNat (n := j % 16 * 16 + k / 4) (by omega),
        toNat_ofNat (n := k % 4 * 64 + l) (by omega), h₁, h₂, h₃, h₄, ih hrest]

/-- The text uses the alphabet only. -/
theorem mem_alphabet_of_mem_encode {bytes : List UInt8} {c : Char} (h : c ∈ encode bytes) :
    c ∈ alphabet := by
  induction bytes using encode.induct with
  | case1 => cases h
  | case2 a =>
      have ha := a.toNat_lt
      simp only [encode, List.mem_cons, List.not_mem_nil, or_false] at h
      rcases h with rfl | rfl <;> exact symbol_mem (by omega)
  | case3 a b =>
      have ha := a.toNat_lt
      have hb := b.toNat_lt
      simp only [encode, List.mem_cons, List.not_mem_nil, or_false] at h
      rcases h with rfl | rfl | rfl <;> exact symbol_mem (by omega)
  | case4 a b d rest ih =>
      have ha := a.toNat_lt
      have hb := b.toNat_lt
      have hd := d.toNat_lt
      simp only [encode, List.mem_cons] at h
      rcases h with rfl | rfl | rfl | rfl | h
      · exact symbol_mem (by omega)
      · exact symbol_mem (by omega)
      · exact symbol_mem (by omega)
      · exact symbol_mem (by omega)
      · exact ih h

end Base64Url
