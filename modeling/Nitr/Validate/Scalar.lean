import Mathlib.Data.Rat.Defs
import Mathlib.Algebra.Order.Ring.Rat

/-! # Strings and numbers

A Lua string is bytes and reaches Rust through a lossy decoding; a number is an
integer or a double. -/

namespace Nitr.Validate

/-! ## Strings -/

@[ext]
structure LuaString where
  bytes : ByteArray

namespace LuaString

instance : DecidableEq LuaString := fun a b =>
  @decidable_of_iff _ (a.bytes = b.bytes) LuaString.ext_iff.symm
    (ByteArray.instDecidableEq a.bytes b.bytes)

def replacement : Char := Char.ofNat 0xFFFD

def isTail (b : UInt8) : Bool := 0x80 ≤ b && b ≤ 0xBF

/-- The second bytes the first byte of a three-byte form admits. -/
def second3 (a b : UInt8) : Bool :=
  if a = 0xE0 then 0xA0 ≤ b && b ≤ 0xBF
  else if a = 0xED then 0x80 ≤ b && b ≤ 0x9F
  else isTail b

def second4 (a b : UInt8) : Bool :=
  if a = 0xF0 then 0x90 ≤ b && b ≤ 0xBF
  else if a = 0xF4 then 0x80 ≤ b && b ≤ 0x8F
  else isTail b

def scalar (lead : ℕ) (a : UInt8) (tail : List UInt8) : Char :=
  Char.ofNat (tail.foldl (fun acc b => acc * 64 + b.toNat % 64) (a.toNat % lead))

/-- Every maximal part of the bytes that cannot start a character becomes one
replacement character. -/
def lossyChars : List UInt8 → List Char
  | [] => []
  | a :: rest =>
    if a ≤ 0x7F then
      Char.ofNat a.toNat :: lossyChars rest
    else if 0xC2 ≤ a && a ≤ 0xDF then
      match rest with
      | [] => [replacement]
      | b :: rest' =>
        if isTail b then scalar 32 a [b] :: lossyChars rest'
        else replacement :: lossyChars (b :: rest')
    else if 0xE0 ≤ a && a ≤ 0xEF then
      match rest with
      | [] => [replacement]
      | b :: rest' =>
        if second3 a b then
          match rest' with
          | [] => [replacement]
          | c :: rest'' =>
            if isTail c then scalar 16 a [b, c] :: lossyChars rest''
            else replacement :: lossyChars (c :: rest'')
        else replacement :: lossyChars (b :: rest')
    else if 0xF0 ≤ a && a ≤ 0xF4 then
      match rest with
      | [] => [replacement]
      | b :: rest' =>
        if second4 a b then
          match rest' with
          | [] => [replacement]
          | c :: rest'' =>
            if isTail c then
              match rest'' with
              | [] => [replacement]
              | d :: rest''' =>
                if isTail d then scalar 8 a [b, c, d] :: lossyChars rest'''
                else replacement :: lossyChars (d :: rest''')
            else replacement :: lossyChars (c :: rest'')
        else replacement :: lossyChars (b :: rest')
    else
      replacement :: lossyChars rest

/-- `to_string_lossy`. -/
def toStringLossy (s : LuaString) : String :=
  if h : s.bytes.IsValidUTF8 then String.ofByteArray s.bytes h
  else String.ofList (lossyChars s.bytes.data.toList)

/-- `lua.create_string`. -/
def ofString (s : String) : LuaString := ⟨s.toByteArray⟩

@[simp] theorem toStringLossy_ofString (s : String) : (ofString s).toStringLossy = s := by
  have h : (ofString s).bytes.IsValidUTF8 := s.isValidUTF8
  unfold toStringLossy
  rw [dif_pos h]
  rfl

theorem ofString_injective : Function.Injective ofString := by
  intro s t h
  have hl := congrArg toStringLossy h
  simpa using hl

@[simp] theorem ofString_inj {s t : String} : ofString s = ofString t ↔ s = t :=
  ofString_injective.eq_iff

end LuaString

/-! ## Numbers -/

/-- A double, finite ones by their exact value. -/
inductive F64 where
  | finite (q : ℚ)
  | negZero
  | infinite (negative : Bool)
  | nan
deriving DecidableEq

namespace F64

def isFinite : F64 → Bool
  | finite _ | negZero => true
  | infinite _ | nan => false

/-- The exact value of a finite double. -/
def exact : F64 → Option ℚ
  | finite q => some q
  | negZero => some 0
  | infinite _ | nan => none

/-- `fract() == 0.0`. -/
def isWhole : F64 → Bool
  | finite q => q.den == 1
  | negZero => true
  | infinite _ | nan => false

/-- Position on the extended line; a NaN has none. -/
def position : F64 → Option (ℤ × ℚ)
  | finite q => some (0, q)
  | negZero => some (0, 0)
  | infinite true => some (-1, 0)
  | infinite false => some (1, 0)
  | nan => none

/-- `partial_cmp`. -/
def partialCmp (a b : F64) : Option Ordering :=
  match a.position, b.position with
  | some (i, p), some (j, q) => some ((compare i j).then (compare p q))
  | _, _ => none

/-- `a < b`, false on a NaN as every comparison is. -/
def lt (a b : F64) : Bool := a.partialCmp b == some .lt

def le (a b : F64) : Bool := a.partialCmp b == some .lt || a.partialCmp b == some .eq

/-- `a == b`. -/
def eq (a b : F64) : Bool := a.partialCmp b == some .eq

/-- The nearest multiple of `step`, ties to the even multiple. -/
def roundTo (step n : ℕ) : ℕ :=
  let q := n / step
  let r := n % step
  if step < 2 * r ∨ (2 * r = step ∧ q % 2 = 1) then (q + 1) * step else q * step

/-- The double nearest to a natural number: 53 significant bits. -/
def roundNat (n : ℕ) : ℕ := roundTo (2 ^ (n.log2 - 52)) n

/-- `i as f64`. -/
def ofInt (i : ℤ) : F64 := finite (i.sign * roundNat i.natAbs : ℤ)

/-- `n as i64`, where the double is whole and in range. -/
def toInt : F64 → ℤ
  | finite q => q.num
  | _ => 0

/-- `n.abs() < bound`. -/
def absLt (n : F64) (bound : ℚ) : Bool :=
  match n with
  | finite q => |q| < bound
  | negZero => 0 < bound
  | infinite _ | nan => false

end F64

end Nitr.Validate
