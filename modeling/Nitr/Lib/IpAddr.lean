import Mathlib.Data.List.Basic

/-! # IP addresses

Addresses of both families, their text form as the standard library of Rust reads it, and
the properties its methods name. -/

/-- The four octets of an IPv4 address. -/
structure Ipv4Addr where
  o0 : UInt8
  o1 : UInt8
  o2 : UInt8
  o3 : UInt8
deriving DecidableEq, Repr

/-- The eight segments of an IPv6 address. -/
structure Ipv6Addr where
  s0 : UInt16
  s1 : UInt16
  s2 : UInt16
  s3 : UInt16
  s4 : UInt16
  s5 : UInt16
  s6 : UInt16
  s7 : UInt16
deriving DecidableEq, Repr

inductive IpAddr where
  | v4 (addr : Ipv4Addr)
  | v6 (addr : Ipv6Addr)
deriving DecidableEq, Repr

/-- The IPv4 address in two segments. -/
def Ipv4Addr.ofSegments (hi lo : UInt16) : Ipv4Addr :=
  ⟨(hi >>> 8).toUInt8, hi.toUInt8, (lo >>> 8).toUInt8, lo.toUInt8⟩

/-- The address in `::ffff:a.b.c.d`. -/
def Ipv6Addr.toIpv4Mapped (a : Ipv6Addr) : Option Ipv4Addr :=
  if a.s0 = 0 ∧ a.s1 = 0 ∧ a.s2 = 0 ∧ a.s3 = 0 ∧ a.s4 = 0 ∧ a.s5 = 0xffff then
    some (.ofSegments a.s6 a.s7)
  else none

/-- A mapped IPv4 address in its own family. -/
def IpAddr.toCanonical : IpAddr → IpAddr
  | .v4 a => .v4 a
  | .v6 a =>
      match a.toIpv4Mapped with
      | some mapped => .v4 mapped
      | none => .v6 a

/-! ## Text -/

namespace IpAddr

def toDigit (radix : ℕ) (c : Char) : Option ℕ :=
  let value :=
    if '0' ≤ c ∧ c ≤ '9' then some (c.toNat - '0'.toNat)
    else if 'a' ≤ c ∧ c ≤ 'z' then some (c.toNat - 'a'.toNat + 10)
    else if 'A' ≤ c ∧ c ≤ 'Z' then some (c.toNat - 'A'.toNat + 10)
    else none
  value.filter (· < radix)

/-- A number of some digits and the text after it. -/
def readNumber (radix maxDigits bound : ℕ) (zeroPrefix : Bool) (text : List Char) :
    Option (ℕ × List Char) :=
  let digits := (text.takeWhile fun c => (toDigit radix c).isSome).filterMap (toDigit radix)
  let value := digits.foldl (fun n d => n * radix + d) 0
  if digits = [] ∨ maxDigits < digits.length then none
  else if zeroPrefix = false ∧ text.head? = some '0' ∧ 1 < digits.length then none
  else if bound ≤ value then none
  else some (value, text.drop digits.length)

def readGivenChar (c : Char) : List Char → Option (List Char)
  | [] => none
  | x :: rest => if x = c then some rest else none

/-- An element of a list that all but the first have a separator before them. -/
def readSeparator {α : Type} (sep : Char) (first : Bool)
    (inner : List Char → Option (α × List Char)) (text : List Char) : Option (α × List Char) :=
  if first then inner text else (readGivenChar sep text).bind inner

def readOctet (first : Bool) (text : List Char) : Option (UInt8 × List Char) :=
  (readSeparator '.' first (readNumber 10 3 256 false) text).map fun r => (.ofNat r.1, r.2)

def readIpv4 (text : List Char) : Option (Ipv4Addr × List Char) := do
  let (o0, text) ← readOctet true text
  let (o1, text) ← readOctet false text
  let (o2, text) ← readOctet false text
  let (o3, text) ← readOctet false text
  return (⟨o0, o1, o2, o3⟩, text)

/-- Up to `n` groups, the last two possibly as an IPv4 address, and whether they were. -/
def readGroups : ℕ → Bool → List Char → List UInt16 × Bool × List Char
  | 0, _, text => ([], false, text)
  | n + 1, first, text =>
      match if 1 ≤ n then readSeparator ':' first readIpv4 text else none with
      | some (a, rest) =>
          ([a.o0.toUInt16 * 256 + a.o1.toUInt16, a.o2.toUInt16 * 256 + a.o3.toUInt16], true, rest)
      | none =>
          match readSeparator ':' first (readNumber 16 4 65536 true) text with
          | some (g, rest) =>
              let (groups, embedded, rest) := readGroups n false rest
              (.ofNat g :: groups, embedded, rest)
          | none => ([], false, text)

def ofGroups (groups : List UInt16) : Ipv6Addr :=
  ⟨groups.getD 0 0, groups.getD 1 0, groups.getD 2 0, groups.getD 3 0, groups.getD 4 0,
    groups.getD 5 0, groups.getD 6 0, groups.getD 7 0⟩

def readIpv6 (text : List Char) : Option (Ipv6Addr × List Char) :=
  let (head, embedded, text) := readGroups 8 true text
  if head.length = 8 then some (ofGroups head, text)
  else if embedded then none
  else
    match (readGivenChar ':' text).bind (readGivenChar ':') with
    | none => none
    | some text =>
        let (tail, _, text) := readGroups (7 - head.length) true text
        let zeros := List.replicate (8 - head.length - tail.length) 0
        some (ofGroups (head ++ zeros ++ tail), text)

/-- `str::parse::<IpAddr>`. -/
def parse (text : List Char) : Option IpAddr :=
  match (readIpv4 text).map fun r => (IpAddr.v4 r.1, r.2) with
  | some (ip, rest) => if rest = [] then some ip else none
  | none =>
      match readIpv6 text with
      | some (ip, rest) => if rest = [] then some (.v6 ip) else none
      | none => none

end IpAddr
