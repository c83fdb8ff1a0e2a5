import Mathlib.Tactic.IntervalCases

/-! # JSON strings as text

How a compact printer quotes a string: quotes, backslashes and control characters are escaped.
A quoted string tells where it ends, so two of them with any text behind are told apart. -/

namespace JsonString

/-- A hexadecimal digit. -/
def hexDigit (n : ℕ) : Char := if n < 10 then Char.ofNat (48 + n) else Char.ofNat (87 + n)

def hexValue (c : Char) : ℕ := if c.toNat < 58 then c.toNat - 48 else c.toNat - 87

/-- A control character. -/
def control (n : ℕ) : List Char :=
  if n = 8 then ['\\', 'b']
  else if n = 9 then ['\\', 't']
  else if n = 10 then ['\\', 'n']
  else if n = 12 then ['\\', 'f']
  else if n = 13 then ['\\', 'r']
  else ['\\', 'u', '0', '0', hexDigit (n / 16), hexDigit (n % 16)]

def escape (c : Char) : List Char :=
  if c = '"' then ['\\', '"']
  else if c = '\\' then ['\\', '\\']
  else if c.toNat < 32 then control c.toNat
  else [c]

def quote (s : List Char) : List Char := '"' :: s.flatMap escape ++ ['"']

/-- The character a short escape stands for. -/
def short (e : Char) : Char :=
  if e = 'b' then Char.ofNat 8
  else if e = 't' then Char.ofNat 9
  else if e = 'n' then Char.ofNat 10
  else if e = 'f' then Char.ofNat 12
  else if e = 'r' then Char.ofNat 13
  else e

/-- What is behind a backslash. -/
def unescapeTail : List Char → Option (Char × List Char)
  | 'u' :: _ :: _ :: high :: low :: rest =>
      some (Char.ofNat (16 * hexValue high + hexValue low), rest)
  | e :: rest => some (short e, rest)
  | [] => none

/-- The first character of a quoted text, and what follows it; none where the quote ends. -/
def unescape : List Char → Option (Char × List Char)
  | [] => none
  | c :: rest =>
      if c = '"' then none
      else if c = '\\' then unescapeTail rest
      else some (c, rest)

theorem unescape_control {n : ℕ} (h : n < 32) (rest : List Char) :
    unescape (control n ++ rest) = some (Char.ofNat n, rest) := by
  interval_cases n <;> rfl

theorem unescape_escape (c : Char) (rest : List Char) :
    unescape (escape c ++ rest) = some (c, rest) := by
  rw [escape]
  by_cases hquote : c = '"'
  · rw [if_pos hquote, hquote]
    rfl
  · rw [if_neg hquote]
    by_cases hslash : c = '\\'
    · rw [if_pos hslash, hslash]
      rfl
    · rw [if_neg hslash]
      by_cases hcontrol : c.toNat < 32
      · rw [if_pos hcontrol, unescape_control hcontrol, Char.ofNat_toNat]
      · rw [if_neg hcontrol, List.singleton_append, unescape, if_neg hquote, if_neg hslash]

/-- A quoted string is told apart from what follows it. -/
theorem flatMap_escape_inj {s t rest rest' : List Char}
    (h : s.flatMap escape ++ '"' :: rest = t.flatMap escape ++ '"' :: rest') :
    s = t ∧ rest = rest' := by
  induction s generalizing t with
  | nil =>
      cases t with
      | nil => exact ⟨rfl, (List.cons.inj h).2⟩
      | cons d t =>
          have hread := congrArg unescape h
          rw [List.flatMap_cons, List.append_assoc, unescape_escape] at hread
          cases hread
  | cons c s ih =>
      cases t with
      | nil =>
          have hread := congrArg unescape h
          rw [List.flatMap_cons, List.append_assoc, unescape_escape] at hread
          cases hread
      | cons d t =>
          have hread := congrArg unescape h
          rw [List.flatMap_cons, List.flatMap_cons, List.append_assoc, List.append_assoc,
            unescape_escape, unescape_escape] at hread
          have ⟨hchar, hmore⟩ := Prod.mk.inj (Option.some.inj hread)
          have ⟨htail, hrest⟩ := ih hmore
          exact ⟨by rw [hchar, htail], hrest⟩

theorem quote_inj {s t rest rest' : List Char} (h : quote s ++ rest = quote t ++ rest') :
    s = t ∧ rest = rest' := by
  rw [quote, quote, List.cons_append, List.cons_append, List.append_assoc, List.append_assoc] at h
  exact flatMap_escape_inj (List.cons.inj h).2

end JsonString
