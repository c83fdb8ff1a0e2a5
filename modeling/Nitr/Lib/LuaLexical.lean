import Nitr.Lib.Text

/-! # What stands before a Lua token

Whitespace, short comments and long comments, and the tokens that no expression starts with.
The bytes that count as whitespace and those that end a short comment are parameters; Lua's own
are `Lexical.lua`. -/

namespace Lua

abbrev Bytes := List UInt8

structure Lexical where
  space : UInt8 → Bool
  lineEnd : UInt8 → Bool

/-- Lua's own: the vertical tab is whitespace, and a carriage return ends a line as a line feed
does. -/
def Lexical.lua : Lexical where
  space b := [32, 9, 10, 11, 12, 13].contains b
  lineEnd b := [10, 13].contains b

/-- Without the vertical tab, and with short comments that run to a line feed. -/
def Lexical.lineFeed : Lexical where
  space b := [32, 9, 10, 12, 13].contains b
  lineEnd b := b == 10

/-- What stands behind the first place of a pattern. -/
def afterFirst (pattern : Bytes) : Bytes → Option Bytes
  | [] => if pattern = [] then some [] else none
  | b :: rest =>
      if pattern <+: b :: rest then some ((b :: rest).drop pattern.length)
      else afterFirst pattern rest

/-- The number of `=` in a long bracket opened at the start of a text. -/
def openingLevel (text : Bytes) : Option ℕ := do
  let rest ← text.stripPrefix [91]
  let level := (rest.takeWhile (· = 61)).length
  if (rest.drop level).head? = some 91 then some level else none

def closing (level : ℕ) : Bytes := 93 :: (List.replicate level 61 ++ [93])

theorem suffix_of_afterFirst {pattern text rest : Bytes}
    (h : afterFirst pattern text = some rest) : rest <:+ text := by
  induction text with
  | nil =>
      rw [afterFirst] at h
      split at h
      · cases h
        exact List.suffix_rfl
      · cases h
  | cons b text ih =>
      rw [afterFirst] at h
      split at h
      · cases h
        exact List.drop_suffix ..
      · exact (ih h).trans (List.suffix_cons b text)

variable (L : Lexical)

/-- What follows the whitespace and the comments; a long comment must be closed. -/
def skip : Bytes → Option Bytes
  | [] => some []
  | b :: rest =>
      if L.space b then skip rest
      else
        match _hbody : (b :: rest).stripPrefix [45, 45] with
        | none => some (b :: rest)
        | some body =>
            match openingLevel body with
            | some level =>
                match _hclose : afterFirst (closing level) (body.drop (level + 2)) with
                | some after => skip after
                | none => none
            | none => skip (body.dropWhile fun c => !L.lineEnd c)
  termination_by src => src.length
  decreasing_by
    · simp
    · have := congrArg List.length (List.stripPrefix_eq_some.mp _hbody)
      have hafter := (suffix_of_afterFirst _hclose).length_le
      simp only [List.length_append, List.length_cons, List.length_drop] at this hafter ⊢
      omega
    · have := congrArg List.length (List.stripPrefix_eq_some.mp _hbody)
      have hdrop := (List.dropWhile_suffix (fun c => !L.lineEnd c) (l := body)).length_le
      simp only [List.length_append, List.length_cons] at this ⊢
      omega

def isAlpha (b : UInt8) : Bool := (65 ≤ b && b ≤ 90) || (97 ≤ b && b ≤ 122)

def isWord (b : UInt8) : Bool := isAlpha b || (48 ≤ b && b ≤ 57) || b == 95

def ascii (word : String) : Bytes := word.toList.map fun c => UInt8.ofNat c.toNat

/-- The keywords a statement starts with and an expression does not; a `function` depends on what
follows. -/
def statementKeywords : List Bytes :=
  ["local", "return", "if", "for", "while", "do", "repeat", "goto", "break"].map ascii

/-- The text starts with a statement keyword, with `::`, or with `function` and a name. -/
def opensStatement (src : Bytes) : Bool :=
  match skip L src with
  | none => false
  | some rest =>
      let word := rest.takeWhile isWord
      if statementKeywords.contains word then true
      else if word = ascii "function" then
        match skip L (rest.drop word.length) with
        | some (b :: _) => isAlpha b || b == 95
        | _ => false
      else (ascii "::").isPrefixOf rest

/-! ## One step -/

section

variable {L} {b : UInt8} {rest body after : Bytes} {level : ℕ}

theorem skip_nil : skip L [] = some [] := by rw [skip]

theorem skip_space (h : L.space b = true) : skip L (b :: rest) = skip L rest := by
  rw [skip, if_pos h]

theorem skip_stop (hb : L.space b = false) (hrest : (b :: rest).stripPrefix [45, 45] = none) :
    skip L (b :: rest) = some (b :: rest) := by
  rw [skip, if_neg (by rw [hb]; exact Bool.false_ne_true)]
  split
  · rfl
  · rename_i body hbody
    rw [hrest] at hbody
    cases hbody

theorem skip_comment (hb : L.space 45 = false) : skip L (45 :: 45 :: body) =
    match openingLevel body with
    | some level => (afterFirst (closing level) (body.drop (level + 2))).bind (skip L)
    | none => skip L (body.dropWhile fun c => !L.lineEnd c) := by
  have hstrip : (45 :: 45 :: body).stripPrefix [45, 45] = some body :=
    List.stripPrefix_eq_some.mpr rfl
  rw [skip, if_neg (by rw [hb]; exact Bool.false_ne_true)]
  split
  · rename_i hnone
    rw [hstrip] at hnone
    cases hnone
  · rename_i body' hbody'
    rw [hstrip] at hbody'
    cases hbody'
    cases openingLevel body with
    | none => rfl
    | some level =>
        simp only
        split
        · rename_i after hafter
          rw [hafter, Option.bind_some]
        · rename_i hafter
          rw [hafter, Option.bind_none]

end

theorem suffix_of_skip {src rest : Bytes} (h : skip L src = some rest) : rest <:+ src := by
  fun_induction skip L src with
  | case1 =>
      cases h
      exact List.suffix_rfl
  | case2 b src hspace ih => exact (ih h).trans (List.suffix_cons b src)
  | case3 =>
      cases h
      exact List.suffix_rfl
  | case4 b src hspace body hbody level hlevel after hafter ih =>
      rw [List.stripPrefix_eq_some.mp hbody]
      exact (((ih h).trans (suffix_of_afterFirst hafter)).trans (List.drop_suffix ..)).trans
        (List.suffix_append ..)
  | case5 => cases h
  | case6 b src hspace body hbody hlevel ih =>
      rw [List.stripPrefix_eq_some.mp hbody]
      exact ((ih h).trans (List.dropWhile_suffix _)).trans (List.suffix_append ..)

/-! ## Line ends -/

/-- Every carriage return has a line feed behind it. -/
def Paired (src : Bytes) : Prop := ∀ before after, src = before ++ 13 :: after → after.head? = some 10

theorem Paired.suffix {src rest : Bytes} (h : Paired src) (hrest : rest <:+ src) :
    Paired rest := by
  intro before after heq
  have ⟨front, hfront⟩ := hrest
  exact h (front ++ before) after (by rw [← hfront, heq, List.append_assoc])

/-- A comment that ends at a carriage return ends at the line feed behind it as well. -/
theorem dropWhile_lineEnd {body : Bytes} (h : Paired body) :
    (body.dropWhile fun c => !Lexical.lua.lineEnd c) =
        (body.dropWhile fun c => !Lexical.lineFeed.lineEnd c) ∨
      (body.dropWhile fun c => !Lexical.lua.lineEnd c) =
        13 :: (body.dropWhile fun c => !Lexical.lineFeed.lineEnd c) := by
  induction body with
  | nil => exact .inl rfl
  | cons b body ih =>
      by_cases hreturn : b = 13
      · have hnext : body.head? = some 10 := h [] body (by rw [hreturn]; rfl)
        cases body with
        | nil => cases hnext
        | cons c body =>
            cases hnext
            rw [hreturn]
            exact .inr rfl
      · by_cases hfeed : b = 10
        · rw [hfeed]
          exact .inl rfl
        · have hlua : (!Lexical.lua.lineEnd b) = true := by
            simp [Lexical.lua, hreturn, hfeed]
          have hlf : (!Lexical.lineFeed.lineEnd b) = true := by
            simp [Lexical.lineFeed, hfeed]
          simp only [List.dropWhile_cons, hlua, hlf, if_true]
          exact ih (h.suffix (List.suffix_cons b body))

theorem space_lua {b : UInt8} (h : Lexical.lineFeed.space b = true) :
    Lexical.lua.space b = true := by
  simp only [Lexical.lineFeed, Lexical.lua, List.contains_eq_mem, List.mem_cons,
    decide_eq_true_eq] at h ⊢
  tauto

theorem space_lua_of_ne {b : UInt8} (h : Lexical.lineFeed.space b = false) (hb : b ≠ 11) :
    Lexical.lua.space b = false := by
  simp only [Lexical.lineFeed, Lexical.lua, List.contains_eq_mem, List.mem_cons,
    decide_eq_false_iff_not] at h ⊢
  tauto

/-- Where every carriage return has its line feed, reading comments to the line feed finds the
place Lua finds, unless it stops at a vertical tab. -/
theorem skip_lua {src rest : Bytes} (hpaired : Paired src)
    (h : skip Lexical.lineFeed src = some rest) (hrest : rest.head? ≠ some 11) :
    skip Lexical.lua src = some rest := by
  fun_induction skip Lexical.lineFeed src with
  | case1 =>
      rw [skip_nil, h]
  | case2 b src hspace ih =>
      rw [skip_space (space_lua hspace)]
      exact ih (hpaired.suffix (List.suffix_cons b src)) h
  | case3 b src hspace hbody =>
      cases h
      have hb : b ≠ 11 := fun heq => hrest (congrArg some heq)
      exact skip_stop (space_lua_of_ne (Bool.eq_false_iff.mpr hspace) hb) hbody
  | case4 b src hspace body hbody level hlevel after hafter ih =>
      have hsrc := List.stripPrefix_eq_some.mp hbody
      have hsuffix : after <:+ b :: src := by
        rw [hsrc]
        exact ((suffix_of_afterFirst hafter).trans (List.drop_suffix ..)).trans
          (List.suffix_append ..)
      rw [hsrc, List.cons_append, List.cons_append, List.nil_append, skip_comment rfl, hlevel]
      simp only [hafter, Option.bind_some]
      exact ih (hpaired.suffix hsuffix) h
  | case5 => cases h
  | case6 b src hspace body hbody hlevel ih =>
      have hsrc := List.stripPrefix_eq_some.mp hbody
      have hpaired' : Paired body :=
        hpaired.suffix (by rw [hsrc]; exact List.suffix_append ..)
      have hskip := ih (hpaired'.suffix (List.dropWhile_suffix _)) h
      rw [hsrc, List.cons_append, List.cons_append, List.nil_append, skip_comment rfl, hlevel]
      simp only
      cases dropWhile_lineEnd hpaired' with
      | inl heq => rw [heq, hskip]
      | inr heq => rw [heq, skip_space rfl, hskip]

/-- A vertical tab starts no token. -/
theorem opensStatement_tab {src rest : Bytes} (h : skip L src = some (11 :: rest)) :
    opensStatement L src = false := by
  rw [opensStatement, h]
  rfl

/-- Where every carriage return has its line feed, the tokens that open a statement are the
same. -/
theorem opensStatement_lua {src : Bytes} (hpaired : Paired src)
    (h : opensStatement Lexical.lineFeed src = true) : opensStatement Lexical.lua src = true := by
  cases hskip : skip Lexical.lineFeed src with
  | none =>
      rw [opensStatement, hskip] at h
      cases h
  | some rest =>
      have hhead : rest.head? ≠ some 11 := by
        intro htab
        have ⟨rest', hrest'⟩ := List.head?_eq_some_iff.mp htab
        rw [opensStatement_tab Lexical.lineFeed (hrest' ▸ hskip)] at h
        cases h
      rw [opensStatement, hskip] at h
      rw [opensStatement, skip_lua hpaired hskip hhead]
      by_cases hkeyword : statementKeywords.contains (rest.takeWhile isWord) = true
      · exact if_pos hkeyword
      · by_cases hfunction : rest.takeWhile isWord = ascii "function"
        · have hnot : statementKeywords.contains (ascii "function") = false := by decide
          simp only [hnot, hfunction, if_true, Bool.false_eq_true, if_false] at h ⊢
          have hpaired' : Paired (rest.drop (ascii "function").length) :=
            hpaired.suffix ((List.drop_suffix ..).trans (suffix_of_skip Lexical.lineFeed hskip))
          split at h
          · rename_i b after hnext
            rw [skip_lua hpaired' hnext ?_]
            · exact h
            · rintro htab
              cases Option.some.inj htab
              cases h
          · cases h
        · simp only [hkeyword, hfunction, Bool.false_eq_true, if_false] at h ⊢
          exact h

end Lua
