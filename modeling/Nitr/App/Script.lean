import Nitr.Lib.LuaLexical

/-! # Loading a script

`starts_as_statement` and `load_chunk_in` of `runtime/script.rs`. The compiler of Lua is a
parameter. -/

namespace Nitr.Script

open Lua (Bytes)

/-! ## The first token -/

def isAsciiWhitespace (b : UInt8) : Bool := [32, 9, 10, 12, 13].contains b

/-- The `=` count of a long bracket opening at the start of a text. -/
def longBracketLevel (s : Bytes) : Option ℕ := do
  let afterOpen ← s.stripPrefix [91]
  let level := (afterOpen.takeWhile (· = 61)).length
  if afterOpen[level]? = some 91 then some level else none

/-- Skips whitespace and comments; an unterminated long comment yields the empty text. -/
def skipTrivia (src : Bytes) : Bytes :=
  match _hbody : (src.dropWhile isAsciiWhitespace).stripPrefix [45, 45] with
  | none => src.dropWhile isAsciiWhitespace
  | some body =>
      match longBracketLevel body with
      | some level =>
          -- The closing bracket is searched for by windows of its length.
          match _hclose : Lua.afterFirst (93 :: (List.replicate level 61 ++ [93]))
              (body.drop (level + 2)) with
          | some after => skipTrivia after
          | none => []
      | none =>
          match _hline : body.dropWhile (· ≠ 10) with
          | _ :: after => skipTrivia after
          | [] => []
  termination_by src.length
  decreasing_by
    · have hbody := congrArg List.length (List.stripPrefix_eq_some.mp _hbody)
      have hsrc := (List.dropWhile_suffix isAsciiWhitespace (l := src)).length_le
      have hafter := (Lua.suffix_of_afterFirst _hclose).length_le
      simp only [List.length_append, List.length_cons, List.length_drop] at hbody hafter
      omega
    · have hbody := congrArg List.length (List.stripPrefix_eq_some.mp _hbody)
      have hsrc := (List.dropWhile_suffix isAsciiWhitespace (l := src)).length_le
      have hline := (List.dropWhile_suffix (· ≠ 10) (l := body)).length_le
      rw [_hline] at hline
      simp only [List.length_append, List.length_cons] at hbody hline
      omega

/-- Whether the chunk's first token can only begin a statement. -/
def startsAsStatement (src : Bytes) : Bool :=
  let rest := skipTrivia src
  let word := rest.takeWhile fun b => Lua.isAlpha b || (48 ≤ b && b ≤ 57) || b == 95
  if [Lua.ascii "local", Lua.ascii "return", Lua.ascii "if", Lua.ascii "for", Lua.ascii "while",
      Lua.ascii "do", Lua.ascii "repeat", Lua.ascii "goto", Lua.ascii "break"].contains word then
    true
  else if word = Lua.ascii "function" then
    ((skipTrivia (rest.drop word.length)).head?).any fun b => Lua.isAlpha b || b == 95
  else (Lua.ascii "::").isPrefixOf rest

/-! ## Loading -/

/-- The compiler, which refuses `return` before a text that opens a statement; an error has a
line. -/
structure Compiler (Chunk Error : Type) where
  load : Bytes → Except Error Chunk
  line : Error → ℕ
  expression : ∀ src, Lua.opensStatement Lua.Lexical.lua src = true →
    ∃ e, load (Lua.ascii "return " ++ src) = .error e

section

variable {Chunk Error : Type} (lua : Compiler Chunk Error)

/-- The block form, after the expression form has failed or was left out. -/
def loadBlock (exprErr : Option Error) (data : Bytes) : Except Error Chunk :=
  match lua.load data with
  | .ok f => .ok f
  | .error blockErr =>
      match exprErr with
      | none => .error blockErr
      | some exprErr =>
          if lua.line blockErr < lua.line exprErr then .error exprErr else .error blockErr

/-- The expression form first. -/
def loadEither (data : Bytes) : Except Error Chunk :=
  match lua.load (Lua.ascii "return " ++ data) with
  | .ok f => .ok f
  | .error err => loadBlock lua (some err) data

/-- `load_chunk_in`. -/
def loadChunk (data : Bytes) : Except Error Chunk :=
  if startsAsStatement data then loadBlock lua none data else loadEither lua data

end

/-! ## The skipper and the lexical rules -/

theorem longBracketLevel_eq (s : Bytes) : longBracketLevel s = Lua.openingLevel s := by
  rw [longBracketLevel, Lua.openingLevel]
  simp only [List.head?_drop]

theorem skip_dropWhile (src : Bytes) :
    Lua.skip Lua.Lexical.lineFeed (src.dropWhile isAsciiWhitespace) =
      Lua.skip Lua.Lexical.lineFeed src := by
  induction src with
  | nil => rfl
  | cons b src ih =>
      by_cases hb : isAsciiWhitespace b = true
      · rw [List.dropWhile_cons_of_pos hb, ih, Lua.skip_space hb]
      · rw [List.dropWhile_cons_of_neg hb]

/-- The skipper reads comments to the line feed; what is not closed is taken for empty. -/
theorem skipTrivia_eq (src : Bytes) :
    skipTrivia src = (Lua.skip Lua.Lexical.lineFeed src).getD [] := by
  have hcomment {src body : Bytes}
      (hbody : (src.dropWhile isAsciiWhitespace).stripPrefix [45, 45] = some body) :
      Lua.skip Lua.Lexical.lineFeed src = match longBracketLevel body with
        | some level => (Lua.afterFirst (Lua.closing level) (body.drop (level + 2))).bind
            (Lua.skip Lua.Lexical.lineFeed)
        | none => Lua.skip Lua.Lexical.lineFeed (body.dropWhile (· ≠ 10)) := by
    rw [← skip_dropWhile, List.stripPrefix_eq_some.mp hbody, longBracketLevel_eq]
    have hline : (fun c => !Lua.Lexical.lineFeed.lineEnd c) = fun c : UInt8 => decide (c ≠ 10) := by
      funext c
      simp [Lua.Lexical.lineFeed]
      rfl
    rw [← hline]
    exact Lua.skip_comment rfl
  fun_induction skipTrivia src with
  | case1 src hbody =>
      rw [← skip_dropWhile]
      cases hrest : src.dropWhile isAsciiWhitespace with
      | nil => rw [Lua.skip_nil, Option.getD_some]
      | cons b rest =>
          have hb := List.head?_dropWhile_not isAsciiWhitespace src
          rw [hrest] at hbody hb
          have hspace : Lua.Lexical.lineFeed.space b = false := hb
          rw [Lua.skip_stop hspace hbody, Option.getD_some]
  | case2 src body hbody level hlevel after hafter ih =>
      rw [hcomment hbody, hlevel]
      simp only [Lua.closing, hafter, Option.bind_some]
      exact ih
  | case3 src body hbody level hlevel hafter =>
      rw [hcomment hbody, hlevel]
      simp only [Lua.closing, hafter, Option.bind_none, Option.getD_none]
  | case4 src body hbody hlevel b after hline ih =>
      have hb := List.head?_dropWhile_not (· ≠ 10) body
      rw [hline] at hb
      have hfeed : b = 10 := by simpa using hb
      rw [hcomment hbody, hlevel]
      simp only [hline]
      rw [hfeed, Lua.skip_space rfl]
      exact ih
  | case5 src body hbody hlevel hline =>
      rw [hcomment hbody, hlevel]
      simp only [hline]
      rw [Lua.skip_nil, Option.getD_some]

theorem startsAsStatement_eq (src : Bytes) :
    startsAsStatement src = Lua.opensStatement Lua.Lexical.lineFeed src := by
  rw [startsAsStatement, Lua.opensStatement, skipTrivia_eq]
  cases hskip : Lua.skip Lua.Lexical.lineFeed src with
  | none => rfl
  | some rest =>
      have hword : (fun b => Lua.isAlpha b || (48 ≤ b && b ≤ 57) || b == 95) = Lua.isWord := rfl
      simp only [Option.getD_some, skipTrivia_eq, hword]
      cases Lua.skip Lua.Lexical.lineFeed (rest.drop (rest.takeWhile Lua.isWord).length) with
      | none => rfl
      | some after =>
          cases after with
          | nil => rfl
          | cons b after => rfl

/-! ## The expression form that is left out -/

section

variable {Chunk Error : Type} {lua : Compiler Chunk Error} {data : Bytes}

/-- After a failed expression form the chunk is that of the block form. -/
theorem toOption_loadBlock (err : Option Error) :
    (loadBlock lua err data).toOption = (lua.load data).toOption := by
  unfold loadBlock
  cases lua.load data with
  | ok f => rfl
  | error blockErr =>
      cases err with
      | none => rfl
      | some err =>
          simp only
          split <;> rfl

theorem toOption_loadChunk (h : startsAsStatement data = true →
    ∃ e, lua.load (Lua.ascii "return " ++ data) = .error e) :
    (loadChunk lua data).toOption = (loadEither lua data).toOption := by
  rw [loadChunk]
  split
  · rename_i hstarts
    have ⟨e, he⟩ := h hstarts
    rw [loadEither, he]
    simp only [toOption_loadBlock]
  · rfl

end

/-- Leaving the expression form out shows neither in its result nor in the chunk, whatever the
compiler. -/
def Unobservable (data : Bytes) : Prop :=
  ∀ (Chunk Error : Type) (lua : Compiler Chunk Error),
    (startsAsStatement data = true → ∃ e, lua.load (Lua.ascii "return " ++ data) = .error e) ∧
      (loadChunk lua data).toOption = (loadEither lua data).toOption

/-- A compiler that knows one expression. -/
def compilerOf (data : Bytes) (h : Lua.opensStatement Lua.Lexical.lua data = false) :
    Compiler Unit Unit where
  load text := if text = Lua.ascii "return " ++ data then .ok () else .error ()
  line _ := 1
  expression := by
    intro src hsrc
    refine ⟨(), if_neg fun heq => ?_⟩
    rw [List.append_cancel_left heq, h] at hsrc
    cases hsrc

theorem unobservable_of_opensStatement {data : Bytes}
    (h : Lua.opensStatement Lua.Lexical.lineFeed data = true →
      Lua.opensStatement Lua.Lexical.lua data = true) : Unobservable data := by
  intro Chunk Error lua
  have hfails : startsAsStatement data = true →
      ∃ e, lua.load (Lua.ascii "return " ++ data) = .error e := by
    intro hstarts
    rw [startsAsStatement_eq] at hstarts
    exact lua.expression data (h hstarts)
  exact ⟨hfails, toOption_loadChunk hfails⟩

theorem not_unobservable {data : Bytes}
    (hstarts : Lua.opensStatement Lua.Lexical.lineFeed data = true)
    (hlua : Lua.opensStatement Lua.Lexical.lua data = false) : ¬Unobservable data := by
  intro h
  have ⟨e, he⟩ := (h Unit Unit (compilerOf data hlua)).1 (by rw [startsAsStatement_eq, hstarts])
  have hok : (compilerOf data hlua).load (Lua.ascii "return " ++ data) = .ok () := if_pos rfl
  rw [hok] at he
  cases he

/-- Where every carriage return has a line feed behind it, the expression form is left out
unobserved. -/
theorem unobservable_of_paired {data : Bytes} (h : Lua.Paired data) : Unobservable data :=
  unobservable_of_opensStatement (Lua.opensStatement_lua h)

/-- The expression form is left out unobserved unless a statement opens the text only when short
comments are read past their carriage returns. -/
theorem unobservable_iff (data : Bytes) : Unobservable data ↔
    (Lua.opensStatement Lua.Lexical.lineFeed data = true →
      Lua.opensStatement Lua.Lexical.lua data = true) := by
  refine ⟨fun h hstarts => ?_, unobservable_of_opensStatement⟩
  by_contra hlua
  exact not_unobservable hstarts (Bool.eq_false_iff.mpr hlua) h

/-- A comment ended by a carriage return before `f(function()`, and `local` on the next line. -/
theorem return_before_call :
    ¬Unobservable (Lua.ascii "--\rf(function()\nlocal x end)") := by
  have hfeed : Lua.skip Lua.Lexical.lineFeed (Lua.ascii "--\rf(function()\nlocal x end)") =
      some (Lua.ascii "local x end)") := by
    refine (@Lua.skip_comment Lua.Lexical.lineFeed
      (Lua.ascii "\rf(function()\nlocal x end)") rfl).trans ?_
    exact (@Lua.skip_space Lua.Lexical.lineFeed 10 (Lua.ascii "local x end)") rfl).trans
      (Lua.skip_stop rfl rfl)
  have hreturn : Lua.skip Lua.Lexical.lua (Lua.ascii "--\rf(function()\nlocal x end)") =
      some (Lua.ascii "f(function()\nlocal x end)") := by
    refine (@Lua.skip_comment Lua.Lexical.lua
      (Lua.ascii "\rf(function()\nlocal x end)") rfl).trans ?_
    exact (@Lua.skip_space Lua.Lexical.lua 13 (Lua.ascii "f(function()\nlocal x end)") rfl).trans
      (Lua.skip_stop rfl rfl)
  refine not_unobservable ?_ ?_
  · rw [Lua.opensStatement, hfeed]
    decide
  · rw [Lua.opensStatement, hreturn]
    decide

end Nitr.Script
