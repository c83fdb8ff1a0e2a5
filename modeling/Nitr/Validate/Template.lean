import Nitr.Lib.Text
import Nitr.Validate.Engine

/-! # Message templates

`Template::compile` and `render` of `validate/message.rs`, and the texts they are meant for:
sequences of literals without braces and of placeholders. The texts of doubles and of byte counts
are parameters. -/

namespace Nitr.Validate.Message

abbrev Text := List Char

/-- The longest template accepted at load. -/
def maxTemplateChars : ℕ := 500

/-- The placeholders every template may use, whatever the rule. -/
def commonPlaceholders : List String := ["label", "path"]

/-! ## Compilation -/

def invalid (what msg : String) : String := "invalid message for " ++ what ++ ": " ++ msg

def braced (name : String) : String := "\x7b" ++ name ++ "\x7d"

def isNameChar (c : Char) : Bool := c.isLower || c == '_'

def pushLit (segs : List (String ⊕ String)) (lit : Text) : List (String ⊕ String) :=
  if lit = [] then segs else segs ++ [.inl (String.ofList lit)]

/-- The loop over the placeholders; `lit` is the literal read so far. -/
def scan (allowed : List String) (what : String) (rest lit : Text)
    (segs : List (String ⊕ String)) : Except String (List (String ⊕ String)) :=
  match _hopen : rest.splitOnce '{' with
  | none =>
      if rest.contains '}' then .error (invalid what "unbalanced `\x7d`")
      else .ok (pushLit segs (lit ++ rest))
  | some (before, after) =>
      match _hclose : after.splitOnce '}' with
      | none => .error (invalid what "unbalanced `\x7b`")
      | some (name, rest') =>
          if name.isEmpty || !name.all isNameChar then
            .error (invalid what ("bad placeholder `" ++ braced (String.ofList name) ++ "`"))
          else if !allowed.contains (String.ofList name) &&
              !commonPlaceholders.contains (String.ofList name) then
            .error (invalid what ("unknown placeholder `" ++ braced (String.ofList name) ++
              "` (allowed: " ++ ", ".intercalate ((allowed ++ commonPlaceholders).map braced) ++ ")"))
          else
            scan allowed what rest' []
              (pushLit segs (lit ++ before) ++ [.inr (String.ofList name)])
  termination_by rest.length
  decreasing_by
    rw [(List.splitOnce_eq_some.mp _hopen).1, (List.splitOnce_eq_some.mp _hclose).1]
    simp only [List.length_append, List.length_cons]
    omega

/-- `Template::compile`. -/
def compile (allowed : List String) (what : String) (text : Text) : Except String Template :=
  if maxTemplateChars < text.length then
    .error (invalid what ("longer than " ++ toString maxTemplateChars ++ " characters"))
  else if text.any Unicode.isControl then .error (invalid what "contains a control character")
  else (scan allowed what text [] []).map fun segs => ⟨segs⟩

/-! ## Rendering -/

section

variable (displayF64 : F64 → String) (fmtSize : ℕ → String)

/-- Numbers print without a trailing `.0` when they are whole. -/
def fmtNum (n : F64) : String :=
  if n.isWhole && n.absLt (10 ^ 15) then toString n.toInt else displayF64 n

/-- A string in a list is quoted. -/
def quoted : Param → String → String
  | .str s, _ => "\"" ++ s ++ "\""
  | _, text => text

mutual

/-- `Param::render`. -/
def renderParam : Param → String
  | .str s => s
  | .num n => fmtNum displayF64 n
  | .bool b => if b then "true" else "false"
  | .size bytes => fmtSize bytes
  | .list items => ", ".intercalate (renderItems items)

def renderItems : List Param → List String
  | [] => []
  | item :: items => quoted item (renderParam item) :: renderItems items

end

/-- The value of a placeholder. -/
def value (params : String → Option Param) (label path name : String) : String :=
  if name = "label" then label
  else if name = "path" then path
  else ((params name).map (renderParam displayF64 fmtSize)).getD ""

def renderSeg (params : String → Option Param) (label path : String) :
    String ⊕ String → String
  | .inl lit => lit
  | .inr name => value displayF64 fmtSize params label path name

/-- `Template::render`. -/
def render (t : Template) (params : String → Option Param) (label path : String) : String :=
  t.segs.foldl (fun out seg => out ++ renderSeg displayF64 fmtSize params label path seg) ""

end

/-! ## The grammar -/

/-- A placeholder's name, of the allowed ones. -/
structure IsPlaceholder (allowed : List String) (name : Text) : Prop where
  ne_nil : name ≠ []
  chars : name.all isNameChar = true
  known : String.ofList name ∈ allowed ++ commonPlaceholders

def BraceFree (text : Text) : Prop := '{' ∉ text ∧ '}' ∉ text

inductive Piece where
  | lit (text : Text)
  | var (name : Text)

namespace Piece

def spell : Piece → Text
  | lit text => text
  | var name => '{' :: (name ++ ['}'])

def WellFormed (allowed : List String) : Piece → Prop
  | lit text => BraceFree text
  | var name => IsPlaceholder allowed name

/-- A piece with its placeholder replaced by the value. -/
def subst (value : String → String) : Piece → Text
  | lit text => text
  | var name => (value (String.ofList name)).toList

end Piece

/-- The text is a sequence of brace-free literals and of placeholders. -/
def Spells (allowed : List String) (pieces : List Piece) (text : Text) : Prop :=
  (∀ piece ∈ pieces, piece.WellFormed allowed) ∧ pieces.flatMap Piece.spell = text

/-- A template is compiled from the texts of the grammar, and rendered piece by piece. -/
structure Meets (displayF64 : F64 → String) (fmtSize : ℕ → String) (allowed : List String)
    (what : String) (text : Text) : Prop where
  accepts : (∃ t, compile allowed what text = .ok t) ↔ ∃ pieces, Spells allowed pieces text
  renders : ∀ t, compile allowed what text = .ok t → ∃ pieces, Spells allowed pieces text ∧
    ∀ params label path, (render displayF64 fmtSize t params label path).toList =
      pieces.flatMap (Piece.subst (value displayF64 fmtSize params label path))

/-! ## What the scanner accepts -/

/-- A placeholder with the literal before it, in which a closing brace may stand. -/
structure Chunk where
  lit : Text
  name : Text

structure Chunk.Proper (allowed : List String) (c : Chunk) : Prop where
  lit : '{' ∉ c.lit
  name : IsPlaceholder allowed c.name

def spell (last : Text) : List Chunk → Text
  | [] => last
  | c :: chunks => c.lit ++ '{' :: (c.name ++ '}' :: spell last chunks)

/-- The text is otherwise well formed, but a closing brace stands in a literal before a
placeholder. -/
def StrayBrace (allowed : List String) (text : Text) : Prop :=
  ∃ chunks last, text = spell last chunks ∧ (∀ c ∈ chunks, c.Proper allowed) ∧ BraceFree last ∧
    ∃ c ∈ chunks, '}' ∈ c.lit

section

variable {allowed : List String} {what : String} {name rest lit : Text}
  {segs : List (String ⊕ String)}

theorem IsPlaceholder.brace_notMem (h : IsPlaceholder allowed name) : '}' ∉ name := by
  intro hmem
  have hchar := List.all_eq_true.mp h.chars _ hmem
  cases hchar

theorem scan_last (h : '{' ∉ rest) : scan allowed what rest lit segs =
    if rest.contains '}' then .error (invalid what "unbalanced `\x7d`")
    else .ok (pushLit segs (lit ++ rest)) := by
  rw [scan]
  split
  · rfl
  · rename_i before after hopen
    rw [(List.splitOnce_eq_some.mp hopen).1] at h
    exact absurd (List.mem_append_right _ List.mem_cons_self) h

/-- One round of the loop. -/
theorem scan_chunk {c : Chunk} (hc : c.Proper allowed) :
    scan allowed what (c.lit ++ '{' :: (c.name ++ '}' :: rest)) lit segs =
      scan allowed what rest [] (pushLit segs (lit ++ c.lit) ++ [.inr (String.ofList c.name)]) := by
  have hopen : (c.lit ++ '{' :: (c.name ++ '}' :: rest)).splitOnce '{' =
      some (c.lit, c.name ++ '}' :: rest) := List.splitOnce_append hc.lit
  have hclose : (c.name ++ '}' :: rest).splitOnce '}' = some (c.name, rest) :=
    List.splitOnce_append hc.name.brace_notMem
  have hchars : (c.name.isEmpty || !c.name.all isNameChar) = false := by
    rw [hc.name.chars, List.isEmpty_eq_false_iff.mpr hc.name.ne_nil]
    rfl
  have hknown : (!allowed.contains (String.ofList c.name) &&
      !commonPlaceholders.contains (String.ofList c.name)) = false := by
    have := hc.name.known
    rw [List.mem_append] at this
    simp only [List.contains_eq_mem]
    cases this with
    | inl h => simp [h]
    | inr h => simp [h]
  rw [scan]
  split
  · rename_i hnone
    rw [hopen] at hnone
    cases hnone
  · rename_i before after hsome
    rw [hopen] at hsome
    cases hsome
    split
    · rename_i hnone
      rw [hclose] at hnone
      cases hnone
    · rename_i name rest' hsome
      rw [hclose] at hsome
      cases hsome
      rw [if_neg (by rw [hchars]; exact Bool.false_ne_true),
        if_neg (by rw [hknown]; exact Bool.false_ne_true)]

/-- The segments of a scanned text. -/
def segsOf (last : Text) : List Chunk → Text → List (String ⊕ String) → List (String ⊕ String)
  | [], lit, segs => pushLit segs (lit ++ last)
  | c :: chunks, lit, segs =>
      segsOf last chunks [] (pushLit segs (lit ++ c.lit) ++ [.inr (String.ofList c.name)])

theorem scan_spell {chunks : List Chunk} {last : Text} (hchunks : ∀ c ∈ chunks, c.Proper allowed)
    (hlast : BraceFree last) :
    scan allowed what (spell last chunks) lit segs = .ok (segsOf last chunks lit segs) := by
  induction chunks generalizing lit segs with
  | nil =>
      rw [spell, scan_last hlast.1, if_neg (by simpa using hlast.2)]
      rfl
  | cons c chunks ih =>
      rw [spell, scan_chunk (hchunks c List.mem_cons_self), segsOf]
      exact ih fun c' hc' => hchunks c' (List.mem_cons_of_mem _ hc')

/-- A text that is scanned to its end is made of chunks. -/
theorem exists_chunks_of_scan {out : List (String ⊕ String)}
    (h : scan allowed what rest lit segs = .ok out) :
    ∃ chunks last, rest = spell last chunks ∧ (∀ c ∈ chunks, c.Proper allowed) ∧
      BraceFree last := by
  fun_induction scan allowed what rest lit segs with
  | case1 => cases h
  | case2 rest lit segs hopen hclose =>
      have hlast : BraceFree rest := ⟨List.splitOnce_eq_none.mp hopen, by simpa using hclose⟩
      exact ⟨[], rest, rfl, fun c hc => absurd hc List.not_mem_nil, hlast⟩
  | case3 => cases h
  | case4 => cases h
  | case5 => cases h
  | case6 rest lit segs before after hopen name rest' hclose hchars hknown ih =>
      have ⟨chunks, last, hrest, hchunks, hlast⟩ := ih h
      have ⟨hbefore, hlit⟩ := List.splitOnce_eq_some.mp hopen
      have ⟨hafter, _⟩ := List.splitOnce_eq_some.mp hclose
      have hproper : Chunk.Proper allowed ⟨before, name⟩ := by
        refine ⟨hlit, ?_, ?_, ?_⟩
        · rintro rfl
          exact hchars rfl
        · simp at hchars
          exact List.all_eq_true.mpr hchars.2
        · rw [List.mem_append]
          simpa [or_iff_not_imp_left] using hknown
      refine ⟨⟨before, name⟩ :: chunks, last, ?_, ?_, hlast⟩
      · rw [hbefore, hafter, hrest, spell]
      · intro c hc
        cases List.mem_cons.mp hc with
        | inl heq => exact heq ▸ hproper
        | inr hmem => exact hchunks c hmem

/-- A text has one reading in chunks. -/
theorem spell_injective {chunks chunks' : List Chunk} {last last' : Text}
    (hchunks : ∀ c ∈ chunks, c.Proper allowed) (hlast : BraceFree last)
    (hchunks' : ∀ c ∈ chunks', c.Proper allowed) (hlast' : BraceFree last')
    (h : spell last chunks = spell last' chunks') : chunks = chunks' := by
  induction chunks generalizing chunks' with
  | nil =>
      cases chunks' with
      | nil => rfl
      | cons c' chunks' =>
          rw [spell, spell] at h
          rw [h] at hlast
          exact absurd (List.mem_append_right _ List.mem_cons_self) hlast.1
  | cons c chunks ih =>
      cases chunks' with
      | nil =>
          rw [spell, spell] at h
          rw [← h] at hlast'
          exact absurd (List.mem_append_right _ List.mem_cons_self) hlast'.1
      | cons c' chunks' =>
          have hc := hchunks c List.mem_cons_self
          have hc' := hchunks' c' List.mem_cons_self
          rw [spell, spell] at h
          have hopen := congrArg (List.splitOnce '{') h
          rw [List.splitOnce_append hc.lit, List.splitOnce_append hc'.lit, Option.some.injEq,
            Prod.mk.injEq] at hopen
          have hclose := congrArg (List.splitOnce '}') hopen.2
          rw [List.splitOnce_append hc.name.brace_notMem,
            List.splitOnce_append hc'.name.brace_notMem, Option.some.injEq,
            Prod.mk.injEq] at hclose
          have htail := ih (fun d hd => hchunks d (List.mem_cons_of_mem _ hd))
            (fun d hd => hchunks' d (List.mem_cons_of_mem _ hd)) hclose.2
          cases c
          cases c'
          simp only at hopen hclose
          rw [hopen.1, hclose.1, htail]

/-! ## Chunks and pieces -/

/-- The pieces of chunks whose literals have no brace. -/
def pieces (last : Text) : List Chunk → List Piece
  | [] => [.lit last]
  | c :: chunks => .lit c.lit :: .var c.name :: pieces last chunks

theorem spells_pieces {chunks : List Chunk} {last : Text}
    (hchunks : ∀ c ∈ chunks, c.Proper allowed) (hfree : ∀ c ∈ chunks, '}' ∉ c.lit)
    (hlast : BraceFree last) : Spells allowed (pieces last chunks) (spell last chunks) := by
  induction chunks with
  | nil => exact ⟨by simpa [pieces, Piece.WellFormed] using hlast, by simp [pieces, spell, Piece.spell]⟩
  | cons c chunks ih =>
      have hc := hchunks c List.mem_cons_self
      have ⟨hpieces, htext⟩ := ih (fun d hd => hchunks d (List.mem_cons_of_mem _ hd))
        fun d hd => hfree d (List.mem_cons_of_mem _ hd)
      refine ⟨?_, ?_⟩
      · intro piece hpiece
        rw [pieces, List.mem_cons, List.mem_cons] at hpiece
        rcases hpiece with rfl | rfl | hmem
        · exact ⟨hc.lit, hfree c List.mem_cons_self⟩
        · exact hc.name
        · exact hpieces piece hmem
      · rw [pieces, List.flatMap_cons, List.flatMap_cons, htext, spell]
        simp [Piece.spell]

/-- A text of the grammar read in chunks. -/
theorem exists_chunks_of_spells {ps : List Piece} {text : Text} (h : Spells allowed ps text) :
    ∃ chunks last, text = spell last chunks ∧ (∀ c ∈ chunks, c.Proper allowed) ∧
      (∀ c ∈ chunks, '}' ∉ c.lit) ∧ BraceFree last := by
  induction ps generalizing text with
  | nil => exact ⟨[], [], h.2.symm, by simp, by simp, nofun, nofun⟩
  | cons p ps ih =>
      have ⟨chunks, last, hrest, hchunks, hfree, hlast⟩ :=
        ih ⟨fun piece hpiece => h.1 piece (List.mem_cons_of_mem _ hpiece), rfl⟩
      have hp := h.1 p List.mem_cons_self
      have htext : text = p.spell ++ spell last chunks := by
        rw [← h.2, List.flatMap_cons, hrest]
      cases p with
      | var name =>
          have hproper : Chunk.Proper allowed ⟨[], name⟩ := ⟨nofun, hp⟩
          refine ⟨⟨[], name⟩ :: chunks, last, by simpa [Piece.spell, spell] using htext, ?_, ?_, hlast⟩
          · exact List.forall_mem_cons.mpr ⟨hproper, hchunks⟩
          · exact List.forall_mem_cons.mpr ⟨nofun, hfree⟩
      | lit lit =>
          cases chunks with
          | nil =>
              refine ⟨[], lit ++ last, htext, by simp, by simp, ?_, ?_⟩
              · exact fun hmem => (List.mem_append.mp hmem).elim hp.1 hlast.1
              · exact fun hmem => (List.mem_append.mp hmem).elim hp.2 hlast.2
          | cons c chunks =>
              have hc := hchunks c List.mem_cons_self
              have hproper : Chunk.Proper allowed ⟨lit ++ c.lit, c.name⟩ :=
                ⟨fun hmem => (List.mem_append.mp hmem).elim hp.1 hc.lit, hc.name⟩
              refine ⟨⟨lit ++ c.lit, c.name⟩ :: chunks, last, ?_, ?_, ?_, hlast⟩
              · rw [htext, spell, spell, List.append_assoc]
                rfl
              · exact List.forall_mem_cons.mpr ⟨hproper, (List.forall_mem_cons.mp hchunks).2⟩
              · refine List.forall_mem_cons.mpr ⟨?_, (List.forall_mem_cons.mp hfree).2⟩
                exact fun hmem => (List.mem_append.mp hmem).elim hp.2 (hfree c List.mem_cons_self)

end

/-! ## Rendering the chunks -/

section

variable (displayF64 : F64 → String) (fmtSize : ℕ → String) (params : String → Option Param)
  (label path : String)

theorem toList_foldl_renderSeg (segs : List (String ⊕ String)) (out : String) :
    (segs.foldl (fun out seg => out ++ renderSeg displayF64 fmtSize params label path seg)
        out).toList =
      out.toList ++
        segs.flatMap fun seg => (renderSeg displayF64 fmtSize params label path seg).toList := by
  induction segs generalizing out with
  | nil => simp
  | cons seg segs ih => rw [List.foldl_cons, ih, String.toList_append, List.flatMap_cons,
      List.append_assoc]

theorem flatMap_pushLit (segs : List (String ⊕ String)) (lit : Text) :
    ((pushLit segs lit).flatMap fun seg =>
        (renderSeg displayF64 fmtSize params label path seg).toList) =
      (segs.flatMap fun seg => (renderSeg displayF64 fmtSize params label path seg).toList) ++
        lit := by
  by_cases h : lit = []
  · rw [pushLit, if_pos h, h, List.append_nil]
  · rw [pushLit, if_neg h, List.flatMap_append]
    simp [renderSeg]

theorem flatMap_segsOf (last : Text) (chunks : List Chunk) (lit : Text)
    (segs : List (String ⊕ String)) :
    ((segsOf last chunks lit segs).flatMap fun seg =>
        (renderSeg displayF64 fmtSize params label path seg).toList) =
      (segs.flatMap fun seg => (renderSeg displayF64 fmtSize params label path seg).toList) ++
        (lit ++ (pieces last chunks).flatMap
          (Piece.subst (value displayF64 fmtSize params label path))) := by
  induction chunks generalizing lit segs with
  | nil =>
      rw [segsOf, flatMap_pushLit]
      simp [pieces, Piece.subst]
  | cons c chunks ih =>
      rw [segsOf, ih, List.flatMap_append, flatMap_pushLit]
      simp [pieces, Piece.subst, renderSeg]

theorem toList_render_segsOf (last : Text) (chunks : List Chunk) :
    (render displayF64 fmtSize ⟨segsOf last chunks [] []⟩ params label path).toList =
      (pieces last chunks).flatMap
        (Piece.subst (value displayF64 fmtSize params label path)) := by
  rw [render, toList_foldl_renderSeg, flatMap_segsOf]
  rfl

end

/-! ## The grammar and the scanner -/

section

variable {displayF64 : F64 → String} {fmtSize : ℕ → String} {allowed : List String}
  {what : String} {text : Text}

theorem compile_eq (hlen : text.length ≤ maxTemplateChars)
    (hcontrol : text.any Unicode.isControl = false) :
    compile allowed what text = (scan allowed what text [] []).map fun segs => ⟨segs⟩ := by
  rw [compile, if_neg (Nat.not_lt.mpr hlen), hcontrol, if_neg Bool.false_ne_true]

theorem compile_spell {last : Text} {chunks : List Chunk}
    (hlen : (spell last chunks).length ≤ maxTemplateChars)
    (hcontrol : (spell last chunks).any Unicode.isControl = false)
    (hchunks : ∀ c ∈ chunks, c.Proper allowed) (hlast : BraceFree last) :
    compile allowed what (spell last chunks) = .ok ⟨segsOf last chunks [] []⟩ := by
  rw [compile_eq hlen hcontrol, scan_spell hchunks hlast]
  rfl

theorem exists_chunks_of_compile {t : Template} (h : compile allowed what text = .ok t)
    (hlen : text.length ≤ maxTemplateChars) (hcontrol : text.any Unicode.isControl = false) :
    ∃ chunks last, text = spell last chunks ∧ (∀ c ∈ chunks, c.Proper allowed) ∧
      BraceFree last := by
  rw [compile_eq hlen hcontrol] at h
  cases hscan : scan allowed what text [] [] with
  | error e =>
      rw [hscan] at h
      cases h
  | ok segs => exact exists_chunks_of_scan hscan

/-- A stray brace is accepted though the text is not of the grammar. -/
theorem not_meets_of_strayBrace (hlen : text.length ≤ maxTemplateChars)
    (hcontrol : text.any Unicode.isControl = false) (hstray : StrayBrace allowed text) :
    ¬Meets displayF64 fmtSize allowed what text := by
  intro hmeets
  have ⟨chunks, last, htext, hchunks, hlast, c, hc, hbrace⟩ := hstray
  rw [htext] at hlen hcontrol
  have hcompile : compile allowed what (spell last chunks) =
      .ok ⟨segsOf last chunks [] []⟩ := compile_spell hlen hcontrol hchunks hlast
  rw [← htext] at hcompile
  have ⟨ps, hps⟩ := hmeets.accepts.mp ⟨_, hcompile⟩
  have ⟨chunks', last', htext', hchunks', hfree, hlast'⟩ := exists_chunks_of_spells hps
  have heq := spell_injective hchunks hlast hchunks' hlast' (htext.symm.trans htext')
  exact hfree c (heq ▸ hc) hbrace

theorem meets_of_not_strayBrace (hlen : text.length ≤ maxTemplateChars)
    (hcontrol : text.any Unicode.isControl = false) (hstray : ¬StrayBrace allowed text) :
    Meets displayF64 fmtSize allowed what text := by
  have hrenders : ∀ t, compile allowed what text = .ok t → ∃ pieces, Spells allowed pieces text ∧
      ∀ params label path, (render displayF64 fmtSize t params label path).toList =
        pieces.flatMap (Piece.subst (value displayF64 fmtSize params label path)) := by
    intro t ht
    have ⟨chunks, last, htext, hchunks, hlast⟩ := exists_chunks_of_compile ht hlen hcontrol
    have hfree : ∀ c ∈ chunks, '}' ∉ c.lit := fun c hc hbrace =>
      hstray ⟨chunks, last, htext, hchunks, hlast, c, hc, hbrace⟩
    subst htext
    rw [compile_spell hlen hcontrol hchunks hlast] at ht
    cases ht
    exact ⟨pieces last chunks, spells_pieces hchunks hfree hlast, fun params label path =>
      toList_render_segsOf displayF64 fmtSize params label path last chunks⟩
  refine ⟨⟨?_, ?_⟩, hrenders⟩
  · rintro ⟨t, ht⟩
    have ⟨ps, hps, _⟩ := hrenders t ht
    exact ⟨ps, hps⟩
  · rintro ⟨ps, hps⟩
    have ⟨chunks, last, htext, hchunks, _, hlast⟩ := exists_chunks_of_spells hps
    subst htext
    exact ⟨_, compile_spell hlen hcontrol hchunks hlast⟩

end

/-- A text without control characters and within the limit is compiled as the grammar says unless
a closing brace stands in a literal before a placeholder of an otherwise well-formed text. -/
theorem meets_iff (displayF64 : F64 → String) (fmtSize : ℕ → String) (allowed : List String)
    (what : String) {text : Text} (hlen : text.length ≤ maxTemplateChars)
    (hcontrol : text.any Unicode.isControl = false) :
    Meets displayF64 fmtSize allowed what text ↔ ¬StrayBrace allowed text :=
  ⟨fun hmeets hstray => not_meets_of_strayBrace hlen hcontrol hstray hmeets,
    meets_of_not_strayBrace hlen hcontrol⟩

theorem meets_iff_label : Meets (fun _ => "") (fun _ => "") ["min"] "x" "\x7blabel\x7d".toList ↔
    ¬StrayBrace ["min"] "\x7blabel\x7d".toList :=
  meets_iff (fun _ => "") (fun _ => "") ["min"] "x" (by decide) (by decide)

/-- A closing brace before the one placeholder. -/
theorem stray_before_label : ("\x7d\x7blabel\x7d".toList.length ≤ maxTemplateChars ∧
    "\x7d\x7blabel\x7d".toList.any Unicode.isControl = false) ∧
      ¬Meets (fun _ => "") (fun _ => "") [] "x" "\x7d\x7blabel\x7d".toList := by
  refine ⟨⟨by decide, by decide⟩, not_meets_of_strayBrace (by decide) (by decide) ?_⟩
  have hproper : Chunk.Proper [] ⟨['}'], "label".toList⟩ :=
    ⟨by decide, by decide, by decide, by decide⟩
  exact ⟨[⟨['}'], "label".toList⟩], [], by decide, by simpa using hproper, ⟨nofun, nofun⟩,
    ⟨['}'], "label".toList⟩, List.mem_cons_self, List.mem_cons_self⟩

end Nitr.Validate.Message
