import Nitr.Http.Route

/-! # What route paths mean to the router, to validation and in the document -/

namespace Nitr.Route

/-! ## Translation of one segment -/

/-- The forms of segment `to_matchit` accepts, with their translation. -/
inductive Translates (isLast : Bool) : Segment → Segment → Prop where
  | splat (hlast : isLast = true) : Translates isLast ['*']
      ('{' :: '*' :: (['s', 'p', 'l', 'a', 't'] ++ ['}']))
  | param (name : Segment) (hname : name ≠ []) :
      Translates isLast (':' :: name) ('{' :: (name ++ ['}']))
  | rest (name : Segment) (hname : name ≠ []) (hlast : isLast = true) :
      Translates isLast ('*' :: name) ('{' :: '*' :: (name ++ ['}']))
  | literal (seg : Segment) (hcolon : startsWith ':' seg = false)
      (hstar : startsWith '*' seg = false) : Translates isLast seg seg

theorem eq_cons_of_startsWith {c : Char} {seg : Segment} (h : startsWith c seg = true) :
    seg = c :: seg.tail := by
  cases seg with
  | nil => simp [startsWith] at h
  | cons d rest =>
      have : d = c := by simpa [startsWith] using h
      rw [this, List.tail_cons]

theorem toMatchitSegment_translates {path : List Char} {seg out : Segment} {isLast : Bool}
    (h : toMatchitSegment path seg isLast = .ok out) : Translates isLast seg out := by
  unfold toMatchitSegment at h
  split at h
  · rename_i hc
    obtain ⟨rfl, hlast⟩ := hc
    cases h
    exact .splat hlast
  split at h
  · rename_i hc
    cases h
    have hne : seg.tail ≠ [] := by
      intro hnil
      have := congrArg List.length hnil
      rw [List.length_tail, List.length_nil] at this
      omega
    have htail := @Translates.param isLast seg.tail hne
    rw [← eq_cons_of_startsWith hc.1] at htail
    exact htail
  split at h
  · rename_i hc
    cases h
    have hne : seg.tail ≠ [] := by
      intro hnil
      have := congrArg List.length hnil
      rw [List.length_tail, List.length_nil] at this
      omega
    have htail := @Translates.rest isLast seg.tail hne hc.2.2
    rw [← eq_cons_of_startsWith hc.1] at htail
    exact htail
  split at h
  · cases h
  · rename_i hc
    cases h
    rw [not_or, Bool.not_eq_true, Bool.not_eq_true] at hc
    exact .literal seg hc.1 hc.2

/-- The pairs of translated segments of a path. -/
inductive TranslatesAll : List Segment → List Segment → Prop where
  | nil : TranslatesAll [] []
  | cons {seg out : Segment} {rest outs : List Segment} (hseg : Translates rest.isEmpty seg out)
      (hrest : TranslatesAll rest outs) : TranslatesAll (seg :: rest) (out :: outs)

theorem toMatchitLoop_translates {path : List Char} {segments outs : List Segment}
    (h : toMatchitLoop path segments = .ok outs) : TranslatesAll segments outs := by
  induction segments generalizing outs with
  | nil =>
      cases h
      exact .nil
  | cons seg rest ih =>
      unfold toMatchitLoop at h
      cases hseg : toMatchitSegment path seg rest.isEmpty with
      | error e => simp [hseg, bind, Except.bind] at h
      | ok out =>
          cases hrest : toMatchitLoop path rest with
          | error e => simp [hseg, hrest, bind, Except.bind] at h
          | ok outs' =>
              simp only [hseg, hrest, bind, Except.bind, pure, Except.pure] at h
              cases h
              exact .cons (toMatchitSegment_translates hseg) (ih hrest)

theorem TranslatesAll.isEmpty_eq {segments outs : List Segment} (h : TranslatesAll segments outs) :
    outs.isEmpty = segments.isEmpty := by
  cases h <;> rfl

/-! ## The names of the three translators -/

theorem openapiParam_name (seg : Segment) (isLast : Bool) :
    (openapiParam seg isLast).map (·.name) = paramName seg isLast := by
  unfold openapiParam paramName
  split
  · rfl
  split
  · rfl
  split
  · rfl
  · rfl

theorem toOpenapiLoop_params {path : List Char} {segments out outs : List Segment}
    {params found : List PathParam}
    (h : toOpenapiLoop path segments out params = .ok (outs, found)) :
    found.map (·.name) = params.map (·.name) ++ paramNamesLoop segments := by
  induction segments generalizing out params with
  | nil =>
      cases h
      simp [paramNamesLoop]
  | cons seg rest ih =>
      have hname := openapiParam_name seg rest.isEmpty
      unfold toOpenapiLoop at h
      cases hparam : openapiParam seg rest.isEmpty with
      | none =>
          rw [hparam] at h hname
          rw [ih h]
          simp [paramNamesLoop, ← hname]
      | some param =>
          rw [hparam] at h hname
          simp only at h
          split at h
          · cases h
          · rw [ih h]
            simp [paramNamesLoop, ← hname]

/-- The document's parameters are the names validation knows. -/
theorem toOpenapiPath_names {path template : List Char} {params : List PathParam}
    (h : toOpenapiPath path = .ok (template, params)) :
    params.map (·.name) = paramNames path := by
  unfold toOpenapiPath at h
  cases hloop : toOpenapiLoop path (split path) [] [] with
  | error e => simp [hloop, bind, Except.bind] at h
  | ok result =>
      simp only [hloop, bind, Except.bind, pure, Except.pure] at h
      cases h
      simpa [paramNames] using toOpenapiLoop_params hloop

/-! ## Tokens -/

theorem tokens_of_plain {l : List Char} (h : ∀ c ∈ l, c ≠ '{' ∧ c ≠ '}') (rest : List Char) :
    tokens (l ++ rest) = l.map .plain ++ tokens rest := by
  induction l with
  | nil => rfl
  | cons c l ih =>
      have hc := h c (List.mem_cons_self ..)
      have htail : tokens (c :: (l ++ rest)) = .plain c :: tokens (l ++ rest) := by
        rw [tokens.eq_5]
        all_goals grind
      rw [List.cons_append, htail, ih fun d hd => h d (List.mem_cons_of_mem _ hd)]
      rfl

/-- The text a list of tokens is written as. -/
def render : List Token → List Char
  | [] => []
  | .plain c :: rest => (if c = '{' ∨ c = '}' then [c, c] else [c]) ++ render rest
  | .left :: rest => '{' :: render rest
  | .right :: rest => '}' :: render rest

theorem render_tokens (l : List Char) : render (tokens l) = l := by
  fun_induction tokens l with
  | case1 rest ih => simp [render, ih]
  | case2 rest ih => simp [render, ih]
  | case3 rest hne ih => simp [render, ih]
  | case4 rest hne ih => simp [render, ih]
  | case5 c rest h1 h2 h3 h4 ih =>
      have hc : ¬(c = '{' ∨ c = '}') := by grind
      simp [render, ih, hc]
  | case6 => rfl

theorem render_plain {l : List Char} (h : ∀ c ∈ l, c ≠ '{' ∧ c ≠ '}') (rest : List Token) :
    render (l.map .plain ++ rest) = l ++ render rest := by
  induction l with
  | nil => rfl
  | cons c l ih =>
      have hc := h c (List.mem_cons_self ..)
      have hne : ¬(c = '{' ∨ c = '}') := by
        rw [not_or]
        exact hc
      simp only [List.map_cons, List.cons_append, render, if_neg hne]
      rw [ih fun d hd => h d (List.mem_cons_of_mem _ hd)]
      rfl

theorem plainRun_spec (ts : List Token) :
    ts = (plainRun ts).1.map .plain ++ (plainRun ts).2 := by
  induction ts with
  | nil => rfl
  | cons t ts ih =>
      cases t with
      | plain c =>
          have : plainRun (.plain c :: ts) = (c :: (plainRun ts).1, (plainRun ts).2) := rfl
          rw [this, List.map_cons, List.cons_append, ← ih]
      | left => rfl
      | right => rfl

theorem plainRun_append (text : Segment) {ts : List Token} (h : plainRun ts = ([], ts)) :
    plainRun (text.map .plain ++ ts) = (text, ts) := by
  induction text with
  | nil => exact h
  | cons c text ih =>
      have : plainRun (.plain c :: (text.map .plain ++ ts)) =
          (c :: (plainRun (text.map .plain ++ ts)).1, (plainRun (text.map .plain ++ ts)).2) := rfl
      rw [List.map_cons, List.cons_append, this, ih]

/-! ## Parsing of one segment -/

theorem validName_iff (name : Segment) :
    validName name = true ↔ name ≠ [] ∧ ∀ c ∈ name, c ≠ '{' ∧ c ≠ '}' ∧ c ≠ '*' := by
  simp [validName, and_assoc]

theorem parseSegment_literal {seg : Segment} (h : ∀ c ∈ seg, c ≠ '{' ∧ c ≠ '}')
    (isLast : Bool) : parseSegment seg isLast = some (.literal seg) := by
  have htokens : tokens seg = seg.map .plain ++ [] := by
    simpa [tokens] using tokens_of_plain h []
  unfold parseSegment
  rw [htokens, plainRun_append seg rfl]

/-- A name between braces is one parameter. -/
theorem tokens_braced {name : Segment} (hne : name ≠ []) (h : ∀ c ∈ name, c ≠ '{' ∧ c ≠ '}') :
    tokens ('{' :: (name ++ ['}'])) = .left :: (name.map .plain ++ [.right]) := by
  have hname : tokens (name ++ ['}']) = name.map .plain ++ [.right] := by
    rw [tokens_of_plain h]
    rfl
  rw [← hname]
  cases name with
  | nil => exact absurd rfl hne
  | cons c name =>
      have hc := h c (List.mem_cons_self ..)
      rw [List.cons_append, tokens.eq_3]
      intro rest hrest
      exact hc.1 (List.cons.inj hrest).1

theorem parseSegment_braced {name : Segment} (hne : name ≠ [])
    (h : ∀ c ∈ name, c ≠ '{' ∧ c ≠ '}') (isLast : Bool) :
    parseSegment ('{' :: (name ++ ['}'])) isLast = namedPiece isLast [] name [] := by
  unfold parseSegment
  rw [tokens_braced hne h, show plainRun (.left :: (name.map .plain ++ [.right])) =
    ([], .left :: (name.map .plain ++ [.right])) from rfl]
  simp only
  rw [plainRun_append name rfl]
  rfl

theorem namedPiece_param {isLast : Bool} {name : Segment} (h : validName name = true) :
    namedPiece isLast [] name [] = some (.param [] name []) := by
  have hstar : ∀ rest, name ≠ '*' :: rest := by
    rintro rest rfl
    exact ((validName_iff _).mp h).2 '*' (List.mem_cons_self ..) |>.2.2 rfl
  unfold namedPiece
  split
  · rename_i rest
    exact absurd rfl (hstar rest)
  · rw [if_pos h]

/-- The tokens a parsed piece comes from. -/
def Piece.Written (piece : Piece) (isLast : Bool) (ts : List Token) : Prop :=
  match piece with
  | .literal text => ts = text.map .plain
  | .param before name after => validName name = true ∧
      ts = before.map .plain ++ .left :: (name.map .plain ++ .right :: after.map .plain)
  | .catchAll name => isLast = true ∧ validName name = true ∧
      ts = .left :: .plain '*' :: (name.map .plain ++ [.right])

theorem namedPiece_written {isLast : Bool} {before name after : Segment} {piece : Piece}
    (h : namedPiece isLast before name after = some piece) :
    piece.Written isLast
      (before.map .plain ++ .left :: (name.map .plain ++ .right :: after.map .plain)) := by
  unfold namedPiece at h
  split at h
  · split at h
    · rename_i rest hc
      obtain ⟨hlast, rfl, rfl, hvalid⟩ := hc
      cases h
      exact ⟨hlast, hvalid, rfl⟩
    · cases h
  · split at h
    · rename_i hvalid
      cases h
      exact ⟨hvalid, rfl⟩
    · cases h

theorem parseSegment_written {seg : Segment} {isLast : Bool} {piece : Piece}
    (h : parseSegment seg isLast = some piece) : piece.Written isLast (tokens seg) := by
  unfold parseSegment at h
  have hseg := plainRun_spec (tokens seg)
  split at h
  · rename_i text hrun
    cases h
    rw [hrun] at hseg
    simpa [Piece.Written] using hseg
  · rename_i before rest hrun
    rw [hrun] at hseg
    have hrest := plainRun_spec rest
    split at h
    · rename_i name rest' hrun'
      rw [hrun'] at hrest
      have hafter := plainRun_spec rest'
      split at h
      · rename_i after hrun''
        rw [hrun''] at hafter
        rw [hseg, hrest, hafter, List.append_nil]
        exact namedPiece_written h
      · cases h
    · cases h
  · cases h

/-! ## Matching segment by segment -/

theorem piecesMatch_cons {piece : Piece} (h : ∀ name, piece ≠ .catchAll name)
    (pieces : List Piece) (request : List Segment) :
    PiecesMatch (piece :: pieces) request ↔
      ∃ seg rest, request = seg :: rest ∧ piece.Fits seg ∧ PiecesMatch pieces rest := by
  cases request with
  | nil =>
      cases piece with
      | catchAll name => exact absurd rfl (h name)
      | literal text => simp [PiecesMatch]
      | param before name after => simp [PiecesMatch]
  | cons seg rest =>
      cases piece with
      | catchAll name => exact absurd rfl (h name)
      | literal text => simp [PiecesMatch]
      | param before name after => simp [PiecesMatch]

theorem routeMatches_cons {seg : Segment} {segments : List Segment}
    (h : ¬(startsWith '*' seg = true ∧ segments = [])) (request : List Segment) :
    RouteMatches (seg :: segments) request ↔
      ∃ first rest, request = first :: rest ∧ SegmentFits seg first ∧
        RouteMatches segments rest := by
  rw [RouteMatches.eq_def]
  simp only [if_neg h]
  cases request with
  | nil => simp
  | cons first rest => simp

theorem routeMatches_wildcard {seg : Segment} (h : startsWith '*' seg = true)
    (request : List Segment) : RouteMatches [seg] request ↔ join request ≠ [] := by
  unfold RouteMatches
  rw [if_pos ⟨h, rfl⟩]

theorem segmentFits_param (name request : Segment) :
    SegmentFits (':' :: name) request ↔ request ≠ [] := by
  simp [SegmentFits, startsWith]

theorem segmentFits_literal {seg : Segment} (h : startsWith ':' seg = false) (request : Segment) :
    SegmentFits seg request ↔ request = seg := by
  simp [SegmentFits, h]

/-! ## Plain paths -/

def PlainSegment (seg : Segment) : Prop :=
  '{' ∉ seg ∧ '}' ∉ seg ∧
    ((startsWith ':' seg = true ∨ startsWith '*' seg = true) → '*' ∉ seg.tail)

theorem PlainSegment.unbraced {seg : Segment} (h : PlainSegment seg) :
    ∀ c ∈ seg, c ≠ '{' ∧ c ≠ '}' := by
  intro c hc
  constructor
  · rintro rfl
    exact h.1 hc
  · rintro rfl
    exact h.2.1 hc

theorem PlainSegment.validName {c : Char} {name : Segment} (h : PlainSegment (c :: name))
    (hc : c = ':' ∨ c = '*') (hne : name ≠ []) : validName name = true := by
  have hstar : '*' ∉ name := h.2.2 (by simpa [startsWith] using hc)
  refine (validName_iff name).mpr ⟨hne, fun d hd => ?_⟩
  have hbrace := h.unbraced d (List.mem_cons_of_mem _ hd)
  refine ⟨hbrace.1, hbrace.2, ?_⟩
  rintro rfl
  exact hstar hd

/-- What a plain segment is parsed back to. -/
theorem Translates.parse {isLast : Bool} {seg out : Segment} (h : Translates isLast seg out)
    (hplain : PlainSegment seg) :
    ∃ piece, parseSegment out isLast = some piece ∧
      piece.name = paramName seg isLast ∧
      ((∃ name, piece = .catchAll name) ∧ startsWith '*' seg = true ∧ isLast = true ∨
        (∀ name, piece ≠ .catchAll name) ∧ startsWith '*' seg = false ∧
          ∀ request, piece.Fits request ↔ SegmentFits seg request) := by
  cases h with
  | splat hlast =>
      subst hlast
      exact ⟨.catchAll ['s', 'p', 'l', 'a', 't'], by decide, by decide,
        .inl ⟨⟨_, rfl⟩, rfl, rfl⟩⟩
  | param name hname =>
      have hvalid := hplain.validName (.inl rfl) hname
      have hunbraced : ∀ c ∈ name, c ≠ '{' ∧ c ≠ '}' := fun c hc =>
        hplain.unbraced c (List.mem_cons_of_mem _ hc)
      refine ⟨.param [] name [], ?_, ?_, .inr ⟨by simp, by simp [startsWith], fun request => ?_⟩⟩
      · rw [parseSegment_braced hname hunbraced, namedPiece_param hvalid]
      · simp [Piece.name, paramName, startsWith, List.length_pos_iff, hname]
      · rw [segmentFits_param]
        simp [Piece.Fits]
  | rest name hname hlast =>
      subst hlast
      have hvalid := hplain.validName (.inr rfl) hname
      have hunbraced : ∀ c ∈ '*' :: name, c ≠ '{' ∧ c ≠ '}' := hplain.unbraced
      refine ⟨.catchAll name, ?_, ?_, .inl ⟨⟨name, rfl⟩, by simp [startsWith], rfl⟩⟩
      · rw [← List.cons_append, parseSegment_braced (by simp) hunbraced]
        simp [namedPiece, hvalid]
      · simp [Piece.name, paramName, startsWith, hname]
  | literal seg hcolon hstar =>
      refine ⟨.literal seg, parseSegment_literal hplain.unbraced isLast, ?_,
        .inr ⟨by simp, hstar, fun request => ?_⟩⟩
      · have hne : seg ≠ ['*'] := by
          rintro rfl
          simp [startsWith] at hstar
        simp [Piece.name, paramName, hcolon, hstar, hne]
      · rw [segmentFits_literal hcolon]
        rfl

/-- The pattern of a plain path is of the documented language and means the path. -/
theorem TranslatesAll.parse {segments outs : List Segment} (h : TranslatesAll segments outs)
    (hplain : ∀ seg ∈ segments, PlainSegment seg) :
    ∃ pieces, parseLoop outs = some pieces ∧
      capturedNames pieces = paramNamesLoop segments ∧
      ∀ request, PiecesMatch pieces request ↔ RouteMatches segments request := by
  induction h with
  | nil => exact ⟨[], rfl, rfl, fun request => Iff.rfl⟩
  | @cons seg out rest outs hseg hrest ih =>
      obtain ⟨pieces, hpieces, hnames, hmatch⟩ := ih fun seg hs => hplain seg (List.mem_cons_of_mem _ hs)
      obtain ⟨piece, hpiece, hname, hkind⟩ := hseg.parse (hplain seg (List.mem_cons_self ..))
      refine ⟨piece :: pieces, ?_, ?_, fun request => ?_⟩
      · simp [parseLoop, hrest.isEmpty_eq, hpiece, hpieces]
      · cases hn : paramName seg rest.isEmpty with
        | none => simp [capturedNames, paramNamesLoop, hname, hn, ← hnames]
        | some name => simp [capturedNames, paramNamesLoop, hname, hn, ← hnames]
      · rcases hkind with ⟨⟨name, rfl⟩, hstar, hlast⟩ | ⟨hcatch, hstar, hfits⟩
        · obtain rfl := List.isEmpty_iff.mp hlast
          cases hrest
          cases hpieces
          rw [routeMatches_wildcard hstar]
          rfl
        · rw [piecesMatch_cons hcatch, routeMatches_cons (by simp [hstar])]
          simp only [hfits, hmatch]

/-! ## Paths that are not plain -/

theorem length_render_plain (l : List Char) : l.length ≤ (render (l.map .plain)).length := by
  induction l with
  | nil => exact Nat.le_refl _
  | cons c l ih =>
      simp only [List.map_cons, render, List.length_append, List.length_cons]
      split <;> simp <;> omega

/-- Only a text without braces is its own literal. -/
theorem unbraced_of_tokens {l : List Char} (h : tokens l = l.map .plain) :
    ∀ c ∈ l, c ≠ '{' ∧ c ≠ '}' := by
  have hrender : render (l.map .plain) = l := by rw [← h, render_tokens]
  clear h
  induction l with
  | nil => simp
  | cons c l ih =>
      simp only [List.map_cons, render] at hrender
      by_cases hc : c = '{' ∨ c = '}'
      · have hlen := congrArg List.length hrender
        rw [if_pos hc] at hlen
        have := length_render_plain l
        simp only [List.length_append, List.length_cons, List.length_nil] at hlen
        omega
      · rw [if_neg hc, List.singleton_append, List.cons.injEq] at hrender
        intro d hd
        rcases List.mem_cons.mp hd with rfl | hd
        · exact not_or.mp hc
        · exact ih hrender.2 d hd

theorem plainSegment_of_validName {c : Char} {name : Segment} (hc : c = ':' ∨ c = '*')
    (h : validName name = true) : PlainSegment (c :: name) := by
  have hall := ((validName_iff name).mp h).2
  have hbrace : c ≠ '{' ∧ c ≠ '}' := by rcases hc with rfl | rfl <;> decide
  refine ⟨?_, ?_, fun _ hmem => (hall _ hmem).2.2 rfl⟩
  · intro hmem
    rcases List.mem_cons.mp hmem with heq | hmem
    · exact hbrace.1 heq.symm
    · exact (hall _ hmem).1 rfl
  · intro hmem
    rcases List.mem_cons.mp hmem with heq | hmem
    · exact hbrace.2 heq.symm
    · exact (hall _ hmem).2.1 rfl

/-- The name written between braces is the parsed one. -/
theorem name_of_tokens {name parsed : Segment} (h : validName parsed = true)
    (htokens : tokens ('{' :: (name ++ ['}'])) = .left :: (parsed.map .plain ++ [.right])) :
    name = parsed := by
  have hall := ((validName_iff parsed).mp h).2
  have hrender := render_tokens ('{' :: (name ++ ['}']))
  rw [htokens, render, render_plain fun c hc => ⟨(hall c hc).1, (hall c hc).2.1⟩] at hrender
  exact (List.append_cancel_right (List.cons.inj hrender).2).symm

theorem restName_of_tokens {name parsed : Segment} (h : validName parsed = true)
    (htokens : tokens ('{' :: '*' :: (name ++ ['}'])) =
      .left :: .plain '*' :: (parsed.map .plain ++ [.right])) :
    name = parsed := by
  have hall := ((validName_iff parsed).mp h).2
  have hrender := render_tokens ('{' :: '*' :: (name ++ ['}']))
  rw [htokens, render, render, if_neg (by decide),
    render_plain fun c hc => ⟨(hall c hc).1, (hall c hc).2.1⟩] at hrender
  exact (List.append_cancel_right (List.cons.inj (List.cons.inj hrender).2).2).symm

/-- One segment whose piece matches what the segment does is plain. -/
theorem Translates.plain_of_fits {isLast : Bool} {seg out : Segment} {piece : Piece}
    (h : Translates isLast seg out) (hwritten : piece.Written isLast (tokens out))
    (hcatch : ∀ name, piece ≠ .catchAll name) (hstar : startsWith '*' seg = false)
    (hslash : '/' ∉ seg)
    (hfits : ∀ request, '/' ∉ request → (piece.Fits request ↔ SegmentFits seg request)) :
    PlainSegment seg := by
  have hab : ['a'] ≠ ['b'] := by decide
  cases h with
  | splat hlast => simp [startsWith] at hstar
  | rest name hname hlast => simp [startsWith] at hstar
  | param name hname =>
      have hany : ∀ request, '/' ∉ request → request ≠ [] → piece.Fits request := fun r hr hne =>
        (hfits r hr).mpr ((segmentFits_param name r).mpr hne)
      have ha := hany ['a'] (by decide) (by decide)
      have hb := hany ['b'] (by decide) (by decide)
      cases piece with
      | catchAll parsed => exact absurd rfl (hcatch parsed)
      | literal text => exact absurd (ha.trans hb.symm) hab
      | param before parsed after =>
          obtain ⟨value, hvalue, heq⟩ := ha
          obtain ⟨hvalid, htokens⟩ := hwritten
          have hlen := congrArg List.length heq
          have hpos := List.length_pos_iff.mpr hvalue
          simp only [List.length_append, List.length_cons, List.length_nil] at hlen
          obtain rfl : before = [] := List.length_eq_zero_iff.mp (by omega)
          obtain rfl : after = [] := List.length_eq_zero_iff.mp (by omega)
          rw [name_of_tokens hvalid htokens]
          exact plainSegment_of_validName (.inl rfl) hvalid
  | literal seg hcolon _ =>
      have hself := (hfits seg hslash).mpr ((segmentFits_literal hcolon seg).mpr rfl)
      have honly : ∀ request, '/' ∉ request → piece.Fits request → request = seg :=
        fun r hr hp => (segmentFits_literal hcolon r).mp ((hfits r hr).mp hp)
      cases piece with
      | catchAll parsed => exact absurd rfl (hcatch parsed)
      | literal text =>
          obtain rfl : seg = text := hself
          have hunbraced := unbraced_of_tokens hwritten
          refine ⟨fun hmem => (hunbraced _ hmem).1 rfl, fun hmem => (hunbraced _ hmem).2 rfl, ?_⟩
          rintro (h | h)
          · rw [hcolon] at h
            cases h
          · rw [hstar] at h
            cases h
      | param before parsed after =>
          obtain ⟨value, hvalue, heq⟩ := hself
          have hfree : '/' ∉ before ∧ '/' ∉ after := by
            rw [heq] at hslash
            simp only [List.mem_append, not_or] at hslash
            exact ⟨hslash.1.1, hslash.2⟩
          have hone : ∀ c : Char, c ≠ '/' → before ++ [c] ++ after = seg := by
            intro c hc
            refine honly _ ?_ ⟨[c], by simp, rfl⟩
            simp [hfree.1, hfree.2, hc.symm]
          have hsame := (hone 'a' (by decide)).trans (hone 'b' (by decide)).symm
          rw [List.append_assoc, List.append_assoc] at hsame
          have := (List.cons.inj (List.append_cancel_left hsame)).1
          exact absurd this (by decide)

theorem Translates.exists_fits {isLast : Bool} {seg out : Segment} (h : Translates isLast seg out)
    (hstar : startsWith '*' seg = false) (hslash : '/' ∉ seg) :
    ∃ request, '/' ∉ request ∧ SegmentFits seg request := by
  cases h with
  | splat hlast => simp [startsWith] at hstar
  | rest name hname hlast => simp [startsWith] at hstar
  | param name hname => exact ⟨['a'], by decide, (segmentFits_param name _).mpr (by decide)⟩
  | literal seg hcolon _ => exact ⟨seg, hslash, (segmentFits_literal hcolon seg).mpr rfl⟩

theorem Translates.not_wildcard {seg out : Segment} (h : Translates false seg out) :
    startsWith '*' seg = false := by
  cases h with
  | splat hlast => cases hlast
  | rest name hname hlast => cases hlast
  | param name hname => rfl
  | literal seg hcolon hstar => exact hstar

/-- Every translated path matches some request path. -/
theorem TranslatesAll.exists_matches {segments outs : List Segment}
    (h : TranslatesAll segments outs) (hslash : ∀ seg ∈ segments, '/' ∉ seg) :
    ∃ request : List Segment, (∀ seg ∈ request, '/' ∉ seg) ∧ RouteMatches segments request := by
  induction h with
  | nil => exact ⟨[], by simp, rfl⟩
  | @cons seg out rest outs hseg hrest ih =>
      by_cases hwild : startsWith '*' seg = true ∧ rest = []
      · obtain ⟨hstar, rfl⟩ := hwild
        refine ⟨[['a']], by simp, (routeMatches_wildcard hstar _).mpr (by decide)⟩
      · have hstar : startsWith '*' seg = false := by
          cases rest with
          | nil => simpa using hwild
          | cons next rest => exact Translates.not_wildcard hseg
        obtain ⟨request, hfree, hmatch⟩ := ih fun s hs => hslash s (List.mem_cons_of_mem _ hs)
        obtain ⟨first, hfirst, hfits⟩ :=
          hseg.exists_fits hstar (hslash seg (List.mem_cons_self ..))
        refine ⟨first :: request, ?_, (routeMatches_cons hwild _).mpr ⟨first, request, rfl, hfits, hmatch⟩⟩
        intro s hs
        rcases List.mem_cons.mp hs with rfl | hs
        · exact hfirst
        · exact hfree s hs

/-- The last segment, when the path or the pattern takes the rest. -/
theorem Translates.plain_of_rest {seg out : Segment} {piece : Piece}
    (h : Translates true seg out) (hwritten : piece.Written true (tokens out))
    (hrest : (∃ name, piece = .catchAll name) ∨ startsWith '*' seg = true)
    (hiff : ∀ request : List Segment, (∀ s ∈ request, '/' ∉ s) →
      (PiecesMatch [piece] request ↔ RouteMatches [seg] request)) :
    PlainSegment seg := by
  -- Two segments tell what takes the rest from what takes one segment.
  have htwo := hiff [['a'], ['b']] (by decide)
  have hcatch : ∃ name, piece = .catchAll name := by
    rcases hrest with hcatch | hstar
    · exact hcatch
    · by_contra hnot
      rw [not_exists] at hnot
      rw [routeMatches_wildcard hstar, piecesMatch_cons hnot] at htwo
      obtain ⟨first, rest, heq, -, hnil⟩ := htwo.mpr (by decide)
      obtain ⟨-, rfl⟩ := List.cons.inj heq
      exact absurd hnil (by simp [PiecesMatch])
  obtain ⟨parsed, rfl⟩ := hcatch
  obtain ⟨-, hvalid, htokens⟩ := hwritten
  have hstar : startsWith '*' seg = true := by
    by_contra hnot
    rw [routeMatches_cons (by simp [hnot])] at htwo
    obtain ⟨first, rest, heq, -, hnil⟩ := htwo.mp (by simp [PiecesMatch, join])
    obtain ⟨-, rfl⟩ := List.cons.inj heq
    exact absurd hnil (by simp [RouteMatches])
  cases h with
  | splat hlast => exact ⟨by decide, by decide, fun _ => by decide⟩
  | param name hname => simp [startsWith] at hstar
  | literal seg hcolon hno =>
      rw [hno] at hstar
      cases hstar
  | rest name hname hlast =>
      rw [restName_of_tokens hvalid htokens]
      exact plainSegment_of_validName (.inr rfl) hvalid

theorem TranslatesAll.plain_of_iff {segments outs : List Segment} {pieces : List Piece}
    (h : TranslatesAll segments outs) (hparse : parseLoop outs = some pieces)
    (hslash : ∀ seg ∈ segments, '/' ∉ seg)
    (hiff : ∀ request : List Segment, (∀ s ∈ request, '/' ∉ s) →
      (PiecesMatch pieces request ↔ RouteMatches segments request)) :
    ∀ seg ∈ segments, PlainSegment seg := by
  induction h generalizing pieces with
  | nil => simp
  | @cons seg out rest outs hseg hrest ih =>
      simp only [parseLoop, Option.bind_eq_bind, Option.bind_eq_some_iff, Option.pure_def,
        Option.some.injEq] at hparse
      obtain ⟨piece, hpiece, pieces', hpieces, rfl⟩ := hparse
      rw [hrest.isEmpty_eq] at hpiece
      have hwritten := parseSegment_written hpiece
      have hseg_slash := hslash seg (List.mem_cons_self ..)
      have hrest_slash : ∀ s ∈ rest, '/' ∉ s := fun s hs => hslash s (List.mem_cons_of_mem _ hs)
      by_cases hspan : (∃ name, piece = .catchAll name) ∨ startsWith '*' seg = true
      · -- Only the last segment can take the rest.
        have hlast : rest = [] := by
          cases rest with
          | nil => rfl
          | cons next rest =>
              rcases hspan with ⟨name, rfl⟩ | hstar
              · exact absurd hwritten.1 (by simp)
              · rw [Translates.not_wildcard hseg] at hstar
                cases hstar
        subst hlast
        cases hrest
        cases hpieces
        intro s hs
        rw [List.mem_singleton.mp hs]
        exact Translates.plain_of_rest hseg hwritten hspan hiff
      · rw [not_or, not_exists, Bool.not_eq_true] at hspan
        obtain ⟨hcatch, hstar⟩ := hspan
        have hpair : ∀ first request, '/' ∉ first → (∀ s ∈ request, '/' ∉ s) →
            (piece.Fits first ∧ PiecesMatch pieces' request ↔
              SegmentFits seg first ∧ RouteMatches rest request) := by
          intro first request hfirst hrequest
          have := hiff (first :: request) (by simpa [hfirst] using hrequest)
          rw [piecesMatch_cons hcatch, routeMatches_cons (by simp [hstar])] at this
          simpa using this
        obtain ⟨first, hfirst, hfits⟩ := hseg.exists_fits hstar hseg_slash
        obtain ⟨request, hrequest, hmatch⟩ := hrest.exists_matches hrest_slash
        have hboth := (hpair first request hfirst hrequest).mpr ⟨hfits, hmatch⟩
        intro s hs
        rcases List.mem_cons.mp hs with rfl | hs
        · refine hseg.plain_of_fits hwritten hcatch hstar hseg_slash fun r hr => ?_
          constructor
          · intro hr'
            exact ((hpair r request hr hrequest).mp ⟨hr', hboth.2⟩).1
          · intro hr'
            exact ((hpair r request hr hrequest).mpr ⟨hr', hmatch⟩).1
        · refine ih hpieces hrest_slash (fun r hr => ?_) s hs
          constructor
          · intro hr'
            exact ((hpair first r hfirst hr).mp ⟨hboth.1, hr'⟩).2
          · intro hr'
            exact ((hpair first r hfirst hr).mpr ⟨hfits, hr'⟩).2

/-! ## Whole paths -/

theorem split_join {segments : List Segment} (hne : segments ≠ [])
    (h : ∀ seg ∈ segments, '/' ∉ seg) : split (join segments) = segments :=
  List.splitOn_intercalate '/' h hne

theorem split_slash (path : List Char) : ∀ seg ∈ split path, '/' ∉ seg :=
  fun _ h => List.not_mem_of_mem_splitOn h

theorem TranslatesAll.slash {segments outs : List Segment} (h : TranslatesAll segments outs)
    (hslash : ∀ seg ∈ segments, '/' ∉ seg) : ∀ out ∈ outs, '/' ∉ out := by
  induction h with
  | nil => simp
  | @cons seg out rest outs hseg hrest ih =>
      intro s hs
      rcases List.mem_cons.mp hs with rfl | hs
      · have hown := hslash seg (List.mem_cons_self ..)
        cases hseg with
        | splat hlast => decide
        | param name hname => simpa using hown
        | rest name hname hlast => simpa using hown
        | literal seg hcolon hstar => exact hown
      · exact ih (fun s hs => hslash s (List.mem_cons_of_mem _ hs)) s hs

/-- The segments of an accepted path and of its pattern. -/
theorem toMatchit_translates {path pattern : List Char} (h : toMatchit path = .ok pattern) :
    TranslatesAll (split path) (split pattern) := by
  unfold toMatchit at h
  cases hloop : toMatchitLoop path (split path) with
  | error e => simp [hloop, bind, Except.bind] at h
  | ok outs =>
      simp only [hloop, bind, Except.bind, pure, Except.pure] at h
      cases h
      have htranslates := toMatchitLoop_translates hloop
      have hne : outs ≠ [] := by
        rintro rfl
        have hempty := htranslates.isEmpty_eq
        exact List.splitOn_ne_nil '/' path (List.isEmpty_iff.mp hempty.symm)
      rw [split_join hne (htranslates.slash (split_slash path))]
      exact htranslates

theorem TranslatesAll.empty_request {segments outs : List Segment} {pieces : List Piece}
    (h : TranslatesAll segments outs) (hne : segments ≠ []) (hparse : parseLoop outs = some pieces) :
    PiecesMatch pieces [] ↔ RouteMatches segments [] := by
  cases h with
  | nil => exact absurd rfl hne
  | @cons seg out rest outs hseg hrest =>
      simp only [parseLoop, Option.bind_eq_bind, Option.bind_eq_some_iff, Option.pure_def,
        Option.some.injEq] at hparse
      obtain ⟨piece, -, pieces', -, rfl⟩ := hparse
      have hpieces : ¬PiecesMatch (piece :: pieces') [] := by
        cases piece <;> cases pieces' <;> simp [PiecesMatch, join]
      have hroute : ¬RouteMatches (seg :: rest) [] := by
        by_cases hwild : startsWith '*' seg = true ∧ rest = []
        · obtain ⟨hstar, rfl⟩ := hwild
          rw [routeMatches_wildcard hstar]
          simp [join]
        · rw [routeMatches_cons hwild]
          simp
      exact iff_of_false hpieces hroute

/-- For every path the registration accepts, the router, validation and the document
agree with the path when it is plain; and where the router documents what the pattern
means, they agree on no other path. -/
theorem agrees_iff_plain (m : Matchit) (hm : m.Documented) {path pattern template : List Char}
    {params : List PathParam} (hpattern : toMatchit path = .ok pattern)
    (hinsert : m.insert pattern = true)
    (hopenapi : toOpenapiPath path = .ok (template, params)) :
    (Plain path → Agrees m path pattern params) ∧
      ((parsePattern pattern).isSome = true → Agrees m path pattern params → Plain path) := by
  have htranslates := toMatchit_translates hpattern
  constructor
  · intro hplain
    obtain ⟨pieces, hpieces, hnames, hmatch⟩ := htranslates.parse hplain
    refine ⟨fun request => ?_, fun request names h => ?_⟩
    · rw [hm.isSome_matchAt hinsert hpieces, hmatch]
    · have hcaptured : names = paramNames path :=
        (hm.names_matchAt hinsert hpieces request names h).trans hnames
      exact ⟨hcaptured, hcaptured.trans (toOpenapiPath_names hopenapi).symm⟩
  · intro hsome hagrees
    obtain ⟨pieces, hpieces⟩ := Option.isSome_iff_exists.mp hsome
    refine htranslates.plain_of_iff hpieces (split_slash path) fun request hrequest => ?_
    by_cases hne : request = []
    · subst hne
      exact htranslates.empty_request (List.splitOn_ne_nil '/' path) hpieces
    · have := hagrees.1 (join request)
      rw [hm.isSome_matchAt hinsert hpieces, split_join hne hrequest] at this
      exact this

/-! ## A router of the documented language -/

instance Piece.decidableFits (piece : Piece) (seg : Segment) : Decidable (piece.Fits seg) :=
  match piece with
  | .literal text => inferInstanceAs (Decidable (seg = text))
  | .catchAll _ => inferInstanceAs (Decidable (seg ≠ []))
  | .param before _ after =>
      decidable_of_iff
        (∃ value ∈ (seg.stripPrefix before).bind (·.stripSuffix after), value ≠ []) (by
          simp only [Option.mem_def, Option.bind_eq_some_iff, List.stripPrefix_eq_some,
            List.stripSuffix_eq_some, Piece.Fits]
          constructor
          · rintro ⟨value, ⟨rest, rfl, rfl⟩, hne⟩
            exact ⟨value, hne, by simp⟩
          · rintro ⟨value, hne, rfl⟩
            exact ⟨value, ⟨value ++ after, by simp, rfl⟩, hne⟩)

instance decidablePiecesMatch : (pieces : List Piece) → (request : List Segment) →
    Decidable (PiecesMatch pieces request)
  | [], request => inferInstanceAs (Decidable (request = []))
  | [.catchAll _], request => inferInstanceAs (Decidable (join request ≠ []))
  | .literal _ :: _, [] => inferInstanceAs (Decidable False)
  | .param _ _ _ :: _, [] => inferInstanceAs (Decidable False)
  | .catchAll _ :: _ :: _, [] => inferInstanceAs (Decidable False)
  | .literal text :: pieces, seg :: request =>
      have := decidablePiecesMatch pieces request
      inferInstanceAs (Decidable ((Piece.literal text).Fits seg ∧ PiecesMatch pieces request))
  | .param before name after :: pieces, seg :: request =>
      have := decidablePiecesMatch pieces request
      inferInstanceAs
        (Decidable ((Piece.param before name after).Fits seg ∧ PiecesMatch pieces request))
  | .catchAll name :: next :: pieces, seg :: request =>
      have := decidablePiecesMatch (next :: pieces) request
      inferInstanceAs
        (Decidable ((Piece.catchAll name).Fits seg ∧ PiecesMatch (next :: pieces) request))

/-- A router that accepts the documented language and gives it the documented meaning. -/
def documentedRouter : Matchit where
  insert pattern := (parsePattern pattern).isSome
  matchAt pattern path :=
    (parsePattern pattern).bind fun pieces =>
      if PiecesMatch pieces (split path) then some (capturedNames pieces) else none

theorem documentedRouter_documented : documentedRouter.Documented where
  isSome_matchAt := by
    intro pattern pieces _ hpieces path
    simp [documentedRouter, hpieces]
  names_matchAt := by
    intro pattern pieces _ hpieces path names h
    simp only [documentedRouter, hpieces, Option.bind_some] at h
    split at h
    · exact (Option.some.inj h).symm
    · cases h

/-- `/u/:id` -/
def userPath : List Char := ['/', 'u', '/', ':', 'i', 'd']

def userPattern : List Char := ['/', 'u', '/', '{', 'i', 'd', '}']

theorem agrees_iff_plain_user :
    (Plain userPath → Agrees documentedRouter userPath userPattern [⟨['i', 'd'], false⟩]) ∧
      ((parsePattern userPattern).isSome = true →
        Agrees documentedRouter userPath userPattern [⟨['i', 'd'], false⟩] → Plain userPath) :=
  @agrees_iff_plain documentedRouter documentedRouter_documented userPath userPattern userPattern
    [⟨['i', 'd'], false⟩] (by decide) (by decide) (by decide)

/-- The route `/u/{id}` is accepted as it is, matches `/u/x`, which is not the path, and
captures a name that validation and the document do not know. -/
theorem braces_disagree :
    ¬∀ (m : Matchit), m.Documented → ∀ (path pattern template : List Char)
      (params : List PathParam), toMatchit path = .ok pattern → m.insert pattern = true →
      toOpenapiPath path = .ok (template, params) → Agrees m path pattern params := by
  intro h
  have hagrees := h documentedRouter documentedRouter_documented userPattern userPattern
    userPattern [] (by decide) (by decide) (by decide)
  have hmatch : documentedRouter.matchAt userPattern ['/', 'u', '/', 'x'] = some [['i', 'd']] := by
    decide
  have hnames := (hagrees.2 _ _ hmatch).1
  exact absurd hnames (by decide)

end Nitr.Route
