import Nitr.Http.Fresh

/-! # Revalidation of entity tags

The lists of validators clients send back in `If-None-Match`, and which of them
`is_fresh` takes for the current tag. -/

namespace Nitr.Http

/-! ## Entity tags and lists of them -/

/-- A character of an opaque tag: visible ASCII but the quote, or a byte from 0x80 on. -/
def Etagc (c : Char) : Prop :=
  c.toNat = 0x21 ∨ (0x23 ≤ c.toNat ∧ c.toNat ≤ 0x7E) ∨ 0x80 ≤ c.toNat

instance : DecidablePred Etagc := fun c =>
  inferInstanceAs (Decidable (c.toNat = 0x21 ∨ (0x23 ≤ c.toNat ∧ c.toNat ≤ 0x7E) ∨ 0x80 ≤ c.toNat))

/-- A well-formed entity tag. -/
structure ETag where
  weak : Bool
  inner : Text
  legal : ∀ c ∈ inner, Etagc c

def quoted (inner : Text) : Text := '"' :: (inner ++ ['"'])

def ETag.text (tag : ETag) : Text := (if tag.weak then ['W', '/'] else []) ++ quoted tag.inner

/-- What a response for a tag gave the client: the tag, or its form under a coding. -/
structure Validator where
  tag : ETag
  encoding : Option Encoding

def Validator.text (v : Validator) : Text :=
  match v.encoding with
  | none => v.tag.text
  | some encoding => applyEtag v.tag.text encoding

inductive Listed where
  | any
  | validator (v : Validator)

def Listed.text : Listed → Text
  | .any => ['*']
  | .validator v => v.text

/-- A member of the list with the optional blanks around it. -/
structure Member where
  before : Text
  listed : Listed
  after : Text
  before_blank : ∀ c ∈ before, c = ' ' ∨ c = '\t'
  after_blank : ∀ c ∈ after, c = ' ' ∨ c = '\t'

def Member.text (m : Member) : Text := m.before ++ m.listed.text ++ m.after

/-- One `If-None-Match` line. -/
def lineText (members : List Member) : Text := List.intercalate [','] (members.map Member.text)

/-- Some listed validator was issued for the tag, by weak comparison. -/
def IssuedIn (members : List Member) (tag : ETag) : Prop :=
  ∃ m ∈ members, ∃ v, m.listed = .validator v ∧ v.tag.inner = tag.inner

def AnyIn (members : List Member) : Prop := ∃ m ∈ members, m.listed = .any

/-- Freshness follows the listed validators. -/
def Revalidates (members : List Member) (tag : ETag) (fresh : Bool) : Prop :=
  (IssuedIn members tag → fresh = true) ∧
    (¬AnyIn members → ¬IssuedIn members tag → fresh = false)

/-! ## Inputs on which the two codecs meet -/

/-- A tag that holds a bare `*` between two commas. -/
def Wild (inner : Text) : Prop := [',', '*', ','] <:+: inner

def suffix (encoding : Encoding) : Text := '-' :: encoding.token

/-- A validator of another tag whose text reads as one of this tag: sent as it is, it
ends like a coded form of this tag; sent coded, its coded form is this tag. -/
def Confusable (v : Validator) (tag : ETag) : Prop :=
  match v.encoding with
  | none => ∃ encoding, v.tag.inner = tag.inner ++ suffix encoding
  | some encoding => v.tag.inner ++ suffix encoding = tag.inner

def WildIn (members : List Member) : Prop :=
  ∃ m ∈ members, ∃ v, m.listed = .validator v ∧ Wild v.tag.inner

def ConfusableIn (members : List Member) (tag : ETag) : Prop :=
  ∃ m ∈ members, ∃ v, m.listed = .validator v ∧ Confusable v tag

/-! ## The text of a validator -/

theorem Etagc.ne_quote {c : Char} (h : Etagc c) : c ≠ '"' := by
  rintro rfl
  revert h
  unfold Etagc
  decide

theorem ETag.quote_notMem (tag : ETag) : '"' ∉ tag.inner :=
  fun h => (tag.legal _ h).ne_quote rfl

theorem stripWeak_quoted (inner : Text) : stripWeak (quoted inner) = quoted inner := by
  unfold stripWeak
  rw [List.stripPrefix_eq_none.mpr]
  · rfl
  · rintro ⟨rest, h⟩
    exact absurd (List.cons.inj h).1 (by decide)

theorem stripWeak_weak (text : Text) : stripWeak (['W', '/'] ++ text) = text := by
  unfold stripWeak
  rw [List.stripPrefix_eq_some.mpr rfl]
  rfl

/-- The text of a tag or of its coded form. -/
def shape (weak : Bool) (inner : Text) : Text :=
  (if weak then ['W', '/'] else []) ++ quoted inner

theorem stripWeak_shape (weak : Bool) (inner : Text) :
    stripWeak (shape weak inner) = quoted inner := by
  unfold shape
  cases weak with
  | true => exact stripWeak_weak _
  | false => exact stripWeak_quoted inner

theorem trimWeak_shape (weak : Bool) (inner : Text) :
    trimWeak (shape weak inner) = quoted inner := by
  cases weak <;> simp [shape, quoted, trimWeak]

theorem stripQuotes_quoted (inner : Text) :
    ((quoted inner).stripPrefix ['"']).bind (·.stripSuffix ['"']) = some inner := by
  rw [List.stripPrefix_eq_some.mpr (show quoted inner = ['"'] ++ (inner ++ ['"']) from rfl),
    Option.bind_some, List.stripSuffix_eq_some.mpr rfl]

theorem weakenEtag_text (tag : ETag) (encoding : Encoding) :
    weakenEtag tag.text encoding.token = shape true (tag.inner ++ suffix encoding) := by
  unfold weakenEtag
  simp only [show tag.text = shape tag.weak tag.inner from rfl, trimWeak_shape,
    stripQuotes_quoted]
  simp [shape, quoted, suffix]

theorem toStr_eq_some {value text : Text} :
    toStr value = some text ↔ value = text ∧ ∀ c ∈ value, visible c = true := by
  unfold toStr
  constructor
  · intro h
    split at h
    · rename_i hall
      exact ⟨Option.some.inj h, List.all_eq_true.mp hall⟩
    · cases h
  · rintro ⟨rfl, hall⟩
    rw [if_pos (List.all_eq_true.mpr hall)]

/-- The text inside the quotes of a validator. -/
def Validator.inner (v : Validator) : Text :=
  v.tag.inner ++ v.encoding.elim [] suffix

theorem visible_token (encoding : Encoding) : ∀ c ∈ suffix encoding, visible c = true := by
  have hall : (suffix encoding).all visible = true := by
    cases encoding <;> decide
  exact List.all_eq_true.mp hall

theorem fromStr_of_visible {text : Text} (h : ∀ c ∈ text, visible c = true) :
    fromStr text = some text := by
  unfold fromStr
  rw [if_pos]
  rw [List.all_eq_true]
  intro c hc
  have := h c hc
  unfold visible at this
  simp only [Bool.or_eq_true, Bool.and_eq_true, decide_eq_true_eq, bne_iff_ne] at this ⊢
  rcases this with hrange | htab
  · exact .inl ⟨hrange.1, by omega⟩
  · exact .inr htab

/-- A validator that is read back as text is a tag with the coding inside its quotes. -/
theorem Validator.text_eq_shape {v : Validator} (hread : ∀ c ∈ v.text, visible c = true) :
    ∃ weak, v.text = shape weak v.inner := by
  unfold Validator.text at hread ⊢
  cases hv : v.encoding with
  | none => exact ⟨v.tag.weak, by simp [Validator.inner, hv, ETag.text, shape]⟩
  | some encoding =>
      rw [hv] at hread
      refine ⟨true, ?_⟩
      simp only at hread ⊢
      cases hstr : toStr v.tag.text with
      | none =>
          have hsame : applyEtag v.tag.text encoding = v.tag.text := by
            unfold applyEtag
            rw [hstr]
          rw [hsame] at hread
          rw [toStr_eq_some.mpr ⟨rfl, hread⟩] at hstr
          cases hstr
      | some etag =>
          obtain ⟨rfl, hvis⟩ := toStr_eq_some.mp hstr
          have hweak : ∀ c ∈ weakenEtag v.tag.text encoding.token, visible c = true := by
            rw [weakenEtag_text]
            intro c hc
            have hinner : ∀ c ∈ v.tag.inner, visible c = true := fun c hc =>
              hvis c (by simp [ETag.text, quoted, hc])
            simp only [shape, quoted, if_true, List.mem_append, List.mem_cons,
              List.not_mem_nil, or_false] at hc
            rcases hc with (rfl | rfl) | rfl | (hc | hc) | rfl
            · decide
            · decide
            · decide
            · exact hinner c hc
            · exact visible_token encoding c hc
            · decide
          unfold applyEtag
          rw [hstr]
          simp only
          rw [fromStr_of_visible hweak]
          simp only
          rw [weakenEtag_text, Validator.inner, hv]
          rfl

/-! ## Which pieces match -/

theorem suffix_cases {base base' : Text} {encoding encoding' : Encoding}
    (h : base ++ suffix encoding = base' ++ suffix encoding') :
    base = base' ∧ encoding = encoding' := by
  have hsame : encoding = encoding' := by
    have hlast := congrArg List.getLast? h
    cases encoding <;> cases encoding' <;> simp [suffix, Encoding.token] at hlast ⊢
  subst hsame
  exact ⟨List.append_cancel_right h, rfl⟩

theorem stripToken_eq_some {inner token tag : Text} :
    stripToken inner token = some tag ↔ ∃ base, inner = base ++ '-' :: token ∧ tag = quoted base := by
  simp only [stripToken, Option.map_eq_some_iff, Option.bind_eq_some_iff,
    List.stripSuffix_eq_some]
  constructor
  · rintro ⟨base, ⟨s, rfl, rfl⟩, rfl⟩
    exact ⟨base, by simp, rfl⟩
  · rintro ⟨base, rfl, rfl⟩
    exact ⟨base, ⟨base ++ ['-'], by simp, rfl⟩, rfl⟩

theorem quoted_inj {inner inner' : Text} : quoted inner = quoted inner' ↔ inner = inner' :=
  ⟨fun h => List.append_cancel_right (List.cons.inj h).2, fun h => by rw [h]⟩

theorem stripEncodingSuffix_quoted (inner base : Text) :
    stripEncodingSuffix (quoted inner) = some (quoted base) ↔
      ∃ encoding, inner = base ++ suffix encoding := by
  unfold stripEncodingSuffix
  rw [stripQuotes_quoted, Option.bind_some, List.findSome?_cons]
  cases hgzip : stripToken inner ['g', 'z', 'i', 'p'] with
  | some tag =>
      obtain ⟨base', rfl, rfl⟩ := stripToken_eq_some.mp hgzip
      rw [Option.some.injEq, quoted_inj]
      constructor
      · rintro rfl
        exact ⟨.gzip, rfl⟩
      · rintro ⟨encoding, h⟩
        exact (@suffix_cases base' base .gzip encoding h).1
  | none =>
      rw [List.findSome?_singleton, stripToken_eq_some]
      constructor
      · rintro ⟨base', rfl, h⟩
        exact ⟨.brotli, by rw [quoted_inj.mp h]; rfl⟩
      · rintro ⟨encoding, h⟩
        cases encoding with
        | brotli => exact ⟨base, h, rfl⟩
        | gzip =>
            have hsome : stripToken inner ['g', 'z', 'i', 'p'] = some (quoted base) :=
              stripToken_eq_some.mpr ⟨base, h, rfl⟩
            rw [hsome] at hgzip
            cases hgzip

theorem candidateMatches_shape {piece : Text} {weak : Bool} {inner : Text} (tag : ETag)
    (hpiece : trim piece = shape weak inner) :
    candidateMatches (quoted tag.inner) piece = true ↔
      inner = tag.inner ∨ ∃ encoding, inner = tag.inner ++ suffix encoding := by
  have hstar : shape weak inner ≠ ['*'] := by
    cases weak <;> simp [shape, quoted]
  simp only [candidateMatches, hpiece, if_neg hstar, stripWeak_shape, Bool.or_eq_true,
    decide_eq_true_eq, quoted_inj, Option.any_eq_true, decide_eq_true_eq, exists_eq_right,
    stripEncodingSuffix_quoted]

/-- Apart from the wildcard, only a piece with both quotes matches. -/
theorem candidateMatches_quotes {tag : ETag} {piece : Text}
    (h : candidateMatches (quoted tag.inner) piece = true) (hstar : trim piece ≠ ['*']) :
    2 ≤ piece.count '"' := by
  have hquoted : ∀ inner : Text, 2 ≤ (quoted inner).count '"' := by
    intro inner
    simp only [quoted, List.count_cons_self, List.count_append, List.count_nil]
    omega
  have hweak : ∀ text : Text, (stripWeak text).count '"' ≤ text.count '"' := by
    intro text
    unfold stripWeak
    cases hstrip : text.stripPrefix ['W', '/'] with
    | none => exact le_rfl
    | some rest =>
        rw [List.stripPrefix_eq_some.mp hstrip, Option.getD_some, List.count_append]
        omega
  have htrim : (trim piece).count '"' ≤ piece.count '"' :=
    (List.trimBy_sublist piece).count_le _
  have hcandidate : 2 ≤ (stripWeak (trim piece)).count '"' := by
    simp only [candidateMatches, if_neg hstar, Bool.or_eq_true, decide_eq_true_eq,
      Option.any_eq_true, exists_eq_right] at h
    rcases h with h | h
    · rw [h]
      exact hquoted _
    · simp only [stripEncodingSuffix, Option.bind_eq_some_iff, List.stripPrefix_eq_some,
        List.stripSuffix_eq_some] at h
      obtain ⟨inner, ⟨rest, hrest, rfl⟩, -⟩ := h
      rw [hrest]
      exact hquoted inner
  have := hweak (trim piece)
  omega

/-! ## The pieces of one member -/

theorem Etagc.not_blank {c : Char} (h : Etagc c) : c.isWhitespace = false := by
  rw [Bool.eq_false_iff]
  intro hblank
  have hcases : ((c = ' ' ∨ c = '\t') ∨ c = '\r') ∨ c = '\n' := by
    simpa [Char.isWhitespace] using hblank
  unfold Etagc at h
  rcases hcases with ((rfl | rfl) | rfl) | rfl <;> revert h <;> decide

theorem suffix_plain (encoding : Option Encoding) :
    ∀ c ∈ encoding.elim [] suffix, c ≠ '"' ∧ c ≠ ',' ∧ c.isWhitespace = false := by
  cases encoding with
  | none => simp
  | some encoding =>
      have hall : (suffix encoding).all (fun c =>
          decide (c ≠ '"' ∧ c ≠ ',' ∧ c.isWhitespace = false)) = true := by
        cases encoding <;> decide
      intro c hc
      exact of_decide_eq_true (List.all_eq_true.mp hall c hc)

theorem Validator.not_blank (v : Validator) : ∀ c ∈ v.inner, c.isWhitespace = false := by
  intro c hc
  rcases List.mem_append.mp hc with htag | hsuffix
  · exact (v.tag.legal c htag).not_blank
  · exact (suffix_plain _ c hsuffix).2.2

theorem Validator.quote_notMem (v : Validator) : '"' ∉ v.inner := by
  intro hmem
  rcases List.mem_append.mp hmem with htag | hsuffix
  · exact v.tag.quote_notMem htag
  · exact (suffix_plain _ _ hsuffix).1 rfl

theorem Validator.comma_mem_inner (v : Validator) : ',' ∈ v.inner ↔ ',' ∈ v.tag.inner := by
  have hsuffix : ',' ∉ v.encoding.elim [] suffix := fun h => (suffix_plain _ _ h).2.1 rfl
  simp [Validator.inner, hsuffix]

theorem Validator.wild_inner (v : Validator) : Wild v.inner ↔ Wild v.tag.inner := by
  unfold Wild Validator.inner
  cases v.encoding with
  | none => simp
  | some encoding =>
      constructor
      · intro h
        rcases List.infix_append_cons h (by decide) with h | h
        · exact h
        · have hcomma : ',' ∈ encoding.token := h.subset (by simp)
          cases encoding <;> simp [Encoding.token] at hcomma
      · intro h
        exact h.trans (List.prefix_append ..).isInfix

/-- A validator's text reads as one of the tag's: it was issued for it, or is taken for it. -/
theorem Validator.inner_cases (v : Validator) (tag : ETag) :
    (v.inner = tag.inner ∨ ∃ encoding, v.inner = tag.inner ++ suffix encoding) ↔
      v.tag.inner = tag.inner ∨ Confusable v tag := by
  unfold Validator.inner Confusable
  cases v.encoding with
  | none => simp
  | some coded =>
      simp only [Option.elim_some]
      constructor
      · rintro (h | ⟨encoding, h⟩)
        · exact .inr h
        · exact .inl (suffix_cases h).1
      · rintro (h | h)
        · exact .inr ⟨coded, by rw [h]⟩
        · exact .inl h

theorem blank_whitespace {blanks : Text} (h : ∀ c ∈ blanks, c = ' ' ∨ c = '\t') :
    ∀ c ∈ blanks, c.isWhitespace = true := by
  intro c hc
  rcases h c hc with rfl | rfl <;> decide

theorem blank_notMem {blanks : Text} (h : ∀ c ∈ blanks, c = ' ' ∨ c = '\t') {c : Char}
    (hc : c ≠ ' ' ∧ c ≠ '\t') : c ∉ blanks := by
  intro hmem
  rcases h c hmem with rfl | rfl
  · exact hc.1 rfl
  · exact hc.2 rfl

theorem trim_member (m : Member) (weak : Bool) (inner : Text) :
    trim (m.before ++ shape weak inner ++ m.after) = shape weak inner := by
  have hne : shape weak inner ≠ [] := by simp [shape, quoted]
  refine List.trimBy_append (blank_whitespace m.before_blank) (blank_whitespace m.after_blank)
    hne ?_ ?_
  · cases weak <;> rfl
  · have : (shape weak inner).getLast hne = '"' := by simp [shape, quoted]
    rw [this]
    decide

theorem count_mem_splitOn {piece text : Text} (h : piece ∈ text.splitOn ',') :
    piece.count '"' ≤ text.count '"' := by
  have := (List.mem_splitOn.mp h).2.sublist.count_le '"'
  simpa using this

/-- A tag with a comma is cut into pieces of one quote at most. -/
theorem count_piece_le {m : Member} {weak : Bool} {inner piece : Text} (hquote : '"' ∉ inner)
    (hcomma : ',' ∈ inner)
    (h : piece ∈ (m.before ++ shape weak inner ++ m.after).splitOn ',') :
    piece.count '"' ≤ 1 := by
  obtain ⟨left, right, rfl⟩ := List.append_of_mem hcomma
  have hbefore : m.before.count '"' = 0 :=
    List.count_eq_zero.mpr (blank_notMem m.before_blank (by decide))
  have hafter : m.after.count '"' = 0 :=
    List.count_eq_zero.mpr (blank_notMem m.after_blank (by decide))
  have hleft : left.count '"' = 0 := List.count_eq_zero.mpr fun h => hquote (by simp [h])
  have hright : right.count '"' = 0 := List.count_eq_zero.mpr fun h => hquote (by simp [h])
  have hmark : (if weak then ['W', '/'] else []).count '"' = 0 := by cases weak <;> decide
  have htext : m.before ++ shape weak (left ++ ',' :: right) ++ m.after =
      (m.before ++ (if weak then ['W', '/'] else []) ++ '"' :: left) ++
        ',' :: (right ++ '"' :: m.after) := by
    simp [shape, quoted]
  rw [htext, List.splitOn_append_cons_self, List.mem_append] at h
  rcases h with h | h
  · have := count_mem_splitOn h
    simp only [List.count_append, List.count_cons_self, hbefore, hmark, hleft] at this
    omega
  · have := count_mem_splitOn h
    simp only [List.count_append, List.count_cons_self, hafter, hright] at this
    omega

/-- The wildcard appears among the pieces of a tag that holds it between two commas. -/
theorem star_piece {m : Member} {weak : Bool} {v : Validator} :
    (∃ piece ∈ (m.before ++ shape weak v.inner ++ m.after).splitOn ',', trim piece = ['*']) ↔
      Wild v.inner := by
  have htext : ',' :: (m.before ++ shape weak v.inner ++ m.after ++ [',']) =
      (',' :: m.before ++ (if weak then ['W', '/'] else [])) ++
        '"' :: (v.inner ++ '"' :: (m.after ++ [','])) := by
    simp [shape, quoted]
  constructor
  · rintro ⟨piece, hpiece, htrim⟩
    have hinfix := (List.mem_splitOn.mp hpiece).2
    have hquote : '"' ∉ ',' :: (piece ++ [',']) := by
      have : '"' ∉ piece := fun h => by
        have := List.mem_trimBy h (show Char.isWhitespace '"' = false by decide)
        rw [show List.trimBy Char.isWhitespace piece = ['*'] from htrim] at this
        simp at this
      simp [this]
    have htwo : 2 ≤ (',' :: (piece ++ [','])).count ',' := by
      simp only [List.count_cons_self, List.count_append, List.count_nil]
      omega
    have hbefore : m.before.count ',' = 0 :=
      List.count_eq_zero.mpr (blank_notMem m.before_blank (by decide))
    have hafter : m.after.count ',' = 0 :=
      List.count_eq_zero.mpr (blank_notMem m.after_blank (by decide))
    rw [htext] at hinfix
    rcases List.infix_append_cons hinfix hquote with hleft | hrest
    · have hle := hleft.sublist.count_le ','
      have hmark : (if weak then ['W', '/'] else []).count ',' = 0 := by cases weak <;> decide
      simp only [List.count_append, List.count_cons_self, hbefore, hmark] at hle htwo
      omega
    rcases List.infix_append_cons hrest hquote with hinner | hright
    · have hself : trim piece = piece := by
        refine List.trimBy_eq_self fun c hc => v.not_blank c (hinner.subset ?_)
        simp [hc]
      rw [← hself, htrim] at hinner
      exact hinner
    · have hle := hright.sublist.count_le ','
      rw [List.count_append, hafter, List.count_singleton_self] at hle
      omega
  · intro hwild
    refine ⟨['*'], List.mem_splitOn.mpr ⟨by decide, ?_⟩, rfl⟩
    rw [htext]
    exact hwild.trans ⟨(',' :: m.before ++ (if weak then ['W', '/'] else [])) ++ ['"'],
      '"' :: (m.after ++ [',']), by simp⟩

/-- What a readable validator matches, whatever blanks surround it. -/
theorem member_matches {m : Member} {weak : Bool} {v : Validator} (tag : ETag) :
    (∃ piece ∈ (m.before ++ shape weak v.inner ++ m.after).splitOn ',',
        candidateMatches (quoted tag.inner) piece = true) ↔
      Wild v.tag.inner ∨ ',' ∉ tag.inner ∧ (v.tag.inner = tag.inner ∨ Confusable v tag) := by
  have hstar : ∀ piece, trim piece = ['*'] → candidateMatches (quoted tag.inner) piece = true :=
    fun piece h => by simp [candidateMatches, h]
  by_cases hcomma : ',' ∈ v.inner
  · have hother : ¬(',' ∉ tag.inner ∧ (v.tag.inner = tag.inner ∨ Confusable v tag)) := by
      rintro ⟨hno, hcases⟩
      rcases (v.inner_cases tag).mpr hcases with h | ⟨encoding, h⟩
      · exact hno (h ▸ hcomma)
      · rw [h] at hcomma
        cases encoding <;> simp [suffix, Encoding.token, hno] at hcomma
    rw [← v.wild_inner, ← @star_piece m weak v, or_iff_left hother]
    constructor
    · rintro ⟨piece, hpiece, hmatch⟩
      refine ⟨piece, hpiece, ?_⟩
      by_contra hne
      have hquotes := candidateMatches_quotes hmatch hne
      have := count_piece_le v.quote_notMem hcomma hpiece
      omega
    · rintro ⟨piece, hpiece, htrim⟩
      exact ⟨piece, hpiece, hstar piece htrim⟩
  · have hwild : ¬Wild v.tag.inner := fun h =>
      hcomma (v.comma_mem_inner.mpr (h.subset (by simp)))
    have hsingle : ',' ∉ m.before ++ shape weak v.inner ++ m.after := by
      have hbefore : ',' ∉ m.before := blank_notMem m.before_blank (by decide)
      have hafter : ',' ∉ m.after := blank_notMem m.after_blank (by decide)
      cases weak <;> simp [shape, quoted, hbefore, hafter, hcomma]
    rw [List.splitOn_eq_singleton hsingle, or_iff_right hwild]
    simp only [List.mem_singleton, exists_eq_left]
    rw [candidateMatches_shape tag (trim_member m weak v.inner), v.inner_cases tag]
    refine (and_iff_right_of_imp fun hcases => ?_).symm
    intro hmem
    rcases (v.inner_cases tag).mpr hcases with h | ⟨encoding, h⟩
    · exact hcomma (h ▸ hmem)
    · exact hcomma (by simp [h, hmem])

theorem any_matches {m : Member} (h : m.listed = .any) (tag : ETag) :
    ∃ piece ∈ m.text.splitOn ',', candidateMatches (quoted tag.inner) piece = true := by
  have htext : m.text = m.before ++ ['*'] ++ m.after := by simp [Member.text, h, Listed.text]
  have htrim : trim m.text = ['*'] := by
    rw [htext]
    exact List.trimBy_append (blank_whitespace m.before_blank) (blank_whitespace m.after_blank)
      (by simp) rfl rfl
  have hcomma : ',' ∉ m.text := by
    have hbefore : ',' ∉ m.before := blank_notMem m.before_blank (by decide)
    have hafter : ',' ∉ m.after := blank_notMem m.after_blank (by decide)
    simp [htext, hbefore, hafter]
  refine ⟨m.text, ?_, by simp [candidateMatches, htrim]⟩
  rw [List.splitOn_eq_singleton hcomma]
  exact List.mem_singleton_self _

/-! ## The whole list -/

/-- A line the server reads as text. -/
def Readable (members : List Member) : Prop := ∀ c ∈ lineText members, visible c = true

theorem Readable.member {members : List Member} (h : Readable members) {m : Member}
    (hm : m ∈ members) : ∀ c ∈ m.text, visible c = true := by
  intro c hc
  have hmem : c ∈ ',' :: lineText members := by
    have hne : members.map Member.text ≠ [] := by simpa using List.ne_nil_of_mem hm
    rw [lineText, List.cons_intercalate_eq_flatMap ',' hne]
    exact List.mem_flatMap.mpr ⟨m.text, List.mem_map_of_mem hm, List.mem_cons_of_mem _ hc⟩
  rcases List.mem_cons.mp hmem with rfl | hline
  · decide
  · exact h c hline

theorem Member.text_of_validator (m : Member) {v : Validator} (h : m.listed = .validator v)
    (hread : ∀ c ∈ m.text, visible c = true) :
    ∃ weak, m.text = m.before ++ shape weak v.inner ++ m.after := by
  have htext : m.text = m.before ++ v.text ++ m.after := by simp [Member.text, h, Listed.text]
  obtain ⟨weak, hshape⟩ := v.text_eq_shape fun c hc => hread c (by simp [htext, hc])
  exact ⟨weak, by rw [htext, hshape]⟩

/-- The entity tags of a readable line decide freshness. -/
theorem isFresh_readable {parseHttpDate : Text → Option ℤ} {headers : HeaderMap}
    {members : List Member} (hhead : headers.ifNoneMatch.head? = some (lineText members))
    (hread : Readable members) (tag : ETag) (lastModified : Option ℤ) :
    isFresh parseHttpDate headers (some tag.text) lastModified = true ↔
      AnyIn members ∨ WildIn members ∨
        ',' ∉ tag.inner ∧ (IssuedIn members tag ∨ ConfusableIn members tag) := by
  have hstr : headers.ifNoneMatch.head?.bind toStr = some (lineText members) := by
    rw [hhead]
    exact toStr_eq_some.mpr ⟨rfl, hread⟩
  unfold isFresh
  rw [hstr]
  simp only [show tag.text = shape tag.weak tag.inner from rfl, stripWeak_shape]
  rw [List.any_eq_true]
  by_cases hne : members = []
  · subst hne
    have hempty : ∀ inner : Text, candidateMatches (quoted inner) [] = false := by
      intro inner
      rfl
    simp [lineText, hempty, AnyIn, WildIn, IssuedIn, ConfusableIn]
  · have hpieces : ∀ q : Text → Prop, (∃ piece ∈ (lineText members).splitOn ',', q piece) ↔
        ∃ m ∈ members, ∃ piece ∈ m.text.splitOn ',', q piece := by
      intro q
      rw [lineText, List.splitOn_intercalate_eq_flatMap ',' (by simpa using hne)]
      simp only [List.flatMap_map, List.mem_flatMap]
      constructor
      · rintro ⟨piece, ⟨m, hm, hpiece⟩, hq⟩
        exact ⟨m, hm, piece, hpiece, hq⟩
      · rintro ⟨m, hm, piece, hpiece, hq⟩
        exact ⟨piece, ⟨m, hm, hpiece⟩, hq⟩
    rw [hpieces]
    constructor
    · rintro ⟨m, hm, hmatch⟩
      cases hlisted : m.listed with
      | any => exact .inl ⟨m, hm, hlisted⟩
      | validator v =>
          obtain ⟨weak, htext⟩ := m.text_of_validator hlisted (hread.member hm)
          rw [htext, member_matches tag] at hmatch
          rcases hmatch with hwild | ⟨hcomma, hissued | hconfused⟩
          · exact .inr (.inl ⟨m, hm, v, hlisted, hwild⟩)
          · exact .inr (.inr ⟨hcomma, .inl ⟨m, hm, v, hlisted, hissued⟩⟩)
          · exact .inr (.inr ⟨hcomma, .inr ⟨m, hm, v, hlisted, hconfused⟩⟩)
    · have hback : ∀ {m v}, m ∈ members → m.listed = .validator v →
          (Wild v.tag.inner ∨ ',' ∉ tag.inner ∧ (v.tag.inner = tag.inner ∨ Confusable v tag)) →
          ∃ m ∈ members, ∃ piece ∈ m.text.splitOn ',',
            candidateMatches (quoted tag.inner) piece = true := by
        intro m v hm hlisted h
        obtain ⟨weak, htext⟩ := m.text_of_validator hlisted (hread.member hm)
        exact ⟨m, hm, by rw [htext]; exact (member_matches tag).mpr h⟩
      rintro (⟨m, hm, hany⟩ | ⟨m, hm, v, hlisted, hwild⟩ |
        ⟨hcomma, ⟨m, hm, v, hlisted, hissued⟩ | ⟨m, hm, v, hlisted, hconfused⟩⟩)
      · exact ⟨m, hm, any_matches hany tag⟩
      · exact hback hm hlisted (.inl hwild)
      · exact hback hm hlisted (.inr ⟨hcomma, .inl hissued⟩)
      · exact hback hm hlisted (.inr ⟨hcomma, .inr hconfused⟩)

/-- Without a readable line the dates decide. -/
theorem isFresh_unreadable {parseHttpDate : Text → Option ℤ} {headers : HeaderMap}
    {members : List Member} (hhead : headers.ifNoneMatch.head? = some (lineText members))
    (hread : ¬Readable members) (tag : ETag) (lastModified : Option ℤ) :
    isFresh parseHttpDate headers (some tag.text) lastModified =
      notModified parseHttpDate headers lastModified := by
  have hstr : headers.ifNoneMatch.head?.bind toStr = none := by
    rw [hhead, Option.bind_some]
    cases hstr : toStr (lineText members) with
    | none => rfl
    | some text => exact absurd (toStr_eq_some.mp hstr).2 hread
  unfold isFresh
  rw [hstr]

/-- When the first line tells the listed validators apart from the others: a validator
of the tag is found on it, and nothing on it is taken for one that is not listed. -/
structure Distinguishes (line members : List Member) (tag : ETag) : Prop where
  found : IssuedIn members tag → AnyIn line ∨ WildIn line ∨
    ',' ∉ tag.inner ∧ (IssuedIn line tag ∨ ConfusableIn line tag)
  apart : ¬AnyIn members → ¬IssuedIn members tag →
    ¬WildIn line ∧ (',' ∉ tag.inner → ¬ConfusableIn line tag)

theorem revalidates_readable {line members : List Member} {tag : ETag} {fresh : Bool}
    (hsub : line ⊆ members)
    (hfresh : fresh = true ↔ AnyIn line ∨ WildIn line ∨
      ',' ∉ tag.inner ∧ (IssuedIn line tag ∨ ConfusableIn line tag)) :
    Revalidates members tag fresh ↔ Distinguishes line members tag := by
  have hany : AnyIn line → AnyIn members := fun ⟨m, hm, h⟩ => ⟨m, hsub hm, h⟩
  have hissued : IssuedIn line tag → IssuedIn members tag := fun ⟨m, hm, h⟩ => ⟨m, hsub hm, h⟩
  unfold Revalidates
  rw [← Bool.not_eq_true, hfresh]
  constructor
  · rintro ⟨hfound, hapart⟩
    refine ⟨hfound, fun hno hnone => ⟨fun hwild => ?_, fun hcomma hconfused => ?_⟩⟩
    · exact hapart hno hnone (.inr (.inl hwild))
    · exact hapart hno hnone (.inr (.inr ⟨hcomma, .inr hconfused⟩))
  · rintro ⟨hfound, hapart⟩
    refine ⟨hfound, fun hno hnone => ?_⟩
    obtain ⟨hwild, hconfused⟩ := hapart hno hnone
    rintro (h | h | ⟨hcomma, h | h⟩)
    · exact hno (hany h)
    · exact hwild h
    · exact hnone (hissued h)
    · exact hconfused hcomma h

/-- Freshness follows the listed validators exactly when the line that is read tells
them apart, or, where it is not visible ASCII, when the dates say the same. -/
theorem isFresh_revalidates_iff (parseHttpDate : Text → Option ℤ) (lines : List (List Member))
    (given : Validator) (hgiven : ∃ m ∈ lines.flatten, m.listed = .validator given)
    (dates : List Text) (lastModified : Option ℤ) (tag : ETag) :
    Revalidates lines.flatten tag
        (isFresh parseHttpDate ⟨lines.map lineText, dates⟩ (some tag.text) lastModified) ↔
      (Readable (lines.headD []) → Distinguishes (lines.headD []) lines.flatten tag) ∧
        (¬Readable (lines.headD []) → Revalidates lines.flatten tag
          (notModified parseHttpDate ⟨lines.map lineText, dates⟩ lastModified)) := by
  cases lines with
  | nil =>
      obtain ⟨m, hm, -⟩ := hgiven
      cases hm
  | cons line more =>
      rw [List.headD_cons]
      have hsub : line ⊆ (line :: more).flatten := fun m hm => by simp [hm]
      by_cases hread : Readable line
      · rw [revalidates_readable hsub (isFresh_readable rfl hread tag lastModified)]
        simp [hread]
      · rw [isFresh_unreadable rfl hread tag lastModified]
        simp [hread]

theorem legal_of_all {text : Text} (h : text.all (fun c => decide (Etagc c)) = true) :
    ∀ c ∈ text, Etagc c := fun c hc => of_decide_eq_true (List.all_eq_true.mp h c hc)

def tagX : ETag := ⟨false, ['x'], legal_of_all (by decide)⟩

def tagXGzip : ETag := ⟨false, ['x', '-', 'g', 'z', 'i', 'p'], legal_of_all (by decide)⟩

def bareMember (v : Validator) : Member := ⟨[], .validator v, [], by simp, by simp⟩

/-- A compressed response's validator is found. -/
theorem isFresh_revalidates_iff_gzip :
    (Readable [bareMember ⟨tagX, some .gzip⟩] →
        Distinguishes [bareMember ⟨tagX, some .gzip⟩] [bareMember ⟨tagX, some .gzip⟩] tagX) ∧
      (¬Readable [bareMember ⟨tagX, some .gzip⟩] →
        Revalidates [bareMember ⟨tagX, some .gzip⟩] tagX
          (notModified (fun _ => none)
            ⟨[lineText [bareMember ⟨tagX, some .gzip⟩]], []⟩ none)) := by
  refine (isFresh_revalidates_iff (fun _ => none) [[bareMember ⟨tagX, some .gzip⟩]]
    ⟨tagX, some .gzip⟩ ⟨bareMember ⟨tagX, some .gzip⟩, by simp, rfl⟩ [] none tagX).mp ⟨fun _ => by decide, fun _ h => ?_⟩
  exact absurd ⟨bareMember ⟨tagX, some .gzip⟩, by simp, _, rfl, rfl⟩ h

/-- A tag that ends like a coded form is taken for the tag before the suffix: a client
that holds `"x-gzip"` is told that `"x"` is what it has. -/
theorem isFresh_confuses :
    ¬∀ (parseHttpDate : Text → Option ℤ) (lines : List (List Member)) (given : Validator)
      (dates : List Text) (lastModified : Option ℤ) (tag : ETag),
      (∃ m ∈ lines.flatten, m.listed = .validator given) →
      Revalidates lines.flatten tag
        (isFresh parseHttpDate ⟨lines.map lineText, dates⟩ (some tag.text) lastModified) := by
  intro h
  have hfalse := (h (fun _ => none) [[bareMember ⟨tagXGzip, none⟩]] ⟨tagXGzip, none⟩ [] none tagX
    ⟨bareMember ⟨tagXGzip, none⟩, by simp, rfl⟩).2
  have hfresh : isFresh (fun _ => none) ⟨[lineText [bareMember ⟨tagXGzip, none⟩]], []⟩
      (some tagX.text) none = true := by decide
  have hany : ¬AnyIn [[bareMember ⟨tagXGzip, none⟩]].flatten := by
    simp [AnyIn, bareMember]
  have hissued : ¬IssuedIn [[bareMember ⟨tagXGzip, none⟩]].flatten tagX := by
    simp [IssuedIn, bareMember, tagXGzip, tagX]
  exact absurd (hfresh.symm.trans (hfalse hany hissued)) (by decide)

end Nitr.Http
