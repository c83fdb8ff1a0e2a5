import Nitr.Http.Weights
import Nitr.Http.Cors
import Mathlib.Data.List.MinMax
import Mathlib.Data.Prod.Lex

/-! # The offer that is chosen

`best_match` in `http/mod.rs`, against the precedence of media ranges: the quality of an offer is
the weight of the most specific range that covers it. -/

namespace Nitr.Accept

open Nitr.Http (Text eqIgnoreAsciiCase isOws isWhitespace_of_isOws)
open Nitr.Validate (F64)
open Unicode (trim)

/-! ## The scan -/

/-- An offer that a range of the header covers. -/
structure Candidate where
  index : ℕ
  q : F64
  specificity : ℕ

/-- The specificity of a range for an offer it covers. -/
def specificity? (range offer : Text) : Option ℕ :=
  if eqIgnoreAsciiCase range offer then some 2
  else if range = "*/*".toList then some 0
  else
    (range.stripSuffix "/*".toList).bind fun main =>
      if (offer.splitOn '/').head?.any (eqIgnoreAsciiCase · main) then some 1 else none

/-- The weight of an item: its last `q` counts, 0 where that is no number. -/
def itemWeight (params : List Text) : F64 :=
  params.foldl (fun q param =>
    match (trim param).stripPrefix "q=".toList with
    | some v => (parseDecimal (trim v)).getD (.finite 0)
    | none => q) (.finite 1)

/-- The range of an item and its weight, unless it is empty or refused. -/
def acceptItem (item : Text) : Option (Text × F64) :=
  match (trim item).splitOn ';' with
  | [] => none
  | first :: params =>
      if trim first = [] then none
      else if (itemWeight params).le (.finite 0) then none
      else some (trim first, itemWeight params)

/-- Heavier first, then more specific, then earlier. -/
def better (best : Option Candidate) (c : Candidate) : Bool :=
  match best with
  | none => true
  | some b => b.q.lt c.q ||
      (c.q.eq b.q &&
        (b.specificity < c.specificity || (c.specificity = b.specificity && c.index < b.index)))

def keepBetter (best : Option Candidate) (c : Candidate) : Option Candidate :=
  if better best c then some c else best

/-- The scan of the offers for one range. -/
def scanOffers (offered : List Text) (range : Text) (q : F64) (best : Option Candidate) :
    Option Candidate :=
  offered.zipIdx.foldl (fun best offer =>
    match specificity? range offer.1 with
    | some specificity => keepBetter best ⟨offer.2, q, specificity⟩
    | none => best) best

/-- `best_match`: the index of the best offer. -/
def bestMatch (accept : Text) (offered : List Text) : Option ℕ :=
  ((accept.splitOn ',').foldl (fun best item =>
    match acceptItem item with
    | some (range, q) => scanOffers offered range q best
    | none => best) none).map Candidate.index

/-! ## The precedence of ranges -/

/-- A part of a media type that is no wildcard. -/
abbrev Token := {text : Text // text ≠ [] ∧ text.all isTchar = true ∧ text ≠ ['*']}

/-- A media range. -/
inductive MediaRange where
  | all
  | main (type : Token)
  | exact (type subtype : Token)

namespace MediaRange

def spell : MediaRange → Text
  | all => "*/*".toList
  | main type => type.1 ++ "/*".toList
  | exact type subtype => type.1 ++ '/' :: subtype.1

/-- How specific a range is. -/
def specificity : MediaRange → ℕ
  | all => 0
  | main _ => 1
  | exact _ _ => 2

/-- The type of an offer. -/
def mainOf (offer : Text) : Text := offer.takeWhile (· ≠ '/')

def covers : MediaRange → Text → Bool
  | all, _ => true
  | main type, offer => eqIgnoreAsciiCase (mainOf offer) type.1
  | exact type subtype, offer => eqIgnoreAsciiCase offer (exact type subtype).spell

end MediaRange

/-- A member of an `Accept` header. -/
structure RangeMember extends Member where
  range : MediaRange
  named : name = range.spell

/-- An `Accept` header: its members and the empty places between commas. -/
abbrev AcceptHeader := List (Blank ⊕ RangeMember)

namespace AcceptHeader

variable (h : AcceptHeader) (offer : Text)

def members : List RangeMember := h.filterMap Sum.getRight?

def toList : WeightedList := h.map (Sum.map id RangeMember.toMember)

def spell : Text := (toList h).spell

/-- The members whose ranges cover an offer. -/
def covering : List RangeMember := (members h).filter (·.range.covers offer)

/-- The most specific of them. -/
def mostSpecific : List RangeMember :=
  (covering h offer).filter fun m =>
    (covering h offer).all fun m' => m'.range.specificity ≤ m.range.specificity

/-- The largest weight of some members, 0 where there are none. -/
def heaviest (ms : List RangeMember) : ℚ := ms.foldr (fun m q => max m.value q) 0

/-- The quality of an offer: the weight of the most specific range that covers it. -/
def quality : ℚ := heaviest (mostSpecific h offer)

/-- The choice follows the precedence of ranges. -/
def Follows (offered : List Text) : Prop :=
  (bestMatch (spell h) offered = none ↔ ∀ o ∈ offered, quality h o = 0) ∧
    ∀ i, bestMatch (spell h) offered = some i →
      ∃ o, offered[i]? = some o ∧ ∀ o' ∈ offered, quality h o' ≤ quality h o

/-- No range that covers the offer is read with a larger weight than the most specific one has. -/
def Ordered : Prop := ∀ m ∈ covering h offer, m.toMember.readValue ≤ quality h offer

/-- Every weight is written with a small letter. -/
def Lowercase : Prop := ∀ m ∈ members h, ∀ w, m.weight = some w → w.upper = false

end AcceptHeader

/-! ## The items of a header -/

/-- The member with no blanks at its ends. -/
def Member.bare (m : Member) : Member where
  before := []
  name := m.name
  gap := if m.weight.isSome then m.gap else []
  weight := m.weight
  after := []
  blank := by
    have h := m.blank
    rw [List.all_append, List.all_append, Bool.and_eq_true, Bool.and_eq_true] at h
    split
    · simpa using h.1.2
    · rfl
  name_ne_nil := m.name_ne_nil
  plain := m.plain

theorem trim_spell (m : Member) : trim m.spell = m.bare.spell := by
  have hblank := m.blank
  rw [List.all_append, List.all_append, Bool.and_eq_true, Bool.and_eq_true] at hblank
  obtain ⟨⟨hbefore, hgap⟩, hafter⟩ := hblank
  have hows : ∀ {text : Text}, text.all isOws = true → ∀ c ∈ text, Unicode.isWhitespace c = true :=
    fun h c hc => isWhitespace_of_isOws (List.all_eq_true.mp h c hc)
  have hbare : m.bare.spell = m.name ++ (if m.weight.isSome then m.gap else []) ++
      m.weight.elim [] fun w => ';' :: w.spell := by simp [Member.spell, Member.bare]
  rw [hbare, Member.spell]
  cases m.weight with
  | none =>
      have htext : m.before ++ m.name ++ m.gap ++ [] ++ m.after =
          m.before ++ m.name ++ (m.gap ++ m.after) := by simp
      have hrest : (m.gap ++ m.after).all isOws = true := by simp [hgap, hafter]
      simpa using (congrArg trim htext).trans (trim_blanks hbefore hrest m.inner)
  | some w =>
      let middle := m.name ++ m.gap ++ ';' :: w.gap ++ w.body
      have htext : m.before ++ m.name ++ m.gap ++ ';' :: w.spell ++ m.after =
          m.before ++ middle ++ m.after := by simp [middle, Weight.spell, Weight.body]
      have hends : middle.trimBy Unicode.isWhitespace = middle := by
        refine List.trimBy_of_ends ?_ ?_
        · intro c hc
          refine isWhitespace_of_graphic (m.inner.graphic c ?_)
          obtain ⟨first, rest, hname⟩ := List.exists_cons_of_ne_nil m.name_ne_nil
          simp only [middle, hname, List.append_assoc, List.cons_append, List.head?_cons,
            Option.some.injEq] at hc
          rw [hname, ← hc]
          exact List.mem_cons_self
        · intro c hc
          refine isWhitespace_of_graphic (w.inner_body.graphic c ?_)
          have hne : w.body ≠ [] := List.cons_ne_nil _ _
          rw [List.getLast?_append_of_ne_nil _ hne] at hc
          exact List.mem_of_getLast? hc
      simp only [Option.elim_some, Option.isSome_some, if_true, htext]
      rw [trim, List.trimBy_blanks (hows hbefore) (hows hafter), hends]
      simp [middle, Weight.spell, Weight.body]

/-- What the scan makes of the weight of a member. -/
theorem itemWeight_body (w : Weight) {param : Text} (h : trim param = w.body) :
    itemWeight [param] = .finite (if w.upper then 1 else w.value) := by
  unfold itemWeight
  rw [List.foldl_cons, List.foldl_nil, h, Weight.body]
  cases w.upper with
  | true =>
      have hnone : ('Q' :: '=' :: w.text).stripPrefix "q=".toList = none := by
        rw [List.stripPrefix_eq_none]
        rintro ⟨rest, hrest⟩
        cases hrest
      simp only [if_true, hnone]
  | false =>
      have hsome : ('q' :: '=' :: w.text).stripPrefix "q=".toList = some w.text :=
        List.stripPrefix_eq_some.mpr rfl
      have htrim : trim w.text = w.text := by
        simpa using @trim_blanks [] w.text [] rfl rfl w.qvalue.inner
      simp only [Bool.false_eq_true, if_false, hsome, htrim, parseDecimal_qvalue w.qvalue,
        Option.getD_some]

/-- What the scan makes of a member. -/
theorem acceptItem_member (m : Member) : acceptItem m.spell =
    if m.readValue ≤ 0 then none else some (m.name, .finite m.readValue) := by
  have hpieces := m.bare.pieces
  rw [← trim_spell] at hpieces
  unfold acceptItem
  cases hsplit : (trim m.spell).splitOn ';' with
  | nil => exact absurd hsplit (List.splitOn_ne_nil ';' _)
  | cons first params =>
      rw [hsplit, List.map_cons, List.cons.injEq] at hpieces
      have hweight : itemWeight params = .finite m.readValue := by
        have hparams : params.map trim = (m.weight.map Weight.body).toList := hpieces.2
        rw [Member.readValue]
        cases hw : m.weight with
        | none =>
            rw [hw] at hparams
            rw [List.map_eq_nil_iff.mp hparams]
            rfl
        | some w =>
            rw [hw] at hparams
            obtain ⟨param, rfl, hparam⟩ := List.map_eq_singleton_iff.mp hparams
            exact itemWeight_body w hparam
      simp only [hpieces.1, hweight, finite_le_finite, decide_eq_true_eq]
      rw [if_neg m.bare.name_ne_nil]
      rfl

theorem acceptItem_blank (blank : Blank) : acceptItem blank.1 = none := by
  have htrim : trim blank.1 = [] := by
    have := @trim_blanks blank.1 [] [] blank.2 rfl ⟨by simp, by simp, by simp⟩
    simpa using this
  unfold acceptItem
  rw [htrim]
  rfl

/-! ## The candidates -/

/-- The weight, the specificity and the place of a candidate, in the order of `better`. -/
abbrev Grade := ℚ ×ₗ ℕ ×ₗ ℕᵒᵈ

def grade (q : ℚ) (specificity index : ℕ) : Grade := toLex (q, toLex (specificity, .toDual index))

theorem grade_lt_grade (q : ℚ) {s s' i i' : ℕ} (hs : s ≤ s') (hi : i' < i) :
    grade q s i < grade q s' i' := by
  rw [grade, grade, Prod.Lex.toLex_lt_toLex]
  refine .inr ⟨rfl, Prod.Lex.toLex_lt_toLex.mpr ?_⟩
  rcases hs.lt_or_eq with hlt | heq
  · exact .inl hlt
  · exact .inr ⟨heq, OrderDual.toDual_lt_toDual.mpr hi⟩

def Grade.candidate (g : Grade) : Candidate :=
  ⟨OrderDual.ofDual (ofLex (ofLex g).2).2, .finite (ofLex g).1, (ofLex (ofLex g).2).1⟩

theorem better_candidate (a b : Grade) : better (some a.candidate) b.candidate = decide (a < b) := by
  have hdual : ∀ i j : ℕᵒᵈ, i < j ↔ OrderDual.ofDual j < OrderDual.ofDual i := fun _ _ => Iff.rfl
  rw [Bool.eq_iff_iff, decide_eq_true_eq, Prod.Lex.lt_iff, Prod.Lex.lt_iff, hdual]
  rw [@eq_comm _ (ofLex a).1, @eq_comm _ (ofLex (ofLex a).2).1]
  simp only [better, Grade.candidate, finite_lt_finite, finite_eq_finite, Bool.or_eq_true,
    Bool.and_eq_true, decide_eq_true_eq]
  exact or_congr_right (and_congr_right fun _ =>
    or_congr decide_eq_true_iff (and_congr decide_eq_true_iff decide_eq_true_iff))

theorem keepBetter_candidate (best : Option Grade) (g : Grade) :
    keepBetter (best.map Grade.candidate) g.candidate =
      (List.argAux (fun b a => a < b) best g).map Grade.candidate := by
  cases best with
  | none => rfl
  | some b =>
      rw [Option.map_some, keepBetter, better_candidate, List.argAux]
      by_cases h : b < g
      · simp [h]
      · simp [h]

namespace AcceptHeader

/-- The candidates for one range. -/
def grades (offered : List Text) (m : Member) : List Grade :=
  offered.zipIdx.filterMap fun o =>
    (specificity? m.name o.1).map fun s => grade m.readValue s o.2

/-- The candidates of a header. -/
def candidates (h : AcceptHeader) (offered : List Text) : List Grade :=
  (members h).flatMap fun m => if m.toMember.readValue ≤ 0 then [] else grades offered m.toMember

theorem scanOffers_grades (offered : List Text) (m : Member) (best : Option Grade) :
    scanOffers offered m.name (.finite m.readValue) (best.map Grade.candidate) =
      ((grades offered m).foldl (List.argAux fun b a => a < b) best).map Grade.candidate := by
  unfold scanOffers grades
  induction offered.zipIdx generalizing best with
  | nil => rfl
  | cons o offers ih =>
      rw [List.foldl_cons, List.filterMap_cons]
      cases specificity? m.name o.1 with
      | none => exact ih best
      | some s =>
          rw [Option.map_some, List.foldl_cons, ← ih, ← keepBetter_candidate]
          rfl

/-- The choice is the best candidate. -/
theorem bestMatch_spell (h : AcceptHeader) (offered : List Text) : bestMatch (spell h) offered =
    ((candidates h offered).argmax id).map fun g => g.candidate.index := by
  let step (best : Option Candidate) (item : Text) : Option Candidate :=
    match acceptItem item with
    | some (range, q) => scanOffers offered range q best
    | none => best
  have hplaces : ∀ (h : AcceptHeader) (best : Option Grade),
      ((toList h).map spellPlace).foldl step (best.map Grade.candidate) =
        ((candidates h offered).foldl (List.argAux fun b a => a < b) best).map
          Grade.candidate := by
    intro h
    induction h with
    | nil => exact fun _ => rfl
    | cons place h ih =>
        intro best
        cases place with
        | inl blank =>
            have hstep : step (best.map Grade.candidate) blank.1 = best.map Grade.candidate := by
              simp only [step, acceptItem_blank]
            exact (congrArg (List.foldl step · _) hstep).trans (ih best)
        | inr m =>
            have hstep : step (best.map Grade.candidate) m.toMember.spell =
                ((if m.toMember.readValue ≤ 0 then [] else grades offered m.toMember).foldl
                  (List.argAux fun b a => a < b) best).map Grade.candidate := by
              simp only [step, acceptItem_member]
              by_cases hzero : m.toMember.readValue ≤ 0
              · simp only [hzero, if_true, List.foldl_nil]
              · simp only [hzero, if_false]
                exact scanOffers_grades offered m.toMember best
            have hcons : candidates (.inr m :: h) offered =
                (if m.toMember.readValue ≤ 0 then [] else grades offered m.toMember) ++
                  candidates h offered := rfl
            rw [hcons, List.foldl_append, ← ih, ← hstep]
            rfl
  have hscan : bestMatch (spell h) offered =
      (((spell h).splitOn ',').foldl step none).map Candidate.index := rfl
  rw [hscan]
  cases h with
  | nil =>
      have hitem : step none [] = none := rfl
      simp [spell, toList, WeightedList.spell, hitem, candidates, members]
  | cons place h =>
      have hsplit : (spell (place :: h)).splitOn ',' = (toList (place :: h)).map spellPlace :=
        splitOn_spell _ (List.cons_ne_nil _ _)
      rw [hsplit, ← @Option.map_none _ _ Grade.candidate, hplaces, Option.map_map]
      rfl

/-- The candidates are the offers that a range covers. -/
theorem mem_candidates {h : AcceptHeader} {offered : List Text} {g : Grade} :
    g ∈ candidates h offered ↔ ∃ m ∈ members h, 0 < m.toMember.readValue ∧
      ∃ o i s, offered[i]? = some o ∧ specificity? m.name o = some s ∧
        grade m.toMember.readValue s i = g := by
  rw [candidates, List.mem_flatMap]
  refine exists_congr fun m => and_congr_right fun _ => ?_
  by_cases hzero : m.toMember.readValue ≤ 0
  · simp [hzero, not_lt_of_ge hzero]
  · rw [if_neg hzero, grades, List.mem_filterMap]
    simp [lt_of_not_ge hzero, List.mem_zipIdx_iff_getElem?]

end AcceptHeader

/-! ## Ranges and offers -/

theorem toLower_eq_slash {c : Char} : c.toLower = '/' ↔ c = '/' := by
  unfold Char.toLower
  split
  · rename_i h
    have hshift : ('a'.val - 'A'.val : UInt32).toNat = 32 := rfl
    have hA : ('A'.val : UInt32).toNat = 65 := rfl
    have hZ : ('Z'.val : UInt32).toNat = 90 := rfl
    have hslash : ('/'.val : UInt32).toNat = 47 := rfl
    simp only [ge_iff_le, UInt32.le_iff_toNat_le, hA, hZ] at h
    rw [Char.ext_iff, Char.ext_iff, ← UInt32.toNat_inj, ← UInt32.toNat_inj, UInt32.toNat_add,
      hshift, hslash]
    omega
  · exact Iff.rfl

namespace MediaRange

theorem toAsciiLowercase_mainOf (offer : Text) :
    Http.toAsciiLowercase (mainOf offer) = mainOf (Http.toAsciiLowercase offer) := by
  have hslash : ((fun c => decide (c ≠ '/')) ∘ Char.toLower) = fun c => decide (c ≠ '/') := by
    funext c
    exact decide_eq_decide.mpr (not_congr toLower_eq_slash)
  rw [mainOf, mainOf, Http.toAsciiLowercase, Http.toAsciiLowercase, List.takeWhile_map, hslash]

theorem mainOf_append {main rest : Text} (h : '/' ∉ main) : mainOf (main ++ '/' :: rest) = main := by
  have hmain : ∀ c ∈ main, decide (c ≠ '/') = true := by
    intro c hc
    refine decide_eq_true ?_
    rintro rfl
    exact h hc
  rw [mainOf, List.takeWhile_append_of_pos hmain, List.takeWhile_cons_of_neg (by simp),
    List.append_nil]

theorem mainOf_eq_self {main : Text} (h : '/' ∉ main) : mainOf main = main := by
  refine List.takeWhile_eq_self_iff.mpr ?_
  intro c hc
  refine decide_eq_true ?_
  rintro rfl
  exact h hc

theorem slash_not_mem_mainOf (offer : Text) : '/' ∉ mainOf offer := by
  intro h
  simpa using List.mem_takeWhile_imp h

theorem head_splitOn (offer : Text) : (offer.splitOn '/').head? = some (mainOf offer) := by
  have hsplit : offer = mainOf offer ++ offer.dropWhile (· ≠ '/') :=
    List.takeWhile_append_dropWhile.symm
  cases hrest : offer.dropWhile (· ≠ '/') with
  | nil =>
      rw [hrest, List.append_nil] at hsplit
      rw [hsplit, List.splitOn_eq_singleton (slash_not_mem_mainOf offer),
        mainOf_eq_self (slash_not_mem_mainOf offer)]
      rfl
  | cons c rest =>
      have hc : c = '/' := by
        have := List.head?_dropWhile_not (· ≠ '/') offer
        rw [hrest] at this
        simpa using this
      rw [hrest, hc] at hsplit
      rw [hsplit, List.splitOn_append_cons_self_of_not_mem (slash_not_mem_mainOf offer),
        mainOf_append (slash_not_mem_mainOf offer)]
      rfl

theorem slash_not_mem (type : Token) : '/' ∉ type.1 := by
  intro h
  have := List.all_eq_true.mp type.2.2.1 '/' h
  cases this

/-- A range covers the offer that is written like it. -/
theorem covers_of_eq {range : MediaRange} {offer : Text}
    (h : eqIgnoreAsciiCase range.spell offer = true) : range.covers offer = true := by
  have heq := of_decide_eq_true h
  cases range with
  | all => rfl
  | main type =>
      refine decide_eq_true ?_
      rw [toAsciiLowercase_mainOf, ← heq, ← toAsciiLowercase_mainOf, spell]
      exact congrArg _ (mainOf_append (slash_not_mem type))
  | exact type subtype => exact decide_eq_true heq.symm

end MediaRange

/-- The specificity the scan gives a range that covers an offer. -/
theorem specificity?_spell (range : MediaRange) (offer : Text) : specificity? range.spell offer =
    if eqIgnoreAsciiCase range.spell offer then some 2
    else if range.covers offer then some range.specificity else none := by
  unfold specificity?
  split
  · rfl
  rename_i hne
  cases range with
  | all => rfl
  | main type =>
      have hall : (MediaRange.main type).spell ≠ "*/*".toList := by
        intro h
        refine type.2.2.2 ?_
        exact List.append_cancel_right (h.trans (@rfl _ (['*'] ++ "/*".toList)))
      have hstrip : (MediaRange.main type).spell.stripSuffix "/*".toList = some type.1 :=
        List.stripSuffix_eq_some.mpr rfl
      rw [if_neg hall, hstrip, Option.bind_some, MediaRange.head_splitOn]
      rfl
  | exact type subtype =>
      have hcovers : (MediaRange.exact type subtype).covers offer = false := by
        rw [Bool.not_eq_true] at hne
        exact (decide_eq_decide.mpr eq_comm).trans hne
      have hlast : ∀ main, (MediaRange.exact type subtype).spell ≠ main ++ "/*".toList := by
        intro main h
        have hsplit := congrArg (List.rsplitOnce '/') h
        have hstar : '/' ∉ ['*'] := by decide
        rw [MediaRange.spell, List.rsplitOnce_append (MediaRange.slash_not_mem subtype)] at hsplit
        have := hsplit.trans (@List.rsplitOnce_append _ _ '/' main ['*'] hstar)
        exact subtype.2.2.2 (Prod.mk.inj (Option.some.inj this)).2
      have hstrip : (MediaRange.exact type subtype).spell.stripSuffix "/*".toList = none :=
        Option.eq_none_iff_forall_not_mem.mpr fun main h =>
          hlast main (List.stripSuffix_eq_some.mp h)
      have hall : (MediaRange.exact type subtype).spell ≠ "*/*".toList := hlast ['*']
      rw [if_neg hall, hstrip, hcovers]
      rfl

/-- The scan sees every range that covers an offer, at least as specific as it is. -/
theorem RangeMember.specificity?_of_covers {m : RangeMember} {offer : Text}
    (h : m.range.covers offer = true) :
    ∃ s, specificity? m.name offer = some s ∧ m.range.specificity ≤ s := by
  rw [m.named, specificity?_spell, if_pos h]
  split
  · refine ⟨2, rfl, ?_⟩
    cases m.range <;> simp [MediaRange.specificity]
  · exact ⟨m.range.specificity, rfl, le_refl _⟩

theorem RangeMember.covers_of_specificity? {m : RangeMember} {offer : Text} {s : ℕ}
    (h : specificity? m.name offer = some s) : m.range.covers offer = true := by
  rw [m.named, specificity?_spell] at h
  split at h
  · rename_i heq
    exact MediaRange.covers_of_eq heq
  · split at h
    · assumption
    · cases h

theorem eqIgnoreAsciiCase_of_length {a b : Text} (h : a.length ≠ b.length) :
    eqIgnoreAsciiCase a b = false := by
  refine decide_eq_false ?_
  intro heq
  have hlength := congrArg List.length heq
  rw [Http.toAsciiLowercase, Http.toAsciiLowercase, List.length_map, List.length_map] at hlength
  exact h hlength

/-- An offer longer than a range is not written like it. -/
theorem RangeMember.specificity?_of_length {m : RangeMember} {offer : Text}
    (h : m.name.length < offer.length) : specificity? m.name offer =
      if m.range.covers offer then some m.range.specificity else none := by
  rw [m.named] at h ⊢
  rw [specificity?_spell, eqIgnoreAsciiCase_of_length h.ne, if_neg Bool.false_ne_true]

namespace AcceptHeader

/-! ## Qualities -/

theorem le_heaviest {ms : List RangeMember} {m : RangeMember} (h : m ∈ ms) :
    m.value ≤ heaviest ms := by
  induction ms with
  | nil => cases h
  | cons m' ms ih =>
      rcases List.mem_cons.mp h with rfl | h
      · exact le_max_left _ _
      · exact (ih h).trans (le_max_right _ _)

theorem heaviest_nonneg (ms : List RangeMember) : 0 ≤ heaviest ms := by
  cases ms with
  | nil => exact le_refl 0
  | cons m ms => exact m.value_nonneg.trans (le_max_left _ _)

theorem exists_heaviest {ms : List RangeMember} (h : heaviest ms ≠ 0) :
    ∃ m ∈ ms, m.value = heaviest ms := by
  induction ms with
  | nil => exact absurd rfl h
  | cons m ms ih =>
      have hcons : heaviest (m :: ms) = max m.value (heaviest ms) := rfl
      rcases le_total (heaviest ms) m.value with hle | hle
      · exact ⟨m, List.mem_cons_self, by rw [hcons, max_eq_left hle]⟩
      · rw [hcons, max_eq_right hle] at h ⊢
        obtain ⟨m', hm', hvalue⟩ := ih h
        exact ⟨m', List.mem_cons_of_mem _ hm', hvalue⟩

theorem mem_covering {h : AcceptHeader} {offer : Text} {m : RangeMember} :
    m ∈ covering h offer ↔ m ∈ members h ∧ m.range.covers offer = true := List.mem_filter

theorem mem_mostSpecific {h : AcceptHeader} {offer : Text} {m : RangeMember} :
    m ∈ mostSpecific h offer ↔ m ∈ covering h offer ∧
      ∀ m' ∈ covering h offer, m'.range.specificity ≤ m.range.specificity := by
  rw [mostSpecific, List.mem_filter, List.all_eq_true]
  simp only [decide_eq_true_eq]

/-- An offer of some quality is a candidate with at least that weight. -/
theorem candidate_of_quality {h : AcceptHeader} {offered : List Text} {i : ℕ} {offer : Text}
    (hoffer : offered[i]? = some offer) (hquality : quality h offer ≠ 0) :
    ∃ g ∈ candidates h offered, quality h offer ≤ (ofLex g).1 := by
  obtain ⟨m, hm, hvalue⟩ := exists_heaviest hquality
  obtain ⟨hmem, hcovers⟩ := mem_covering.mp (mem_mostSpecific.mp hm).1
  obtain ⟨s, hs, -⟩ := m.specificity?_of_covers hcovers
  have hle : quality h offer ≤ m.toMember.readValue := by
    rw [quality, ← hvalue]
    exact m.value_le_readValue
  have hpos : 0 < quality h offer := lt_of_le_of_ne (heaviest_nonneg _) (Ne.symm hquality)
  exact ⟨_, mem_candidates.mpr ⟨m, hmem, hpos.trans_le hle, offer, i, s, hoffer, hs, rfl⟩, hle⟩

/-! ## The choice -/

/-- Where no broad range outweighs a specific one, the choice follows the precedence. -/
theorem follows_of_ordered {h : AcceptHeader} {offered : List Text}
    (hordered : ∀ o ∈ offered, Ordered h o) : Follows h offered := by
  have hweight : ∀ g ∈ candidates h offered, ∃ o, offered[g.candidate.index]? = some o ∧
      0 < (ofLex g).1 ∧ (ofLex g).1 ≤ quality h o := by
    intro g hg
    obtain ⟨m, hm, hpos, o, i, s, ho, hs, rfl⟩ := mem_candidates.mp hg
    refine ⟨o, ho, hpos, ?_⟩
    exact hordered o (List.mem_of_getElem? ho) m
      (mem_covering.mpr ⟨hm, RangeMember.covers_of_specificity? hs⟩)
  rw [Follows, bestMatch_spell]
  constructor
  · rw [Option.map_eq_none_iff, List.argmax_eq_none]
    constructor
    · intro hnone o ho
      obtain ⟨i, hi⟩ := List.mem_iff_getElem?.mp ho
      by_contra hquality
      obtain ⟨g, hg, -⟩ := candidate_of_quality hi hquality
      rw [hnone] at hg
      cases hg
    · intro hzero
      refine List.eq_nil_iff_forall_not_mem.mpr ?_
      intro g hg
      obtain ⟨o, ho, hpos, hle⟩ := hweight g hg
      rw [hzero o (List.mem_of_getElem? ho)] at hle
      exact absurd hpos (not_lt_of_ge hle)
  · intro i hi
    obtain ⟨g, hg, rfl⟩ := Option.map_eq_some_iff.mp hi
    obtain ⟨o, ho, -, hle⟩ := hweight g (List.argmax_mem hg)
    refine ⟨o, ho, ?_⟩
    intro o' ho'
    obtain ⟨i', hi'⟩ := List.mem_iff_getElem?.mp ho'
    by_cases hquality : quality h o' = 0
    · rw [hquality]
      exact heaviest_nonneg _
    · obtain ⟨g', hg', hle'⟩ := candidate_of_quality hi' hquality
      have hmax : g' ≤ g := List.le_of_mem_argmax hg' hg
      exact hle'.trans ((Prod.Lex.monotone_fst g' g hmax).trans hle)

/-- Some length is beyond that of every range. -/
theorem exists_length (h : AcceptHeader) : ∃ n, ∀ m ∈ members h, m.name.length < n := by
  induction members h with
  | nil => exact ⟨0, by simp⟩
  | cons m ms ih =>
      obtain ⟨n, hn⟩ := ih
      refine ⟨max n (m.name.length + 1), List.forall_mem_cons.mpr ⟨by omega, ?_⟩⟩
      intro m' hm'
      exact (hn m' hm').trans_le (le_max_left _ _)

/-- A range with a wildcard covers an offer that only it and broader ranges cover. -/
theorem exists_offer (h : AcceptHeader) (offer : Text) {range : MediaRange}
    (hbroad : range.specificity ≤ 1) :
    ∃ offer', ∀ m ∈ members h, m.name.length < offer'.length ∧
      m.range.covers offer' =
        (m.range.covers offer && decide (m.range.specificity ≤ range.specificity)) := by
  obtain ⟨n, hn⟩ := exists_length h
  have hfiller : '/' ∉ List.replicate n 'x' := by
    intro hslash
    cases List.eq_of_mem_replicate hslash
  cases range with
  | exact type subtype =>
      exact absurd hbroad (by simp [MediaRange.specificity])
  | all =>
      refine ⟨List.replicate n 'x' ++ '/' :: [], ?_⟩
      intro m hm
      have hname := hn m hm
      have hlength : m.name.length < (List.replicate n 'x' ++ '/' :: []).length := by
        rw [List.length_append, List.length_replicate]
        omega
      refine ⟨hlength, ?_⟩
      rw [m.named] at hlength hname
      cases hrange : m.range with
      | all => rfl
      | main type =>
          rw [hrange, MediaRange.spell, List.length_append] at hname
          have hne : (MediaRange.mainOf (List.replicate n 'x' ++ '/' :: [])).length ≠
              type.1.length := by
            rw [MediaRange.mainOf_append hfiller, List.length_replicate]
            omega
          rw [MediaRange.covers, eqIgnoreAsciiCase_of_length hne]
          simp [MediaRange.specificity]
      | exact type subtype =>
          rw [hrange] at hlength
          rw [MediaRange.covers, eqIgnoreAsciiCase_of_length hlength.ne']
          simp [MediaRange.specificity]
  | main type =>
      refine ⟨MediaRange.mainOf offer ++ '/' :: List.replicate n 'x', ?_⟩
      intro m hm
      have hlength : m.name.length <
          (MediaRange.mainOf offer ++ '/' :: List.replicate n 'x').length := by
        have := hn m hm
        rw [List.length_append, List.length_cons, List.length_replicate]
        omega
      refine ⟨hlength, ?_⟩
      rw [m.named] at hlength
      cases hrange : m.range with
      | all => rfl
      | main type' =>
          rw [MediaRange.covers, MediaRange.mainOf_append (MediaRange.slash_not_mem_mainOf offer)]
          simp [MediaRange.covers, MediaRange.specificity]
      | exact type' subtype =>
          rw [hrange] at hlength
          rw [MediaRange.covers, eqIgnoreAsciiCase_of_length hlength.ne']
          simp [MediaRange.specificity]

/-- A broad range that outweighs a more specific one makes the choice go wrong for some offers. -/
theorem ordered_of_follows {h : AcceptHeader} (hlower : Lowercase h)
    (hfollows : ∀ offered, Follows h offered) (offer : Text) : Ordered h offer := by
  have hread : ∀ m ∈ members h, m.toMember.readValue = m.value := by
    intro m hm
    rw [Member.readValue, Member.value]
    cases hw : m.weight with
    | none => rfl
    | some w => simp [hlower m hm w hw]
  intro r hr
  obtain ⟨hmem, hcovers⟩ := mem_covering.mp hr
  rw [hread r hmem]
  by_contra hheavier
  rw [not_le] at hheavier
  have hbroad : r.range.specificity ≤ 1 := by
    by_contra hexact
    refine absurd (le_heaviest (mem_mostSpecific.mpr ⟨hr, ?_⟩)) (not_le_of_gt hheavier)
    intro m' _
    have htwo : m'.range.specificity ≤ 2 := by cases m'.range <;> simp [MediaRange.specificity]
    omega
  obtain ⟨offer', hoffer'⟩ := exists_offer h offer hbroad
  -- the range decides the quality of the other offer
  have hquality : r.value ≤ quality h offer' := by
    refine le_heaviest (mem_mostSpecific.mpr ⟨mem_covering.mpr ⟨hmem, ?_⟩, ?_⟩)
    · rw [(hoffer' r hmem).2, hcovers]
      simp
    · intro m hm
      obtain ⟨hm, hmcovers⟩ := mem_covering.mp hm
      rw [(hoffer' m hm).2, Bool.and_eq_true, decide_eq_true_eq] at hmcovers
      exact hmcovers.2
  have hpos : 0 < quality h offer' := (heaviest_nonneg _).trans_lt (hheavier.trans_le hquality)
  obtain ⟨hnone, hsome⟩ := hfollows [offer, offer']
  cases hmatch : bestMatch (spell h) [offer, offer'] with
  | none => exact hpos.ne' (hnone.mp hmatch offer' (by simp))
  | some i =>
      obtain ⟨o, ho, hmax⟩ := hsome i hmatch
      rw [bestMatch_spell] at hmatch
      obtain ⟨g, hg, hindex⟩ := Option.map_eq_some_iff.mp hmatch
      obtain ⟨m, hm, hmpos, o', i', s, ho', hs, rfl⟩ := mem_candidates.mp (List.argmax_mem hg)
      change i' = i at hindex
      subst hindex
      obtain rfl : o' = o := Option.some.inj (ho'.symm.trans ho)
      match i', ho' with
      | 0, ho' =>
          obtain rfl : offer = o' := Option.some.inj ho'
          exact absurd (hmax offer' (by simp)) (not_le_of_gt (hheavier.trans_le hquality))
      | 1, ho' =>
          -- what covers the second offer covers the first one as well as that
          obtain rfl : offer' = o' := Option.some.inj ho'
          obtain ⟨hlength, hboth⟩ := hoffer' m hm
          have hmcovers := RangeMember.covers_of_specificity? hs
          rw [RangeMember.specificity?_of_length hlength, if_pos hmcovers, Option.some.injEq] at hs
          rw [hboth, Bool.and_eq_true] at hmcovers
          obtain ⟨s', hs', hle⟩ := m.specificity?_of_covers hmcovers.1
          have hfirst : grade m.toMember.readValue s' 0 ∈ candidates h [offer, offer'] :=
            mem_candidates.mpr ⟨m, hm, hmpos, offer, 0, s', rfl, hs', rfl⟩
          refine absurd (List.le_of_mem_argmax hfirst hg) (not_le_of_gt ?_)
          exact grade_lt_grade _ (hs ▸ hle) Nat.zero_lt_one

/-- Where no range outweighs a more specific one that covers the same offer, the choice follows
the precedence of ranges; for a header with small letters, only there does it for all offers. -/
theorem bestMatch_follows (h : AcceptHeader) :
    (∀ offered, (∀ o ∈ offered, Ordered h o) → Follows h offered) ∧
      (Lowercase h → ((∀ offered, Follows h offered) ↔ ∀ o, Ordered h o)) :=
  ⟨fun _ => follows_of_ordered, fun hlower =>
    ⟨ordered_of_follows hlower, fun hordered _ => follows_of_ordered fun o _ => hordered o⟩⟩

/-- The header `text/html;q=0, */*`. -/
def refusedHtml : AcceptHeader :=
  let html : Token := ⟨"html".toList, by decide, by decide, by decide⟩
  let text : Token := ⟨"text".toList, by decide, by decide, by decide⟩
  let refused : Weight := ⟨[], false, ['0'], 0, rfl, .zero⟩
  [.inr ⟨⟨[], "text/html".toList, [], some refused, [], rfl, by decide, by decide⟩,
      .exact text html, rfl⟩,
    .inr ⟨⟨[' '], "*/*".toList, [], none, [], rfl, by decide, by decide⟩, .all, rfl⟩]

theorem refused_html_chosen : spell refusedHtml = "text/html;q=0, */*".toList ∧
    bestMatch (spell refusedHtml) ["text/html".toList] = some 0 ∧
      quality refusedHtml "text/html".toList = 0 ∧
        ¬Follows refusedHtml ["text/html".toList] := by
  have hmatch : bestMatch (spell refusedHtml) ["text/html".toList] = some 0 := by decide +kernel
  have hquality : quality refusedHtml "text/html".toList = 0 := by decide +kernel
  refine ⟨by decide, hmatch, hquality, ?_⟩
  rintro ⟨hnone, -⟩
  have := hnone.mpr (by simpa using hquality)
  rw [hmatch] at this
  cases this

end AcceptHeader

end Nitr.Accept
