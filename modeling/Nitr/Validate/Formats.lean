import Nitr.Lib.Decimal
import Nitr.Lib.Separated

/-! # Version and language tags

The grammars of `validate/format.rs` with optional parts: each accepts exactly the texts of its
written form, and no text is written in two ways. -/

namespace Nitr.Validate.Formats

open Separated (Chain)

abbrev Text := List Char

/-! ## The characters of a tag -/

/-- An ASCII letter. -/
def IsLetter (c : Char) : Prop := 'A' ≤ c ∧ c ≤ 'Z' ∨ 'a' ≤ c ∧ c ≤ 'z'

def IsDigit (c : Char) : Prop := '0' ≤ c ∧ c ≤ '9'

abbrev Letter := { c : Char // IsLetter c }

abbrev Digit := { c : Char // IsDigit c }

theorem isAlpha_iff {c : Char} : c.isAlpha = true ↔ IsLetter c := by
  unfold Char.isAlpha Char.isUpper Char.isLower IsLetter
  rw [Bool.or_eq_true, decide_eq_true_iff, Bool.and_eq_true, decide_eq_true_iff, decide_eq_true_iff]
  exact Iff.rfl

theorem isDigit_iff {c : Char} : c.isDigit = true ↔ IsDigit c := by
  unfold Char.isDigit IsDigit
  rw [Bool.and_eq_true, decide_eq_true_iff, decide_eq_true_iff]
  exact Iff.rfl

/-! ## Semantic versions -/

/-- A semver numeric identifier: digits without a leading zero. -/
def semverNumeric (part : Text) : Bool :=
  part ≠ [] && part.all Char.isDigit && (part = ['0'] || part.head? ≠ some '0')

def isIdentifierChar (c : Char) : Bool := c.isAlphanum || c = '-'

/-- One identifier of a prerelease or of a build. -/
def semverIdentifier (prerelease : Bool) (id : Text) : Bool :=
  id ≠ [] && id.all isIdentifierChar &&
    (!prerelease || !id.all Char.isDigit || semverNumeric id)

def semverIdentifiers (part : Text) (prerelease : Bool) : Bool :=
  part ≠ [] && (part.splitOn '.').all (semverIdentifier prerelease)

/-- What stands before a mark, and what behind it if it is there. -/
def cut (mark : Char) (value : Text) : Text × Option Text :=
  match value.splitOnce mark with
  | some (before, after) => (before, some after)
  | none => (value, none)

def isSemver (value : Text) : Bool :=
  let (core, build) := cut '+' value
  let (core, pre) := cut '-' core
  let ok :=
    match core.splitOn '.' with
    | [a, b, c] => semverNumeric a && semverNumeric b && semverNumeric c
    | _ => false
  ok && pre.all (semverIdentifiers · true) && build.all (semverIdentifiers · false)

/-! ### As they are written -/

/-- A character of an identifier. -/
def InIdentifier (c : Char) : Prop := IsLetter c ∨ IsDigit c ∨ c = '-'

/-- An identifier of a prerelease: a number, or a word that is none. -/
inductive PreIdentifier where
  | number (n : ℕ)
  | word (text : Text) (chars : ∀ c ∈ text, InIdentifier c) (nondigit : ∃ c ∈ text, ¬IsDigit c)

def PreIdentifier.spell : PreIdentifier → Text
  | number n => Nat.toDigits 10 n
  | word text _ _ => text

/-- An identifier of a build. -/
@[ext] structure BuildIdentifier where
  spell : Text
  chars : ∀ c ∈ spell, InIdentifier c
  ne_nil : spell ≠ []

/-- A version as it is written. -/
@[ext] structure Version where
  major : ℕ
  minor : ℕ
  patch : ℕ
  pre : Option (Chain PreIdentifier)
  build : Option (Chain BuildIdentifier)

namespace Version

def core (v : Version) : Text :=
  Nat.toDigits 10 v.major ++ '.' :: (Nat.toDigits 10 v.minor ++ '.' :: Nat.toDigits 10 v.patch)

/-- A part behind its mark, if it is there. -/
def marked (mark : Char) : Option Text → Text
  | some part => mark :: part
  | none => []

def preText (v : Version) : Option Text := v.pre.map (Chain.text PreIdentifier.spell '.')

def buildText (v : Version) : Option Text := v.build.map (Chain.text BuildIdentifier.spell '.')

def text (v : Version) : Text := v.core ++ marked '-' v.preText ++ marked '+' v.buildText

end Version

theorem semverNumeric_iff {part : Text} :
    semverNumeric part = true ↔ ∃ n, part = Nat.toDigits 10 n :=
  Decimal.isCanonical_iff

theorem isIdentifierChar_iff {c : Char} : isIdentifierChar c = true ↔ InIdentifier c := by
  unfold isIdentifierChar Char.isAlphanum InIdentifier
  rw [Bool.or_eq_true, Bool.or_eq_true, isAlpha_iff, isDigit_iff, decide_eq_true_iff, or_assoc]

theorem isDigit_of_mem {n : ℕ} {c : Char} (h : c ∈ Nat.toDigits 10 n) : IsDigit c :=
  isDigit_iff.mp (Nat.isDigit_of_mem_toDigits (by decide) (by decide) h)

theorem PreIdentifier.inIdentifier {p : PreIdentifier} {c : Char} (h : c ∈ p.spell) :
    InIdentifier c := by
  cases p with
  | number n => exact .inr (.inl (isDigit_of_mem h))
  | word text chars nondigit => exact chars c h

theorem PreIdentifier.spell_injective : Function.Injective spell := by
  have hmixed : ∀ {n : ℕ} {text : Text}, (∃ c ∈ text, ¬IsDigit c) → Nat.toDigits 10 n ≠ text := by
    rintro n text ⟨c, hc, hnot⟩ rfl
    exact hnot (isDigit_of_mem hc)
  intro p q h
  cases p with
  | number n =>
      cases q with
      | number m => exact congrArg number (Decimal.toDigits_injective h)
      | word text chars nondigit => exact absurd h (hmixed nondigit)
  | word text chars nondigit =>
      cases q with
      | number m => exact absurd h.symm (hmixed nondigit)
      | word text' chars' nondigit' =>
          obtain rfl : text = text' := h
          rfl

theorem BuildIdentifier.spell_injective : Function.Injective spell :=
  fun _ _ h => BuildIdentifier.ext h

theorem not_inIdentifier_dot : ¬InIdentifier '.' := by
  rw [← isIdentifierChar_iff]
  decide

theorem not_inIdentifier_plus : ¬InIdentifier '+' := by
  rw [← isIdentifierChar_iff]
  decide

theorem PreIdentifier.dot_not_mem (p : PreIdentifier) : '.' ∉ p.spell := fun h =>
  not_inIdentifier_dot (p.inIdentifier h)

theorem BuildIdentifier.dot_not_mem (b : BuildIdentifier) : '.' ∉ b.spell := fun h =>
  not_inIdentifier_dot (b.chars _ h)

theorem chars_iff {id : Text} : id.all isIdentifierChar = true ↔ ∀ c ∈ id, InIdentifier c := by
  simp only [List.all_eq_true, isIdentifierChar_iff]

theorem nondigit_iff {id : Text} : id.all Char.isDigit = false ↔ ∃ c ∈ id, ¬IsDigit c := by
  simp only [← isDigit_iff, List.all_eq_false]

theorem toDigits_chars (n : ℕ) : ∀ c ∈ Nat.toDigits 10 n, InIdentifier c := fun _ hc =>
  .inr (.inl (isDigit_of_mem hc))

theorem semverIdentifier_pre {id : Text} :
    semverIdentifier true id = true ↔ ∃ p : PreIdentifier, p.spell = id := by
  unfold semverIdentifier
  rw [Bool.and_eq_true, Bool.and_eq_true, chars_iff, Bool.not_true, Bool.false_or,
    decide_eq_true_iff]
  constructor
  · rintro ⟨⟨-, hchars⟩, h⟩
    cases hdigits : id.all Char.isDigit with
    | false => exact ⟨.word id hchars (nondigit_iff.mp hdigits), rfl⟩
    | true =>
        rw [hdigits] at h
        obtain ⟨n, rfl⟩ := semverNumeric_iff.mp h
        exact ⟨.number n, rfl⟩
  · rintro ⟨p, rfl⟩
    cases p with
    | number n =>
        refine ⟨⟨Nat.toDigits_ne_nil, toDigits_chars n⟩, ?_⟩
        rw [PreIdentifier.spell, semverNumeric_iff.mpr ⟨n, rfl⟩, Bool.or_true]
    | word text chars nondigit =>
        refine ⟨⟨?_, chars⟩, ?_⟩
        · obtain ⟨c, hc, -⟩ := nondigit
          exact List.ne_nil_of_mem hc
        · rw [PreIdentifier.spell, nondigit_iff.mpr nondigit]
          rfl

theorem semverIdentifier_build {id : Text} :
    semverIdentifier false id = true ↔ ∃ b : BuildIdentifier, b.spell = id := by
  unfold semverIdentifier
  rw [Bool.and_eq_true, Bool.and_eq_true, chars_iff, decide_eq_true_iff]
  constructor
  · rintro ⟨⟨hne, hchars⟩, -⟩
    exact ⟨⟨id, hchars, hne⟩, rfl⟩
  · rintro ⟨b, rfl⟩
    exact ⟨⟨b.ne_nil, b.chars⟩, rfl⟩

/-- A part is made of identifiers, which are never empty. -/
theorem semverIdentifiers_iff {β : Type} {spell : β → Text} {prerelease : Bool}
    (hdot : ∀ b, '.' ∉ spell b)
    (hok : ∀ id, semverIdentifier prerelease id = true ↔ ∃ b, spell b = id) {part : Text} :
    semverIdentifiers part prerelease = true ↔ ∃ chain : Chain β, chain.text spell '.' = part := by
  unfold semverIdentifiers
  rw [Bool.and_eq_true, Chain.all_splitOn_iff hdot hok]
  constructor
  · exact And.right
  · intro h
    refine ⟨decide_eq_true fun hnil => ?_, h⟩
    subst hnil
    rw [← Chain.all_splitOn_iff hdot hok] at h
    cases h

theorem cut_spec (mark : Char) (value : Text) :
    mark ∉ (cut mark value).1 ∧
      value = (cut mark value).1 ++ Version.marked mark (cut mark value).2 := by
  unfold cut
  cases hsplit : value.splitOnce mark with
  | none => exact ⟨List.splitOnce_eq_none.mp hsplit, (List.append_nil _).symm⟩
  | some parts =>
      obtain ⟨heq, hmark⟩ := List.splitOnce_eq_some.mp hsplit
      exact ⟨hmark, heq⟩

theorem cut_append {mark : Char} {before : Text} (h : mark ∉ before) (part : Option Text) :
    cut mark (before ++ Version.marked mark part) = (before, part) := by
  unfold cut
  cases part with
  | none =>
      rw [Version.marked, List.append_nil, List.splitOnce_eq_none.mpr h]
  | some part => rw [Version.marked, List.splitOnce_append h]

namespace Version

variable {v w : Version}

theorem core_not_mem {c : Char} (hdigit : c.isDigit = false) (hdot : c ≠ '.') : c ∉ v.core := by
  have hnot : ∀ n, c ∉ Nat.toDigits 10 n := fun n hmem => by
    rw [Nat.isDigit_of_mem_toDigits (by decide) (by decide) hmem] at hdigit
    cases hdigit
  simp [core, hnot, hdot]

theorem splitOn_core (v : Version) :
    v.core.splitOn '.' =
      [Nat.toDigits 10 v.major, Nat.toDigits 10 v.minor, Nat.toDigits 10 v.patch] := by
  have hdot : ∀ n, '.' ∉ Nat.toDigits 10 n := fun n hmem =>
    absurd (Nat.isDigit_of_mem_toDigits (by decide) (by decide) hmem) (by decide)
  have hcore : v.core = ['.'].intercalate
      [Nat.toDigits 10 v.major, Nat.toDigits 10 v.minor, Nat.toDigits 10 v.patch] := by
    simp [core, List.intercalate]
  rw [hcore]
  refine List.splitOn_intercalate '.' ?_ (by simp)
  intro piece hpiece
  simp only [List.mem_cons, List.not_mem_nil, or_false] at hpiece
  obtain rfl | rfl | rfl := hpiece <;> exact hdot _

theorem plus_not_mem_preText (v : Version) : '+' ∉ marked '-' v.preText := by
  unfold preText
  cases v.pre with
  | none => exact List.not_mem_nil
  | some chain =>
      rw [Option.map_some, marked, List.mem_cons, not_or]
      refine ⟨by decide, fun h => ?_⟩
      obtain ⟨p, hp⟩ := Chain.mem_text PreIdentifier.dot_not_mem h (by decide)
      exact not_inIdentifier_plus (p.inIdentifier hp)

/-- The three parts of a written version. -/
theorem cut_text (v : Version) :
    cut '+' v.text = (v.core ++ marked '-' v.preText, v.buildText) ∧
      cut '-' (v.core ++ marked '-' v.preText) = (v.core, v.preText) := by
  constructor
  · refine cut_append ?_ _
    rw [List.mem_append, not_or]
    exact ⟨core_not_mem (by decide) (by decide), v.plus_not_mem_preText⟩
  · exact cut_append (core_not_mem (by decide) (by decide)) _

theorem text_injective (h : v.text = w.text) : v = w := by
  obtain ⟨hbuild, hpre⟩ := v.cut_text
  obtain ⟨hbuild', hpre'⟩ := w.cut_text
  rw [h, hbuild', Prod.mk.injEq] at hbuild
  rw [← hbuild.1, hpre', Prod.mk.injEq] at hpre
  have hcore := v.splitOn_core
  rw [← hpre.1, splitOn_core, List.cons.injEq, List.cons.injEq, List.cons.injEq] at hcore
  obtain ⟨hmajor, hminor, hpatch, -⟩ := hcore
  have hpres := Option.map_injective
    (Chain.text_injective PreIdentifier.dot_not_mem PreIdentifier.spell_injective) hpre.2
  have hbuilds := Option.map_injective
    (Chain.text_injective BuildIdentifier.dot_not_mem BuildIdentifier.spell_injective) hbuild.2
  exact Version.ext (Decimal.toDigits_injective hmajor).symm
    (Decimal.toDigits_injective hminor).symm (Decimal.toDigits_injective hpatch).symm hpres.symm
    hbuilds.symm

end Version

/-- An optional part that is made of identifiers. -/
theorem all_semverIdentifiers_iff {β : Type} {spell : β → Text} {prerelease : Bool}
    (hdot : ∀ b, '.' ∉ spell b)
    (hok : ∀ id, semverIdentifier prerelease id = true ↔ ∃ b, spell b = id) {part : Option Text} :
    (part.all (semverIdentifiers · prerelease)) = true ↔
      ∃ chain : Option (Chain β), chain.map (Chain.text spell '.') = part := by
  cases part with
  | none => simp
  | some part =>
      simp only [Option.all_some, semverIdentifiers_iff hdot hok, Option.map_eq_some_iff]
      constructor
      · rintro ⟨chain, hchain⟩
        exact ⟨some chain, chain, rfl, hchain⟩
      · rintro ⟨-, chain, -, hchain⟩
        exact ⟨chain, hchain⟩

/-- A text is a semantic version exactly if it is written as one, and then as one only. -/
theorem semver_written (value : Text) : isSemver value = true ↔ ∃! v : Version, v.text = value := by
  have hpre := @all_semverIdentifiers_iff _ _ true PreIdentifier.dot_not_mem
    (fun id => @semverIdentifier_pre id)
  have hbuild := @all_semverIdentifiers_iff _ _ false BuildIdentifier.dot_not_mem
    (fun id => @semverIdentifier_build id)
  have hexists : isSemver value = true ↔ ∃ v : Version, v.text = value := by
    constructor
    · intro h
      obtain ⟨-, hvalue⟩ := cut_spec '+' value
      unfold isSemver at h
      generalize cut '+' value = plus at h hvalue
      obtain ⟨front, build⟩ := plus
      obtain ⟨-, hfront⟩ := cut_spec '-' front
      simp only at h hvalue
      generalize cut '-' front = hyphen at h hfront
      obtain ⟨core, pre⟩ := hyphen
      simp only [Bool.and_eq_true, hpre, hbuild] at h hfront
      obtain ⟨⟨hcore, pre, rfl⟩, build, rfl⟩ := h
      obtain ⟨major, minor, patch, hnumbers⟩ : ∃ major minor patch, core.splitOn '.' =
          [Nat.toDigits 10 major, Nat.toDigits 10 minor, Nat.toDigits 10 patch] := by
        split at hcore
        · rename_i a b c hsplit
          simp only [Bool.and_eq_true, semverNumeric_iff] at hcore
          obtain ⟨⟨⟨major, rfl⟩, minor, rfl⟩, patch, rfl⟩ := hcore
          exact ⟨major, minor, patch, hsplit⟩
        · cases hcore
      refine ⟨⟨major, minor, patch, pre, build⟩, ?_⟩
      have htext : core = Version.core ⟨major, minor, patch, pre, build⟩ := by
        have hjoin : ['.'].intercalate (core.splitOn '.') = core := List.intercalate_splitOn '.'
        rw [hnumbers, ← Version.splitOn_core ⟨major, minor, patch, pre, build⟩,
          List.intercalate_splitOn] at hjoin
        exact hjoin.symm
      rw [hvalue, hfront, htext]
      rfl
    · rintro ⟨v, rfl⟩
      obtain ⟨hcutBuild, hcutPre⟩ := v.cut_text
      simp only [isSemver, hcutBuild, hcutPre, Version.splitOn_core, Bool.and_eq_true, hpre, hbuild,
        semverNumeric_iff]
      exact ⟨⟨⟨⟨⟨_, rfl⟩, _, rfl⟩, _, rfl⟩, v.pre, rfl⟩, v.build, rfl⟩
  rw [hexists]
  constructor
  · rintro ⟨v, hv⟩
    exact ⟨v, hv, fun w hw => Version.text_injective (hw.trans hv.symm)⟩
  · rintro ⟨v, hv, -⟩
    exact ⟨v, hv⟩

/-! ## Language tags -/

-- all letters or digits, so that bytes count as characters
def isLanguage (part : Text) : Bool :=
  (2 ≤ part.length && part.length ≤ 3) && part.all Char.isAlpha

def isRegion (part : Text) : Bool :=
  part.length = 2 && part.all Char.isAlpha || part.length = 3 && part.all Char.isDigit

def isScript (part : Text) : Bool := part.length = 4 && part.all Char.isAlpha

def isLanguageTag (value : Text) : Bool :=
  match value.splitOn '-' with
  | [] => false
  | lang :: parts =>
    isLanguage lang &&
      match parts with
      | [] => true
      | [second] => isScript second || isRegion second
      | [second, third] => isScript second && isRegion third
      | _ => false

/-! ### As they are written -/

inductive Language where
  | two (a b : Letter)
  | three (a b c : Letter)

def Language.text : Language → Text
  | two a b => [a.1, b.1]
  | three a b c => [a.1, b.1, c.1]

@[ext] structure Script where
  a : Letter
  b : Letter
  c : Letter
  d : Letter

def Script.text (script : Script) : Text := [script.a.1, script.b.1, script.c.1, script.d.1]

/-- A country of two letters, or an area of three digits. -/
inductive Region where
  | country (a b : Letter)
  | area (a b c : Digit)

def Region.text : Region → Text
  | country a b => [a.1, b.1]
  | area a b c => [a.1, b.1, c.1]

/-- A language tag as it is written. -/
@[ext] structure LanguageTag where
  language : Language
  script : Option Script
  region : Option Region

namespace LanguageTag

def parts (tag : LanguageTag) : List Text :=
  tag.language.text :: (tag.script.map Script.text).toList ++ (tag.region.map Region.text).toList

def text (tag : LanguageTag) : Text := ['-'].intercalate tag.parts

end LanguageTag

theorem all_isAlpha_iff {part : Text} : part.all Char.isAlpha = true ↔ ∀ c ∈ part, IsLetter c := by
  simp only [List.all_eq_true, isAlpha_iff]

theorem all_isDigit_iff {part : Text} : part.all Char.isDigit = true ↔ ∀ c ∈ part, IsDigit c := by
  simp only [List.all_eq_true, isDigit_iff]

theorem isLanguage_iff {part : Text} : isLanguage part = true ↔ ∃ l : Language, l.text = part := by
  unfold isLanguage
  simp only [Bool.and_eq_true, decide_eq_true_eq, all_isAlpha_iff]
  constructor
  · rintro ⟨⟨hlow, hhigh⟩, hletters⟩
    obtain htwo | hthree : part.length = 2 ∨ part.length = 3 := by omega
    · obtain ⟨a, b, rfl⟩ := List.length_eq_two.mp htwo
      exact ⟨.two ⟨a, hletters a (by simp)⟩ ⟨b, hletters b (by simp)⟩, rfl⟩
    · obtain ⟨a, b, c, rfl⟩ := List.length_eq_three.mp hthree
      exact ⟨.three ⟨a, hletters a (by simp)⟩ ⟨b, hletters b (by simp)⟩ ⟨c, hletters c (by simp)⟩, rfl⟩
  · rintro ⟨l, rfl⟩
    cases l with
    | two a b => simp [Language.text, a.2, b.2]
    | three a b c => simp [Language.text, a.2, b.2, c.2]

theorem isScript_iff {part : Text} : isScript part = true ↔ ∃ script : Script, script.text = part := by
  unfold isScript
  simp only [Bool.and_eq_true, decide_eq_true_eq, all_isAlpha_iff]
  constructor
  · rintro ⟨hfour, hletters⟩
    match part, hfour with
    | [a, b, c, d], _ =>
        exact ⟨⟨⟨a, hletters a (by simp)⟩, ⟨b, hletters b (by simp)⟩, ⟨c, hletters c (by simp)⟩,
          ⟨d, hletters d (by simp)⟩⟩, rfl⟩
  · rintro ⟨script, rfl⟩
    simp [Script.text, script.a.2, script.b.2, script.c.2, script.d.2]

theorem isRegion_iff {part : Text} : isRegion part = true ↔ ∃ region : Region, region.text = part := by
  unfold isRegion
  simp only [Bool.or_eq_true, Bool.and_eq_true, decide_eq_true_eq, all_isAlpha_iff,
    all_isDigit_iff]
  constructor
  · rintro (⟨htwo, hletters⟩ | ⟨hthree, hdigits⟩)
    · obtain ⟨a, b, rfl⟩ := List.length_eq_two.mp htwo
      exact ⟨.country ⟨a, hletters a (by simp)⟩ ⟨b, hletters b (by simp)⟩, rfl⟩
    · obtain ⟨a, b, c, rfl⟩ := List.length_eq_three.mp hthree
      exact ⟨.area ⟨a, hdigits a (by simp)⟩ ⟨b, hdigits b (by simp)⟩ ⟨c, hdigits c (by simp)⟩, rfl⟩
  · rintro ⟨region, rfl⟩
    cases region with
    | country a b => simp [Region.text, a.2, b.2]
    | area a b c => simp [Region.text, a.2, b.2, c.2]

theorem Language.isLanguage_text (l : Language) : isLanguage l.text = true :=
  isLanguage_iff.mpr ⟨l, rfl⟩

theorem Script.isScript_text (script : Script) : isScript script.text = true :=
  isScript_iff.mpr ⟨script, rfl⟩

theorem Region.isRegion_text (region : Region) : isRegion region.text = true :=
  isRegion_iff.mpr ⟨region, rfl⟩

theorem Language.text_injective : Function.Injective text := by
  intro l l' h
  cases l <;> cases l' <;> simp_all [text, Subtype.ext_iff]

theorem Script.text_injective : Function.Injective text := by
  intro script script' h
  simp only [text, List.cons.injEq] at h
  exact Script.ext (Subtype.ext h.1) (Subtype.ext h.2.1) (Subtype.ext h.2.2.1) (Subtype.ext h.2.2.2.1)

theorem Region.text_injective : Function.Injective text := by
  intro region region' h
  cases region <;> cases region' <;> simp_all [text, Subtype.ext_iff]

/-- No part of a tag holds a hyphen. -/
theorem hyphen_not_mem {part : Text} (h : isLanguage part = true ∨ isScript part = true ∨
    isRegion part = true) : '-' ∉ part := by
  intro hmem
  have halpha : part.all Char.isAlpha = true → False := fun h =>
    absurd (List.all_eq_true.mp h _ hmem) (by decide)
  have hdigit : part.all Char.isDigit = true → False := fun h =>
    absurd (List.all_eq_true.mp h _ hmem) (by decide)
  simp only [isLanguage, isScript, isRegion, Bool.and_eq_true, Bool.or_eq_true] at h
  tauto

/-- A script is no region: it is longer. -/
theorem not_region_of_script {part : Text} (h : isScript part = true) : isRegion part = false := by
  simp only [isScript, Bool.and_eq_true, decide_eq_true_eq] at h
  simp [isRegion, h.1]

theorem LanguageTag.splitOn_text (tag : LanguageTag) : tag.text.splitOn '-' = tag.parts := by
  refine List.splitOn_intercalate '-' (fun part hpart => ?_) (by simp [parts])
  obtain ⟨language, script, region⟩ := tag
  simp only [parts, List.cons_append, List.mem_cons, List.mem_append, Option.mem_toList,
    Option.map_eq_some_iff] at hpart
  obtain rfl | ⟨script, -, rfl⟩ | ⟨region, -, rfl⟩ := hpart
  · exact hyphen_not_mem (.inl language.isLanguage_text)
  · exact hyphen_not_mem (.inr (.inl script.isScript_text))
  · exact hyphen_not_mem (.inr (.inr region.isRegion_text))

namespace LanguageTag

variable {tag tag' : LanguageTag}

/-- The script of a tag is the script among its parts, and so is the region. -/
theorem find_parts (tag : LanguageTag) :
    tag.parts.tail.find? isScript = tag.script.map Script.text ∧
      tag.parts.tail.find? isRegion = tag.region.map Region.text := by
  obtain ⟨language, script, region⟩ := tag
  have hregion : ∀ part, isRegion part = true → isScript part = false := fun part h =>
    Bool.eq_false_iff.mpr fun hscript => by
      rw [not_region_of_script hscript] at h
      cases h
  cases script with
  | none =>
      cases region with
      | none => exact ⟨rfl, rfl⟩
      | some region => simp [parts, hregion _ region.isRegion_text, region.isRegion_text]
  | some script =>
      have hnot := not_region_of_script script.isScript_text
      cases region with
      | none => simp [parts, hnot, script.isScript_text]
      | some region => simp [parts, hnot, script.isScript_text, region.isRegion_text]

theorem text_injective (h : tag.text = tag'.text) : tag = tag' := by
  have hparts : tag.parts = tag'.parts := by rw [← splitOn_text, h, splitOn_text]
  have hlanguage : tag.language.text = tag'.language.text := by
    simpa [parts] using congrArg List.head? hparts
  obtain ⟨hscript, hregion⟩ := tag.find_parts
  obtain ⟨hscript', hregion'⟩ := tag'.find_parts
  rw [hparts, hscript'] at hscript
  rw [hparts, hregion'] at hregion
  exact LanguageTag.ext (Language.text_injective hlanguage)
    (Option.map_injective Script.text_injective hscript).symm
    (Option.map_injective Region.text_injective hregion).symm

end LanguageTag

/-- The parts of a text are a tag's exactly if they pass the check. -/
theorem isLanguageTag_iff {value : Text} :
    isLanguageTag value = true ↔ ∃ tag : LanguageTag, tag.parts = value.splitOn '-' := by
  unfold isLanguageTag
  constructor
  · intro h
    split at h
    · cases h
    · rename_i lang parts hsplit
      rw [Bool.and_eq_true] at h
      obtain ⟨hlang, h⟩ := h
      obtain ⟨language, rfl⟩ := isLanguage_iff.mp hlang
      rw [hsplit]
      split at h
      · exact ⟨⟨language, none, none⟩, rfl⟩
      · obtain hscript | hregion := (Bool.or_eq_true _ _).mp h
        · obtain ⟨script, rfl⟩ := isScript_iff.mp hscript
          exact ⟨⟨language, some script, none⟩, rfl⟩
        · obtain ⟨region, rfl⟩ := isRegion_iff.mp hregion
          exact ⟨⟨language, none, some region⟩, rfl⟩
      · obtain ⟨hscript, hregion⟩ := (Bool.and_eq_true _ _).mp h
        obtain ⟨script, rfl⟩ := isScript_iff.mp hscript
        obtain ⟨region, rfl⟩ := isRegion_iff.mp hregion
        exact ⟨⟨language, some script, some region⟩, rfl⟩
      · cases h
  · rintro ⟨⟨language, script, region⟩, h⟩
    rw [← h]
    rcases script with - | script <;> rcases region with - | region
    · simp [LanguageTag.parts, language.isLanguage_text]
    · simp [LanguageTag.parts, language.isLanguage_text, region.isRegion_text]
    · simp [LanguageTag.parts, language.isLanguage_text, script.isScript_text]
    · simp [LanguageTag.parts, language.isLanguage_text, script.isScript_text,
        region.isRegion_text]

/-- A text is a language tag exactly if it is written as one, and then as one only. -/
theorem language_written (value : Text) :
    isLanguageTag value = true ↔ ∃! tag : LanguageTag, tag.text = value := by
  rw [isLanguageTag_iff]
  constructor
  · rintro ⟨tag, htag⟩
    have htext : tag.text = value := by
      rw [LanguageTag.text, htag, List.intercalate_splitOn]
    exact ⟨tag, htext, fun other hother =>
      LanguageTag.text_injective (hother.trans htext.symm)⟩
  · rintro ⟨tag, rfl, -⟩
    exact ⟨tag, tag.splitOn_text.symm⟩

/-- Both kinds of tag are exactly the texts of their written form, each text of one. -/
theorem tags_written (value : Text) :
    (isSemver value = true ↔ ∃! v : Version, v.text = value) ∧
      (isLanguageTag value = true ↔ ∃! tag : LanguageTag, tag.text = value) :=
  ⟨semver_written value, language_written value⟩

end Nitr.Validate.Formats
