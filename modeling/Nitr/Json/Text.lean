import Nitr.Json.Bounds
import Nitr.Lib.JsonString

/-! # The text of a document

What `serde_json` prints of a document, without spaces. The text determines the document: each
part shows its kind in its first character, and where it ends. -/

namespace Nitr.Validate

/-- A finite double: 53 binary digits and an exponent. -/
def F64.IsDouble : F64 → Prop
  | .finite q => ∃ m e : ℤ, |m| < 2 ^ 53 ∧ -1074 ≤ e ∧ e ≤ 971 ∧ q = m * (2 : ℚ) ^ e
  | .negZero => True
  | .infinite _ | .nan => False

end Nitr.Validate

namespace Nitr.Json

open Nitr.Validate (F64)

section

variable (decimal : F64 → String)

mutual

/-- `serde_json::to_string`. -/
def Doc.text : Doc → List Char
  | .null => ['n', 'u', 'l', 'l']
  | .boolean b => if b then ['t', 'r', 'u', 'e'] else ['f', 'a', 'l', 's', 'e']
  | .integer i => (toString i).toList
  | .number n => (decimal n).toList
  | .string s => JsonString.quote s.toList
  | .array items => '[' :: itemsText items
  | .object entries => '{' :: membersText entries

def itemsText : List Doc → List Char
  | [] => [']']
  | doc :: docs => doc.text ++ moreItems docs

def moreItems : List Doc → List Char
  | [] => [']']
  | doc :: docs => ',' :: (doc.text ++ moreItems docs)

def membersText : List (String × Doc) → List Char
  | [] => ['}']
  | e :: rest => JsonString.quote e.1.toList ++ ':' :: (e.2.text ++ moreMembers rest)

def moreMembers : List (String × Doc) → List Char
  | [] => ['}']
  | e :: rest =>
      ',' :: (JsonString.quote e.1.toList ++ ':' :: (e.2.text ++ moreMembers rest))

end

end

/-- How `serde_json` prints a finite double: digits with a point or an exponent, of which
there are enough to read the double back. -/
structure Decimal (decimal : F64 → String) : Prop where
  numeral : ∀ n : F64, n.IsDouble → ∀ c ∈ (decimal n).toList,
    c.isDigit = true ∨ c = '-' ∨ c = '.' ∨ c = 'e'
  pointed : ∀ n : F64, n.IsDouble → ∃ c ∈ (decimal n).toList, c = '.' ∨ c = 'e'
  inj : ∀ n m : F64, n.IsDouble → m.IsDouble → decimal n = decimal m → n = m

/-! ## Numerals -/

/-- A character of a number's text. -/
def numeral (c : Char) : Bool := c.isDigit || c == '-' || c == '.' || c == 'e'

/-- What can stand behind a value in a document. -/
def Ended (rest : List Char) : Prop := ∀ c ∈ rest.head?, c = ',' ∨ c = ']' ∨ c = '}'

theorem not_numeral_of_ended {c : Char} {rest : List Char} (h : Ended (c :: rest)) :
    numeral c = false := by
  rcases h c rfl with rfl | rfl | rfl <;> rfl

theorem takeWhile_numeral {text rest : List Char} (htext : ∀ c ∈ text, numeral c = true)
    (hrest : Ended rest) : (text ++ rest).takeWhile numeral = text := by
  induction text with
  | nil =>
      cases rest with
      | nil => rfl
      | cons c rest =>
          rw [List.nil_append, List.takeWhile_cons_of_neg]
          rw [not_numeral_of_ended hrest]
          exact Bool.false_ne_true
  | cons c text ih =>
      rw [List.cons_append, List.takeWhile_cons_of_pos (htext c List.mem_cons_self),
        ih fun d hd => htext d (List.mem_cons_of_mem _ hd)]

theorem numeral_inj {text text' rest rest' : List Char} (htext : ∀ c ∈ text, numeral c = true)
    (htext' : ∀ c ∈ text', numeral c = true) (hrest : Ended rest) (hrest' : Ended rest')
    (h : text ++ rest = text' ++ rest') : text = text' ∧ rest = rest' := by
  have hcut := congrArg (List.takeWhile numeral) h
  rw [takeWhile_numeral htext hrest, takeWhile_numeral htext' hrest'] at hcut
  rw [hcut] at h
  exact ⟨hcut, List.append_cancel_left h⟩

theorem toDigits_inj {n m : ℕ} (h : Nat.toDigits 10 n = Nat.toDigits 10 m) : n = m := by
  rw [← @Nat.ofDigitChars_ten_toDigits n, h, Nat.ofDigitChars_ten_toDigits]

theorem isDigit_of_mem {n : ℕ} {c : Char} (h : c ∈ Nat.toDigits 10 n) : c.isDigit = true :=
  Nat.isDigit_of_mem_toDigits (by decide) (by decide) h

theorem toList_toString (i : ℤ) :
    (toString i).toList =
      if 0 ≤ i then Nat.toDigits 10 i.natAbs else '-' :: Nat.toDigits 10 i.natAbs := by
  cases i with
  | ofNat n =>
      have hnonneg : 0 ≤ Int.ofNat n := Int.natCast_nonneg n
      rw [if_pos hnonneg]
      exact Nat.toList_repr
  | negSucc n =>
      have hneg : ¬0 ≤ Int.negSucc n := by omega
      have htext : toString (Int.negSucc n) = "-" ++ Nat.repr (n + 1) := rfl
      rw [if_neg hneg, htext, String.toList_append, Nat.toList_repr]
      rfl

theorem digit_ne {c d : Char} (h : c.isDigit = true) (hd : d.isDigit = false) : c ≠ d := by
  intro heq
  rw [heq, hd] at h
  cases h

/-- The characters of an integer. -/
theorem isDigit_or_minus {i : ℤ} {c : Char} (h : c ∈ (toString i).toList) :
    c.isDigit = true ∨ c = '-' := by
  rw [toList_toString] at h
  split at h
  · exact .inl (isDigit_of_mem h)
  · cases List.mem_cons.mp h with
    | inl hminus => exact .inr hminus
    | inr hdigit => exact .inl (isDigit_of_mem hdigit)

theorem toString_inj {i j : ℤ} (h : toString i = toString j) : i = j := by
  have hlist := congrArg String.toList h
  rw [toList_toString, toList_toString] at hlist
  have hminus : ∀ n m : ℕ, Nat.toDigits 10 n ≠ '-' :: Nat.toDigits 10 m := by
    intro n m heq
    have hmem : '-' ∈ Nat.toDigits 10 n := heq ▸ List.mem_cons_self
    cases isDigit_of_mem hmem
  split at hlist
  · split at hlist
    · have habs := toDigits_inj hlist
      omega
    · exact absurd hlist (hminus _ _)
  · split at hlist
    · exact absurd hlist.symm (hminus _ _)
    · have habs := toDigits_inj (List.cons.inj hlist).2
      omega

theorem numeral_toString {i : ℤ} : ∀ c ∈ (toString i).toList, numeral c = true := by
  intro c hc
  cases isDigit_or_minus hc with
  | inl hdigit => rw [numeral, hdigit]; rfl
  | inr hminus => rw [hminus]; rfl

section

variable {decimal : F64 → String} (hdecimal : Decimal decimal)

include hdecimal

theorem Decimal.numeral_of_isDouble {n : F64} (h : n.IsDouble) :
    ∀ c ∈ (decimal n).toList, Json.numeral c = true := by
  intro c hc
  rcases hdecimal.numeral n h c hc with hdigit | rfl | rfl | rfl
  · rw [Json.numeral, hdigit]
    rfl
  · rfl
  · rfl
  · rfl

/-- No double is printed as an integer is. -/
theorem Decimal.ne_toString {n : F64} (h : n.IsDouble) (i : ℤ) :
    (decimal n).toList ≠ (toString i).toList := by
  intro heq
  have ⟨c, hc, hpoint⟩ := hdecimal.pointed n h
  rw [heq] at hc
  cases isDigit_or_minus hc with
  | inl hdigit =>
      cases hpoint with
      | inl hdot => exact digit_ne hdigit rfl hdot
      | inr he => exact digit_ne hdigit rfl he
  | inr hminus =>
      rw [hminus] at hpoint
      cases hpoint with
      | inl hdot => cases hdot
      | inr he => cases he

end

/-! ## The first character -/

/-- What a first character tells of a value; no value starts with another. -/
inductive Shape where
  | null | true | false | string | array | object | number | other
deriving DecidableEq

def shape (c : Char) : Shape :=
  if c = 'n' then .null
  else if c = 't' then .true
  else if c = 'f' then .false
  else if c = '"' then .string
  else if c = '[' then .array
  else if c = '{' then .object
  else if numeral c then .number
  else .other

def Doc.shape : Doc → Shape
  | .null => .null
  | .boolean b => if b then .true else .false
  | .integer _ => .number
  | .number _ => .number
  | .string _ => .string
  | .array _ => .array
  | .object _ => .object

mutual

/-- Every number of the document is a finite double. -/
def Doc.Doubles : Doc → Prop
  | .number n => n.IsDouble
  | .array items => itemsDoubles items
  | .object entries => membersDoubles entries
  | _ => True

def itemsDoubles : List Doc → Prop
  | [] => True
  | doc :: docs => doc.Doubles ∧ itemsDoubles docs

def membersDoubles : List (String × Doc) → Prop
  | [] => True
  | e :: rest => e.2.Doubles ∧ membersDoubles rest

end

theorem shape_of_numeral {c : Char} (h : numeral c = true) : shape c = .number := by
  have hne : ∀ d : Char, numeral d = false → c ≠ d := by
    intro d hd heq
    rw [heq, hd] at h
    cases h
  rw [shape, if_neg (hne _ rfl), if_neg (hne _ rfl), if_neg (hne _ rfl), if_neg (hne _ rfl),
    if_neg (hne _ rfl), if_neg (hne _ rfl), if_pos h]

theorem exists_shape_of_numeral {text : List Char} (hne : text ≠ [])
    (h : ∀ c ∈ text, numeral c = true) : ∃ c rest, text = c :: rest ∧ shape c = .number := by
  cases text with
  | nil => exact absurd rfl hne
  | cons c rest => exact ⟨c, rest, rfl, shape_of_numeral (h c List.mem_cons_self)⟩

theorem toString_ne_nil (i : ℤ) : (toString i).toList ≠ [] := by
  rw [toList_toString]
  split
  · exact Nat.toDigits_ne_nil
  · exact List.cons_ne_nil _ _

section

variable {decimal : F64 → String} (hdecimal : Decimal decimal)

include hdecimal

theorem head_text {doc : Doc} (h : doc.Doubles) :
    ∃ c rest, doc.text decimal = c :: rest ∧ Json.shape c = doc.shape := by
  cases doc with
  | null => exact ⟨_, _, rfl, rfl⟩
  | boolean b => cases b <;> exact ⟨_, _, rfl, rfl⟩
  | integer i => exact exists_shape_of_numeral (toString_ne_nil i) numeral_toString
  | number n =>
      rw [Doc.Doubles] at h
      have ⟨c, hc, _⟩ := hdecimal.pointed n h
      exact exists_shape_of_numeral (List.ne_nil_of_mem hc) (hdecimal.numeral_of_isDouble h)
  | string s => exact ⟨_, _, rfl, rfl⟩
  | array items => exact ⟨_, _, rfl, rfl⟩
  | object entries => exact ⟨_, _, rfl, rfl⟩

theorem shape_eq {doc doc' : Doc} {rest rest' : List Char} (hdoc : doc.Doubles)
    (hdoc' : doc'.Doubles) (h : doc.text decimal ++ rest = doc'.text decimal ++ rest') :
    doc.shape = doc'.shape := by
  have ⟨c, tail, htext, hshape⟩ := head_text hdecimal hdoc
  have ⟨c', tail', htext', hshape'⟩ := head_text hdecimal hdoc'
  rw [htext, htext'] at h
  rw [← hshape, ← hshape', (List.cons.inj h).1]

theorem ne_other {doc : Doc} {rest rest' : List Char} {c : Char} (hdoc : doc.Doubles)
    (hother : Json.shape c = .other) : doc.text decimal ++ rest ≠ c :: rest' := by
  intro heq
  have ⟨c', tail, htext, hshape⟩ := head_text hdecimal hdoc
  rw [htext] at heq
  rw [(List.cons.inj heq).1, hother] at hshape
  cases doc with
  | boolean b => cases b <;> cases hshape
  | _ => cases hshape

end

/-! ## Documents told apart -/

theorem ended_moreItems (decimal : F64 → String) (docs : List Doc) (rest : List Char) :
    Ended (moreItems decimal docs ++ rest) := by
  intro c hc
  cases docs with
  | nil =>
      cases hc
      exact .inr (.inl rfl)
  | cons doc docs =>
      cases hc
      exact .inl rfl

theorem ended_moreMembers (decimal : F64 → String) (entries : List (String × Doc))
    (rest : List Char) : Ended (moreMembers decimal entries ++ rest) := by
  intro c hc
  cases entries with
  | nil =>
      cases hc
      exact .inr (.inr rfl)
  | cons e entries =>
      cases hc
      exact .inl rfl

/-- A document is told apart from every other, whatever ends the two. -/
def Doc.Told (decimal : F64 → String) (doc : Doc) : Prop :=
  doc.Doubles → ∀ {doc' : Doc} {rest rest' : List Char}, doc'.Doubles → Ended rest → Ended rest' →
    doc.text decimal ++ rest = doc'.text decimal ++ rest' → doc = doc' ∧ rest = rest'

section

variable {decimal : F64 → String} {rest rest' : List Char}

theorem told_moreItems {docs docs' : List Doc} (h : ∀ doc ∈ docs, doc.Told decimal)
    (hdocs : itemsDoubles docs) (hdocs' : itemsDoubles docs')
    (heq : moreItems decimal docs ++ rest = moreItems decimal docs' ++ rest') :
    docs = docs' ∧ rest = rest' := by
  induction docs generalizing docs' with
  | nil =>
      cases docs' with
      | nil => exact ⟨rfl, (List.cons.inj heq).2⟩
      | cons doc' docs' => cases (List.cons.inj heq).1
  | cons doc docs ih =>
      cases docs' with
      | nil => cases (List.cons.inj heq).1
      | cons doc' docs' =>
          rw [moreItems, moreItems, List.cons_append, List.cons_append, List.append_assoc,
            List.append_assoc] at heq
          have ⟨hfirst, hmore⟩ := h doc List.mem_cons_self hdocs.1 hdocs'.1
            (ended_moreItems decimal docs rest) (ended_moreItems decimal docs' rest')
            (List.cons.inj heq).2
          have ⟨hrest, hend⟩ := ih (fun d hd => h d (List.mem_cons_of_mem _ hd)) hdocs.2 hdocs'.2
            hmore
          exact ⟨by rw [hfirst, hrest], hend⟩

theorem told_itemsText (hdecimal : Decimal decimal) {docs docs' : List Doc}
    (h : ∀ doc ∈ docs, doc.Told decimal) (hdocs : itemsDoubles docs) (hdocs' : itemsDoubles docs')
    (heq : itemsText decimal docs ++ rest = itemsText decimal docs' ++ rest') :
    docs = docs' ∧ rest = rest' := by
  cases docs with
  | nil =>
      cases docs' with
      | nil => exact ⟨rfl, (List.cons.inj heq).2⟩
      | cons doc' docs' =>
          rw [itemsText, itemsText, List.append_assoc] at heq
          exact absurd heq.symm (ne_other hdecimal hdocs'.1 rfl)
  | cons doc docs =>
      cases docs' with
      | nil =>
          rw [itemsText, itemsText, List.append_assoc] at heq
          exact absurd heq (ne_other hdecimal hdocs.1 rfl)
      | cons doc' docs' =>
          rw [itemsText, itemsText, List.append_assoc, List.append_assoc] at heq
          have ⟨hfirst, hmore⟩ := h doc List.mem_cons_self hdocs.1 hdocs'.1
            (ended_moreItems decimal docs rest) (ended_moreItems decimal docs' rest') heq
          have ⟨hrest, hend⟩ := told_moreItems (fun d hd => h d (List.mem_cons_of_mem _ hd))
            hdocs.2 hdocs'.2 hmore
          exact ⟨by rw [hfirst, hrest], hend⟩

/-- One member and what follows it. -/
theorem told_member {e e' : String × Doc} {entries entries' : List (String × Doc)}
    (h : e.2.Told decimal) (he : e.2.Doubles) (he' : e'.2.Doubles)
    (heq : JsonString.quote e.1.toList ++ ':' :: (e.2.text decimal ++ moreMembers decimal entries) ++
        rest = JsonString.quote e'.1.toList ++
        ':' :: (e'.2.text decimal ++ moreMembers decimal entries') ++ rest') :
    e = e' ∧ moreMembers decimal entries ++ rest = moreMembers decimal entries' ++ rest' := by
  rw [List.append_assoc, List.append_assoc] at heq
  have ⟨hkey, htail⟩ := JsonString.quote_inj heq
  rw [List.cons_append, List.cons_append, List.append_assoc, List.append_assoc] at htail
  have ⟨hdoc, hmore⟩ := h he he' (ended_moreMembers decimal entries rest)
    (ended_moreMembers decimal entries' rest') (List.cons.inj htail).2
  exact ⟨Prod.ext (String.toList_injective hkey) hdoc, hmore⟩

theorem told_moreMembers {entries entries' : List (String × Doc)}
    (h : ∀ e ∈ entries, e.2.Told decimal) (hentries : membersDoubles entries)
    (hentries' : membersDoubles entries')
    (heq : moreMembers decimal entries ++ rest = moreMembers decimal entries' ++ rest') :
    entries = entries' ∧ rest = rest' := by
  induction entries generalizing entries' with
  | nil =>
      cases entries' with
      | nil => exact ⟨rfl, (List.cons.inj heq).2⟩
      | cons e' entries' => cases (List.cons.inj heq).1
  | cons e entries ih =>
      cases entries' with
      | nil => cases (List.cons.inj heq).1
      | cons e' entries' =>
          have ⟨hfirst, hmore⟩ := told_member (h e List.mem_cons_self) hentries.1 hentries'.1
            (List.cons.inj heq).2
          have ⟨hrest, hend⟩ := ih (fun d hd => h d (List.mem_cons_of_mem _ hd)) hentries.2
            hentries'.2 hmore
          exact ⟨by rw [hfirst, hrest], hend⟩

theorem told_membersText {entries entries' : List (String × Doc)}
    (h : ∀ e ∈ entries, e.2.Told decimal) (hentries : membersDoubles entries)
    (hentries' : membersDoubles entries')
    (heq : membersText decimal entries ++ rest = membersText decimal entries' ++ rest') :
    entries = entries' ∧ rest = rest' := by
  cases entries with
  | nil =>
      cases entries' with
      | nil => exact ⟨rfl, (List.cons.inj heq).2⟩
      | cons e' entries' => cases (List.cons.inj heq).1
  | cons e entries =>
      cases entries' with
      | nil => cases (List.cons.inj heq).1
      | cons e' entries' =>
          have ⟨hfirst, hmore⟩ := told_member (h e List.mem_cons_self) hentries.1 hentries'.1 heq
          have ⟨hrest, hend⟩ := told_moreMembers (fun d hd => h d (List.mem_cons_of_mem _ hd))
            hentries.2 hentries'.2 hmore
          exact ⟨by rw [hfirst, hrest], hend⟩

/-- Two numbers, written as an integer or as a double. -/
theorem told_number (hdecimal : Decimal decimal) {doc doc' : Doc} (hdoc : doc.Doubles)
    (hdoc' : doc'.Doubles) (hshape : doc.shape = .number) (hshape' : doc'.shape = .number)
    (hrest : Ended rest) (hrest' : Ended rest')
    (heq : doc.text decimal ++ rest = doc'.text decimal ++ rest') : doc = doc' ∧ rest = rest' := by
  cases doc with
  | integer i =>
      cases doc' with
      | integer j =>
          have ⟨htext, hend⟩ := numeral_inj numeral_toString numeral_toString hrest hrest' heq
          exact ⟨by rw [toString_inj (String.toList_injective htext)], hend⟩
      | number m =>
          have ⟨htext, _⟩ := numeral_inj numeral_toString (hdecimal.numeral_of_isDouble hdoc')
            hrest hrest' heq
          exact absurd htext.symm (hdecimal.ne_toString hdoc' i)
      | boolean b => cases b <;> cases hshape'
      | _ => cases hshape'
  | number n =>
      cases doc' with
      | integer j =>
          have ⟨htext, _⟩ := numeral_inj (hdecimal.numeral_of_isDouble hdoc) numeral_toString
            hrest hrest' heq
          exact absurd htext (hdecimal.ne_toString hdoc j)
      | number m =>
          have ⟨htext, hend⟩ := numeral_inj (hdecimal.numeral_of_isDouble hdoc)
            (hdecimal.numeral_of_isDouble hdoc') hrest hrest' heq
          exact ⟨by rw [hdecimal.inj n m hdoc hdoc' (String.toList_injective htext)], hend⟩
      | boolean b => cases b <;> cases hshape'
      | _ => cases hshape'
  | boolean b => cases b <;> cases hshape
  | _ => cases hshape

theorem Doc.told (hdecimal : Decimal decimal) (doc : Doc) : doc.Told decimal := by
  induction doc using Doc.induct with
  | null =>
      intro hdoc doc' rest rest' hdoc' _ _ heq
      have hshape := shape_eq hdecimal hdoc hdoc' heq
      cases doc' with
      | null => exact ⟨rfl, List.append_cancel_left heq⟩
      | boolean b => cases b <;> cases hshape
      | _ => cases hshape
  | boolean b =>
      intro hdoc doc' rest rest' hdoc' _ _ heq
      have hshape := shape_eq hdecimal hdoc hdoc' heq
      cases doc' with
      | boolean b' =>
          have hsame : b = b' := by
            cases b <;> cases b' <;> first | rfl | cases hshape
          rw [hsame] at heq ⊢
          exact ⟨rfl, List.append_cancel_left heq⟩
      | _ => cases b <;> cases hshape
  | integer i =>
      intro hdoc doc' rest rest' hdoc' hrest hrest' heq
      have hshape := shape_eq hdecimal hdoc hdoc' heq
      exact told_number hdecimal hdoc hdoc' rfl hshape.symm hrest hrest' heq
  | number n =>
      intro hdoc doc' rest rest' hdoc' hrest hrest' heq
      have hshape := shape_eq hdecimal hdoc hdoc' heq
      exact told_number hdecimal hdoc hdoc' rfl hshape.symm hrest hrest' heq
  | string s =>
      intro hdoc doc' rest rest' hdoc' _ _ heq
      have hshape := shape_eq hdecimal hdoc hdoc' heq
      cases doc' with
      | string s' =>
          have ⟨hs, hend⟩ := JsonString.quote_inj heq
          exact ⟨by rw [String.toList_injective hs], hend⟩
      | boolean b => cases b <;> cases hshape
      | _ => cases hshape
  | array items ih =>
      intro hdoc doc' rest rest' hdoc' _ _ heq
      have hshape := shape_eq hdecimal hdoc hdoc' heq
      cases doc' with
      | array items' =>
          have ⟨hitems, hend⟩ := told_itemsText hdecimal ih hdoc hdoc' (List.cons.inj heq).2
          exact ⟨by rw [hitems], hend⟩
      | boolean b => cases b <;> cases hshape
      | _ => cases hshape
  | object entries ih =>
      intro hdoc doc' rest rest' hdoc' _ _ heq
      have hshape := shape_eq hdecimal hdoc hdoc' heq
      cases doc' with
      | object entries' =>
          have ⟨hentries, hend⟩ := told_membersText ih hdoc hdoc' (List.cons.inj heq).2
          exact ⟨by rw [hentries], hend⟩
      | boolean b => cases b <;> cases hshape
      | _ => cases hshape

/-- The text determines the document. -/
theorem text_inj (hdecimal : Decimal decimal) {doc doc' : Doc} (hdoc : doc.Doubles)
    (hdoc' : doc'.Doubles) (h : doc.text decimal = doc'.text decimal) : doc = doc' := by
  have hnil : Ended [] := fun c hc => absurd hc (Option.not_mem_none c)
  exact (doc.told hdecimal hdoc hdoc' hnil hnil (by rw [h])).1

end

end Nitr.Json
