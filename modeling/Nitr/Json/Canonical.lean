import Nitr.Json.Equality

/-! # What the texts tell

The text of plain data by the kind of the value, and when two texts are equal; then `unique`,
`equal_fields` and the values that are compared otherwise than JSON compares them. -/

namespace Nitr.Json

open Nitr.Validate (LuaString F64)

/-! ## The texts of plain data -/

theorem tagged_inj {c d : Char} {s t : String} : tagged c s = tagged d t ↔ c = d ∧ s = t := by
  constructor
  · intro h
    have hlist := String.ofList_injective h
    have ⟨htag, htail⟩ := List.cons.inj hlist
    exact ⟨htag, String.toList_injective (List.cons.inj htail).2⟩
  · intro ⟨htag, htext⟩
    rw [htag, htext]

/-- The tag of a value's text. -/
def Data.tag : Data → Char
  | .string _ => 's'
  | .integer _ => 'n'
  | .number _ => 'n'
  | .boolean _ => 'b'
  | .table .. => 't'
  | .nil => 'p'
  | .null => 'p'

theorem Data.Alike.tag_eq {v w : Data} (h : v.Alike w) : v.tag = w.tag := by
  cases v with
  | table len array entries =>
      have ⟨_, _, heq, _⟩ := h
      rw [heq]
      rfl
  | nil => rw [show w = .nil from h]
  | null => rw [show w = .null from h]
  | boolean b => rw [show w = .boolean b from h]
  | integer i => rw [show w = .integer i from h]
  | number n => rw [show w = .number n from h]
  | string s => rw [show w = .string s from h]

theorem tag_of_numeric {v : Data} {q : ℚ} (h : v.numeric = some q) : v.tag = 'n' := by
  cases v with
  | integer i => rfl
  | number n => rfl
  | _ => cases h

theorem tag_of_double {v : Data} {n : F64} (h : v.double = some n) : v.tag = 'n' := by
  cases v with
  | integer i => rfl
  | number n => rfl
  | _ => cases h

theorem Matched.tag_eq {v w : Data} (h : Matched v w) : v.tag = w.tag := by
  cases h with
  | inl halike => exact halike.tag_eq
  | inr hnumber =>
      have ⟨q, hv, hw, _⟩ := hnumber
      rw [tag_of_numeric hv, tag_of_numeric hw]

section

variable {display decimal : F64 → String} {v w : Data} {n m : F64} {i j : ℤ}

theorem Clash.tag_eq (h : Clash display v w) : v.tag = w.tag := by
  have ⟨n, i, hv, hw, _⟩ := h
  rw [tag_of_double hv, hw]
  rfl

theorem Collide.tag_eq (h : Collide display v w) : v.tag = w.tag := by
  cases h with
  | inl hclash => exact hclash.tag_eq
  | inr hclash => exact hclash.tag_eq.symm

/-! ## Numbers -/

theorem exact_inj {q : ℚ} (hn : n.exact = some q) (hm : m.exact = some q)
    (hzero : n = .negZero ↔ m = .negZero) : n = m := by
  cases n with
  | finite r =>
      cases m with
      | finite r' =>
          cases hn
          cases hm
          rfl
      | negZero => cases hzero.mpr rfl
      | infinite negative => cases hm
      | nan => cases hm
  | negZero => exact (hzero.mp rfl).symm
  | infinite negative => cases hn
  | nan => cases hn

theorem exists_exact (hn : n.IsDouble) : ∃ q, n.exact = some q := by
  cases n with
  | finite q => exact ⟨q, rfl⟩
  | negZero => exact ⟨0, rfl⟩
  | infinite negative => exact absurd hn id
  | nan => exact absurd hn id

/-- No double has the value of an integer that is not converted exactly. -/
theorem exact_ne (hn : n.IsDouble) (hj : F64.ofInt j ≠ .finite j) : n.exact ≠ some (j : ℚ) := by
  intro h
  cases n with
  | finite q =>
      have hq : q = j := Option.some.inj h
      rw [hq] at hn
      exact hj (F64.ofInt_of_isDouble hn)
  | negZero =>
      have hzero : (j : ℚ) = 0 := (Option.some.inj h).symm
      rw [Int.cast_eq_zero] at hzero
      rw [hzero] at hj
      exact hj rfl
  | infinite negative => cases h
  | nan => cases h

theorem numeric_of_double (h : v.double = some n) : v.numeric = n.exact := by
  cases v with
  | integer i =>
      rw [Data.double] at h
      split at h
      · cases h
        rfl
      · cases h
  | number m =>
      cases h
      rfl
  | _ => cases h

theorem isNegZero_of_double (h : v.double = some n) : v.isNegZero = true ↔ n = .negZero := by
  cases v with
  | integer i =>
      rw [Data.double] at h
      split at h
      · cases h
        exact iff_of_false Bool.false_ne_true fun heq => by cases heq
      · cases h
  | number m =>
      cases h
      cases n with
      | negZero => exact iff_of_true rfl rfl
      | _ => exact iff_of_false Bool.false_ne_true fun heq => by cases heq
  | _ => cases h

theorem double_eq_none (h : F64.ofInt i ≠ .finite i) : (Data.integer i).double = none := if_neg h

theorem double_isDouble (hv : v.Plain) (h : v.double = some n) : n.IsDouble := by
  cases hv with
  | integer i low high =>
      rw [Data.double] at h
      split at h
      · rename_i hexact
        cases h
        exact F64.isDouble_of_ofInt low high hexact
      · cases h
  | number m hm =>
      cases h
      exact hm
  | _ => cases h

theorem same_doubles (hv : v.Plain) (hvn : v.double = some n) (hwm : w.double = some m) :
    Matched v w ↔ n = m := by
  constructor
  · intro h
    cases h with
    | inl halike =>
        have heq : w = v := by
          cases v with
          | integer i => exact halike
          | number n => exact halike
          | _ => cases hvn
        rw [heq, hvn] at hwm
        exact Option.some.inj hwm
    | inr hnumber =>
        have ⟨q, hv', hw', hzero⟩ := hnumber
        rw [numeric_of_double hvn] at hv'
        rw [numeric_of_double hwm] at hw'
        refine exact_inj hv' hw' ?_
        rw [← isNegZero_of_double hvn, ← isNegZero_of_double hwm, hzero]
  · intro heq
    have ⟨q, hq⟩ := exists_exact (double_isDouble hv hvn)
    refine .inr ⟨q, by rw [numeric_of_double hvn, hq], by rw [numeric_of_double hwm, ← heq, hq],
      ?_⟩
    rw [Bool.eq_iff_iff, isNegZero_of_double hvn, isNegZero_of_double hwm, heq]

theorem not_same_inexact (hv : v.Plain) (hvn : v.double = some n) (hj : F64.ofInt j ≠ .finite j) :
    ¬Matched v (.integer j) ∧ ¬Matched (.integer j) v := by
  have hne : v ≠ .integer j := by
    intro heq
    rw [heq, double_eq_none hj] at hvn
    cases hvn
  have hvalue : v.numeric ≠ some (j : ℚ) := by
    rw [numeric_of_double hvn]
    exact exact_ne (double_isDouble hv hvn) hj
  constructor
  · intro h
    cases h with
    | inl halike =>
        cases v with
        | integer i => exact hne (show Data.integer j = .integer i from halike).symm
        | number n => cases (show Data.integer j = .number n from halike)
        | _ => cases hvn
    | inr hnumber =>
        have ⟨q, hv', hw', _⟩ := hnumber
        cases hw'
        exact hvalue hv'
  · intro h
    cases h with
    | inl halike => exact hne halike
    | inr hnumber =>
        have ⟨q, hw', hv', _⟩ := hnumber
        cases hw'
        exact hvalue hv'

theorem same_integers : Matched (.integer i) (.integer j) ↔ i = j := by
  constructor
  · intro h
    cases h with
    | inl halike => exact (Data.integer.inj halike).symm
    | inr hnumber =>
        have ⟨q, hv, hw, _⟩ := hnumber
        rw [Data.numeric] at hv hw
        exact Int.cast_injective (Option.some.inj (hv.trans hw.symm))
  · intro h
    exact .inl (by rw [Data.Alike, h])

theorem not_collide_doubles (hvn : v.double = some n) (hwm : w.double = some m) :
    ¬Collide display v w := by
  intro h
  cases h with
  | inl hclash =>
      have ⟨_, j, _, hw, hj, _⟩ := hclash
      rw [hw, double_eq_none hj] at hwm
      cases hwm
  | inr hclash =>
      have ⟨_, j, _, hv, hj, _⟩ := hclash
      rw [hv, double_eq_none hj] at hvn
      cases hvn

theorem collide_inexact (hvn : v.double = some n) (hj : F64.ofInt j ≠ .finite j) :
    (Collide display v (.integer j) ↔ display n = toString j) ∧
      (Collide display (.integer j) v ↔ display n = toString j) := by
  have hclash : Clash display v (.integer j) ↔ display n = toString j := by
    constructor
    · intro ⟨n', j', hn', hj', _, htext⟩
      cases hj'
      rw [hvn] at hn'
      cases hn'
      exact htext
    · intro htext
      exact ⟨n, j, hvn, rfl, hj, htext⟩
  have hother : ¬Clash display (.integer j) v := by
    intro ⟨n', _, hn', _⟩
    rw [double_eq_none hj] at hn'
    cases hn'
  rw [Collide, Collide, hclash]
  exact ⟨or_iff_left hother, or_iff_right hother⟩

theorem not_collide_integers (hi : F64.ofInt i ≠ .finite i) (hj : F64.ofInt j ≠ .finite j) :
    ¬Collide display (.integer i) (.integer j) := by
  intro h
  cases h with
  | inl hclash =>
      have ⟨n, _, hn, _⟩ := hclash
      rw [double_eq_none hi] at hn
      cases hn
  | inr hclash =>
      have ⟨n, _, hn, _⟩ := hclash
      rw [double_eq_none hj] at hn
      cases hn

/-! ## What the texts tell -/

/-- The text of a value, by the value's kind. -/
inductive Form (display decimal : F64 → String) : Data → String → Prop
  | string (s : String) : Form display decimal (.string (.ofString s)) (tagged 's' s)
  | boolean (b : Bool) :
      Form display decimal (.boolean b) (tagged 'b' (if b then "true" else "false"))
  | double {v : Data} {n : F64} (h : v.double = some n) :
      Form display decimal v (tagged 'n' (display n))
  | inexact {i : ℤ} (h : F64.ofInt i ≠ .finite i) :
      Form display decimal (.integer i) (tagged 'n' (toString i))
  | table {len : ℕ} {array : Bool} {entries : List (Key × Data)} {doc : Doc}
      (h : (Data.table len array entries).calls.plain decimal = .ok doc) :
      Form display decimal (.table len array entries)
        (tagged 't' (String.ofList (doc.text decimal)))

/-- Plain data within the bounds has a text, whatever its pointer. -/
theorem Data.Plain.form (hv : v.Plain) (hbounds : checkJsonBounds v = .ok ()) (pointer : String) :
    ∃ c, canonical display decimal pointer v = .ok c ∧ Form display decimal v c := by
  have huniform := hv.uniform
  have htable : ∀ len array entries, v = .table len array entries →
      ∃ c, canonical display decimal pointer v = .ok c ∧ Form display decimal v c := by
    intro len array entries heq
    subst heq
    have hfits := (checkJsonBounds_isOk (.table len array entries)).mp (by rw [hbounds]; rfl)
    have hcost := huniform.measured.cost
    cases huniform.toJson_cases decimal with
    | inl hok =>
        have ⟨_, doc, hplain, hdoc⟩ := hok
        refine ⟨_, ?_, .table hplain⟩
        rw [canonical, hbounds, hdoc]
        rfl
    | inr hbad => exact absurd ⟨hfits.1, hcost.trans hfits.2⟩ hbad.1
  cases hv with
  | boolean b => exact ⟨_, rfl, .boolean b⟩
  | integer i _ _ =>
      by_cases hexact : F64.ofInt i = .finite i
      · refine ⟨_, ?_, .double (n := .finite i) (if_pos hexact)⟩
        rw [canonical, if_pos hexact, hexact]
      · exact ⟨_, if_neg hexact, .inexact hexact⟩
  | number n _ => exact ⟨_, rfl, .double rfl⟩
  | string s =>
      refine ⟨_, ?_, .string s⟩
      rw [canonical, LuaString.toStringLossy_ofString]
  | list len array entries _ _ => exact htable len array entries rfl
  | named array entries _ _ _ => exact htable 0 array entries rfl

theorem Form.exists_tagged {c : String} (h : Form display decimal v c) :
    ∃ text, c = tagged v.tag text := by
  cases h with
  | string s => exact ⟨_, rfl⟩
  | boolean b => exact ⟨_, rfl⟩
  | double hn => exact ⟨_, by rw [tag_of_double hn]⟩
  | inexact _ => exact ⟨_, rfl⟩
  | table _ => exact ⟨_, rfl⟩

/-- Two numbers. -/
theorem number_form_iff (hdisplay : Display display) {c d : String} (hv : v.Plain) (hw : w.Plain)
    (hvtag : v.tag = 'n') (hwtag : w.tag = 'n') (hc : Form display decimal v c)
    (hd : Form display decimal w d) : c = d ↔ Matched v w ∨ Collide display v w := by
  cases hc with
  | string s => cases hvtag
  | boolean b => cases hvtag
  | table _ => cases hvtag
  | double hvn =>
      cases hd with
      | string s => cases hwtag
      | boolean b => cases hwtag
      | table _ => cases hwtag
      | double hwm =>
          rw [tagged_inj, and_iff_right rfl, same_doubles hv hvn hwm,
            or_iff_left (not_collide_doubles hvn hwm)]
          exact ⟨hdisplay _ _ (double_isDouble hv hvn) (double_isDouble hw hwm),
            fun heq => by rw [heq]⟩
      | inexact hj =>
          rw [tagged_inj, and_iff_right rfl, or_iff_right (not_same_inexact hv hvn hj).1,
            (collide_inexact hvn hj).1]
  | inexact hi =>
      cases hd with
      | string s => cases hwtag
      | boolean b => cases hwtag
      | table _ => cases hwtag
      | double hwm =>
          rw [tagged_inj, and_iff_right rfl, or_iff_right (not_same_inexact hw hwm hi).2,
            (collide_inexact hwm hi).2, eq_comm]
      | inexact hj =>
          rw [tagged_inj, and_iff_right rfl, same_integers,
            or_iff_left (not_collide_integers hi hj)]
          exact ⟨toString_inj, fun heq => by rw [heq]⟩

/-- Two tables. -/
theorem table_form_iff (hdecimal : Decimal decimal) {c d : String} (hv : v.Plain) (hw : w.Plain)
    (hvtag : v.tag = 't') (hwtag : w.tag = 't') (hc : Form display decimal v c)
    (hd : Form display decimal w d) : c = d ↔ v.Alike w := by
  cases hc with
  | string s => cases hvtag
  | boolean b => cases hvtag
  | inexact _ => cases hvtag
  | double hn =>
      rw [tag_of_double hn] at hvtag
      cases hvtag
  | table ha =>
      cases hd with
      | string s => cases hwtag
      | boolean b => cases hwtag
      | inexact _ => cases hwtag
      | double hn =>
          rw [tag_of_double hn] at hwtag
          cases hwtag
      | table hb =>
          rw [tagged_inj, and_iff_right rfl, ← Data.decided _ hv hw ha hb]
          constructor
          · intro h
            exact text_inj hdecimal (hv.doubles ha) (hw.doubles hb) (String.ofList_injective h)
          · intro h
            rw [h]

/-- Values that are no numbers. -/
theorem same_or_collide (htag : v.tag ≠ 'n') : Matched v w ∨ Collide display v w ↔ v.Alike w := by
  constructor
  · intro h
    cases h with
    | inl hsame =>
        cases hsame with
        | inl halike => exact halike
        | inr hnumber =>
            have ⟨q, hv, _⟩ := hnumber
            exact absurd (tag_of_numeric hv) htag
    | inr hcollide =>
        cases hcollide with
        | inl hclash =>
            have ⟨n, _, hv, _⟩ := hclash
            exact absurd (tag_of_double hv) htag
        | inr hclash =>
            have ⟨_, i, _, hv, _⟩ := hclash
            exact absurd (by rw [hv]; rfl) htag
  · intro h
    exact .inl (.inl h)

/-- The texts are equal exactly where the values are the same or collide. -/
theorem form_iff (hdisplay : Display display) (hdecimal : Decimal decimal) {c d : String}
    (hv : v.Plain) (hw : w.Plain) (hc : Form display decimal v c) (hd : Form display decimal w d) :
    c = d ↔ Matched v w ∨ Collide display v w := by
  by_cases htag : v.tag = w.tag
  · by_cases hnumber : v.tag = 'n'
    · exact number_form_iff hdisplay hv hw hnumber (htag ▸ hnumber) hc hd
    · rw [same_or_collide hnumber]
      by_cases htable : v.tag = 't'
      · exact table_form_iff hdecimal hv hw htable (htag ▸ htable) hc hd
      · cases hc with
        | double hn => exact absurd (tag_of_double hn) hnumber
        | inexact _ => exact absurd rfl hnumber
        | table _ => exact absurd rfl htable
        | string s =>
            cases hd with
            | string s' =>
                rw [tagged_inj, and_iff_right rfl, Data.Alike, Data.string.injEq,
                  LuaString.ofString_inj, eq_comm]
            | double hn =>
                rw [tag_of_double hn] at htag
                cases htag
            | _ => cases htag
        | boolean b =>
            cases hd with
            | boolean b' =>
                rw [tagged_inj, and_iff_right rfl, Data.Alike, Data.boolean.injEq]
                cases b <;> cases b' <;> decide
            | double hn =>
                rw [tag_of_double hn] at htag
                cases htag
            | _ => cases htag
  · obtain ⟨text, htext⟩ := hc.exists_tagged
    obtain ⟨text', htext'⟩ := hd.exists_tagged
    refine iff_of_false (fun h => ?_) fun h => ?_
    · rw [htext, htext', tagged_inj] at h
      exact htag h.1
    · cases h with
      | inl hsame => exact htag hsame.tag_eq
      | inr hcollide => exact htag hcollide.tag_eq

/-! ## Equality as the code decides it -/

theorem Matched.meaning_eq (hv : v.Plain) (hw : w.Plain) (h : Matched v w) : v.meaning = w.meaning := by
  cases h with
  | inl halike => exact halike.meaning_eq hv hw
  | inr hnumber =>
      have ⟨q, hq, hq', _⟩ := hnumber
      have hmeaning : ∀ u : Data, u.numeric = some q → u.meaning = .number q := by
        intro u hu
        cases u with
        | integer i =>
            cases hu
            rfl
        | number n =>
            rw [Data.numeric] at hu
            rw [Data.meaning, hu]
            rfl
        | _ => cases hu
      rw [hmeaning v hq, hmeaning w hq']

theorem Clash.meaning_ne (hv : v.Plain) (h : Clash display v w) : v.meaning ≠ w.meaning := by
  have ⟨n, i, hn, hw, hi, _⟩ := h
  have ⟨q, hq⟩ := exists_exact (double_isDouble hv hn)
  have hne := exact_ne (double_isDouble hv hn) hi
  have hmeaning : v.meaning = .number q := by
    cases v with
    | integer j =>
        rw [← numeric_of_double hn] at hq
        cases hq
        rfl
    | number m =>
        cases hn
        rw [Data.meaning, hq]
        rfl
    | _ => cases hn
  rw [hmeaning, hw]
  intro heq
  rw [hq, Meaning.number.inj heq] at hne
  exact hne rfl

theorem Collide.meaning_ne (hv : v.Plain) (hw : w.Plain) (h : Collide display v w) :
    v.meaning ≠ w.meaning := by
  cases h with
  | inl hclash => exact hclash.meaning_ne hv
  | inr hclash => exact (hclash.meaning_ne hw).symm

/-- Two values that the code compares as JSON does: neither equal and written differently, nor
different numbers with the digits of one. -/
def Comparable (display : F64 → String) (v w : Data) : Prop :=
  (v.meaning = w.meaning → Matched v w) ∧ ¬Collide display v w

theorem same_or_collide_iff (hv : v.Plain) (hw : w.Plain) :
    (Matched v w ∨ Collide display v w ↔ v.meaning = w.meaning) ↔ Comparable display v w := by
  constructor
  · intro h
    have hapart : ¬Collide display v w := fun hcollide =>
      hcollide.meaning_ne hv hw (h.mp (.inr hcollide))
    exact ⟨fun hmeaning => (h.mpr hmeaning).resolve_right hapart, hapart⟩
  · intro h
    constructor
    · intro hcase
      cases hcase with
      | inl hsame => exact hsame.meaning_eq hv hw
      | inr hcollide => exact absurd hcollide h.2
    · exact fun hmeaning => .inl (h.1 hmeaning)

/-- Plain data within the JSON bounds. -/
structure Admitted (v : Data) : Prop where
  plain : v.Plain
  bounds : checkJsonBounds v = .ok ()

/-- Comparable values have one text exactly where they are equal. -/
theorem form_eq_iff (hdisplay : Display display) (hdecimal : Decimal decimal) {c d : String}
    (hv : v.Plain) (hw : w.Plain) (hc : Form display decimal v c) (hd : Form display decimal w d)
    (h : Comparable display v w) : c = d ↔ v.meaning = w.meaning :=
  (form_iff hdisplay hdecimal hv hw hc hd).trans ((same_or_collide_iff hv hw).mpr h)

/-- The loop of `unique`, the values it has seen apart from each other. -/
theorem repeats_eq (hdisplay : Display display) (hdecimal : Decimal decimal)
    {items : List (String × Data)} {past : List Data} {seen : List String}
    (hseen : List.Forall₂ (Form display decimal) past seen) (hpast : ∀ v ∈ past, v.Plain)
    (hitems : ∀ item ∈ items, Admitted item.2)
    (hcomparable : (past ++ items.map Prod.snd).Pairwise (Comparable display))
    (hapart : past.Pairwise fun v w => v.meaning ≠ w.meaning) :
    ∃ r, repeats display decimal items seen = .ok r ∧
      (r = true ↔ ¬(past ++ items.map Prod.snd).Pairwise fun v w => v.meaning ≠ w.meaning) := by
  induction items generalizing past seen with
  | nil =>
      refine ⟨false, rfl, iff_of_false Bool.false_ne_true (not_not.mpr ?_)⟩
      rwa [List.map_nil, List.append_nil]
  | cons entry items ih =>
      have ⟨pointer, item⟩ := entry
      have hitem := hitems _ List.mem_cons_self
      have ⟨c, hc, hform⟩ : ∃ c, canonical display decimal pointer item = .ok c ∧
        Form display decimal item c := hitem.plain.form hitem.bounds pointer
      rw [List.map_cons] at hcomparable
      have hbefore : ∀ u ∈ past, Comparable display u item := fun u hu =>
        (List.pairwise_append.mp hcomparable).2.2 u hu item List.mem_cons_self
      have hmem : c ∈ seen ↔ ∃ u ∈ past, u.meaning = item.meaning := by
        constructor
        · intro hin
          have ⟨i, hi⟩ := List.mem_iff_getElem?.mp hin
          have ⟨u, hu, huform⟩ := getElem?_of_forall₂ hseen.flip hi
          have hpresent := List.mem_of_getElem? hu
          exact ⟨u, hpresent, (form_eq_iff hdisplay hdecimal (hpast u hpresent) hitem.plain huform
            hform (hbefore u hpresent)).mp rfl⟩
        · intro ⟨u, hu, hmeaning⟩
          have ⟨i, hi⟩ := List.mem_iff_getElem?.mp hu
          have ⟨d, hd, hdform⟩ := getElem?_of_forall₂ hseen hi
          have htext := (form_eq_iff hdisplay hdecimal (hpast u hu) hitem.plain hdform hform
            (hbefore u hu)).mpr hmeaning
          exact htext ▸ List.mem_of_getElem? hd
      rw [repeats, hc, List.map_cons]
      by_cases hin : c ∈ seen
      · refine ⟨true, if_pos hin, iff_of_true rfl fun hall => ?_⟩
        have ⟨u, hu, hmeaning⟩ := hmem.mp hin
        exact (List.pairwise_append.mp hall).2.2 u hu item List.mem_cons_self hmeaning
      · have hnew : (past ++ [item]).Pairwise fun v w => v.meaning ≠ w.meaning := by
          refine List.pairwise_append.mpr ⟨hapart, List.pairwise_singleton _ _, ?_⟩
          intro u hu w hw heq
          rw [List.mem_singleton.mp hw] at heq
          exact hin (hmem.mpr ⟨u, hu, heq⟩)
        have hplain : ∀ v ∈ past ++ [item], v.Plain := by
          intro v hv
          cases List.mem_append.mp hv with
          | inl hold => exact hpast v hold
          | inr hlast => exact List.mem_singleton.mp hlast ▸ hitem.plain
        have ⟨r, hr, hiff⟩ := ih (List.rel_append hseen (.cons hform .nil)) hplain
          (fun e he => hitems e (List.mem_cons_of_mem _ he))
          (by rwa [List.append_assoc, List.singleton_append]) hnew
        rw [List.append_assoc, List.singleton_append] at hiff
        exact ⟨r, (if_neg hin).trans hr, hiff⟩

/-- The values of the fields that are present. -/
def presentValues (fields : List (Option (String × Data))) : List Data :=
  fields.filterMap fun field => field.map Prod.snd

/-- The loop of `equal_fields` behind its first value. -/
theorem agree_some (hdisplay : Display display) (hdecimal : Decimal decimal)
    {fields : List (Option (String × Data))} {expected : String} (hv : v.Plain)
    (hform : Form display decimal v expected) (hfields : ∀ w ∈ presentValues fields, Admitted w)
    (hcomparable : ∀ w ∈ presentValues fields, Comparable display v w) :
    ∃ r, agree display decimal fields (some expected) = .ok r ∧
      (r = true ↔ ∀ w ∈ presentValues fields, v.meaning = w.meaning) := by
  induction fields with
  | nil => exact ⟨true, rfl, iff_of_true rfl fun _ hw => absurd hw List.not_mem_nil⟩
  | cons field fields ih =>
      cases field with
      | none => exact ih hfields hcomparable
      | some entry =>
          have ⟨pointer, w⟩ := entry
          have hvalues : presentValues (some (pointer, w) :: fields) = w :: presentValues fields :=
            rfl
          rw [hvalues] at hfields hcomparable ⊢
          rw [List.forall_mem_cons] at hfields hcomparable
          have ⟨c, hc, hwform⟩ : ∃ c, canonical display decimal pointer w = .ok c ∧
            Form display decimal w c := hfields.1.plain.form hfields.1.bounds pointer
          have hiff := form_eq_iff hdisplay hdecimal hv hfields.1.plain hform hwform hcomparable.1
          have ⟨r, hr, hrest⟩ := ih hfields.2 hcomparable.2
          rw [List.forall_mem_cons, ← hiff]
          by_cases hsame : expected = c
          · refine ⟨r, ?_, by rw [hrest, and_iff_right hsame]⟩
            rw [agree, hc]
            exact (if_neg (not_not.mpr hsame)).trans hr
          · refine ⟨false, ?_, iff_of_false Bool.false_ne_true fun h => hsame h.1⟩
            rw [agree, hc]
            exact if_pos hsame

theorem agree_none (hdisplay : Display display) (hdecimal : Decimal decimal)
    {fields : List (Option (String × Data))} (hfields : ∀ w ∈ presentValues fields, Admitted w)
    (hcomparable : (presentValues fields).Pairwise (Comparable display)) :
    ∃ r, agree display decimal fields none = .ok r ∧
      (r = true ↔ (presentValues fields).Pairwise fun v w => v.meaning = w.meaning) := by
  induction fields with
  | nil => exact ⟨true, rfl, iff_of_true rfl List.Pairwise.nil⟩
  | cons field fields ih =>
      cases field with
      | none => exact ih hfields hcomparable
      | some entry =>
          have ⟨pointer, v⟩ := entry
          have hvalues : presentValues (some (pointer, v) :: fields) = v :: presentValues fields :=
            rfl
          rw [hvalues] at hfields hcomparable ⊢
          rw [List.forall_mem_cons] at hfields
          have ⟨hfirst, _⟩ := List.pairwise_cons.mp hcomparable
          have ⟨c, hc, hform⟩ : ∃ c, canonical display decimal pointer v = .ok c ∧
            Form display decimal v c := hfields.1.plain.form hfields.1.bounds pointer
          have ⟨r, hr, hiff⟩ := agree_some hdisplay hdecimal hfields.1.plain hform hfields.2 hfirst
          refine ⟨r, ?_, ?_⟩
          · rw [agree, hc]
            exact hr
          · rw [hiff, List.pairwise_cons]
            refine ⟨fun hall => ⟨hall, ?_⟩, fun h => h.1⟩
            exact List.pairwise_of_forall_mem_list fun u hu w hw => (hall u hu).symm.trans (hall w hw)

end

/-- Two values have one text exactly where they are equal as JSON if and only if they are
comparable; with comparable values `unique` refuses exactly the arrays with two equal items, and
`equal_fields` accepts exactly the groups whose values are all equal. -/
theorem canonical_iff {display decimal : F64 → String} (hdisplay : Display display)
    (hdecimal : Decimal decimal) :
    (∀ (v w : Data) (p q : String), Admitted v → Admitted w →
      (((∃ c, canonical display decimal p v = .ok c ∧ canonical display decimal q w = .ok c) ↔
        v.meaning = w.meaning) ↔ Comparable display v w)) ∧
    (∀ items : List (String × Data), (∀ item ∈ items, Admitted item.2) →
      (items.map Prod.snd).Pairwise (Comparable display) →
      ∃ r, repeats display decimal items [] = .ok r ∧
        (r = true ↔ ¬(items.map Prod.snd).Pairwise fun v w => v.meaning ≠ w.meaning)) ∧
    ∀ fields : List (Option (String × Data)), (∀ v ∈ presentValues fields, Admitted v) →
      (presentValues fields).Pairwise (Comparable display) →
      ∃ r, agree display decimal fields none = .ok r ∧
        (r = true ↔ (presentValues fields).Pairwise fun v w => v.meaning = w.meaning) := by
  refine ⟨fun v w p q hv hw => ?_, fun items hitems hcomparable => ?_,
    fun fields hfields hcomparable => agree_none hdisplay hdecimal hfields hcomparable⟩
  · rw [← same_or_collide_iff hv.plain hw.plain]
    have ⟨c, hc, hform⟩ : ∃ c, canonical display decimal p v = .ok c ∧ Form display decimal v c :=
      hv.plain.form hv.bounds p
    have ⟨d, hd, hdform⟩ : ∃ d, canonical display decimal q w = .ok d ∧ Form display decimal w d :=
      hw.plain.form hw.bounds q
    have htexts : (∃ c, canonical display decimal p v = .ok c ∧
        canonical display decimal q w = .ok c) ↔ c = d := by
      rw [hc, hd]
      constructor
      · intro ⟨text, htext, htext'⟩
        exact (Except.ok.inj htext).trans (Except.ok.inj htext').symm
      · intro heq
        exact ⟨c, rfl, by rw [heq]⟩
    rw [htexts, form_iff hdisplay hdecimal hv.plain hw.plain hform hdform]
  · exact repeats_eq hdisplay hdecimal .nil (fun _ h => absurd h List.not_mem_nil) hitems
      hcomparable .nil

/-! ## Values that are compared otherwise -/

/-- Digits with a point, for the inputs below those of `serde_json`. -/
def printed : F64 → String
  | .finite q => toString q.num ++ "." ++ toString (q.den - 1)
  | .negZero => "-0.0"
  | .infinite _ | .nan => "null"

theorem toList_printed (q : ℚ) :
    (printed (.finite q)).toList =
      (toString q.num).toList ++ '.' :: Nat.toDigits 10 (q.den - 1) := by
  rw [printed, String.toList_append, String.toList_append, List.append_assoc]
  exact congrArg _ (congrArg _ Nat.toList_repr)

theorem minus_zero_ne (i : ℤ) : (toString i).toList ≠ ['-', '0'] := by
  intro h
  rw [toList_toString] at h
  split at h
  · have hmem : '-' ∈ Nat.toDigits 10 i.natAbs := by
      rw [h]
      exact List.mem_cons_self
    cases isDigit_of_mem hmem
  · rename_i hneg
    have habs : i.natAbs = 0 := toDigits_inj (List.cons.inj h).2
    omega

/-- An integer's text ends at the first point. -/
theorem takeWhile_point (i : ℤ) (rest : List Char) :
    ((toString i).toList ++ '.' :: rest).takeWhile (fun c => c != '.') = (toString i).toList := by
  have hdigits : ∀ c ∈ (toString i).toList, (c != '.') = true := by
    intro c hc
    rw [bne_iff_ne]
    cases isDigit_or_minus hc with
    | inl hdigit => exact digit_ne hdigit rfl
    | inr hminus =>
        rw [hminus]
        decide
  rw [List.takeWhile_append_of_pos hdigits, List.takeWhile_cons_of_neg (by decide),
    List.append_nil]

theorem printed_inj {n m : F64} (hn : n.IsDouble) (hm : m.IsDouble) (h : printed n = printed m) :
    n = m := by
  have hlist := congrArg String.toList h
  have hcut := congrArg (List.takeWhile fun c => c != '.') hlist
  cases n with
  | finite q =>
      cases m with
      | finite q' =>
          rw [toList_printed, toList_printed] at hlist hcut
          rw [takeWhile_point, takeWhile_point] at hcut
          rw [hcut] at hlist
          have hnum := toString_inj (String.toList_injective hcut)
          have hden := toDigits_inj (List.cons.inj (List.append_cancel_left hlist)).2
          have hpos := q.den_pos
          have hpos' := q'.den_pos
          rw [Rat.ext hnum (by omega)]
      | negZero =>
          rw [toList_printed, takeWhile_point] at hcut
          exact absurd hcut (minus_zero_ne _)
      | infinite negative => exact absurd hm id
      | nan => exact absurd hm id
  | negZero =>
      cases m with
      | finite q' =>
          rw [toList_printed, takeWhile_point] at hcut
          exact absurd hcut.symm (minus_zero_ne _)
      | negZero => rfl
      | infinite negative => exact absurd hm id
      | nan => exact absurd hm id
  | infinite negative => exact absurd hn id
  | nan => exact absurd hn id

theorem decimal_printed : Decimal printed where
  numeral n hn c hc := by
    cases n with
    | finite q =>
        rw [toList_printed, List.mem_append, List.mem_cons] at hc
        rcases hc with hnum | hpoint | hden
        · cases isDigit_or_minus hnum with
          | inl hdigit => exact .inl hdigit
          | inr hminus => exact .inr (.inl hminus)
        · exact .inr (.inr (.inl hpoint))
        · exact .inl (isDigit_of_mem hden)
    | negZero =>
        have hchar : c = '-' ∨ c = '0' ∨ c = '.' ∨ c = '0' := by
          simpa only [List.mem_cons, List.not_mem_nil, or_false] using
            (show c ∈ ['-', '0', '.', '0'] from hc)
        rcases hchar with rfl | rfl | rfl | rfl
        · exact .inr (.inl rfl)
        · exact .inl rfl
        · exact .inr (.inr (.inl rfl))
        · exact .inl rfl
    | infinite negative => exact absurd hn id
    | nan => exact absurd hn id
  pointed n hn := by
    cases n with
    | finite q =>
        refine ⟨'.', ?_, .inl rfl⟩
        rw [toList_printed]
        exact List.mem_append_right _ List.mem_cons_self
    | negZero => exact ⟨'.', by decide, .inl rfl⟩
    | infinite negative => exact absurd hn id
    | nan => exact absurd hn id
  inj _ _ := printed_inj

def listOne : Data := .table 1 false [(.integer 1, .integer 1)]

def listOneDouble : Data := .table 1 false [(.integer 1, .number (.finite 1))]

theorem admitted_listOne : Admitted listOne where
  plain := by
    refine .list _ _ _ (List.Perm.refl _) fun e he => ?_
    rw [List.mem_singleton.mp he]
    exact .integer 1 (by decide) (by decide)
  bounds := rfl

theorem isDouble_int (i : ℤ) (h : |i| < 2 ^ 53) : (F64.finite i).IsDouble :=
  ⟨i, 0, h, by decide, by decide, by rw [zpow_zero, mul_one]⟩

theorem admitted_listOneDouble : Admitted listOneDouble where
  plain := by
    refine .list _ _ _ (List.Perm.refl _) fun e he => ?_
    rw [List.mem_singleton.mp he]
    exact .number _ (isDouble_int 1 (by decide))
  bounds := rfl

theorem admitted_integer (i : ℤ) (hlow : -2 ^ 63 ≤ i) (hhigh : i < 2 ^ 63) :
    Admitted (.integer i) where
  plain := .integer i hlow hhigh
  bounds := rfl

theorem canonical_iff_lists :
    Admitted listOneDouble ∧ Admitted listOne ∧
      (((∃ c, canonical printed printed "" listOneDouble = .ok c ∧
          canonical printed printed "" listOne = .ok c) ↔
        listOneDouble.meaning = listOne.meaning) ↔ Comparable printed listOneDouble listOne) :=
  ⟨admitted_listOneDouble, admitted_listOne,
    (canonical_iff (fun _ _ => printed_inj) decimal_printed).1 listOneDouble listOne "" ""
      admitted_listOneDouble admitted_listOne⟩

/-- A table with two keys. -/
def flagged (first second : String) : Data :=
  .table 0 false [(.string (.ofString first), .boolean true),
    (.string (.ofString second), .boolean true)]

theorem plain_flagged {first second : String} (h : first ≠ second) :
    (flagged first second).Plain := by
  refine .named _ _ ?_ (fun e he => ?_) fun e he => ?_
  · simpa using h
  · rcases List.mem_cons.mp he with rfl | he
    · exact ⟨first, rfl⟩
    · rw [List.mem_singleton.mp he]
      exact ⟨second, rfl⟩
  · rcases List.mem_cons.mp he with rfl | he
    · exact .boolean true
    · rw [List.mem_singleton.mp he]
      exact .boolean true

/-- The display of the doubles below. -/
def shown (n : F64) : String :=
  if n = .finite (2 ^ 60) then "1152921504606847000" else if n = .negZero then "-0" else "0"

/-- A double and its integer in a list, one table in two orders, the two zeros: equal values
with two texts. An integer and the double that is displayed with its digits: two values with one. -/
theorem canonical_differs :
    (Admitted listOne ∧ Admitted listOneDouble ∧ listOne.meaning = listOneDouble.meaning ∧
      canonical shown (fun _ => "1.0") "" listOne = .ok "t:[1]" ∧
      canonical shown (fun _ => "1.0") "" listOneDouble = .ok "t:[1.0]") ∧
    (Admitted (flagged "a" "b") ∧ Admitted (flagged "b" "a") ∧
      (flagged "a" "b").meaning = (flagged "b" "a").meaning ∧
      canonical shown (fun _ => "1.0") "" (flagged "a" "b") = .ok "t:\x7b\"a\":true,\"b\":true\x7d" ∧
      canonical shown (fun _ => "1.0") "" (flagged "b" "a") = .ok "t:\x7b\"b\":true,\"a\":true\x7d") ∧
    (Admitted (.integer 0) ∧ Admitted (.number .negZero) ∧
      (Data.integer 0).meaning = (Data.number .negZero).meaning ∧
      canonical shown (fun _ => "1.0") "" (.integer 0) = .ok "n:0" ∧
      canonical shown (fun _ => "1.0") "" (.number .negZero) = .ok "n:-0") ∧
    (Admitted (.integer 1152921504606847000) ∧ Admitted (.integer (2 ^ 60)) ∧
      (Data.integer 1152921504606847000).meaning ≠ (Data.integer (2 ^ 60)).meaning ∧
      canonical shown (fun _ => "1.0") "" (.integer 1152921504606847000) =
        .ok "n:1152921504606847000" ∧
      canonical shown (fun _ => "1.0") "" (.integer (2 ^ 60)) = .ok "n:1152921504606847000") := by
  have hflags : (flagged "a" "b").meaning = (flagged "b" "a").meaning := by
    refine congrArg Meaning.object (funext fun name => ?_)
    by_cases ha : name = "a"
    · rw [ha]
      rfl
    · by_cases hb : name = "b"
      · rw [hb]
        rfl
      · simp [rawGet, entryMeanings, Ne.symm ha, Ne.symm hb]
  have hbig : (Data.integer 1152921504606847000).meaning ≠ (Data.integer (2 ^ 60)).meaning := by
    intro h
    have hcast := Int.cast_injective (Meaning.number.inj h)
    exact absurd hcast (by decide)
  refine ⟨⟨admitted_listOne, admitted_listOneDouble, ?_, rfl, rfl⟩,
    ⟨⟨plain_flagged (by decide), rfl⟩, ⟨plain_flagged (by decide), rfl⟩, hflags, rfl, rfl⟩,
    ⟨admitted_integer 0 (by decide) (by decide), ⟨.number _ trivial, rfl⟩, rfl, rfl, rfl⟩,
    admitted_integer _ (by decide) (by decide), admitted_integer _ (by decide) (by decide), hbig,
    rfl, rfl⟩
  rfl

end Nitr.Json
