import Nitr.Http.Weights
import Nitr.Http.Cors

/-! # The coding of a response

`Compression::negotiate` and the scan of `Accept-Encoding` in `compress.rs`, against the weights
the header gives its codings. -/

namespace Nitr.Accept

open Nitr.Http (Text Encoding toStr eqIgnoreAsciiCase isOws)
open Nitr.Validate (F64)
open Unicode (trim)

/-! ## The scan -/

def fromTokenIgnoreAsciiCase (token : Text) : Option Encoding :=
  if eqIgnoreAsciiCase token "br".toList then some .brotli
  else if eqIgnoreAsciiCase token "gzip".toList then some .gzip
  else none

/-- The weight of an entry: the first parameter that reads as one, or 1. -/
def entryWeight (params : List Text) : F64 :=
  (params.findSome? fun p => ((trim p).stripPrefix "q=".toList).bind parseDecimal).getD (.finite 1)

/-- One entry, if it names a coding that can be produced. -/
def acceptEncodingEntry (entry : Text) : Option (Encoding × F64) :=
  match entry.splitOn ';' with
  | [] => none
  | first :: params =>
      (fromTokenIgnoreAsciiCase (trim first)).map fun encoding => (encoding, entryWeight params)

def acceptEncodingEntries (value : Text) : List (Encoding × F64) :=
  (value.splitOn ',').filterMap acceptEncodingEntry

/-- The first coding of the list, in the server's order, that an entry accepts. -/
def negotiate (algorithms : List Encoding) (acceptEncoding : Option Text) : Option Encoding :=
  (acceptEncoding.bind toStr).bind fun value =>
    algorithms.find? fun enc =>
      (acceptEncodingEntries value).any fun e => (F64.finite 0).lt e.2 && e.1 = enc

/-! ## The header -/

/-- The member is a coding's name. -/
def Member.names (m : Member) (enc : Encoding) : Bool := eqIgnoreAsciiCase m.name enc.token

/-- The header gives the coding a weight that is not zero, naming it. -/
def gives (l : WeightedList) (enc : Encoding) : Bool :=
  (WeightedList.members l).any fun m => m.names enc && m.value ≠ 0

theorem fromToken_eq_some {name : Text} {enc : Encoding} :
    fromTokenIgnoreAsciiCase name = some enc ↔ eqIgnoreAsciiCase name enc.token = true := by
  have hdiff : ∀ {a b : Text}, Http.toAsciiLowercase a ≠ Http.toAsciiLowercase b →
      eqIgnoreAsciiCase name a = true → ¬eqIgnoreAsciiCase name b = true := by
    intro a b hne ha hb
    exact hne ((of_decide_eq_true ha).symm.trans (of_decide_eq_true hb))
  have hbrotli : eqIgnoreAsciiCase name "br".toList = true →
      ¬eqIgnoreAsciiCase name "gzip".toList = true := hdiff (by decide)
  unfold fromTokenIgnoreAsciiCase
  cases enc with
  | brotli =>
      change _ ↔ eqIgnoreAsciiCase name "br".toList = true
      split
      · exact iff_of_true rfl ‹_›
      · rename_i hnot
        refine iff_of_false ?_ hnot
        split <;> simp
  | gzip =>
      change _ ↔ eqIgnoreAsciiCase name "gzip".toList = true
      split
      · rename_i h
        exact iff_of_false (by simp) (hbrotli h)
      · split
        · exact iff_of_true rfl ‹_›
        · rename_i hnot
          exact iff_of_false (by simp) hnot

/-- What the scan makes of the weight of a member. -/
theorem parseDecimal_body (w : Weight) : (w.body.stripPrefix "q=".toList).bind parseDecimal =
    if w.upper then none else some (.finite w.value) := by
  unfold Weight.body
  cases hcase : w.upper with
  | true =>
      have hnone : ('Q' :: '=' :: w.text).stripPrefix "q=".toList = none := by
        rw [List.stripPrefix_eq_none]
        rintro ⟨rest, hrest⟩
        cases hrest
      rw [if_pos rfl, if_pos rfl, hnone]
      rfl
  | false =>
      have hsome : ('q' :: '=' :: w.text).stripPrefix "q=".toList = some w.text :=
        List.stripPrefix_eq_some.mpr rfl
      rw [if_neg Bool.false_ne_true, if_neg Bool.false_ne_true, hsome]
      exact parseDecimal_qvalue w.qvalue

theorem entryWeight_map (params : List Text) :
    entryWeight params = (((params.map trim).findSome? fun p =>
      (p.stripPrefix "q=".toList).bind parseDecimal).getD (.finite 1)) := by
  rw [entryWeight, List.findSome?_map]
  rfl

/-- What the scan makes of a member. -/
theorem acceptEncodingEntry_member (m : Member) : acceptEncodingEntry m.spell =
    (fromTokenIgnoreAsciiCase m.name).map fun enc => (enc, .finite m.readValue) := by
  have hpieces := m.pieces
  unfold acceptEncodingEntry
  cases hsplit : m.spell.splitOn ';' with
  | nil => exact absurd hsplit (List.splitOn_ne_nil ';' _)
  | cons first params =>
      rw [hsplit, List.map_cons, List.cons.injEq] at hpieces
      have hweight : entryWeight params = .finite m.readValue := by
        rw [entryWeight_map, hpieces.2, Member.readValue]
        cases m.weight with
        | none => rfl
        | some w =>
            simp only [Option.map_some, Option.toList_some, List.findSome?_cons, parseDecimal_body,
              Option.elim_some]
            cases w.upper <;> rfl
      simp only [hpieces.1, hweight]

theorem acceptEncodingEntry_blank (blank : Blank) : acceptEncodingEntry blank.1 = none := by
  have hsplit : blank.1.splitOn ';' = [blank.1] :=
    List.splitOn_eq_singleton (not_mem_of_isOws blank.2 (by decide))
  have htrim : trim blank.1 = [] := by
    have := @trim_blanks blank.1 [] [] blank.2 rfl ⟨by simp, by simp, by simp⟩
    simpa using this
  unfold acceptEncodingEntry
  rw [hsplit]
  simp only [htrim]
  rfl

/-- The entries of a list are those of its members. -/
theorem acceptEncodingEntries_spell (l : WeightedList) :
    acceptEncodingEntries l.spell = (WeightedList.members l).filterMap fun m =>
      (fromTokenIgnoreAsciiCase m.name).map fun enc => (enc, .finite m.readValue) := by
  cases l with
  | nil => rfl
  | cons place l =>
      rw [acceptEncodingEntries, splitOn_spell _ (List.cons_ne_nil place l), List.filterMap_map,
        WeightedList.members, List.filterMap_filterMap]
      congr 1
      funext p
      cases p with
      | inl blank => exact acceptEncodingEntry_blank blank
      | inr m => exact acceptEncodingEntry_member m

/-- The codings the scan accepts. -/
theorem any_entries {l : WeightedList} {enc : Encoding} :
    ((acceptEncodingEntries l.spell).any fun e => (F64.finite 0).lt e.2 && e.1 = enc) =
      (WeightedList.members l).any fun m => m.names enc && m.readValue ≠ 0 := by
  rw [acceptEncodingEntries_spell, List.any_filterMap]
  congr 1
  funext m
  have hpos : decide (0 < m.readValue) = decide (m.readValue ≠ 0) :=
    decide_eq_decide.mpr m.readValue_nonneg.lt_iff_ne'
  cases htoken : fromTokenIgnoreAsciiCase m.name with
  | none =>
      have hnames : m.names enc = false := by
        by_contra h
        rw [Bool.not_eq_false] at h
        rw [fromToken_eq_some.mpr h] at htoken
        cases htoken
      simp [hnames]
  | some e =>
      have hnames : m.names enc = decide (e = enc) := by
        rw [Bool.eq_iff_iff, decide_eq_true_eq, Member.names, ← fromToken_eq_some, htoken,
          Option.some.injEq]
      simp only [Option.map_some, finite_lt_finite, hpos, hnames, Bool.and_comm]

/-- A member that is not refused is not read as refused. -/
theorem readValue_ne_zero {m : Member} (h : m.value ≠ 0) : m.readValue ≠ 0 := by
  rw [Member.value] at h
  rw [Member.readValue]
  cases hw : m.weight with
  | none => exact one_ne_zero
  | some w =>
      rw [hw, Option.elim_some] at h
      rw [Option.elim_some]
      split
      · exact one_ne_zero
      · exact h

/-- Negotiation follows the weights of the header exactly if no coding before the first that the
header accepts is refused with a capital letter. -/
theorem negotiate_eq_iff (algorithms : List Encoding) (l : WeightedList) :
    negotiate algorithms (some l.spell) = algorithms.find? (gives l) ↔
      ∀ enc ∈ algorithms.takeWhile fun enc => !gives l enc,
        ∀ m ∈ WeightedList.members l, m.names enc = true →
          ∀ w, m.weight = some w → w.upper = false := by
  have hread : toStr l.spell = some l.spell := if_pos (visible_spell l)
  have hle : ∀ enc, gives l enc = true →
      (WeightedList.members l).any (fun m => m.names enc && m.readValue ≠ 0) = true := by
    intro enc h
    obtain ⟨m, hm, hboth⟩ := List.any_eq_true.mp h
    rw [Bool.and_eq_true, decide_eq_true_eq] at hboth
    refine List.any_eq_true.mpr ⟨m, hm, ?_⟩
    rw [Bool.and_eq_true, decide_eq_true_eq]
    refine ⟨hboth.1, ?_⟩
    exact readValue_ne_zero hboth.2
  have hscan : negotiate algorithms (some l.spell) = algorithms.find? fun enc =>
      (WeightedList.members l).any fun m => m.names enc && m.readValue ≠ 0 := by
    rw [negotiate, Option.bind_some, hread, Option.bind_some]
    congr 1
    funext enc
    exact any_entries
  rw [hscan, List.find?_eq_find?_iff hle]
  refine forall₂_congr ?_
  intro enc henc
  have hrefused : ∀ m ∈ WeightedList.members l, m.names enc = true → m.value = 0 := by
    have hgives := List.mem_takeWhile_imp henc
    rw [Bool.not_eq_true', gives, List.any_eq_false] at hgives
    intro m hm hnames
    simpa [hnames] using hgives m hm
  rw [List.any_eq_false]
  refine forall₂_congr ?_
  intro m hm
  constructor
  · intro hread hnames w hw
    have hzero : m.readValue = 0 := by simpa [hnames] using hread
    by_contra hupper
    rw [Member.readValue, hw, Option.elim_some, if_pos (by simpa using hupper)] at hzero
    exact one_ne_zero hzero
  · intro hlower
    rw [Bool.and_eq_true, decide_eq_true_eq]
    rintro ⟨hnames, hne⟩
    have hzero := hrefused m hm hnames
    refine hne ?_
    rw [← hzero, Member.readValue, Member.value]
    cases hw : m.weight with
    | none => rfl
    | some w =>
        rw [Option.elim_some, Option.elim_some, hlower hnames w hw]
        rfl

/-- The list `gzip;Q=0`. -/
def refusedGzip : WeightedList :=
  let weight : Weight := ⟨[], true, ['0'], 0, all_isOws_nil, .zero⟩
  [.inr ⟨[], "gzip".toList, [], some weight, [], all_isOws_nil, List.cons_ne_nil _ _, rfl⟩]

theorem refused_gzip_sent : refusedGzip.spell = "gzip;Q=0".toList ∧
    negotiate [.gzip] (some refusedGzip.spell) = some .gzip ∧
      [Encoding.gzip].find? (gives refusedGzip) = none := by
  refine ⟨by decide, by decide +kernel, ?_⟩
  rw [List.find?_singleton, if_neg]
  simp [gives, WeightedList.members, refusedGzip, Member.value]

end Nitr.Accept
