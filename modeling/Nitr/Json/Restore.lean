import Nitr.Json.RoundTrip

/-! # What reading back restores

Equality of Lua data, numbers by value and tables by their entries. A value read back is equal
to the one written exactly if its lists have no holes, its other tables only string keys, and
no double in it is lost. -/

namespace Nitr.Json

open Nitr.Validate (LuaString F64)

/-! ## Equal data -/

/-- A number's place on the extended line. -/
def Data.line : Data → Option (ℤ × ℚ)
  | .integer i => some (0, i)
  | .number n => n.position
  | _ => none

mutual

/-- Numbers are compared by value and tables by their entries. -/
def Same : Data → Data → Prop
  | .table _ _ entries, back =>
      ∃ len' array' entries', back = .table len' array' entries' ∧
        (entries'.map Prod.fst).Nodup ∧ FoundIn entries entries' ∧
        ∀ f ∈ entries', f.1 ∈ entries.map Prod.fst
  | .integer i, back => back.line = some (0, (i : ℚ))
  | .number n, back => n.position.isSome = true ∧ back.line = n.position
  | .nil, back => back = .nil
  | .null, back => back = .null
  | .boolean b, back => back = .boolean b
  | .string s, back => back = .string s

def FoundIn : List (Key × Data) → List (Key × Data) → Prop
  | [], _ => True
  | e :: rest, back =>
      (∃ value, rawGet back e.1 = some value ∧ Same e.2 value) ∧ FoundIn rest back

end

theorem foundIn_iff {entries back : List (Key × Data)} :
    FoundIn entries back ↔ ∀ e ∈ entries, ∃ value, rawGet back e.1 = some value ∧ Same e.2 value := by
  induction entries with
  | nil => simp [FoundIn]
  | cons e rest ih => simp [FoundIn, ih]

section

variable (serde : SerdeJson)

mutual

/-- Lists have no holes, other tables only string keys, and every double is finite and read
with the value it was written from. -/
def Data.Durable : Data → Prop
  | .table len _ entries =>
      (if isListed len entries then highest entries = entries.length
        else ∀ e ∈ entries, e.1.isString = true) ∧ durableEntries entries
  | .nil => False
  | .number n => n.isFinite = true ∧ (serde.reread n).position = n.position
  | .null | .boolean _ | .integer _ | .string _ => True

def durableEntries : List (Key × Data) → Prop
  | [] => True
  | e :: rest => e.2.Durable ∧ durableEntries rest

end

end

section

variable {serde : SerdeJson} {entries back : List (Key × Data)} {len len' : ℕ}
  {array array' : Bool}

theorem durableEntries_iff :
    durableEntries serde entries ↔ ∀ e ∈ entries, e.2.Durable serde := by
  induction entries with
  | nil => simp [durableEntries]
  | cons e rest ih => simp [durableEntries, ih]

/-- A table read back with every entry under its own key. -/
theorem same_table_iff {p : Data → Prop} (hback : (back.map Prod.fst).Nodup)
    (hvalue : ∀ e ∈ entries, ∃ value, (e.1, value) ∈ back ∧ (Same e.2 value ↔ p e.2)) :
    Same (.table len array entries) (.table len' array' back) ↔
      (∀ f ∈ back, f.1 ∈ entries.map Prod.fst) ∧ ∀ e ∈ entries, p e.2 := by
  have hfound : FoundIn entries back ↔ ∀ e ∈ entries, p e.2 := by
    rw [foundIn_iff]
    refine forall₂_congr fun e he => ?_
    obtain ⟨value, hmem, hiff⟩ := hvalue e he
    rw [rawGet_of_mem hback hmem, ← hiff]
    simp
  constructor
  · rintro ⟨_, _, _, heq, _, hfind, hkeys⟩
    cases heq
    exact ⟨hkeys, hfound.mp hfind⟩
  · rintro ⟨hkeys, hall⟩
    exact ⟨_, _, _, rfl, hback, hfound.mpr hall, hkeys⟩

/-! ## Lists -/

/-- A list has no holes exactly if it has as many entries as its highest position. -/
theorem Positions.all_iff (h : Positions entries) :
    (∀ i, 1 ≤ i → i ≤ highest entries → i ∈ positions entries) ↔
      highest entries = entries.length := by
  have hsubset : positions entries ⊆ List.range' 1 (highest entries) := by
    intro i hi
    have hpos := h.pos_of_mem hi
    have hle := highest_le.mp le_rfl i hi
    rw [List.mem_range'_1]
    omega
  have hsub := List.subperm_of_subset h.nodup_positions hsubset
  constructor
  · intro hall
    have hsuper : List.range' 1 (highest entries) ⊆ positions entries := by
      intro i hi
      rw [List.mem_range'_1] at hi
      exact hall i hi.1 (by omega)
    have hle := hsub.length_le
    have hge := (List.subperm_of_subset (List.nodup_range' ..) hsuper).length_le
    rw [List.length_range', h.length_positions] at hle hge
    omega
  · intro hcount i hi hle
    have hperm := hsub.perm_of_length_le (by rw [List.length_range', h.length_positions, hcount])
    refine hperm.mem_iff.mpr ?_
    rw [List.mem_range'_1]
    omega

/-- Written and read back, the value is restored exactly if it is durable. -/
def Data.Restores (serde : SerdeJson) (data : Data) : Prop :=
  data.Proper → ∀ doc, data.calls.plain serde.decimal = .ok doc → data.calls.utf8 = true →
    (Same data (doc.parsed serde).toValue ↔ data.Durable serde)

theorem length_listItems : (listItems entries).length = highest entries := by
  unfold listItems itemsUpTo
  rw [List.length_map, List.length_range']

theorem restores_seq (hcalls : (Data.table len array entries).calls = .seq (listItems entries))
    (hpos : Positions entries) (hlisted : isListed len entries = true ∨ entries = [])
    (ih : ∀ e ∈ entries, e.2.Restores serde) : (Data.table len array entries).Restores serde := by
  rintro ⟨_, hproper⟩ doc hplain hutf8
  rw [properEntries_iff] at hproper
  rw [hcalls, Calls.plain, Except.bind_eq_ok_iff] at hplain
  obtain ⟨docs, hdocs, hdoc⟩ := hplain
  cases hdoc
  rw [plainItems_eq_ok] at hdocs
  rw [hcalls, Calls.utf8, itemsUtf8_iff,
    forall_mem_listItems (p := fun calls => calls.utf8 = true) hpos rfl] at hutf8
  have hvalue : ∀ e ∈ entries, ∃ value, (e.1, value) ∈ itemValues (parsedItems serde docs) 1 ∧
      (Same e.2 value ↔ e.2.Durable serde) := by
    intro e he
    obtain ⟨n, hn, hkey⟩ := hpos.positive e he
    obtain ⟨i, rfl⟩ := Nat.exists_eq_add_of_le hn
    obtain ⟨doc, hget, hdoc⟩ := getElem?_of_forall₂ hdocs (listItems_getElem hpos he hkey)
    refine ⟨(doc.parsed serde).toValue, ?_, ih e he (hproper e he) doc hdoc (hutf8 e he)⟩
    rw [hkey]
    refine mem_itemValues ?_
    rw [parsedItems_eq_map, List.getElem?_map, hget, Option.map_some]
  have hlength : (parsedItems serde docs).length = highest entries := by
    rw [parsedItems_eq_map, List.length_map, ← hdocs.length_eq, length_listItems]
  have hkeys : (∀ f ∈ itemValues (parsedItems serde docs) 1, f.1 ∈ entries.map Prod.fst) ↔
      highest entries = entries.length := by
    have hmap : (∀ f ∈ itemValues (parsedItems serde docs) 1, f.1 ∈ entries.map Prod.fst) ↔
        ∀ key ∈ (itemValues (parsedItems serde docs) 1).map Prod.fst, key ∈ entries.map Prod.fst :=
      List.forall_mem_map.symm
    rw [hmap, map_fst_itemValues, List.forall_mem_map, hlength, ← hpos.all_iff]
    constructor
    · intro hall i hi hle
      refine hpos.mem_positions.mpr (hall i ?_)
      rw [List.mem_range'_1]
      omega
    · intro hall i hi
      rw [List.mem_range'_1] at hi
      exact hpos.mem_positions.mp (hall i hi.1 (by omega))
  rw [Doc.parsed, Doc.toValue, same_table_iff (nodup_itemValues _ _) hvalue, Data.Durable,
    durableEntries_iff, hkeys]
  rcases hlisted with hlisted | rfl
  · rw [if_pos hlisted]
  · refine and_congr (iff_of_true rfl ?_) Iff.rfl
    split <;> simp [highest]

/-! ## Objects -/

theorem exists_of_isString {key : Key} (h : key.isString = true) : ∃ s, key = .string s := by
  cases key with
  | string s => exact ⟨s, rfl⟩
  | boolean b => cases h
  | integer i => cases h
  | number n => cases h
  | null => cases h

theorem isString_of_mem_entryValues {docs : List (String × Doc)} {key : Key}
    (h : key ∈ (entryValues docs).map Prod.fst) : key.isString = true := by
  rw [entryValues_eq_map, List.map_map] at h
  obtain ⟨doc, _, rfl⟩ := List.mem_map.mp h
  rfl

/-- A string key is read back under itself. -/
theorem place_of_isString {key : Key} (h : key.isString = true) :
    key.place serde.decimal false = key := by
  obtain ⟨s, rfl⟩ := exists_of_isString h
  rfl

/-- If what is read back has only string keys, so had the table. -/
theorem isString_of_same
    (h : Same (.table len array entries) (.table len' array' back))
    (hback : ∀ key ∈ back.map Prod.fst, key.isString = true) {e : Key × Data} (he : e ∈ entries) :
    e.1.isString = true := by
  obtain ⟨_, _, _, heq, _, hfind, _⟩ := h
  cases heq
  obtain ⟨value, hvalue, _⟩ := foundIn_iff.mp hfind e he
  by_contra hnot
  rw [rawGet_eq_none fun hmem => hnot (hback _ hmem)] at hvalue
  cases hvalue

/-- String keys are written as themselves. -/
theorem Members.map_fst {docs : List (String × Doc)} (h : Members serde.decimal entries docs)
    (hstring : ∀ e ∈ entries, e.1.isString = true) :
    entries.map Prod.fst = (docs.map Prod.fst).map fun text => Key.string (.ofString text) := by
  rw [← h.keys]
  exact List.map_congr_left fun e he => (place_of_isString (hstring e he)).symm

/-- A table with string keys only, read back from its members. -/
theorem Members.same_iff {docs : List (String × Doc)} (h : Members serde.decimal entries docs)
    (hnodup : (entries.map Prod.fst).Nodup) (hstring : ∀ e ∈ entries, e.1.isString = true)
    (hproper : ∀ e ∈ entries, e.2.Proper) (hutf8 : ∀ e ∈ entries, e.2.calls.utf8 = true)
    (ih : ∀ e ∈ entries, e.2.Restores serde) :
    Same (.table len array entries)
        (.table len' array' (entryValues (parsedEntries serde docs))) ↔
      ∀ e ∈ entries, e.2.Durable serde := by
  have hkeys := h.map_fst hstring
  have hdocs : (docs.map Prod.fst).Nodup := by
    rw [hkeys] at hnodup
    exact hnodup.of_map
  have hvalue : ∀ e ∈ entries, ∃ value,
      (e.1, value) ∈ entryValues (parsedEntries serde docs) ∧
        (Same e.2 value ↔ e.2.Durable serde) := by
    intro e he
    obtain ⟨i, hi⟩ := List.mem_iff_getElem?.mp he
    obtain ⟨doc, hget, hkey, hdoc⟩ := getElem?_of_forall₂ h hi
    refine ⟨(doc.2.parsed serde).toValue, ?_, ih e he (hproper e he) doc.2 hdoc (hutf8 e he)⟩
    have hplace := place_of_key hkey
    rw [place_of_isString (hstring e he)] at hplace
    rw [hplace, entryValues_eq_map]
    exact List.mem_map_of_mem (@mem_parsedEntries serde _ hdocs _ (List.mem_of_getElem? hget))
  rw [same_table_iff (nodup_entryValues (nodup_parsedEntries docs)) hvalue]
  refine and_iff_right fun f hf => ?_
  rw [entryValues_eq_map] at hf
  obtain ⟨doc, hdoc, rfl⟩ := List.mem_map.mp hf
  have hmem := mem_keys_parsedEntries.mp (List.mem_map_of_mem hdoc)
  rw [hkeys]
  exact List.mem_map_of_mem hmem

theorem restores_map (hcalls : (Data.table len array entries).calls = mapCalls (entryCalls entries))
    (hlisted : isListed len entries = false) (ih : ∀ e ∈ entries, e.2.Restores serde) :
    (Data.table len array entries).Restores serde := by
  rintro ⟨hnodup, hproper⟩ doc hplain hutf8
  rw [properEntries_iff] at hproper
  rw [hcalls, mapCalls, Calls.plain, Except.bind_eq_ok_iff] at hplain
  obtain ⟨docs, hdocs, hdoc⟩ := hplain
  cases hdoc
  rw [plainEntries_eq_ok, entryCalls_eq_map, List.map_map, List.forall₂_map_left_iff] at hdocs
  rw [hcalls, mapCalls, Calls.utf8, entriesUtf8_iff, entryCalls_eq_map, List.map_map,
    List.forall_mem_map] at hutf8
  rw [Doc.parsed, Doc.toValue, Data.Durable, if_neg (by rw [hlisted]; exact Bool.false_ne_true),
    durableEntries_iff]
  by_cases hstring : ∀ e ∈ entries, e.1.isString = true
  · rw [Members.same_iff hdocs hnodup hstring hproper (fun e he => (hutf8 e he).2) ih,
      and_iff_right hstring]
  · refine iff_of_false (fun hsame => hstring fun e he => ?_) fun h => hstring h.1
    exact isString_of_same hsame (fun key hkey => isString_of_mem_entryValues hkey) he

theorem Data.restores (data : Data) : data.Restores serde := by
  induction data using Data.induct with
  | nil =>
      intro _ doc hdoc _
      cases hdoc
      simp [Doc.parsed, Doc.toValue, Same, Data.Durable, Scalar.doc]
  | null =>
      intro _ doc hdoc _
      cases hdoc
      simp [Doc.parsed, Doc.toValue, Same, Data.Durable, Scalar.doc]
  | boolean b =>
      intro _ doc hdoc _
      cases hdoc
      simp [Doc.parsed, Doc.toValue, Same, Data.Durable, Scalar.doc]
  | integer i =>
      intro _ doc hdoc _
      cases hdoc
      simp [Doc.parsed, Doc.toValue, Same, Data.Durable, Scalar.doc, Data.line]
  | number n =>
      intro _ doc hdoc _
      cases hdoc
      cases n with
      | finite q => simp [Doc.parsed, Doc.toValue, Same, Data.Durable, Scalar.doc, Data.line,
          F64.isFinite, F64.position]
      | negZero => simp [Doc.parsed, Doc.toValue, Same, Data.Durable, Scalar.doc, Data.line,
          F64.isFinite, F64.position]
      | infinite negative => cases negative <;> simp [Doc.parsed, Doc.toValue, Same, Data.Durable,
          Scalar.doc, Data.line, F64.isFinite, F64.position]
      | nan => simp [Doc.parsed, Doc.toValue, Same, Data.Durable, Scalar.doc, Data.line,
          F64.isFinite, F64.position]
  | string s =>
      intro _ doc hdoc hutf8
      cases htext : toStr s with
      | none => simp [Data.calls, stringCall, htext, Calls.utf8, Scalar.isBytes] at hutf8
      | some text =>
          simp only [Data.calls, stringCall, htext, Calls.plain, Except.ok.injEq] at hdoc
          subst hdoc
          simp [Scalar.doc, Doc.parsed, Doc.toValue, Same, Data.Durable, toStr_eq_some htext]
  | table len array entries ih =>
      intro hproper doc hplain
      rcases @calls_table entries len array hproper.1 with
        hmixed | ⟨hmap, hlisted⟩ | ⟨hseq, hpos, hlisted⟩
      · rw [hmixed] at hplain
        cases hplain
      · exact restores_map hmap hlisted ih hproper doc hplain
      · exact restores_seq hseq hpos hlisted ih hproper doc hplain

end

/-! ## Documents read twice -/

/-- A document of exact doubles is read as the one it came from. -/
theorem parsed_parsed {serde serde' : SerdeJson} (hexact : serde.reread = id) (doc : Doc) :
    (doc.parsed serde).parsed serde' = doc.parsed serde' := by
  induction doc using Doc.induct with
  | null => rfl
  | boolean b => rfl
  | integer i => rfl
  | number n => simp [Doc.parsed, hexact]
  | string s => rfl
  | array items ih =>
      simp only [Doc.parsed, parsedItems_eq_map, List.map_map, Doc.array.injEq]
      exact List.map_congr_left ih
  | object entries ih =>
      simp only [Doc.parsed, Doc.object.injEq]
      induction entries with
      | nil => rfl
      | cons e rest ih' =>
          have hrest := ih' fun e he => ih e (List.mem_cons_of_mem _ he)
          by_cases hmem : e.1 ∈ rest.map Prod.fst
          · rw [parsedEntries, if_pos hmem, parsedEntries, if_pos hmem, hrest]
          · have hmem' : e.1 ∉ (parsedEntries serde rest).map Prod.fst :=
              fun h => hmem (mem_keys_parsedEntries.mp h)
            rw [parsedEntries, if_neg hmem, parsedEntries, if_neg hmem', parsedEntries,
              if_neg hmem, hrest, ih e (List.mem_cons_self ..)]

/-- How deep a document is does not depend on how doubles are read. -/
theorem depth_parsed {serde serde' : SerdeJson} (doc : Doc) :
    (doc.parsed serde).depth = (doc.parsed serde').depth := by
  induction doc using Doc.induct with
  | null => rfl
  | boolean b => rfl
  | integer i => rfl
  | number n => rfl
  | string s => rfl
  | array items ih =>
      simp only [Doc.parsed, Doc.depth, Nat.add_left_cancel_iff]
      induction items with
      | nil => rfl
      | cons item items ih' =>
          rw [parsedItems, parsedItems, docsDepth, docsDepth, ih item (List.mem_cons_self ..),
            ih' fun i hi => ih i (List.mem_cons_of_mem _ hi)]
  | object entries ih =>
      simp only [Doc.parsed, Doc.depth, Nat.add_left_cancel_iff]
      induction entries with
      | nil => rfl
      | cons e rest ih' =>
          have hrest := ih' fun e he => ih e (List.mem_cons_of_mem _ he)
          by_cases hmem : e.1 ∈ rest.map Prod.fst
          · rw [parsedEntries, parsedEntries, if_pos hmem, if_pos hmem, hrest]
          · rw [parsedEntries, parsedEntries, if_neg hmem, if_neg hmem, membersDepth,
              membersDepth, ih e (List.mem_cons_self ..), hrest]

theorem depth_toValue (doc : Doc) : doc.toValue.depth = doc.depth := by
  induction doc using Doc.induct with
  | null => rfl
  | boolean b => rfl
  | integer i => rfl
  | number n => rfl
  | string s => rfl
  | array items ih =>
      simp only [Doc.toValue, Doc.depth, Data.depth, Nat.add_left_cancel_iff]
      generalize 1 = start
      induction items generalizing start with
      | nil => rfl
      | cons item items ih' =>
          rw [itemValues, dataDepth, docsDepth, ih item (List.mem_cons_self ..),
            ih' fun i hi => ih i (List.mem_cons_of_mem _ hi)]
  | object entries ih =>
      simp only [Doc.toValue, Doc.depth, Data.depth, Nat.add_left_cancel_iff]
      induction entries with
      | nil => rfl
      | cons e rest ih' =>
          rw [entryValues, dataDepth, membersDepth, ih e (List.mem_cons_self ..),
            ih' fun e he => ih e (List.mem_cons_of_mem _ he)]

theorem depth_of_line {data : Data} {p : ℤ × ℚ} (h : data.line = some p) : data.depth = 0 := by
  cases data with
  | integer i => rfl
  | number n => rfl
  | table len array entries => cases h
  | nil => cases h
  | null => cases h
  | boolean b => cases h
  | string s => cases h

/-- Equal data nests equally deep. -/
theorem Same.depth_le {x y : Data} (h : Same x y) (d : ℕ) : x.depth ≤ d ↔ y.depth ≤ d := by
  induction x using Data.induct generalizing y d with
  | nil =>
      rw [show y = .nil from h]
  | null =>
      rw [show y = .null from h]
  | boolean b =>
      rw [show y = .boolean b from h]
  | string s =>
      rw [show y = .string s from h]
  | integer i =>
      rw [depth_of_line h]
      rfl
  | number n =>
      obtain ⟨hsome, hline⟩ := h
      obtain ⟨p, hp⟩ := Option.isSome_iff_exists.mp hsome
      rw [depth_of_line (hline.trans hp)]
      rfl
  | table len array entries ih =>
      obtain ⟨len', array', back, rfl, hback, hfind, hkeys⟩ := h
      rw [foundIn_iff] at hfind
      have hinner : dataDepth entries ≤ d - 1 ↔ dataDepth back ≤ d - 1 := by
        rw [dataDepth_le, dataDepth_le]
        constructor
        · intro hall f hf
          obtain ⟨e, he, hkey⟩ := List.mem_map.mp (hkeys f hf)
          obtain ⟨value, hvalue, hsame⟩ := hfind e he
          rw [hkey, rawGet_of_mem hback hf, Option.some.injEq] at hvalue
          rw [hvalue]
          exact (ih e he hsame (d - 1)).mp (hall e he)
        · intro hall e he
          obtain ⟨value, hvalue, hsame⟩ := hfind e he
          obtain ⟨f, hf, rfl⟩ := exists_of_rawGet hvalue
          exact (ih e he hsame (d - 1)).mpr (hall f hf)
      rw [Data.depth, Data.depth]
      omega

end Nitr.Json
