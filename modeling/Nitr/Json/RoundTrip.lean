import Nitr.Json.Agreement
import Nitr.Json.Decode
import Nitr.Lib.Ensures

/-! # What reading back keeps

A value that is written and read back keeps everything exactly if no double in it is lost, no
two keys of an object share a text, and it is no deeper than the parser reads. -/

namespace Nitr.Json

open Nitr.Validate (LuaString F64)

/-! ## The pass is the plain serializer -/

theorem guard_eq_ok {call : Scalar} {budget left : ℕ} (h : call.guard budget = .ok left) :
    call.isBytes = false := by
  cases budget with
  | zero => cases h
  | succ budget =>
      rw [guard_of_pos (by omega)] at h
      by_cases hbytes : call.isBytes = true
      · rw [if_pos hbytes] at h
        cases h
      · exact Bool.eq_false_iff.mpr hbytes

section

variable {decimal : F64 → String}

/-- What the pass wrote, the plain serializer writes, and there were no bytes. -/
def Calls.Faithful (decimal : F64 → String) (calls : Calls) : Prop :=
  ∀ {depth budget : ℕ} {r : Doc × ℕ}, calls.guarded decimal depth budget = .ok r →
    calls.plain decimal = .ok r.1 ∧ calls.utf8 = true

theorem faithful_items {items : List Calls} (h : ∀ item ∈ items, item.Faithful decimal)
    {depth budget : ℕ} {r : List Doc × ℕ}
    (hr : guardedItems decimal depth items budget = .ok r) :
    plainItems decimal items = .ok r.1 ∧ itemsUtf8 items = true := by
  induction items generalizing budget r with
  | nil =>
      cases hr
      exact ⟨rfl, rfl⟩
  | cons item items ih =>
      obtain ⟨first, hfirst, hr⟩ := Except.bind_eq_ok_iff.mp hr
      obtain ⟨rest, hrest, hr⟩ := Except.bind_eq_ok_iff.mp hr
      cases hr
      obtain ⟨hplain, hutf8⟩ := h item (List.mem_cons_self ..) hfirst
      obtain ⟨hplains, hutf8s⟩ := ih (fun i hi => h i (List.mem_cons_of_mem _ hi)) hrest
      constructor
      · rw [plainItems, hplain, hplains]
        rfl
      · rw [itemsUtf8, hutf8, hutf8s, Bool.and_self]

theorem faithful_entries {entries : List (Scalar × Calls)}
    (h : ∀ entry ∈ entries, entry.2.Faithful decimal) {depth budget : ℕ}
    {r : List (String × Doc) × ℕ}
    (hr : guardedEntries decimal depth entries budget = .ok r) :
    plainEntries decimal entries = .ok r.1 ∧ entriesUtf8 entries = true := by
  induction entries generalizing budget r with
  | nil =>
      cases hr
      exact ⟨rfl, rfl⟩
  | cons entry entries ih =>
      obtain ⟨left, hguard, hr⟩ := Except.bind_eq_ok_iff.mp hr
      obtain ⟨key, hkey, hr⟩ := Except.bind_eq_ok_iff.mp hr
      obtain ⟨first, hfirst, hr⟩ := Except.bind_eq_ok_iff.mp hr
      obtain ⟨rest, hrest, hr⟩ := Except.bind_eq_ok_iff.mp hr
      cases hr
      obtain ⟨hplain, hutf8⟩ := h entry (List.mem_cons_self ..) hfirst
      obtain ⟨hplains, hutf8s⟩ := ih (fun e he => h e (List.mem_cons_of_mem _ he)) hrest
      constructor
      · rw [plainEntries, hkey, hplain, hplains]
        rfl
      · rw [entriesUtf8, guard_eq_ok hguard, hutf8, hutf8s]
        rfl

theorem Calls.faithful (calls : Calls) : calls.Faithful decimal := by
  induction calls using Calls.induct with
  | scalar call =>
      intro depth budget r hr
      obtain ⟨left, hguard, hr⟩ := Except.bind_eq_ok_iff.mp hr
      cases hr
      refine ⟨rfl, ?_⟩
      rw [Calls.utf8, guard_eq_ok hguard]
      rfl
  | seq items ih =>
      intro depth budget r hr
      obtain ⟨left, _, hr⟩ := Except.bind_eq_ok_iff.mp hr
      obtain ⟨level, _, hr⟩ := Except.bind_eq_ok_iff.mp hr
      obtain ⟨docs, hdocs, hr⟩ := Except.bind_eq_ok_iff.mp hr
      cases hr
      obtain ⟨hplain, hutf8⟩ := faithful_items ih hdocs
      exact ⟨by rw [Calls.plain, hplain]; rfl, hutf8⟩
  | map entries ih =>
      intro depth budget r hr
      obtain ⟨left, _, hr⟩ := Except.bind_eq_ok_iff.mp hr
      obtain ⟨level, _, hr⟩ := Except.bind_eq_ok_iff.mp hr
      obtain ⟨docs, hdocs, hr⟩ := Except.bind_eq_ok_iff.mp hr
      cases hr
      obtain ⟨hplain, hutf8⟩ := faithful_entries ih hdocs
      exact ⟨by rw [Calls.plain, hplain]; rfl, hutf8⟩
  | mixed =>
      intro depth budget r hr
      cases hr

theorem plain_of_toJson {data : Data} {doc : Doc} (h : toJson decimal data = .ok doc) :
    data.calls.plain decimal = .ok doc ∧ data.calls.utf8 = true := by
  obtain ⟨r, hr, hdoc⟩ := Except.bind_eq_ok_iff.mp h
  cases hdoc
  exact data.calls.faithful hr

theorem plainItems_eq_ok {items : List Calls} {docs : List Doc} :
    plainItems decimal items = .ok docs ↔
      List.Forall₂ (fun item doc => item.plain decimal = .ok doc) items docs := by
  induction items generalizing docs with
  | nil => simp [plainItems, eq_comm]
  | cons item items ih =>
      rw [plainItems, Except.bind_eq_ok_iff, List.forall₂_cons_left_iff]
      constructor
      · rintro ⟨doc, hdoc, h⟩
        obtain ⟨rest, hrest, h⟩ := Except.bind_eq_ok_iff.mp h
        cases h
        exact ⟨doc, rest, hdoc, ih.mp hrest, rfl⟩
      · rintro ⟨doc, rest, hdoc, hrest, rfl⟩
        exact ⟨doc, hdoc, Except.bind_eq_ok_iff.mpr ⟨rest, ih.mpr hrest, rfl⟩⟩

theorem plainEntries_eq_ok {entries : List (Scalar × Calls)} {docs : List (String × Doc)} :
    plainEntries decimal entries = .ok docs ↔
      List.Forall₂ (fun entry doc => entry.1.key decimal = .ok doc.1 ∧
        entry.2.plain decimal = .ok doc.2) entries docs := by
  induction entries generalizing docs with
  | nil => simp [plainEntries, eq_comm]
  | cons entry entries ih =>
      rw [plainEntries, Except.bind_eq_ok_iff, List.forall₂_cons_left_iff]
      constructor
      · rintro ⟨key, hkey, h⟩
        obtain ⟨doc, hdoc, h⟩ := Except.bind_eq_ok_iff.mp h
        obtain ⟨rest, hrest, h⟩ := Except.bind_eq_ok_iff.mp h
        cases h
        exact ⟨(key, doc), rest, ⟨hkey, hdoc⟩, ih.mp hrest, rfl⟩
      · rintro ⟨doc, rest, ⟨hkey, hdoc⟩, hrest, rfl⟩
        exact ⟨doc.1, hkey, Except.bind_eq_ok_iff.mpr ⟨doc.2, hdoc, Except.bind_eq_ok_iff.mpr
          ⟨rest, ih.mpr hrest, rfl⟩⟩⟩

end

/-! ## Tables read back -/

theorem losslessEntries_iff {serde : SerdeJson} {entries : List (Key × Data)} :
    losslessEntries serde entries ↔ ∀ e ∈ entries, e.2.Lossless serde := by
  induction entries with
  | nil => simp [losslessEntries]
  | cons e rest ih => simp [losslessEntries, ih]

theorem properEntries_iff {entries : List (Key × Data)} :
    properEntries entries ↔ ∀ e ∈ entries, e.2.Proper := by
  induction entries with
  | nil => simp [properEntries]
  | cons e rest ih => simp [properEntries, ih]

section

variable {decimal : F64 → String} {listed : Bool} {entries back : List (Key × Data)}

theorem KeptEntries.map_fst {kept : List (Key × Data)}
    (h : KeptEntries decimal listed entries kept) :
    kept.map Prod.fst = entries.map fun e => e.1.place decimal listed := by
  induction entries generalizing kept with
  | nil => rw [h, List.map_nil, List.map_nil]
  | cons e rest ih =>
      obtain ⟨value, more, rfl, _, hmore⟩ := h
      rw [List.map_cons, List.map_cons, ih hmore]

theorem KeptEntries.exists_mem {kept : List (Key × Data)}
    (h : KeptEntries decimal listed entries kept) {e : Key × Data} (he : e ∈ entries) :
    ∃ value, (e.1.place decimal listed, value) ∈ kept ∧ Kept decimal e.2 value := by
  induction entries generalizing kept with
  | nil => cases he
  | cons first rest ih =>
      obtain ⟨value, more, rfl, hvalue, hmore⟩ := h
      rcases List.mem_cons.mp he with rfl | he
      · exact ⟨value, List.mem_cons_self .., hvalue⟩
      · obtain ⟨value', hmem, hkept⟩ := ih hmore he
        exact ⟨value', List.mem_cons_of_mem _ hmem, hkept⟩

theorem keptEntries_map {value : Key × Data → Data}
    (h : ∀ e ∈ entries, Kept decimal e.2 (value e)) :
    KeptEntries decimal listed entries
      (entries.map fun e => (e.1.place decimal listed, value e)) := by
  induction entries with
  | nil => rfl
  | cons e rest ih =>
      exact ⟨_, _, rfl, h e (List.mem_cons_self ..),
        ih fun e he => h e (List.mem_cons_of_mem _ he)⟩

/-- A table read back: if distinct places hold the value of their entry, it is kept where the
places are distinct and the values are kept. -/
theorem kept_table_iff {len len' : ℕ} {array array' : Bool} {p : Data → Prop}
    (hback : (back.map Prod.fst).Nodup) (hlisted : isListed len entries = listed)
    (hvalue : (entries.map fun e => e.1.place decimal listed).Nodup → ∀ e ∈ entries,
      ∃ value, (e.1.place decimal listed, value) ∈ back ∧ (Kept decimal e.2 value ↔ p e.2)) :
    Kept decimal (.table len array entries) (.table len' array' back) ↔
      (entries.map fun e => e.1.place decimal listed).Nodup ∧ ∀ e ∈ entries, p e.2 := by
  constructor
  · rintro ⟨_, _, _, heq, _, kept, hsub, hkept⟩
    cases heq
    rw [hlisted] at hkept
    have hnodup : (entries.map fun e => e.1.place decimal listed).Nodup := by
      obtain ⟨part, hperm, hpart⟩ := hsub
      rw [← hkept.map_fst, ← (hperm.map Prod.fst).nodup_iff]
      exact (hpart.map Prod.fst).nodup hback
    refine ⟨hnodup, fun e he => ?_⟩
    obtain ⟨found, hfound, hkeeps⟩ := hkept.exists_mem he
    obtain ⟨value, hmem, hiff⟩ := hvalue hnodup e he
    have hsame := List.inj_on_of_nodup_map hback (hsub.subset hfound) hmem rfl
    rw [Prod.mk.injEq, and_iff_right rfl] at hsame
    exact hiff.mp (hsame ▸ hkeeps)
  · rintro ⟨hnodup, hall⟩
    have hget : ∀ e ∈ entries, ∃ value, rawGet back (e.1.place decimal listed) = some value ∧
        (e.1.place decimal listed, value) ∈ back ∧ Kept decimal e.2 value := by
      intro e he
      obtain ⟨value, hmem, hiff⟩ := hvalue hnodup e he
      exact ⟨value, rawGet_of_mem hback hmem, hmem, hiff.mpr (hall e he)⟩
    refine ⟨_, _, _, rfl, hback,
      entries.map fun e => (e.1.place decimal listed,
        (rawGet back (e.1.place decimal listed)).getD .nil), ?_, ?_⟩
    · refine List.subperm_of_subset ?_ ?_
      · refine List.Nodup.of_map Prod.fst ?_
        rwa [List.map_map]
      · intro f hf
        obtain ⟨e, he, rfl⟩ := List.mem_map.mp hf
        obtain ⟨value, hraw, hmem, _⟩ := hget e he
        rwa [hraw, Option.getD_some]
    · rw [hlisted]
      refine keptEntries_map fun e he => ?_
      obtain ⟨value, hraw, _, hkeeps⟩ := hget e he
      rwa [hraw, Option.getD_some]

end

/-! ## Lists -/

section

variable {serde : SerdeJson}

theorem parsedItems_eq_map (docs : List Doc) :
    parsedItems serde docs = docs.map (Doc.parsed serde) := by
  induction docs with
  | nil => rfl
  | cons doc docs ih => rw [parsedItems, ih, List.map_cons]

theorem map_fst_itemValues (docs : List Doc) (start : ℕ) :
    (itemValues docs start).map Prod.fst =
      (List.range' start docs.length).map fun i : ℕ => Key.integer i := by
  induction docs generalizing start with
  | nil => rfl
  | cons doc docs ih =>
      rw [itemValues, List.map_cons, ih, List.length_cons, List.range'_succ, List.map_cons]

theorem nodup_itemValues (docs : List Doc) (start : ℕ) :
    ((itemValues docs start).map Prod.fst).Nodup := by
  rw [map_fst_itemValues]
  refine (List.nodup_range' ..).map ?_
  intro i j hij
  simpa using hij

theorem mem_itemValues {docs : List Doc} {doc : Doc} {start i : ℕ} (h : docs[i]? = some doc) :
    (Key.integer (start + i : ℕ), doc.toValue) ∈ itemValues docs start := by
  induction docs generalizing start i with
  | nil => cases h
  | cons first docs ih =>
      cases i with
      | zero =>
          cases h
          exact List.mem_cons_self ..
      | succ i =>
          have hrest := @ih (start + 1) i h
          rw [Nat.add_right_comm, Nat.add_assoc] at hrest
          exact List.mem_cons_of_mem _ hrest

theorem listItems_getElem {entries : List (Key × Data)} (h : Positions entries) {e : Key × Data}
    (he : e ∈ entries) {i : ℕ} (hkey : e.1 = .integer (1 + i : ℕ)) :
    (listItems entries)[i]? = some e.2.calls := by
  have hmem : 1 + i ∈ positions entries :=
    h.mem_positions.mpr (hkey ▸ List.mem_map_of_mem he)
  have hle := highest_le.mp le_rfl _ hmem
  have hget : rawGet (entryCalls entries) (.integer (1 + i : ℕ)) = some e.2.calls := by
    rw [← hkey]
    refine @rawGet_of_mem _ _ (positions_entryCalls h).nodup (e.1, e.2.calls) ?_
    rw [entryCalls_eq_map]
    exact List.mem_map_of_mem (f := fun e : Key × Data => (e.1, e.2.calls)) he
  unfold listItems itemsUpTo
  rw [List.getElem?_map, List.getElem?_range' (by omega), Option.map_some]
  rw [Nat.one_mul, hget, Option.getD_some]

theorem getElem?_of_forall₂ {α β : Type} {r : α → β → Prop} {l : List α} {l' : List β}
    (h : List.Forall₂ r l l') {i : ℕ} {a : α} (ha : l[i]? = some a) :
    ∃ b, l'[i]? = some b ∧ r a b := by
  induction h generalizing i with
  | nil => cases ha
  | cons hab _ ih =>
      cases i with
      | zero =>
          cases ha
          exact ⟨_, rfl, hab⟩
      | succ i => exact ih ha

/-- Written and read back, the value is kept exactly if nothing in it is lost. -/
def Data.Returns (serde : SerdeJson) (data : Data) : Prop :=
  data.Proper → ∀ doc, data.calls.plain serde.decimal = .ok doc → data.calls.utf8 = true →
    (Kept serde.decimal data (doc.parsed serde).toValue ↔ data.Lossless serde)

section

variable {entries : List (Key × Data)} {len : ℕ} {array : Bool}

/-- A table written as a list. -/
theorem returns_seq (hcalls : (Data.table len array entries).calls = .seq (listItems entries))
    (hpos : Positions entries) (hlisted : isListed len entries = true ∨ entries = [])
    (ih : ∀ e ∈ entries, e.2.Returns serde) : (Data.table len array entries).Returns serde := by
  rintro ⟨_, hproper⟩ doc hplain hutf8
  rw [properEntries_iff] at hproper
  rw [hcalls, Calls.plain, Except.bind_eq_ok_iff] at hplain
  obtain ⟨docs, hdocs, hdoc⟩ := hplain
  cases hdoc
  rw [plainItems_eq_ok] at hdocs
  rw [hcalls, Calls.utf8, itemsUtf8_iff,
    forall_mem_listItems (p := fun calls => calls.utf8 = true) hpos rfl] at hutf8
  have hplace : ∀ e ∈ entries, e.1.place serde.decimal (isListed len entries) = e.1 := by
    intro e he
    rcases hlisted with hlisted | rfl
    · rw [hlisted]
      rfl
    · cases he
  have hnodup : (entries.map fun e => e.1.place serde.decimal (isListed len entries)).Nodup := by
    rw [List.map_congr_left hplace]
    exact hpos.nodup
  -- The document written for an entry is the one at its position.
  have hvalue : ∀ e ∈ entries, ∃ value,
      (e.1.place serde.decimal (isListed len entries), value) ∈ itemValues (parsedItems serde docs) 1
        ∧ (Kept serde.decimal e.2 value ↔ e.2.Lossless serde) := by
    intro e he
    obtain ⟨n, hn, hkey⟩ := hpos.positive e he
    obtain ⟨i, rfl⟩ := Nat.exists_eq_add_of_le hn
    obtain ⟨doc, hget, hdoc⟩ := getElem?_of_forall₂ hdocs (listItems_getElem hpos he hkey)
    refine ⟨(doc.parsed serde).toValue, ?_, ih e he (hproper e he) doc hdoc (hutf8 e he)⟩
    rw [hplace e he, hkey]
    refine mem_itemValues ?_
    rw [parsedItems_eq_map, List.getElem?_map, hget, Option.map_some]
  rw [Doc.parsed, Doc.toValue, kept_table_iff (nodup_itemValues _ _) rfl fun _ => hvalue,
    Data.Lossless, losslessEntries_iff]
  refine and_congr (iff_of_true hnodup ?_) Iff.rfl
  intro hfalse
  rwa [hfalse] at hnodup

/-! ## Objects -/

theorem mem_keys_parsedEntries {docs : List (String × Doc)} {key : String} :
    key ∈ (parsedEntries serde docs).map Prod.fst ↔ key ∈ docs.map Prod.fst := by
  induction docs with
  | nil => rfl
  | cons e rest ih =>
      rw [parsedEntries]
      split
      · rename_i hmem
        rw [ih, List.map_cons, List.mem_cons]
        exact ⟨.inr, fun h => h.elim (fun h => h ▸ hmem) id⟩
      · rw [List.map_cons, List.map_cons, List.mem_cons, List.mem_cons, ih]

theorem nodup_parsedEntries (docs : List (String × Doc)) :
    ((parsedEntries serde docs).map Prod.fst).Nodup := by
  induction docs with
  | nil => exact List.nodup_nil
  | cons e rest ih =>
      rw [parsedEntries]
      split
      · exact ih
      · rename_i hmem
        rw [List.map_cons, List.nodup_cons, mem_keys_parsedEntries]
        exact ⟨hmem, ih⟩

theorem mem_parsedEntries {docs : List (String × Doc)} (h : (docs.map Prod.fst).Nodup)
    {e : String × Doc} (he : e ∈ docs) : (e.1, e.2.parsed serde) ∈ parsedEntries serde docs := by
  induction docs with
  | nil => cases he
  | cons first rest ih =>
      obtain ⟨hfirst, hrest⟩ := List.nodup_cons.mp h
      rw [parsedEntries, if_neg hfirst]
      rcases List.mem_cons.mp he with rfl | he
      · exact List.mem_cons_self ..
      · exact List.mem_cons_of_mem _ (ih hrest he)

theorem entryValues_eq_map (docs : List (String × Doc)) :
    entryValues docs = docs.map fun e => (.string (.ofString e.1), e.2.toValue) := by
  induction docs with
  | nil => rfl
  | cons e rest ih => rw [entryValues, ih, List.map_cons]

theorem toStr_eq_some {s : LuaString} {text : String} (h : toStr s = some text) :
    LuaString.ofString text = s := by
  unfold toStr at h
  split at h
  · cases h
    rfl
  · cases h

/-- The text of a key is the place of its entry in an object. -/
theorem place_of_key {key : Key} {text : String} (h : key.call.key serde.decimal = .ok text) :
    key.place serde.decimal false = .string (.ofString text) := by
  cases key with
  | boolean b =>
      cases h
      rfl
  | integer i =>
      cases h
      rfl
  | number n =>
      simp only [Key.call, Scalar.key] at h
      split at h
      · cases h
        rfl
      · cases h
  | string s =>
      simp only [Key.call, stringCall] at h
      cases htext : toStr s with
      | some t =>
          rw [htext] at h
          cases h
          rw [toStr_eq_some htext]
          rfl
      | none =>
          rw [htext] at h
          cases h
  | null => cases h

theorem nodup_entryValues {docs : List (String × Doc)} (h : (docs.map Prod.fst).Nodup) :
    ((entryValues docs).map Prod.fst).Nodup := by
  have hinj : Function.Injective fun text : String => Key.string (.ofString text) := by
    intro s t h
    simpa using h
  have hkeys := h.map hinj
  rw [entryValues_eq_map, List.map_map]
  rwa [List.map_map] at hkeys

/-- The members an object is written with. -/
def Members (decimal : F64 → String) (entries : List (Key × Data)) (docs : List (String × Doc)) :
    Prop :=
  List.Forall₂ (fun e doc => e.1.call.key decimal = .ok doc.1 ∧
    e.2.calls.plain decimal = .ok doc.2) entries docs

theorem Members.keys {docs : List (String × Doc)} (h : Members serde.decimal entries docs) :
    (entries.map fun e => e.1.place serde.decimal false) =
      (docs.map Prod.fst).map fun text => Key.string (.ofString text) := by
  rw [List.map_map, ← List.forall₂_eq_eq_eq, List.forall₂_map_left_iff,
    List.forall₂_map_right_iff]
  exact h.imp fun e doc h => place_of_key h.1

/-- A table written as an object. -/
theorem returns_map (hcalls : (Data.table len array entries).calls = mapCalls (entryCalls entries))
    (hlisted : isListed len entries = false) (ih : ∀ e ∈ entries, e.2.Returns serde) :
    (Data.table len array entries).Returns serde := by
  rintro ⟨_, hproper⟩ doc hplain hutf8
  rw [properEntries_iff] at hproper
  rw [hcalls, mapCalls, Calls.plain, Except.bind_eq_ok_iff] at hplain
  obtain ⟨docs, hdocs, hdoc⟩ := hplain
  cases hdoc
  rw [plainEntries_eq_ok, entryCalls_eq_map, List.map_map, List.forall₂_map_left_iff] at hdocs
  rw [hcalls, mapCalls, Calls.utf8, entriesUtf8_iff, entryCalls_eq_map, List.map_map,
    List.forall_mem_map] at hutf8
  have hvalue : (entries.map fun e => e.1.place serde.decimal false).Nodup → ∀ e ∈ entries,
      ∃ value, (e.1.place serde.decimal false, value) ∈ entryValues (parsedEntries serde docs) ∧
        (Kept serde.decimal e.2 value ↔ e.2.Lossless serde) := by
    intro hnodup e he
    rw [Members.keys hdocs] at hnodup
    obtain ⟨i, hi⟩ := List.mem_iff_getElem?.mp he
    obtain ⟨doc, hget, hkey, hdoc⟩ := getElem?_of_forall₂ hdocs hi
    refine ⟨(doc.2.parsed serde).toValue, ?_, ih e he (hproper e he) doc.2 hdoc (hutf8 e he).2⟩
    have hmem := @mem_parsedEntries serde _ hnodup.of_map _ (List.mem_of_getElem? hget)
    rw [place_of_key hkey, entryValues_eq_map]
    exact List.mem_map_of_mem hmem
  rw [Doc.parsed, Doc.toValue, kept_table_iff (nodup_entryValues (nodup_parsedEntries docs)) hlisted
    hvalue, Data.Lossless, losslessEntries_iff]
  exact and_congr ⟨fun h _ => h, fun h => h hlisted⟩ Iff.rfl

/-! ## Every value -/

theorem exists_of_position {key : Key} (h : ¬key.position.isNone = true) :
    ∃ i : ℕ, 1 ≤ i ∧ key = .integer i := by
  cases key with
  | integer i =>
      by_cases hi : 1 ≤ i
      · refine ⟨i.toNat, by omega, ?_⟩
        rw [Int.toNat_of_nonneg (by omega)]
      · simp [Key.position, hi] at h
  | boolean b => exact absurd rfl h
  | number n => exact absurd rfl h
  | string s => exact absurd rfl h
  | null => exact absurd rfl h

/-- How a table is written, where it does not mix. -/
theorem calls_table (hnodup : (entries.map Prod.fst).Nodup) :
    (Data.table len array entries).calls = .mixed ∨
      ((Data.table len array entries).calls = mapCalls (entryCalls entries) ∧
        isListed len entries = false) ∨
      ((Data.table len array entries).calls = .seq (listItems entries) ∧ Positions entries ∧
        (isListed len entries = true ∨ entries = [])) := by
  by_cases hlen : len = 0
  · have hlisted : isListed len entries = false := by simp [isListed, hlen]
    cases entries with
    | nil => cases array with
      | false => exact .inr (.inl ⟨by simp [Data.calls, tableCalls, hlen, entryCalls, mapCalls], hlisted⟩)
      | true =>
          have hpos : Positions ([] : List (Key × Data)) := ⟨List.nodup_nil, by simp⟩
          refine .inr (.inr ⟨?_, hpos, .inr rfl⟩)
          simp [Data.calls, tableCalls, hlen, entryCalls]
          rfl
    | cons e rest => exact .inr (.inl ⟨by simp [Data.calls, tableCalls, hlen, entryCalls], hlisted⟩)
  · have hcalls : (Data.table len array entries).calls = listCalls (entryCalls entries) := by
      rw [Data.calls, tableCalls, if_neg hlen]
    by_cases hmixed : ((entryCalls entries).any fun e => e.1.position.isNone) = true
    · refine .inl ?_
      rw [hcalls, listCalls, if_pos hmixed]
    · have hpos : Positions entries := by
        refine ⟨hnodup, fun e he => exists_of_position ?_⟩
        have hnot := fun h => hmixed (List.any_eq_true.mpr ⟨(e.1, e.2.calls), ?_, h⟩)
        · exact hnot
        · rw [entryCalls_eq_map]
          exact List.mem_map_of_mem he
      have hlist := (positions_entryCalls hpos).listCalls_eq
      rw [highest_entryCalls, entryCalls_eq_map, List.length_map, ← entryCalls_eq_map] at hlist
      rw [hcalls, hlist]
      split_ifs with hsparse
      · refine .inr (.inl ⟨rfl, ?_⟩)
        simp only [isListed, Bool.and_eq_false_iff, decide_eq_false_iff_not]
        omega
      · refine .inr (.inr ⟨rfl, hpos, .inl ?_⟩)
        simp only [isListed, Bool.and_eq_true, decide_eq_true_eq]
        omega

theorem Data.returns (data : Data) : data.Returns serde := by
  induction data using Data.induct with
  | nil =>
      intro _ doc hdoc _
      cases hdoc
      simp [Doc.parsed, Doc.toValue, Kept, Data.Lossless, Scalar.doc]
  | null =>
      intro _ doc hdoc _
      cases hdoc
      simp [Doc.parsed, Doc.toValue, Kept, Data.Lossless, Scalar.doc]
  | boolean b =>
      intro _ doc hdoc _
      cases hdoc
      simp [Doc.parsed, Doc.toValue, Kept, Data.Lossless, Scalar.doc]
  | integer i =>
      intro _ doc hdoc _
      cases hdoc
      simp [Doc.parsed, Doc.toValue, Kept, Data.Lossless, Scalar.doc]
  | number n =>
      intro _ doc hdoc _
      cases hdoc
      by_cases hfinite : n.isFinite = true
      · simp [Doc.parsed, Doc.toValue, Kept, Data.Lossless, Scalar.doc, hfinite]
      · simp [Doc.parsed, Doc.toValue, Kept, Data.Lossless, Scalar.doc, hfinite]
  | string s =>
      intro _ doc hdoc hutf8
      cases htext : toStr s with
      | none => simp [Data.calls, stringCall, htext, Calls.utf8, Scalar.isBytes] at hutf8
      | some text =>
          simp only [Data.calls, stringCall, htext, Calls.plain, Except.ok.injEq] at hdoc
          subst hdoc
          simp [Scalar.doc, Doc.parsed, Doc.toValue, Kept, Data.Lossless, toStr_eq_some htext]
  | table len array entries ih =>
      intro hproper doc hplain
      rcases @calls_table entries len array hproper.1 with hmixed | ⟨hmap, hlisted⟩ | ⟨hseq, hpos, hlisted⟩
      · rw [hmixed] at hplain
        cases hplain
      · exact returns_map hmap hlisted ih hproper doc hplain
      · exact returns_seq hseq hpos hlisted ih hproper doc hplain

/-! ## Depth -/

theorem docsDepth_eq {items : List Calls} {docs : List Doc}
    (h : List.Forall₂ (fun item doc => Doc.depth doc = item.depth) items docs) :
    docsDepth docs = itemsDepth items := by
  induction h with
  | nil => rfl
  | cons hdoc _ ih => rw [docsDepth, itemsDepth, hdoc, ih]

theorem membersDepth_eq {entries : List (Scalar × Calls)} {docs : List (String × Doc)}
    (h : List.Forall₂ (fun entry doc => Doc.depth doc.2 = entry.2.depth) entries docs) :
    membersDepth docs = entriesDepth entries := by
  induction h with
  | nil => rfl
  | cons hdoc _ ih => rw [membersDepth, entriesDepth, hdoc, ih]

theorem depth_scalar {call : Scalar} (h : call.isBytes = false) : call.doc.depth = 0 := by
  cases call with
  | bytes s => cases h
  | f64 n =>
      by_cases hfinite : n.isFinite = true
      · simp [Scalar.doc, hfinite, Doc.depth]
      · simp [Scalar.doc, hfinite, Doc.depth]
  | unit => rfl
  | bool b => rfl
  | i64 i => rfl
  | str s => rfl

/-- The document is as deep as the calls it is written from. -/
theorem Calls.depth_doc {decimal : F64 → String} (calls : Calls) {doc : Doc}
    (hplain : calls.plain decimal = .ok doc) (hutf8 : calls.utf8 = true) :
    doc.depth = calls.depth := by
  induction calls using Calls.induct generalizing doc with
  | scalar call =>
      cases hplain
      exact depth_scalar (by simpa [Calls.utf8] using hutf8)
  | seq items ih =>
      obtain ⟨docs, hdocs, hdoc⟩ := Except.bind_eq_ok_iff.mp hplain
      cases hdoc
      have hitems : ∀ item ∈ items, ∀ doc, item.plain decimal = .ok doc →
          Doc.depth doc = item.depth := fun item hitem _ hdoc =>
        ih item hitem hdoc (itemsUtf8_iff.mp hutf8 item hitem)
      have hall := (List.forall₂_and_left _ _).mpr ⟨hitems, plainItems_eq_ok.mp hdocs⟩
      rw [Doc.depth, Calls.depth, docsDepth_eq (hall.imp fun item doc h => h.1 doc h.2)]
  | map entries ih =>
      obtain ⟨docs, hdocs, hdoc⟩ := Except.bind_eq_ok_iff.mp hplain
      cases hdoc
      have hentries : ∀ entry ∈ entries, ∀ doc, entry.2.plain decimal = .ok doc →
          Doc.depth doc = entry.2.depth := fun entry hentry _ hdoc =>
        ih entry hentry hdoc (entriesUtf8_iff.mp hutf8 entry hentry).2
      have hall := (List.forall₂_and_left _ _).mpr ⟨hentries, plainEntries_eq_ok.mp hdocs⟩
      rw [Doc.depth, Calls.depth, membersDepth_eq (hall.imp fun entry doc h => h.1 doc.2 h.2.2)]
  | mixed => cases hplain

/-- The calls nest as the value does. -/
theorem Data.depth_calls {decimal : F64 → String} (data : Data) (hproper : data.Proper) {doc : Doc}
    (hplain : data.calls.plain decimal = .ok doc) (d : ℕ) :
    data.calls.depth ≤ d ↔ data.depth ≤ d := by
  induction data using Data.induct generalizing doc d with
  | nil => rfl
  | null => rfl
  | boolean b => rfl
  | integer i => rfl
  | number n => rfl
  | string s => rfl
  | table len array entries ih =>
      have hentries := properEntries_iff.mp hproper.2
      rcases @calls_table entries len array hproper.1 with
        hmixed | ⟨hmap, _⟩ | ⟨hseq, hpos, _⟩
      · rw [hmixed] at hplain
        cases hplain
      · refine depth_map hmap (fun e he => ?_) d
        rw [hmap, mapCalls, Calls.plain, Except.bind_eq_ok_iff] at hplain
        obtain ⟨docs, hdocs, _⟩ := hplain
        rw [plainEntries_eq_ok, entryCalls_eq_map, List.map_map,
          List.forall₂_map_left_iff] at hdocs
        obtain ⟨i, hi⟩ := List.mem_iff_getElem?.mp he
        obtain ⟨doc, _, _, hdoc⟩ := getElem?_of_forall₂ hdocs hi
        exact ih e he (hentries e he) hdoc
      · refine depth_seq hseq hpos (fun e he => ?_) d
        rw [hseq, Calls.plain, Except.bind_eq_ok_iff] at hplain
        obtain ⟨docs, hdocs, _⟩ := hplain
        rw [plainItems_eq_ok] at hdocs
        obtain ⟨n, hn, hkey⟩ := hpos.positive e he
        obtain ⟨i, rfl⟩ := Nat.exists_eq_add_of_le hn
        obtain ⟨doc, _, hdoc⟩ := getElem?_of_forall₂ hdocs (listItems_getElem hpos he hkey)
        exact ih e he (hentries e he) hdoc

end

end

/-- What `to_json_string` accepts is read back with everything kept exactly if nothing in it is
lost and the parser reads as deep. -/
theorem decode_kept_iff {serde : SerdeJson} {data : Data} {doc : Doc} (hproper : data.Proper)
    (hdoc : toJson serde.decimal data = .ok doc) :
    (∃ back, decode serde doc = some back ∧ Kept serde.decimal data back) ↔
      data.Lossless serde ∧ data.depth ≤ serde.maxDepth := by
  obtain ⟨hplain, hutf8⟩ := plain_of_toJson hdoc
  have hdepth : doc.depth ≤ serde.maxDepth ↔ data.depth ≤ serde.maxDepth := by
    rw [data.calls.depth_doc hplain hutf8, data.depth_calls hproper hplain]
  have hkept := @Data.returns serde data hproper doc hplain hutf8
  unfold decode SerdeJson.fromSlice
  by_cases hle : doc.depth ≤ serde.maxDepth
  · rw [if_pos hle, Option.map_some]
    constructor
    · rintro ⟨back, hback, hkeeps⟩
      cases hback
      exact ⟨hkept.mp hkeeps, hdepth.mp hle⟩
    · rintro ⟨hlossless, _⟩
      exact ⟨_, rfl, hkept.mpr hlossless⟩
  · rw [if_neg hle, Option.map_none]
    constructor
    · rintro ⟨back, hback, _⟩
      cases hback
    · rintro ⟨_, hdeep⟩
      exact absurd (hdepth.mpr hdeep) hle

@[simp]
theorem toStr_ofString (text : String) : toStr (.ofString text) = some text := by
  have hvalid : (LuaString.ofString text).bytes.IsValidUTF8 := text.isValidUTF8
  unfold toStr
  rw [dif_pos hvalid]
  rfl

/-- The numbers of the next two values. -/
def halves : SerdeJson where
  decimal _ := "1.5"
  reread := id
  maxDepth := 127

/-- A double as a key, a list with a `null`, and a number. -/
def nested : Data :=
  .table 0 false [(.number (.finite (3 / 2)), .string (.ofString "x")),
    (.string (.ofString "list"),
      .table 2 false [(.integer 1, .boolean true), (.integer 2, .null)]),
    (.string (.ofString "n"), .number (.finite (3 / 2)))]

def nestedDoc : Doc :=
  .object [("1.5", .string "x"), ("list", .array [.boolean true, .null]),
    ("n", .number (.finite (3 / 2)))]

theorem decode_kept_nested :
    toJson halves.decimal nested = .ok nestedDoc ∧
      ∃ back, decode halves nestedDoc = some back ∧ Kept halves.decimal nested back := by
  have hdoc : toJson halves.decimal nested = .ok nestedDoc := by
    simp [toJson, nested, Data.calls, entryCalls, tableCalls, listCalls, mapCalls, highest,
      Key.position, sequenceFrom, rawGet, Key.call, stringCall, Calls.guarded, guardedItems,
      guardedEntries, visit, enter, Scalar.guard, Scalar.key, Scalar.doc, F64.isFinite,
      maxJsonNodes, maxJsonDepth, bind, Except.bind, pure, Except.pure, nestedDoc, halves]
  refine ⟨hdoc, (decode_kept_iff ?_ hdoc).mpr ⟨?_, ?_⟩⟩
  · simp [nested, Data.Proper, properEntries]
  · simp [nested, Data.Lossless, losslessEntries, isListed, highest, Key.position, Key.place,
      halves, F64.isFinite]
  · simp [nested, Data.depth, dataDepth, halves]

/-- The integer and its text as keys of one table. -/
def twins : Data :=
  .table 0 false [(.integer 5, .string (.ofString "x")),
    (.string (.ofString "5"), .string (.ofString "y"))]

/-- Both are written under one key, and one value is read back. -/
theorem decode_merges_twins :
    twins.Proper ∧
      toJson halves.decimal twins = .ok (.object [("5", .string "x"), ("5", .string "y")]) ∧
      ¬∃ back, decode halves (.object [("5", .string "x"), ("5", .string "y")]) = some back ∧
        Kept halves.decimal twins back := by
  refine ⟨?_, ?_, ?_⟩
  · simp [twins, Data.Proper, properEntries]
  · simp [toJson, twins, Data.calls, entryCalls, tableCalls, mapCalls, Key.call, stringCall,
      Calls.guarded, guardedEntries, visit, enter, Scalar.guard, Scalar.key, Scalar.doc,
      maxJsonNodes, maxJsonDepth, bind, Except.bind, pure, Except.pure]
    decide
  · rintro ⟨back, hback, hkept⟩
    cases hback
    obtain ⟨_, _, _, heq, _, kept, hsub, hkept⟩ := hkept
    cases heq
    have hlength := hsub.length_le
    have hmap := congrArg List.length hkept.map_fst
    simp [entryValues, parsedEntries] at hlength hmap
    omega

end Nitr.Json
