import Nitr.Json.Doubles
import Nitr.Json.RoundTrip

/-! # Equality of values

`unique` and `equal_fields` compare values by the text that `canonical` makes of them. For plain
data the texts are equal exactly where the values are written alike, or where an integer that
no double holds has the digits a double is displayed with; JSON equality is another relation. -/

namespace Nitr.Json

open Nitr.Validate (LuaString F64)

/-! ## The code -/

/-- `format!("s:{}")` and the like. -/
def tagged (tag : Char) (text : String) : String := String.ofList (tag :: ':' :: text.toList)

section

-- `{}` of a double, and the double as `serde_json` prints it.
variable (display decimal : F64 → String)

/-- `canonical`, the pointer of the value given. -/
def canonical (pointer : String) (value : Data) : Except JsonError String :=
  match value with
  | .string s => .ok (tagged 's' s.toStringLossy)
  | .integer i =>
      -- The double form where it is exact, so `1` equals `1.0`.
      if F64.ofInt i = .finite i then .ok (tagged 'n' (display (F64.ofInt i)))
      else .ok (tagged 'n' (toString i))
  | .number n => .ok (tagged 'n' (display n))
  | .boolean b => .ok (tagged 'b' (if b then "true" else "false"))
  | .table len array entries => do
      checkJsonBounds (.table len array entries)
      match toJson decimal (.table len array entries) with
      | .ok doc => return tagged 't' (String.ofList (doc.text decimal))
      | .error _ => return tagged 'p' pointer
  | .nil => .ok (tagged 'p' pointer)
  | .null => .ok (tagged 'p' pointer)

/-- The loop over the items of a `unique` array: whether it refuses the array. -/
def repeats : List (String × Data) → List String → Except JsonError Bool
  | [], _ => .ok false
  | (pointer, item) :: items, seen => do
      let canon ← canonical display decimal pointer item
      if canon ∈ seen then return true
      else repeats items (seen ++ [canon])

/-- The loop over the fields of an `equal_fields` group: whether it accepts. -/
def agree : List (Option (String × Data)) → Option String → Except JsonError Bool
  | [], _ => .ok true
  | none :: fields, first => agree fields first
  | some (pointer, value) :: fields, none => do
      let canon ← canonical display decimal pointer value
      agree fields (some canon)
  | some (pointer, value) :: fields, some expected => do
      let canon ← canonical display decimal pointer value
      if expected ≠ canon then return false
      else agree fields (some expected)

end

/-! ## What values mean -/

/-- A JSON value: numbers by value, objects without an order. -/
inductive Meaning where
  | null
  | boolean (b : Bool)
  | number (q : ℚ)
  | string (s : String)
  | array (items : List Meaning)
  | object (members : String → Option Meaning)

def tableMeaning (len : ℕ) (array : Bool) (entries : List (Key × Meaning)) : Meaning :=
  if len = 0 then
    if entries.isEmpty && array then .array []
    else .object fun name => rawGet entries (.string (.ofString name))
  else .array (itemsUpTo entries .null len)

mutual

/-- The JSON value of data. -/
def Data.meaning : Data → Meaning
  | .nil => .null
  | .null => .null
  | .boolean b => .boolean b
  | .integer i => .number i
  | .number n => (n.exact.map Meaning.number).getD .null
  | .string s => .string s.toStringLossy
  | .table len array entries => tableMeaning len array (entryMeanings entries)

def entryMeanings : List (Key × Data) → List (Key × Meaning)
  | [] => []
  | e :: rest => (e.1, e.2.meaning) :: entryMeanings rest

end

/-- Scalars but `null`, and lists and string-keyed tables of them. -/
inductive Data.Plain : Data → Prop
  | boolean (b : Bool) : Plain (.boolean b)
  | integer (i : ℤ) (low : -2 ^ 63 ≤ i) (high : i < 2 ^ 63) : Plain (.integer i)
  | number (n : F64) (h : n.IsDouble) : Plain (.number n)
  | string (s : String) : Plain (.string (.ofString s))
  | list (len : ℕ) (array : Bool) (entries : List (Key × Data))
      (keys : (entries.map Prod.fst).Perm ((List.range' 1 len).map fun i : ℕ => Key.integer i))
      (items : ∀ e ∈ entries, e.2.Plain) : Plain (.table len array entries)
  | named (array : Bool) (entries : List (Key × Data)) (keys : (entries.map Prod.fst).Nodup)
      (names : ∀ e ∈ entries, ∃ name : String, e.1 = .string (.ofString name))
      (items : ∀ e ∈ entries, e.2.Plain) : Plain (.table 0 array entries)

/-! ## What values are written alike -/

mutual

/-- The same scalar; the same items; the same keys, in one order, with values written alike. -/
def Data.Alike : Data → Data → Prop
  | .table len array entries, w =>
      ∃ array' entries', w = .table len array' entries' ∧
        if len = 0 then (entries = [] → array = array') ∧ alikeEntries entries entries'
        else alikeItems entries entries'
  | .nil, w => w = .nil
  | .null, w => w = .null
  | .boolean b, w => w = .boolean b
  | .integer i, w => w = .integer i
  | .number n, w => w = .number n
  | .string s, w => w = .string s

def alikeEntries : List (Key × Data) → List (Key × Data) → Prop
  | [], entries' => entries' = []
  | e :: rest, entries' =>
      ∃ value more, entries' = (e.1, value) :: more ∧ e.2.Alike value ∧ alikeEntries rest more

def alikeItems : List (Key × Data) → List (Key × Data) → Prop
  | [], _ => True
  | e :: rest, entries' =>
      (∃ value, (e.1, value) ∈ entries' ∧ e.2.Alike value) ∧ alikeItems rest entries'

end

/-- The value of a number. -/
def Data.numeric : Data → Option ℚ
  | .integer i => some i
  | .number n => n.exact
  | _ => none

def Data.isNegZero : Data → Bool
  | .number .negZero => true
  | _ => false

/-- Written alike, or two numbers of one value and sign: a number itself may be an integer or a
double, a number in a table may not. -/
def Matched (v w : Data) : Prop :=
  v.Alike w ∨ ∃ q, v.numeric = some q ∧ w.numeric = some q ∧ v.isNegZero = w.isNegZero

/-- The double that a number is displayed as. -/
def Data.double : Data → Option F64
  | .integer i => if F64.ofInt i = .finite i then some (.finite i) else none
  | .number n => some n
  | _ => none

/-- A number that is displayed with the digits of an integer that no double holds. -/
def Clash (display : F64 → String) (v w : Data) : Prop :=
  ∃ n i, v.double = some n ∧ w = .integer i ∧ F64.ofInt i ≠ .finite i ∧ display n = toString i

def Collide (display : F64 → String) (v w : Data) : Prop :=
  Clash display v w ∨ Clash display w v

/-- `{}` of doubles: enough digits to read the double back. -/
def Display (display : F64 → String) : Prop :=
  ∀ n m : F64, n.IsDouble → m.IsDouble → display n = display m → n = m

/-! ## Tables of plain data -/

section

variable {len : ℕ} {array : Bool} {entries : List (Key × Data)}

theorem entryMeanings_eq_map (entries : List (Key × Data)) :
    entryMeanings entries = entries.map fun e => (e.1, e.2.meaning) := by
  induction entries with
  | nil => rfl
  | cons e rest ih => rw [entryMeanings, ih, List.map_cons]

theorem alikeItems_iff {entries' : List (Key × Data)} :
    alikeItems entries entries' ↔
      ∀ e ∈ entries, ∃ value, (e.1, value) ∈ entries' ∧ e.2.Alike value := by
  induction entries with
  | nil => simp [alikeItems]
  | cons e rest ih => rw [alikeItems, ih, List.forall_mem_cons]

theorem alikeEntries_iff {entries' : List (Key × Data)} :
    alikeEntries entries entries' ↔
      List.Forall₂ (fun e e' => e.1 = e'.1 ∧ e.2.Alike e'.2) entries entries' := by
  induction entries generalizing entries' with
  | nil => rw [alikeEntries, List.forall₂_nil_left_iff]
  | cons e rest ih =>
      rw [alikeEntries, List.forall₂_cons_left_iff]
      constructor
      · intro ⟨value, more, heq, hvalue, hmore⟩
        exact ⟨(e.1, value), more, ⟨rfl, hvalue⟩, ih.mp hmore, heq⟩
      · intro ⟨e', more, ⟨hkey, hvalue⟩, hmore, heq⟩
        exact ⟨e'.2, more, by rw [heq, hkey], hvalue, ih.mpr hmore⟩

/-- The keys of a list. -/
def Listed (len : ℕ) (entries : List (Key × Data)) : Prop :=
  (entries.map Prod.fst).Perm ((List.range' 1 len).map fun i : ℕ => Key.integer i)

theorem Listed.positions (h : Listed len entries) : Positions entries where
  nodup := by
    refine (h.nodup_iff).mpr ((List.nodup_range' ..).map fun i j hij => ?_)
    simpa using hij
  positive := by
    intro e he
    have hmem := h.mem_iff.mp (List.mem_map_of_mem (f := Prod.fst) he)
    have ⟨i, hi, hkey⟩ := List.mem_map.mp hmem
    exact ⟨i, (List.mem_range'_1.mp hi).1, hkey.symm⟩

theorem Listed.length (h : Listed len entries) : entries.length = len := by
  have hlen := h.length_eq
  rwa [List.length_map, List.length_map, List.length_range'] at hlen

theorem Listed.exists_mem (h : Listed len entries) {i : ℕ} (hi : i < len) :
    ∃ value, (Key.integer (1 + i : ℕ), value) ∈ entries := by
  have hmem : Key.integer (1 + i : ℕ) ∈ entries.map Prod.fst :=
    h.mem_iff.mpr (List.mem_map_of_mem (f := fun i : ℕ => Key.integer i)
      (List.mem_range'_1.mpr ⟨by omega, by omega⟩))
  have ⟨e, he, hkey⟩ := List.mem_map.mp hmem
  exact ⟨e.2, hkey ▸ he⟩

theorem Listed.exists_index (h : Listed len entries) {e : Key × Data} (he : e ∈ entries) :
    ∃ i < len, e.1 = Key.integer (1 + i : ℕ) := by
  have hmem := h.mem_iff.mp (List.mem_map_of_mem (f := Prod.fst) he)
  have ⟨i, hi, hkey⟩ := List.mem_map.mp hmem
  have ⟨hlow, hhigh⟩ := List.mem_range'_1.mp hi
  refine ⟨i - 1, by omega, ?_⟩
  rw [← hkey, Nat.add_sub_cancel' hlow]

theorem Listed.highest_eq (h : Listed len entries) : highest entries = len := by
  refine le_antisymm (highest_le.mpr fun i hi => ?_) ?_
  · have ⟨e, he, hkey⟩ := List.mem_map.mp (h.positions.mem_positions.mp hi)
    have ⟨j, hj, hindex⟩ := h.exists_index he
    rw [hkey, Key.integer.injEq] at hindex
    omega
  · cases len with
    | zero => exact Nat.zero_le _
    | succ n =>
        have ⟨value, hvalue⟩ := h.exists_mem (Nat.lt_succ_self n)
        have hmem := h.positions.mem_positions.mpr (List.mem_map_of_mem (f := Prod.fst) hvalue)
        have hle := highest_le.mp le_rfl _ hmem
        omega

theorem Listed.calls (h : Listed len entries) (hlen : 0 < len) :
    (Data.table len array entries).calls = .seq (listItems entries) := by
  have hdense : ¬len > 2 * len := by omega
  rw [Data.calls, tableCalls, if_neg (Nat.ne_of_gt hlen),
    (positions_entryCalls h.positions).listCalls_eq, highest_entryCalls, entryCalls_eq_map,
    List.length_map, ← entryCalls_eq_map, h.highest_eq, h.length, if_neg hdense, listItems,
    h.highest_eq]

theorem calls_named (hne : entries ≠ [] ∨ array = false) :
    (Data.table 0 array entries).calls = mapCalls (entryCalls entries) := by
  rw [Data.calls, tableCalls, if_pos rfl]
  cases entries with
  | nil =>
      cases hne with
      | inl hne => exact absurd rfl hne
      | inr harray =>
          rw [harray]
          rfl
  | cons e rest => exact if_neg (List.cons_ne_nil _ _)

/-- A plain table is a list with items, or has names. -/
theorem Data.Plain.table (h : (Data.table len array entries).Plain) :
    (∀ e ∈ entries, e.2.Plain) ∧ ((0 < len ∧ Listed len entries) ∨
      (len = 0 ∧ (entries.map Prod.fst).Nodup ∧
        ∀ e ∈ entries, ∃ name : String, e.1 = .string (.ofString name))) := by
  cases h with
  | list len array entries keys items =>
      refine ⟨items, ?_⟩
      cases Nat.eq_zero_or_pos len with
      | inl hzero =>
          subst hzero
          have hnil : entries = [] := List.map_eq_nil_iff.mp (List.Perm.eq_nil keys)
          rw [hnil]
          exact .inr ⟨rfl, List.nodup_nil, fun _ he => absurd he List.not_mem_nil⟩
      | inr hpos => exact .inl ⟨hpos, keys⟩
  | named array entries keys names items => exact ⟨items, .inr ⟨rfl, keys, names⟩⟩

theorem Data.Plain.uniform {v : Data} (h : v.Plain) : v.Uniform := by
  induction h with
  | boolean b => exact .boolean b
  | integer i _ _ => exact .integer i
  | number n _ => exact .number n
  | string s => exact .string _
  | list len array entries keys _ ih => exact .list _ _ _ (Listed.positions keys) ih
  | named array entries _ names _ ih =>
      refine .named _ _ (fun e he => ?_) ih
      have ⟨name, hname⟩ := names e he
      rw [hname]
      rfl

end

/-! ## The documents of plain data -/

section

variable {decimal : F64 → String} {len : ℕ} {array : Bool} {entries : List (Key × Data)}
  {doc : Doc}

/-- The document of a list holds at each position the document of the item there. -/
theorem Listed.docs (h : Listed len entries) (hlen : 0 < len)
    (hdoc : (Data.table len array entries).calls.plain decimal = .ok doc) :
    ∃ docs, doc = .array docs ∧ docs.length = len ∧
      ∀ e ∈ entries, ∀ i : ℕ, e.1 = .integer (1 + i : ℕ) →
        ∃ d, docs[i]? = some d ∧ e.2.calls.plain decimal = .ok d := by
  rw [h.calls hlen, Calls.plain] at hdoc
  obtain ⟨docs, hdocs, heq⟩ := Except.bind_eq_ok_iff.mp hdoc
  have hall := plainItems_eq_ok.mp hdocs
  refine ⟨docs, (Except.ok.inj heq).symm, ?_, fun e he i hkey => ?_⟩
  · rw [← hall.length_eq, listItems, itemsUpTo, List.length_map, List.length_range', h.highest_eq]
  · exact getElem?_of_forall₂ hall (listItems_getElem h.positions he hkey)

/-- The document of a table with names has its entries in their order. -/
theorem named_docs (hne : entries ≠ [] ∨ array = false)
    (hdoc : (Data.table 0 array entries).calls.plain decimal = .ok doc) :
    ∃ docs, doc = .object docs ∧ Members decimal entries docs := by
  rw [calls_named hne, mapCalls, Calls.plain] at hdoc
  obtain ⟨docs, hdocs, heq⟩ := Except.bind_eq_ok_iff.mp hdoc
  rw [plainEntries_eq_ok, entryCalls_eq_map, List.map_map, List.forall₂_map_left_iff] at hdocs
  exact ⟨docs, (Except.ok.inj heq).symm, hdocs⟩

theorem key_ofString {name text : String}
    (h : (Key.string (.ofString name)).call.key decimal = .ok text) : text = name := by
  rw [Key.call, stringCall, toStr_ofString] at h
  exact (Except.ok.inj h).symm

/-- How a plain table is written. -/
inductive Layout (decimal : F64 → String) (len : ℕ) (array : Bool)
    (entries : List (Key × Data)) : Doc → Prop
  | list (docs : List Doc) (pos : 0 < len) (listed : Listed len entries)
      (length : docs.length = len)
      (items : ∀ e ∈ entries, ∀ i : ℕ, e.1 = .integer (1 + i : ℕ) →
        ∃ d, docs[i]? = some d ∧ e.2.calls.plain decimal = .ok d) :
      Layout decimal len array entries (.array docs)
  | named (docs : List (String × Doc)) (zero : len = 0) (hne : entries ≠ [] ∨ array = false)
      (names : ∀ e ∈ entries, ∃ name : String, e.1 = .string (.ofString name))
      (members : Members decimal entries docs) : Layout decimal len array entries (.object docs)
  | empty (zero : len = 0) (nil : entries = []) (flag : array = true) :
      Layout decimal len array entries (.array [])

theorem Data.Plain.layout (h : (Data.table len array entries).Plain)
    (hdoc : (Data.table len array entries).calls.plain decimal = .ok doc) :
    Layout decimal len array entries doc := by
  cases h.table.2 with
  | inl hlist =>
      have ⟨docs, heq, hlength, hitems⟩ := hlist.2.docs hlist.1 hdoc
      rw [heq]
      exact .list docs hlist.1 hlist.2 hlength hitems
  | inr hnamed =>
      have ⟨hzero, _, hnames⟩ := hnamed
      subst hzero
      by_cases hne : entries ≠ [] ∨ array = false
      · have ⟨docs, heq, hmembers⟩ := named_docs hne hdoc
        rw [heq]
        exact .named docs rfl hne hnames hmembers
      · have hnil : entries = [] := by
          by_contra hcons
          exact hne (.inl hcons)
        have hflag : array = true := by
          by_contra hfalse
          exact hne (.inr (Bool.eq_false_iff.mpr hfalse))
        subst hnil hflag
        cases hdoc
        exact .empty rfl rfl rfl

/-- The kind of the document of a value. -/
inductive Written : Data → Doc → Prop
  | boolean (b : Bool) : Written (.boolean b) (.boolean b)
  | integer (i : ℤ) : Written (.integer i) (.integer i)
  | number (n : F64) : Written (.number n) (.number n)
  | string (s : String) : Written (.string (.ofString s)) (.string s)
  | array (len : ℕ) (array : Bool) (entries : List (Key × Data)) (docs : List Doc) :
      Written (.table len array entries) (.array docs)
  | object (len : ℕ) (array : Bool) (entries : List (Key × Data)) (docs : List (String × Doc)) :
      Written (.table len array entries) (.object docs)

theorem isFinite_of_isDouble {n : F64} (h : n.IsDouble) : n.isFinite = true := by
  cases n with
  | finite q => rfl
  | negZero => rfl
  | infinite negative => exact absurd h id
  | nan => exact absurd h id

theorem Data.Plain.written {v : Data} (h : v.Plain) (hdoc : v.calls.plain decimal = .ok doc) :
    Written v doc := by
  have hself := h
  cases h with
  | boolean b =>
      cases hdoc
      exact .boolean b
  | integer i _ _ =>
      cases hdoc
      exact .integer i
  | number n hdouble =>
      rw [Data.calls, Calls.plain, Scalar.doc, if_pos (isFinite_of_isDouble hdouble)] at hdoc
      cases hdoc
      exact .number n
  | string s =>
      rw [Data.calls, stringCall, toStr_ofString] at hdoc
      cases hdoc
      exact .string s
  | list len array entries _ _ =>
      cases hself.layout hdoc with
      | list docs => exact .array ..
      | named docs => exact .object ..
      | empty => exact .array ..
  | named array entries _ _ _ =>
      cases hself.layout hdoc with
      | list docs => exact .array ..
      | named docs => exact .object ..
      | empty => exact .array ..

/-! ## Equal documents -/

/-- The document tells of two values whether they are written alike. -/
def Data.Decided (decimal : F64 → String) (v : Data) : Prop :=
  v.Plain → ∀ {w : Data} {a b : Doc}, w.Plain → v.calls.plain decimal = .ok a →
    w.calls.plain decimal = .ok b → (a = b ↔ v.Alike w)

theorem alike_table {len' : ℕ} {array' : Bool} {entries' : List (Key × Data)} :
    (Data.table len array entries).Alike (.table len' array' entries') ↔
      len = len' ∧ if len = 0 then (entries = [] → array = array') ∧ alikeEntries entries entries'
        else alikeItems entries entries' := by
  rw [Data.Alike]
  constructor
  · intro ⟨array'', entries'', heq, h⟩
    cases heq
    exact ⟨rfl, h⟩
  · intro ⟨hlen, h⟩
    subst hlen
    exact ⟨array', entries', rfl, h⟩

theorem items_eq_iff {entries' : List (Key × Data)} {docs docs' : List Doc} {len' : ℕ}
    (ih : ∀ e ∈ entries, e.2.Decided decimal) (hv : ∀ e ∈ entries, e.2.Plain)
    (hw : ∀ e ∈ entries', e.2.Plain) (hlisted : Listed len entries)
    (hlisted' : Listed len' entries') (hlength : docs.length = len) (hlength' : docs'.length = len')
    (hitems : ∀ e ∈ entries, ∀ i : ℕ, e.1 = .integer (1 + i : ℕ) →
      ∃ d, docs[i]? = some d ∧ e.2.calls.plain decimal = .ok d)
    (hitems' : ∀ e ∈ entries', ∀ i : ℕ, e.1 = .integer (1 + i : ℕ) →
      ∃ d, docs'[i]? = some d ∧ e.2.calls.plain decimal = .ok d) :
    docs = docs' ↔ len = len' ∧ alikeItems entries entries' := by
  rw [alikeItems_iff]
  constructor
  · intro heq
    have hlen : len = len' := by rw [← hlength, ← hlength', heq]
    refine ⟨hlen, fun e he => ?_⟩
    have ⟨i, hi, hkey⟩ := hlisted.exists_index he
    have ⟨value, hvalue⟩ := hlisted'.exists_mem (hlen ▸ hi)
    have ⟨d, hd, hdoc⟩ := hitems e he i hkey
    have ⟨d', hd', hdoc'⟩ := hitems' _ hvalue i rfl
    have hsame : d = d' := by
      rw [heq, hd'] at hd
      exact (Option.some.inj hd).symm
    exact ⟨value, hkey ▸ hvalue, (ih e he (hv e he) (hw _ hvalue) hdoc hdoc').mp hsame⟩
  · intro ⟨hlen, halike⟩
    refine List.ext_getElem? fun i => ?_
    by_cases hi : i < len
    · have ⟨value, hvalue⟩ := hlisted.exists_mem hi
      have ⟨value', hvalue', hsame⟩ := halike _ hvalue
      have ⟨d, hd, hdoc⟩ := hitems _ hvalue i rfl
      have ⟨d', hd', hdoc'⟩ := hitems' _ hvalue' i rfl
      rw [hd, hd', (ih _ hvalue (hv _ hvalue) (hw _ hvalue') hdoc hdoc').mpr hsame]
    · rw [List.getElem?_eq_none (by omega), List.getElem?_eq_none (by omega)]

theorem members_eq_iff {entries' : List (Key × Data)} {docs docs' : List (String × Doc)}
    (ih : ∀ e ∈ entries, e.2.Decided decimal) (hv : ∀ e ∈ entries, e.2.Plain)
    (hw : ∀ e ∈ entries', e.2.Plain)
    (hnames : ∀ e ∈ entries, ∃ name : String, e.1 = .string (.ofString name))
    (hnames' : ∀ e ∈ entries', ∃ name : String, e.1 = .string (.ofString name))
    (hmembers : Members decimal entries docs) (hmembers' : Members decimal entries' docs') :
    docs = docs' ↔ alikeEntries entries entries' := by
  induction entries generalizing entries' docs docs' with
  | nil =>
      cases hmembers
      rw [alikeEntries]
      cases hmembers' with
      | nil => exact iff_of_true rfl rfl
      | cons _ _ => exact iff_of_false (List.cons_ne_nil _ _).symm (List.cons_ne_nil _ _)
  | cons e rest ihrest =>
      cases hmembers with
      | cons hfirst hmore =>
          cases hmembers' with
          | nil =>
              refine iff_of_false (List.cons_ne_nil _ _) ?_
              intro ⟨_, _, heq, _⟩
              cases heq
          | @cons e' d' rest' ds' hfirst' hmore' =>
              have hrest := ihrest (fun e he => ih e (List.mem_cons_of_mem _ he))
                (fun e he => hv e (List.mem_cons_of_mem _ he))
                (fun e he => hw e (List.mem_cons_of_mem _ he))
                (fun e he => hnames e (List.mem_cons_of_mem _ he))
                (fun e he => hnames' e (List.mem_cons_of_mem _ he)) hmore hmore'
              have hvalue := ih e List.mem_cons_self (hv e List.mem_cons_self)
                (hw e' List.mem_cons_self) hfirst.2 hfirst'.2
              have ⟨name, hname⟩ := hnames e List.mem_cons_self
              have ⟨name', hname'⟩ := hnames' e' List.mem_cons_self
              have htext := hfirst.1
              have htext' := hfirst'.1
              rw [hname] at htext
              rw [hname'] at htext'
              have hkey := key_ofString htext
              have hkey' := key_ofString htext'
              rw [List.cons.injEq, Prod.ext_iff, hkey, hkey', hvalue, hrest, alikeEntries]
              constructor
              · intro ⟨⟨hsame, halike⟩, hmore⟩
                exact ⟨e'.2, rest', by rw [hname, hsame, ← hname'], halike, hmore⟩
              · intro ⟨value, more, heq, halike, hmore⟩
                cases heq
                have hsame : name = name' := by
                  rw [hname] at hname'
                  simpa using hname'
                exact ⟨⟨hsame, halike⟩, hmore⟩

theorem decided_table (ih : ∀ e ∈ entries, e.2.Decided decimal) :
    (Data.table len array entries).Decided decimal := by
  intro hv w a b hw ha hb
  have hitemsv := hv.table.1
  cases w with
  | table len' array' entries' =>
      have hitemsw := hw.table.1
      rw [alike_table]
      cases hv.layout ha with
      | list docs hpos hlisted hlength hitems =>
          rw [if_neg (Nat.ne_of_gt hpos)]
          cases hw.layout hb with
          | list docs' _ hlisted' hlength' hitems' =>
              rw [Doc.array.injEq]
              exact items_eq_iff ih hitemsv hitemsw hlisted hlisted' hlength hlength' hitems hitems'
          | named docs' hzero _ _ _ =>
              exact iff_of_false (fun h => by cases h) fun h => by omega
          | empty hzero _ _ =>
              refine iff_of_false (fun h => ?_) fun h => by omega
              rw [Doc.array.inj h] at hlength
              exact Nat.ne_of_lt hpos hlength
      | named docs hzero hne hnames hmembers =>
          rw [if_pos hzero]
          cases hw.layout hb with
          | list docs' hpos' _ _ _ => exact iff_of_false (fun h => by cases h) fun h => by omega
          | named docs' hzero' hne' hnames' hmembers' =>
              rw [Doc.object.injEq, members_eq_iff ih hitemsv hitemsw hnames hnames' hmembers
                hmembers']
              constructor
              · intro halike
                refine ⟨hzero.trans hzero'.symm, fun hnil => ?_, halike⟩
                -- Without entries neither table has the array metatable.
                rw [hnil, alikeEntries] at halike
                rw [hne.resolve_left fun h => h hnil, hne'.resolve_left fun h => h halike]
              · intro h
                exact h.2.2
          | empty hzero' hnil' hflag' =>
              refine iff_of_false (fun h => by cases h) fun h => ?_
              have hnil : entries = [] := by
                have hforall := alikeEntries_iff.mp h.2.2
                rw [hnil'] at hforall
                exact List.forall₂_nil_right_iff.mp hforall
              have hflag := h.2.1 hnil
              rw [hne.resolve_left fun h => h hnil, hflag'] at hflag
              cases hflag
      | empty hzero hnil hflag =>
          rw [if_pos hzero, hnil, alikeEntries]
          cases hw.layout hb with
          | list docs' hpos' _ hlength' _ =>
              refine iff_of_false (fun h => ?_) fun h => by omega
              rw [← Doc.array.inj h] at hlength'
              exact Nat.ne_of_lt hpos' hlength'
          | named docs' _ hne' _ _ =>
              refine iff_of_false (fun h => by cases h) fun h => ?_
              have hflag' := h.2.1 rfl
              rw [hne'.resolve_left fun hne => hne h.2.2, hflag] at hflag'
              cases hflag'
          | empty hzero' hnil' hflag' =>
              exact iff_of_true rfl ⟨hzero.trans hzero'.symm, fun _ => hflag.trans hflag'.symm, hnil'⟩
  | _ =>
      refine iff_of_false (fun h => ?_) fun h => ?_
      · subst h
        cases hv.written ha <;> cases hw.written hb
      · have ⟨_, _, heq, _⟩ := h
        cases heq

/-- Two plain values have one document exactly where they are written alike. -/
theorem Data.decided (v : Data) : v.Decided decimal := by
  induction v using Data.induct with
  | table len array entries ih => exact decided_table ih
  | nil =>
      intro hv
      cases hv
  | null =>
      intro hv
      cases hv
  | boolean b =>
      intro hv w a b' hw ha hb
      cases hv.written ha
      cases hw.written hb <;> simp [Data.Alike, eq_comm]
  | integer i =>
      intro hv w a b' hw ha hb
      cases hv.written ha
      cases hw.written hb <;> simp [Data.Alike, eq_comm]
  | number n =>
      intro hv w a b' hw ha hb
      cases hv.written ha
      cases hw.written hb <;> simp [Data.Alike, eq_comm]
  | string s =>
      intro hv w a b' hw ha hb
      cases hv.written ha
      cases hw.written hb <;> simp [Data.Alike, eq_comm]

theorem itemsDoubles_iff {docs : List Doc} : itemsDoubles docs ↔ ∀ d ∈ docs, d.Doubles := by
  induction docs with
  | nil => simp [itemsDoubles]
  | cons d docs ih => rw [itemsDoubles, ih, List.forall_mem_cons]

theorem membersDoubles_iff {docs : List (String × Doc)} :
    membersDoubles docs ↔ ∀ d ∈ docs, d.2.Doubles := by
  induction docs with
  | nil => simp [membersDoubles]
  | cons d docs ih => rw [membersDoubles, ih, List.forall_mem_cons]

theorem Data.Plain.doubles {v : Data} (h : v.Plain) (hdoc : v.calls.plain decimal = .ok doc) :
    doc.Doubles := by
  induction v using Data.induct generalizing doc with
  | table len array entries ih =>
      have hitems := h.table.1
      cases h.layout hdoc with
      | list docs hpos hlisted hlength hdocs =>
          refine itemsDoubles_iff.mpr fun d hd => ?_
          have ⟨i, hi⟩ := List.mem_iff_getElem?.mp hd
          have hlt : i < len := by
            have hsome := (List.getElem?_eq_some_iff.mp hi).1
            omega
          have ⟨value, hvalue⟩ := hlisted.exists_mem hlt
          have ⟨d', hd', hplain⟩ := hdocs _ hvalue i rfl
          rw [hi] at hd'
          cases hd'
          exact ih _ hvalue (hitems _ hvalue) hplain
      | named docs _ _ _ hmembers =>
          refine membersDoubles_iff.mpr fun d hd => ?_
          have ⟨i, hi⟩ := List.mem_iff_getElem?.mp hd
          have ⟨e, he, hplain⟩ := getElem?_of_forall₂ hmembers.flip hi
          have hmem := List.mem_of_getElem? he
          exact ih e hmem (hitems e hmem) hplain.2
      | empty _ _ _ => exact trivial
  | number n =>
      cases h.written hdoc
      cases h with
      | number _ hdouble => exact hdouble
  | nil => cases h
  | null => cases h
  | boolean b =>
      cases h.written hdoc
      exact trivial
  | integer i =>
      cases h.written hdoc
      exact trivial
  | string s =>
      cases h.written hdoc
      exact trivial

end

/-! ## What is written alike means the same -/

section

variable {entries entries' : List (Key × Data)}

theorem map_fst_entryMeanings (entries : List (Key × Data)) :
    (entryMeanings entries).map Prod.fst = entries.map Prod.fst := by
  rw [entryMeanings_eq_map, List.map_map]
  rfl

theorem rawGet_entryMeanings (hnodup : (entries.map Prod.fst).Nodup) {e : Key × Data}
    (he : e ∈ entries) : rawGet (entryMeanings entries) e.1 = some e.2.meaning := by
  have hmem : (e.1, e.2.meaning) ∈ entryMeanings entries := by
    rw [entryMeanings_eq_map]
    exact List.mem_map_of_mem (f := fun e : Key × Data => (e.1, e.2.meaning)) he
  exact @rawGet_of_mem _ _ (by rwa [map_fst_entryMeanings]) (e.1, e.2.meaning) hmem

/-- Alike entries have the same meanings. -/
theorem entryMeanings_eq (h : alikeEntries entries entries')
    (ih : ∀ e ∈ entries, ∀ e' ∈ entries', e.2.Alike e'.2 → e.2.meaning = e'.2.meaning) :
    entryMeanings entries = entryMeanings entries' := by
  induction entries generalizing entries' with
  | nil =>
      rw [alikeEntries] at h
      rw [h]
  | cons e rest ihrest =>
      have ⟨value, more, heq, halike, hmore⟩ := h
      subst heq
      have hmeaning := ih e List.mem_cons_self _ List.mem_cons_self halike
      have hrest := ihrest hmore fun e he e' he' =>
        ih e (List.mem_cons_of_mem _ he) e' (List.mem_cons_of_mem _ he')
      rw [entryMeanings, entryMeanings, hmeaning, hrest]

theorem itemsUpTo_eq {len : ℕ} (hlisted : Listed len entries) (hlisted' : Listed len entries')
    (h : alikeItems entries entries')
    (ih : ∀ e ∈ entries, ∀ e' ∈ entries', e.2.Alike e'.2 → e.2.meaning = e'.2.meaning) :
    itemsUpTo (entryMeanings entries) .null len = itemsUpTo (entryMeanings entries') .null len := by
  refine List.map_congr_left fun i hi => ?_
  have ⟨hlow, hhigh⟩ := List.mem_range'_1.mp hi
  have ⟨value, hvalue⟩ := hlisted.exists_mem (i := i - 1) (by omega)
  rw [Nat.add_sub_cancel' hlow] at hvalue
  have ⟨value', hvalue', halike⟩ := alikeItems_iff.mp h _ hvalue
  rw [rawGet_entryMeanings hlisted.positions.nodup hvalue,
    rawGet_entryMeanings hlisted'.positions.nodup hvalue', ih _ hvalue _ hvalue' halike]

theorem Data.Alike.meaning_eq {v w : Data} (hv : v.Plain) (hw : w.Plain) (h : v.Alike w) :
    v.meaning = w.meaning := by
  induction v using Data.induct generalizing w with
  | table len array entries ih =>
      have ⟨array', entries', heq, hbody⟩ := h
      subst heq
      have hitems : ∀ e ∈ entries, ∀ e' ∈ entries', e.2.Alike e'.2 →
          e.2.meaning = e'.2.meaning := fun e he e' he' halike =>
        ih e he (hv.table.1 e he) (hw.table.1 e' he') halike
      rw [Data.meaning, Data.meaning, tableMeaning, tableMeaning]
      cases hv.table.2 with
      | inl hlist =>
          have hlisted' : Listed len entries' := by
            cases hw.table.2 with
            | inl hlist' => exact hlist'.2
            | inr hnamed' => exact absurd hnamed'.1 (Nat.ne_of_gt hlist.1)
          rw [if_neg (Nat.ne_of_gt hlist.1)] at hbody
          rw [if_neg (Nat.ne_of_gt hlist.1), if_neg (Nat.ne_of_gt hlist.1),
            itemsUpTo_eq hlist.2 hlisted' hbody hitems]
      | inr hnamed =>
          rw [if_pos hnamed.1] at hbody
          rw [if_pos hnamed.1, if_pos hnamed.1, entryMeanings_eq hbody.2 hitems]
          cases entries with
          | nil => rw [hbody.1 rfl]
          | cons e rest =>
              have ⟨value, more, hcons, _⟩ := hbody.2
              rw [hcons]
              rfl
  | nil => cases hv
  | null => cases hv
  | boolean b => rw [show w = .boolean b from h]
  | integer i => rw [show w = .integer i from h]
  | number n => rw [show w = .number n from h]
  | string s => rw [show w = .string s from h]

end

end Nitr.Json
