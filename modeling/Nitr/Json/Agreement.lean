import Nitr.Json.Bounds
import Nitr.Json.Lists

/-! # The pass against the walk

For values whose tables are lists or have only string keys, where the single pass and the
walking guard agree. A list costs the walk one unit for each of its keys and costs the pass
one for each of its holes. -/

namespace Nitr.Json

open Nitr.Validate (LuaString F64)

/-! ## Measures over lists -/

theorem itemsClean_iff {items : List Calls} :
    itemsClean items = true ↔ ∀ item ∈ items, item.clean = true := by
  induction items with
  | nil => simp [itemsClean]
  | cons item items ih => simp [itemsClean, ih]

theorem itemsUtf8_iff {items : List Calls} :
    itemsUtf8 items = true ↔ ∀ item ∈ items, item.utf8 = true := by
  induction items with
  | nil => simp [itemsUtf8]
  | cons item items ih => simp [itemsUtf8, ih]

theorem itemsDepth_le {items : List Calls} {d : ℕ} :
    itemsDepth items ≤ d ↔ ∀ item ∈ items, item.depth ≤ d := by
  induction items with
  | nil => simp [itemsDepth]
  | cons item items ih => simp [itemsDepth, ih]

theorem itemsCost_append {items items' : List Calls} :
    itemsCost (items ++ items') = itemsCost items + itemsCost items' := by
  induction items with
  | nil => simp [itemsCost]
  | cons item items ih => simp only [List.cons_append, itemsCost, ih, Nat.add_assoc]

theorem itemsCost_perm {items items' : List Calls} (h : items.Perm items') :
    itemsCost items = itemsCost items' := by
  induction h with
  | nil => rfl
  | cons item _ ih => rw [itemsCost, itemsCost, ih]
  | swap item item' items =>
      simp only [itemsCost]
      omega
  | trans _ _ ih₁ ih₂ => rw [ih₁, ih₂]

theorem itemsCost_holes (n : ℕ) : itemsCost (List.replicate n (.scalar .unit)) = n := by
  induction n with
  | zero => rfl
  | succ n ih =>
      rw [List.replicate_succ, itemsCost, ih, Calls.cost]
      omega

theorem entriesClean_iff {entries : List (Scalar × Calls)} :
    entriesClean entries = true ↔
      ∀ entry ∈ entries, entry.1.isName = true ∧ entry.2.clean = true := by
  induction entries with
  | nil => simp [entriesClean]
  | cons entry entries ih => simp [entriesClean, ih]

theorem entriesUtf8_iff {entries : List (Scalar × Calls)} :
    entriesUtf8 entries = true ↔
      ∀ entry ∈ entries, entry.1.isBytes = false ∧ entry.2.utf8 = true := by
  induction entries with
  | nil => simp [entriesUtf8]
  | cons entry entries ih => simp [entriesUtf8, ih]

theorem entriesDepth_le {entries : List (Scalar × Calls)} {d : ℕ} :
    entriesDepth entries ≤ d ↔ ∀ entry ∈ entries, entry.2.depth ≤ d := by
  induction entries with
  | nil => simp [entriesDepth]
  | cons entry entries ih => simp [entriesDepth, ih]

theorem dataUtf8_iff {entries : List (Key × Data)} :
    dataUtf8 entries = true ↔ ∀ e ∈ entries, e.1.utf8 = true ∧ e.2.utf8 = true := by
  induction entries with
  | nil => simp [dataUtf8]
  | cons e rest ih => simp [dataUtf8, ih]

theorem dataDepth_le {entries : List (Key × Data)} {d : ℕ} :
    dataDepth entries ≤ d ↔ ∀ e ∈ entries, e.2.depth ≤ d := by
  induction entries with
  | nil => simp [dataDepth]
  | cons e rest ih => simp [dataDepth, ih]

/-! ## Lists and named tables -/

def Key.isString : Key → Bool
  | .string _ => true
  | _ => false

/-- Every table is a list, dense or not, or has only string keys (and so no border). -/
inductive Data.Uniform : Data → Prop
  | nil : Uniform .nil
  | null : Uniform .null
  | boolean (b : Bool) : Uniform (.boolean b)
  | integer (i : ℤ) : Uniform (.integer i)
  | number (n : F64) : Uniform (.number n)
  | string (s : LuaString) : Uniform (.string s)
  | list (len : ℕ) (array : Bool) (entries : List (Key × Data)) (h : Positions entries)
      (items : ∀ e ∈ entries, e.2.Uniform) : Uniform (.table len array entries)
  | named (array : Bool) (entries : List (Key × Data)) (h : ∀ e ∈ entries, e.1.isString = true)
      (items : ∀ e ∈ entries, e.2.Uniform) : Uniform (.table 0 array entries)

theorem entryCalls_eq_map (entries : List (Key × Data)) :
    entryCalls entries = entries.map fun e => (e.1, e.2.calls) := by
  induction entries with
  | nil => rfl
  | cons e rest ih => rw [entryCalls, ih, List.map_cons]

/-- The calls of a value measure as the value does, and cost no more than its nodes. -/
structure Data.Measured (data : Data) : Prop where
  clean : data.calls.clean = true
  depth : ∀ d, data.calls.depth ≤ d ↔ data.depth ≤ d
  utf8 : data.calls.utf8 = true ↔ data.utf8 = true
  cost : data.calls.cost ≤ data.nodes

theorem isBytes_stringCall (s : LuaString) : (stringCall s).isBytes = !utf8String s := by
  unfold stringCall utf8String
  cases toStr s <;> rfl

theorem isBytes_call (key : Key) : key.call.isBytes = !key.utf8 := by
  cases key with
  | string s => exact isBytes_stringCall s
  | boolean b => rfl
  | integer i => rfl
  | number n => rfl
  | null => rfl

theorem isName_stringCall (s : LuaString) : (stringCall s).isName = true := by
  unfold stringCall
  cases toStr s <;> rfl

section

variable {entries : List (Key × Data)} {len : ℕ} {array : Bool}

/-- The nodes of a table hold the calls of its values, and one more for each key. -/
theorem length_add_itemsCost_le (h : ∀ e ∈ entries, e.2.Measured) :
    entries.length + itemsCost (entries.map fun e => e.2.calls) ≤ dataNodes entries := by
  induction entries with
  | nil => exact le_rfl
  | cons e rest ih =>
      have hfirst := (h e (List.mem_cons_self ..)).cost
      have hrest := ih fun e he => h e (List.mem_cons_of_mem _ he)
      simp only [List.length_cons, List.map_cons, itemsCost, dataNodes]
      omega

theorem entriesCost_eq : entriesCost (entries.map fun e => (e.1.call, e.2.calls)) =
    entries.length + itemsCost (entries.map fun e => e.2.calls) := by
  induction entries with
  | nil => rfl
  | cons e rest ih =>
      simp only [List.length_cons, List.map_cons, entriesCost, itemsCost, ih]
      omega

theorem depth_map (hcalls : (Data.table len array entries).calls = mapCalls (entryCalls entries))
    (h : ∀ e ∈ entries, ∀ d, e.2.calls.depth ≤ d ↔ e.2.depth ≤ d) (d : ℕ) :
    (Data.table len array entries).calls.depth ≤ d ↔ (Data.table len array entries).depth ≤ d := by
  have hinner : entriesDepth (entries.map fun e => (e.1.call, e.2.calls)) ≤ d - 1 ↔
      dataDepth entries ≤ d - 1 := by
    rw [entriesDepth_le, dataDepth_le, List.forall_mem_map]
    exact forall₂_congr fun e he => h e he (d - 1)
  have hmap : (Data.table len array entries).calls.depth =
      1 + entriesDepth (entries.map fun e => (e.1.call, e.2.calls)) := by
    rw [hcalls, entryCalls_eq_map, mapCalls, List.map_map]
    rfl
  rw [hmap, Data.depth]
  omega

/-- A table written as a map. -/
theorem measured_map (hcalls : (Data.table len array entries).calls = mapCalls (entryCalls entries))
    (hname : ∀ e ∈ entries, e.1.call.isName = true) (h : ∀ e ∈ entries, e.2.Measured) :
    (Data.table len array entries).Measured := by
  have hmap : (Data.table len array entries).calls =
      .map (entries.map fun e => (e.1.call, e.2.calls)) := by
    rw [hcalls, entryCalls_eq_map, mapCalls, List.map_map]
    rfl
  constructor
  · rw [hmap, Calls.clean, entriesClean_iff]
    intro entry hentry
    obtain ⟨e, he, rfl⟩ := List.mem_map.mp hentry
    exact ⟨hname e he, (h e he).clean⟩
  · exact depth_map hcalls fun e he => (h e he).depth
  · rw [hmap, Calls.utf8, Data.utf8, entriesUtf8_iff, dataUtf8_iff, List.forall_mem_map]
    refine forall₂_congr fun e he => ?_
    rw [isBytes_call, Bool.not_eq_false', (h e he).utf8]
  · rw [hmap, Calls.cost, Data.nodes, entriesCost_eq]
    exact Nat.add_le_add_left (length_add_itemsCost_le h) 1

/-- The calls of the values of a list, with a unit for each hole. -/
def listItems (entries : List (Key × Data)) : List Calls :=
  itemsUpTo (entryCalls entries) (.scalar .unit) (highest entries)

theorem highest_entryCalls : highest (entryCalls entries) = highest entries := by
  unfold highest
  rw [entryCalls_eq_map, List.filterMap_map]
  rfl

theorem positions_entryCalls (h : Positions entries) : Positions (entryCalls entries) := by
  rw [entryCalls_eq_map]
  constructor
  · rw [List.map_map]
    exact h.nodup
  · rw [List.forall_mem_map]
    exact h.positive

theorem listItems_perm (h : Positions entries) :
    (listItems entries).Perm ((entries.map fun e => e.2.calls) ++
      List.replicate (highest entries - entries.length) (.scalar .unit)) := by
  have := (positions_entryCalls h).itemsUpTo_perm (.scalar .unit) highest_entryCalls.le
  rwa [entryCalls_eq_map, List.map_map, List.length_map, ← entryCalls_eq_map] at this

theorem forall_mem_listItems (h : Positions entries) {p : Calls → Prop}
    (hunit : p (.scalar .unit)) :
    (∀ item ∈ listItems entries, p item) ↔ ∀ e ∈ entries, p e.2.calls := by
  have hmem : ∀ item, item ∈ listItems entries ↔ _ := fun item => (listItems_perm h).mem_iff
  simp only [hmem, List.mem_append, List.mem_replicate, List.mem_map]
  constructor
  · intro hall e he
    exact hall _ (.inl ⟨e, he, rfl⟩)
  · intro hall item hitem
    rcases hitem with ⟨e, he, rfl⟩ | ⟨_, rfl⟩
    · exact hall e he
    · exact hunit

theorem itemsCost_listItems (h : Positions entries) :
    itemsCost (listItems entries) = itemsCost (entries.map fun e => e.2.calls) +
      (highest entries - entries.length) := by
  rw [itemsCost_perm (listItems_perm h), itemsCost_append, itemsCost_holes]

theorem depth_seq (hcalls : (Data.table len array entries).calls = .seq (listItems entries))
    (hpos : Positions entries) (h : ∀ e ∈ entries, ∀ d, e.2.calls.depth ≤ d ↔ e.2.depth ≤ d)
    (d : ℕ) :
    (Data.table len array entries).calls.depth ≤ d ↔ (Data.table len array entries).depth ≤ d := by
  have hinner : itemsDepth (listItems entries) ≤ d - 1 ↔ dataDepth entries ≤ d - 1 := by
    rw [itemsDepth_le, dataDepth_le, forall_mem_listItems hpos (Nat.zero_le (d - 1))]
    exact forall₂_congr fun e he => h e he (d - 1)
  rw [hcalls, Calls.depth, Data.depth]
  omega

/-- A table written as a list. -/
theorem measured_seq (hcalls : (Data.table len array entries).calls = .seq (listItems entries))
    (hpos : Positions entries) (hdense : highest entries ≤ 2 * entries.length)
    (h : ∀ e ∈ entries, e.2.Measured) : (Data.table len array entries).Measured := by
  constructor
  · rw [hcalls, Calls.clean, itemsClean_iff,
      forall_mem_listItems (p := fun calls => calls.clean = true) hpos rfl]
    exact fun e he => (h e he).clean
  · exact depth_seq hcalls hpos fun e he => (h e he).depth
  · have hkeys : ∀ e ∈ entries, e.1.utf8 = true := by
      intro e he
      obtain ⟨i, _, hkey⟩ := hpos.positive e he
      rw [hkey]
      rfl
    rw [hcalls, Calls.utf8, Data.utf8, itemsUtf8_iff, dataUtf8_iff,
      forall_mem_listItems (p := fun calls => calls.utf8 = true) hpos rfl]
    refine forall₂_congr fun e he => ?_
    rw [(h e he).utf8]
    exact ⟨fun hu => ⟨hkeys e he, hu⟩, And.right⟩
  · rw [hcalls, Calls.cost, Data.nodes, itemsCost_listItems hpos]
    have := length_add_itemsCost_le h
    omega

/-- The calls of a table whose keys are positions. -/
theorem calls_positions (len : ℕ) (array : Bool) (h : Positions entries) :
    (Data.table len array entries).calls = mapCalls (entryCalls entries) ∨
      (Data.table len array entries).calls = .seq (listItems entries) ∧
        highest entries ≤ 2 * entries.length := by
  have hlist := (positions_entryCalls h).listCalls_eq
  rw [highest_entryCalls, entryCalls_eq_map, List.length_map, ← entryCalls_eq_map] at hlist
  simp only [Data.calls, tableCalls]
  by_cases hlen : len = 0
  · rw [if_pos hlen]
    cases entries with
    | nil => cases array with
      | false => exact .inl rfl
      | true => exact .inr ⟨rfl, le_rfl⟩
    | cons e rest =>
        rw [if_neg (by simp [entryCalls])]
        exact .inl rfl
  · rw [if_neg hlen, hlist]
    split_ifs with hsparse
    · exact .inl rfl
    · exact .inr ⟨rfl, by omega⟩

theorem measured_list (hpos : Positions entries) (h : ∀ e ∈ entries, e.2.Measured) :
    (Data.table len array entries).Measured := by
  rcases calls_positions len array hpos with hcalls | ⟨hcalls, hdense⟩
  · refine measured_map hcalls (fun e he => ?_) h
    obtain ⟨i, _, hkey⟩ := hpos.positive e he
    rw [hkey]
    rfl
  · exact measured_seq hcalls hpos hdense h

theorem measured_named (hnamed : ∀ e ∈ entries, e.1.isString = true)
    (h : ∀ e ∈ entries, e.2.Measured) : (Data.table 0 array entries).Measured := by
  cases entries with
  | nil => exact measured_list ⟨List.nodup_nil, by simp⟩ h
  | cons e rest =>
      refine measured_map ?_ (fun e he => ?_) h
      · simp [Data.calls, tableCalls, entryCalls]
      · have hstring := hnamed e he
        cases hkey : e.1 with
        | string s => exact isName_stringCall s
        | boolean b => simp [hkey, Key.isString] at hstring
        | integer i => simp [hkey, Key.isString] at hstring
        | number n => simp [hkey, Key.isString] at hstring
        | null => simp [hkey, Key.isString] at hstring

end

theorem Data.Uniform.measured {data : Data} (h : data.Uniform) : data.Measured := by
  induction h with
  | nil => exact ⟨rfl, fun _ => Iff.rfl, Iff.rfl, le_rfl⟩
  | null => exact ⟨rfl, fun _ => Iff.rfl, Iff.rfl, le_rfl⟩
  | boolean b => exact ⟨rfl, fun _ => Iff.rfl, Iff.rfl, le_rfl⟩
  | integer i => exact ⟨rfl, fun _ => Iff.rfl, Iff.rfl, le_rfl⟩
  | number n => exact ⟨rfl, fun _ => Iff.rfl, Iff.rfl, le_rfl⟩
  | string s =>
      refine ⟨rfl, fun _ => Iff.rfl, ?_, le_rfl⟩
      rw [Data.calls, Calls.utf8, isBytes_stringCall, Bool.not_not, Data.utf8]
  | list len array entries hpos _ ih => exact measured_list hpos ih
  | named array entries hnamed _ ih => exact measured_named hnamed ih

/-! ## Where the two agree -/

section

variable {decimal : F64 → String} {data : Data}

/-- The pass refuses by a bound exactly what the walk refuses, and what both accept is written
as without the bounds. -/
def Interchangeable (decimal : F64 → String) (data : Data) : Prop :=
  ((∃ e, toJson decimal data = .error e ∧ e.isBound = true) ↔
      ∃ e, checkJsonBounds data = .error e) ∧
    ∀ doc, toJson decimal data = .ok doc → checkJsonBounds data = .ok () →
      data.calls.plain decimal = .ok doc

/-- What the pass makes of lists and named tables: the document, or a bound that is exceeded. -/
theorem Data.Uniform.toJson_cases (decimal : F64 → String) (h : data.Uniform) :
    (((data.depth ≤ maxJsonDepth ∧ data.utf8 = true) ∧ data.calls.cost ≤ maxJsonNodes) ∧
        ∃ doc, data.calls.plain decimal = .ok doc ∧ toJson decimal data = .ok doc) ∨
      (¬((data.depth ≤ maxJsonDepth ∧ data.utf8 = true) ∧ data.calls.cost ≤ maxJsonNodes) ∧
        ∃ e, toJson decimal data = .error e ∧ e.isBound = true) := by
  have hm := h.measured
  have hguarded := guarded_of_clean decimal hm.clean
  have hfits : data.calls.Fits 0 ↔ data.depth ≤ maxJsonDepth ∧ data.utf8 = true := by
    rw [Calls.Fits, Nat.zero_add, hm.depth, hm.utf8]
  rw [hfits] at hguarded
  unfold toJson
  by_cases hok : (data.depth ≤ maxJsonDepth ∧ data.utf8 = true) ∧ data.calls.cost ≤ maxJsonNodes
  · obtain ⟨doc, hplain, hdoc⟩ := hguarded.accepts hok.1 hok.2
    exact .inl ⟨hok, doc, hplain, by rw [hdoc]; rfl⟩
  · obtain ⟨e, he, hbound⟩ := hguarded.refuses hok
    exact .inr ⟨hok, e, by rw [he]; rfl, hbound⟩

theorem checkJsonBounds_error : (∃ e, checkJsonBounds data = .error e) ↔
    ¬((data.depth ≤ maxJsonDepth ∧ data.utf8 = true) ∧ data.nodes ≤ maxJsonNodes) := by
  rw [← checkJsonBounds_isOk]
  cases checkJsonBounds data with
  | error e => simp [Except.isOk, Except.toBool]
  | ok u => simp [Except.isOk, Except.toBool]

/-- The pass and the walk part exactly where a shallow UTF-8 value makes few enough calls on the
serializer and has too many nodes, the keys of its lists counted. -/
theorem interchangeable_iff (h : data.Uniform) :
    Interchangeable decimal data ↔
      ¬(data.depth ≤ maxJsonDepth ∧ data.utf8 = true ∧ data.calls.cost ≤ maxJsonNodes ∧
        maxJsonNodes < data.nodes) := by
  have hcost := h.measured.cost
  unfold Interchangeable
  rw [checkJsonBounds_error]
  rcases h.toJson_cases decimal with ⟨hok, doc, hplain, hdoc⟩ | ⟨hnot, e, he, hbound⟩
  · have hnone : ¬∃ e, toJson decimal data = .error e ∧ e.isBound = true := by
      rintro ⟨e, he, _⟩
      rw [hdoc] at he
      cases he
    have hsame : ∀ doc, toJson decimal data = .ok doc → checkJsonBounds data = .ok () →
        data.calls.plain decimal = .ok doc := by
      intro doc' hdoc' _
      rw [hdoc] at hdoc'
      rw [hplain, ← Except.ok.inj hdoc']
    constructor
    · intro hiff hpart
      exact hnone (hiff.1.mpr fun hwalk => by omega)
    · intro hpart
      refine ⟨⟨fun hsome => absurd hsome hnone, fun hwalk => absurd ?_ hwalk⟩, hsame⟩
      refine ⟨hok.1, ?_⟩
      by_contra hnodes
      exact hpart ⟨hok.1.1, hok.1.2, hok.2, by omega⟩
  · constructor
    · intro _ hpart
      exact hnot ⟨⟨hpart.1, hpart.2.1⟩, hpart.2.2.1⟩
    · intro _
      refine ⟨⟨fun _ hwalk => hnot ⟨hwalk.1, by omega⟩, fun _ => ⟨e, he, hbound⟩⟩, ?_⟩
      intro doc hdoc
      rw [he] at hdoc
      cases hdoc

end

/-- A list of `n` times `true`. -/
def flags (n : ℕ) : Data :=
  .table n false ((List.range' 1 n).map fun i : ℕ => (.integer i, .boolean true))

theorem positions_flags (n : ℕ) :
    Positions ((List.range' 1 n).map fun i : ℕ => (Key.integer i, Data.boolean true)) := by
  constructor
  · rw [List.map_map]
    refine (List.nodup_range' ..).map ?_
    intro i j hij
    simpa using hij
  · rw [List.forall_mem_map]
    intro i hi
    exact ⟨i, (List.mem_range'_1.mp hi).1, rfl⟩

theorem uniform_flags (n : ℕ) : (flags n).Uniform := by
  refine .list _ _ _ (positions_flags n) ?_
  rw [List.forall_mem_map]
  exact fun _ _ => .boolean true

theorem dataNodes_flags (positions : List ℕ) :
    dataNodes (positions.map fun i : ℕ => (Key.integer i, Data.boolean true)) =
      2 * positions.length := by
  induction positions with
  | nil => rfl
  | cons i positions ih =>
      simp only [List.map_cons, dataNodes, Data.nodes, ih, List.length_cons]
      omega

theorem nodes_flags (n : ℕ) : (flags n).nodes = 1 + 2 * n := by
  rw [flags, Data.nodes, dataNodes_flags, List.length_range']

theorem depth_flags_le (n : ℕ) : (flags n).depth ≤ 1 := by
  rw [flags, Data.depth]
  have : dataDepth ((List.range' 1 n).map fun i : ℕ => (Key.integer i, Data.boolean true)) ≤ 0 := by
    rw [dataDepth_le, List.forall_mem_map]
    exact fun _ _ => le_rfl
  omega

theorem utf8_flags (n : ℕ) : (flags n).utf8 = true := by
  rw [flags, Data.utf8, dataUtf8_iff, List.forall_mem_map]
  exact fun _ _ => ⟨rfl, rfl⟩

theorem itemsCost_flags (positions : List ℕ) :
    itemsCost ((positions.map fun i : ℕ => (Key.integer i, Data.boolean true)).map
      fun e => e.2.calls) = positions.length := by
  induction positions with
  | nil => rfl
  | cons i positions ih =>
      simp only [List.map_cons, itemsCost, Data.calls, Calls.cost, ih, List.length_cons]
      omega

theorem cost_flags (n : ℕ) (h : 0 < n) : (flags n).calls.cost ≤ 1 + n := by
  have hpos := positions_flags n
  have hhigh : highest ((List.range' 1 n).map fun i : ℕ => (Key.integer i, Data.boolean true)) ≤
      n := by
    rw [highest_le]
    intro i hi
    obtain ⟨e, he, hkey⟩ := List.mem_map.mp (hpos.mem_positions.mp hi)
    obtain ⟨j, hj, rfl⟩ := List.mem_map.mp he
    simp only [Key.integer.injEq, Nat.cast_inj] at hkey
    have := (List.mem_range'_1.mp hj).2
    omega
  have hcalls : (flags n).calls = .seq (listItems
      ((List.range' 1 n).map fun i : ℕ => (Key.integer i, Data.boolean true))) := by
    rw [flags, Data.calls, tableCalls, if_neg (by omega), (positions_entryCalls hpos).listCalls_eq,
      highest_entryCalls, if_neg]
    · rfl
    · rw [entryCalls_eq_map, List.length_map, List.length_map, List.length_range']
      omega
  rw [hcalls, Calls.cost, itemsCost_listItems hpos, List.length_map, List.length_range']
  have hitems := itemsCost_flags (List.range' 1 n)
  rw [List.length_range'] at hitems
  omega

theorem interchangeable_flags_three :
    (flags 3).Uniform ∧ Interchangeable (fun _ => "0.5") (flags 3) := by
  refine ⟨uniform_flags 3, (interchangeable_iff (uniform_flags 3)).mpr ?_⟩
  rw [nodes_flags]
  rintro ⟨_, _, _, hnodes⟩
  exact absurd hnodes (by decide)

/-- Half a million flags: the pass writes them, the walk refuses them. -/
theorem not_interchangeable_flags :
    (flags 500000).Uniform ∧ (∃ doc, toJson (fun _ => "0.5") (flags 500000) = .ok doc) ∧
      (∃ e, checkJsonBounds (flags 500000) = .error e) ∧
      ¬Interchangeable (fun _ => "0.5") (flags 500000) := by
  have huniform := uniform_flags 500000
  have hdepth := depth_flags_le 500000
  have hcost := cost_flags 500000 (by decide)
  have hpass : ((flags 500000).depth ≤ maxJsonDepth ∧ (flags 500000).utf8 = true) ∧
      (flags 500000).calls.cost ≤ maxJsonNodes :=
    ⟨⟨hdepth.trans (by decide), utf8_flags _⟩, hcost.trans (by decide)⟩
  have hwalk : ∃ e, checkJsonBounds (flags 500000) = .error e := by
    rw [checkJsonBounds_error, nodes_flags]
    exact fun h => absurd h.2 (by decide)
  have hdoc : ∃ doc, toJson (fun _ => "0.5") (flags 500000) = .ok doc := by
    rcases huniform.toJson_cases fun _ => "0.5" with ⟨_, doc, _, hdoc⟩ | ⟨hnot, _⟩
    · exact ⟨doc, hdoc⟩
    · exact absurd hpass hnot
  refine ⟨huniform, hdoc, hwalk, fun h => ?_⟩
  obtain ⟨doc, hdoc⟩ := hdoc
  obtain ⟨e, he, _⟩ := h.1.mpr hwalk
  rw [hdoc] at he
  cases he

end Nitr.Json
