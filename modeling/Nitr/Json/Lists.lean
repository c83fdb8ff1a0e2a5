import Mathlib.Data.List.Nodup
import Mathlib.Data.List.Perm.Subperm
import Nitr.Json.Encode

/-! # The items of a list

A table whose keys are all positions: what `LuaData::list` makes of it. -/

namespace Nitr.Json

variable {α : Type} {entries : List (Key × α)}

/-- The keys are positions, each once. -/
structure Positions (entries : List (Key × α)) : Prop where
  nodup : (entries.map Prod.fst).Nodup
  positive : ∀ e ∈ entries, ∃ i : ℕ, 1 ≤ i ∧ e.1 = .integer i

def positions (entries : List (Key × α)) : List ℕ :=
  entries.filterMap fun e => e.1.position

theorem position_integer {i : ℕ} (h : 1 ≤ i) : (Key.integer i).position = some i := by
  have hi : (1 : ℤ) ≤ i := by omega
  simp [Key.position, hi]

theorem rawGet_of_mem (hnodup : (entries.map Prod.fst).Nodup) {e : Key × α} (he : e ∈ entries) :
    rawGet entries e.1 = some e.2 := by
  induction entries with
  | nil => cases he
  | cons first rest ih =>
      obtain ⟨hfirst, hrest⟩ := List.nodup_cons.mp hnodup
      rcases List.mem_cons.mp he with rfl | he
      · simp [rawGet]
      · have hne : first.1 ≠ e.1 := fun heq => hfirst (heq ▸ List.mem_map_of_mem he)
        have hskip : rawGet (first :: rest) e.1 = rawGet rest e.1 := by
          simp [rawGet, hne]
        rw [hskip]
        exact ih hrest he

theorem exists_of_rawGet {key : Key} {value : α} (h : rawGet entries key = some value) :
    ∃ e ∈ entries, e.2 = value := by
  obtain ⟨e, he, hvalue⟩ := Option.map_eq_some_iff.mp h
  exact ⟨e, List.mem_of_find?_eq_some he, hvalue⟩

theorem rawGet_eq_none {key : Key} (h : key ∉ entries.map Prod.fst) : rawGet entries key = none := by
  unfold rawGet
  rw [List.find?_eq_none.mpr, Option.map_none]
  intro e he heq
  exact h (of_decide_eq_true heq ▸ List.mem_map_of_mem he)

namespace Positions

theorem map_fst (h : Positions entries) :
    entries.map Prod.fst = (positions entries).map fun i : ℕ => Key.integer i := by
  have hall := h.positive
  clear h
  unfold positions
  induction entries with
  | nil => rfl
  | cons e rest ih =>
      obtain ⟨i, hi, hkey⟩ := hall e (List.mem_cons_self ..)
      rw [List.filterMap_cons_some (by rw [hkey]; exact position_integer hi), List.map_cons,
        List.map_cons, hkey, ih fun e he => hall e (List.mem_cons_of_mem _ he)]

theorem length_positions (h : Positions entries) : (positions entries).length = entries.length := by
  have := congrArg List.length h.map_fst
  simpa using this.symm

theorem nodup_positions (h : Positions entries) : (positions entries).Nodup := by
  have := h.nodup
  rw [h.map_fst] at this
  exact List.Nodup.of_map _ this

theorem mem_positions (h : Positions entries) {i : ℕ} :
    i ∈ positions entries ↔ Key.integer i ∈ entries.map Prod.fst := by
  rw [h.map_fst]
  simp

theorem pos_of_mem (h : Positions entries) {i : ℕ} (hi : i ∈ positions entries) : 1 ≤ i := by
  obtain ⟨e, he, hkey⟩ := List.mem_map.mp (h.mem_positions.mp hi)
  obtain ⟨j, hj, hkey'⟩ := h.positive e he
  rw [hkey, Key.integer.injEq] at hkey'
  omega

end Positions

theorem foldr_max_le {l : List ℕ} {n : ℕ} : l.foldr max 0 ≤ n ↔ ∀ i ∈ l, i ≤ n := by
  induction l with
  | nil => simp
  | cons i l ih => simp [ih]

theorem highest_le {n : ℕ} : highest entries ≤ n ↔ ∀ i ∈ positions entries, i ≤ n :=
  foldr_max_le

/-- The values at the positions are the values of the table. -/
theorem Positions.map_rawGet (h : Positions entries) (hole : α) :
    ((positions entries).map fun i : ℕ => (rawGet entries (.integer i)).getD hole) =
      entries.map Prod.snd := by
  have hvalues : entries.map Prod.snd = (entries.map Prod.fst).map
      fun key => (rawGet entries key).getD hole := by
    rw [List.map_map]
    refine List.map_congr_left fun e he => ?_
    rw [Function.comp_apply, rawGet_of_mem h.nodup he, Option.getD_some]
  rw [hvalues, h.map_fst, List.map_map]
  rfl

/-- Up to a bound on the positions: the values, and a hole for each absent position. -/
theorem Positions.itemsUpTo_perm (h : Positions entries) (hole : α) {n : ℕ}
    (hn : highest entries ≤ n) :
    (itemsUpTo entries hole n).Perm
      (entries.map Prod.snd ++ List.replicate (n - entries.length) hole) := by
  have hpresent : ((List.range' 1 n).filter (· ∈ positions entries)).Perm (positions entries) := by
    refine (List.perm_ext_iff_of_nodup ((List.nodup_range' ..).filter _) h.nodup_positions).mpr ?_
    intro i
    rw [List.mem_filter, List.mem_range'_1, decide_eq_true_eq]
    refine ⟨And.right, fun hi => ⟨?_, hi⟩⟩
    have hpos := h.pos_of_mem hi
    have hle := highest_le.mp hn i hi
    omega
  have hsplit : (List.range' 1 n).Perm
      (positions entries ++ (List.range' 1 n).filter fun i => !decide (i ∈ positions entries)) :=
    (List.filter_append_perm _ _).symm.trans (hpresent.append_right _)
  have habsent : ((List.range' 1 n).filter fun i => !decide (i ∈ positions entries)).map
      (fun i : ℕ => (rawGet entries (.integer i)).getD hole) =
        List.replicate (n - entries.length) hole := by
    rw [List.eq_replicate_iff]
    constructor
    · have hlen := hsplit.length_eq
      rw [List.length_append, List.length_range', h.length_positions] at hlen
      rw [List.length_map]
      omega
    · intro value hvalue
      obtain ⟨i, hi, rfl⟩ := List.mem_map.mp hvalue
      have hnot : i ∉ positions entries := by simpa using (List.mem_filter.mp hi).2
      rw [rawGet_eq_none fun hmem => hnot (h.mem_positions.mpr hmem), Option.getD_none]
  have hmap := hsplit.map fun i : ℕ => (rawGet entries (.integer i)).getD hole
  rw [List.map_append, h.map_rawGet, habsent] at hmap
  exact hmap

/-- A run of positions without a hole. -/
theorem sequenceFrom_eq (hole : α) {more start : ℕ}
    (h : ∀ i, start ≤ i → i < start + more → (rawGet entries (.integer i)).isSome = true) :
    sequenceFrom entries more start =
      (List.range' start more).map fun i : ℕ => (rawGet entries (.integer i)).getD hole := by
  induction more generalizing start with
  | zero => rfl
  | succ more ih =>
      obtain ⟨value, hvalue⟩ := Option.isSome_iff_exists.mp (h start le_rfl (by omega))
      rw [sequenceFrom, hvalue, List.range'_succ, List.map_cons, hvalue, Option.getD_some,
        ih fun i hi hlt => h i (by omega) (by omega)]

/-- As many entries as the highest position: no position below is absent. -/
theorem Positions.sequenceFrom_eq_itemsUpTo (h : Positions entries) (hole : α)
    (hcount : entries.length = highest entries) :
    sequenceFrom entries entries.length 1 = itemsUpTo entries hole (highest entries) := by
  rw [hcount]
  refine sequenceFrom_eq hole fun i hi hlt => ?_
  have hsubset : positions entries ⊆ List.range' 1 (highest entries) := by
    intro j hj
    have hpos := h.pos_of_mem hj
    have hle := highest_le.mp le_rfl j hj
    rw [List.mem_range'_1]
    omega
  have hperm : (positions entries).Perm (List.range' 1 (highest entries)) := by
    refine (List.subperm_of_subset h.nodup_positions hsubset).perm_of_length_le ?_
    rw [List.length_range', h.length_positions, hcount]
  have hmem : i ∈ positions entries := hperm.mem_iff.mpr (by rw [List.mem_range'_1]; omega)
  obtain ⟨e, he, hkey⟩ := List.mem_map.mp (h.mem_positions.mp hmem)
  rw [← hkey, rawGet_of_mem h.nodup he]
  rfl

/-- What `list` makes of positions: a map if they are sparse, else the values with a hole for
each absent position. -/
theorem Positions.listCalls_eq {entries : List (Key × Calls)} (h : Positions entries) :
    listCalls entries =
      if highest entries > 2 * entries.length then mapCalls entries
      else .seq (itemsUpTo entries (.scalar .unit) (highest entries)) := by
  have hpure : (entries.any fun e => e.1.position.isNone) = false := by
    rw [List.any_eq_false]
    intro e he
    obtain ⟨i, hi, hkey⟩ := h.positive e he
    rw [hkey, position_integer hi]
    exact Bool.false_ne_true
  simp only [listCalls, hpure, Bool.false_eq_true, if_false]
  split_ifs with hsparse hcount
  · rfl
  · rw [h.sequenceFrom_eq_itemsUpTo (.scalar .unit) hcount]
  · rfl

end Nitr.Json
