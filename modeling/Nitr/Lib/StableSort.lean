import Mathlib.Data.List.Sort

/-! # Stable sorting

Sorting the pieces of a list first does not change the sorted list, elements that
compare equal included; and a sorted list is its groups of equal keys, one after the
other. -/

namespace List

variable {α : Type*} {r : α → α → Prop} [DecidableRel r] [Std.Total r] [IsTrans α r]

/-- Insertions of a greater and a smaller element commute, in any list. -/
theorem orderedInsert_comm_of_not_rel {a b : α} (h : ¬r a b) (l : List α) :
    orderedInsert r b (orderedInsert r a l) = orderedInsert r a (orderedInsert r b l) := by
  have hba : r b a := (Std.Total.total b a).resolve_right h
  induction l with
  | nil => simp [h, hba]
  | cons c l ih =>
      by_cases hac : r a c
      · have hbc : r b c := IsTrans.trans b a c hba hac
        simp [hac, hbc, hba, h]
      · by_cases hbc : r b c
        · simp [hac, hbc, h]
        · simp [hac, hbc, ih]

theorem foldr_orderedInsert_orderedInsert (a : α) (l acc : List α) :
    foldr (orderedInsert r) acc (orderedInsert r a l) =
      orderedInsert r a (foldr (orderedInsert r) acc l) := by
  induction l with
  | nil => rfl
  | cons b l ih =>
      by_cases hab : r a b
      · simp [hab]
      · rw [orderedInsert_of_not_le r l hab, foldr_cons, ih, foldr_cons,
          orderedInsert_comm_of_not_rel hab]

theorem foldr_orderedInsert_insertionSort (l acc : List α) :
    foldr (orderedInsert r) acc (insertionSort r l) = foldr (orderedInsert r) acc l := by
  induction l with
  | nil => rfl
  | cons a l ih => rw [insertionSort_cons, foldr_orderedInsert_orderedInsert, ih, foldr_cons]

/-- The stable sort of a concatenation is the stable sort of the sorted pieces. -/
theorem insertionSort_flatMap_insertionSort (ls : List (List α)) :
    insertionSort r (ls.flatMap (insertionSort r)) = insertionSort r ls.flatten := by
  have happend : ∀ l₁ l₂ : List α, insertionSort r (l₁ ++ l₂) =
      foldr (orderedInsert r) (insertionSort r l₂) l₁ := by
    intro l₁ l₂
    exact foldr_append
  induction ls with
  | nil => rfl
  | cons l ls ih =>
      rw [flatMap_cons, flatten_cons, happend, happend, foldr_orderedInsert_insertionSort, ih]

/-- Sorting twice is sorting once, whatever stands behind. -/
theorem insertionSort_append_insertionSort (l₁ l₂ : List α) :
    insertionSort r (insertionSort r l₁ ++ l₂) = insertionSort r (l₁ ++ l₂) := by
  have happend : ∀ l : List α, insertionSort r (l ++ l₂) =
      foldr (orderedInsert r) (insertionSort r l₂) l := fun _ => foldr_append
  rw [happend, happend, foldr_orderedInsert_insertionSort]

omit [Std.Total r] in
theorem filter_orderedInsert (p : α → Bool) (a : α) {l : List α} (hl : l.Pairwise r) :
    (orderedInsert r a l).filter p =
      if p a then orderedInsert r a (l.filter p) else l.filter p := by
  induction l with
  | nil => cases hp : p a <;> simp [hp]
  | cons b l ih =>
      rw [pairwise_cons] at hl
      by_cases hab : r a b
      · rw [orderedInsert_cons_of_le r l hab, filter_cons]
        cases hp : p a
        · rfl
        · have hfirst : ∀ c ∈ (b :: l).filter p, r a c := by
            intro c hc
            obtain rfl | hc := mem_cons.mp (mem_filter.mp hc).1
            · exact hab
            · exact IsTrans.trans a b c hab (hl.1 c hc)
          cases hfilter : (b :: l).filter p with
          | nil => rfl
          | cons c rest =>
              rw [hfilter] at hfirst
              rw [if_pos rfl, if_pos rfl, orderedInsert_cons_of_le r rest (hfirst c mem_cons_self)]
      · rw [orderedInsert_of_not_le r l hab, filter_cons, ih hl.2]
        cases hp : p a <;> cases hpb : p b <;> simp [hpb, hab]

/-- Sorting and then choosing is choosing and then sorting. -/
theorem filter_insertionSort (p : α → Bool) (l : List α) :
    (insertionSort r l).filter p = insertionSort r (l.filter p) := by
  induction l with
  | nil => rfl
  | cons a l ih =>
      rw [insertionSort_cons, filter_orderedInsert p a (pairwise_insertionSort r l), ih, filter_cons]
      split
      · rw [insertionSort_cons]
      · rfl

section Groups

variable {β : Type*} [LinearOrder β] {key : α → β}

/-- The elements with the least key come first. -/
theorem filter_append_filter_of_sorted {k : β} {l : List α}
    (hl : l.Pairwise fun a b => key a ≤ key b) (hk : ∀ a ∈ l, k ≤ key a) :
    l.filter (fun a => key a = k) ++ l.filter (fun a => key a ≠ k) = l := by
  induction l with
  | nil => rfl
  | cons a l ih =>
      rw [pairwise_cons] at hl
      by_cases ha : key a = k
      · have htail := ih hl.2 fun b hb => hk b (mem_cons_of_mem _ hb)
        rw [filter_cons_of_pos (by simpa using ha), filter_cons_of_neg (by simpa using ha),
          cons_append, htail]
      · have hlt : ∀ b ∈ a :: l, key b ≠ k := by
          intro b hb heq
          have hak : k ≤ key a := hk a (mem_cons_self ..)
          obtain rfl | hb := mem_cons.mp hb
          · exact ha heq
          · exact ha (le_antisymm (heq ▸ hl.1 b hb) hak)
        rw [filter_eq_nil_iff.mpr (by simpa using hlt), filter_eq_self.mpr (by simpa using hlt),
          nil_append]

/-- A list sorted by a key is its groups of equal keys, in the order of the keys. -/
theorem flatMap_filter_of_sorted {ks : List β} {l : List α} (hks : ks.Pairwise (· < ·))
    (hl : l.Pairwise fun a b => key a ≤ key b) (hmem : ∀ a ∈ l, key a ∈ ks) :
    ks.flatMap (fun k => l.filter fun a => key a = k) = l := by
  induction ks generalizing l with
  | nil =>
      cases l with
      | nil => rfl
      | cons a l => exact absurd (hmem a (mem_cons_self ..)) (not_mem_nil)
  | cons k ks ih =>
      rw [pairwise_cons] at hks
      have hleast : ∀ a ∈ l, k ≤ key a := by
        intro a ha
        obtain heq | hin := mem_cons.mp (hmem a ha)
        · exact heq.ge
        · exact (hks.1 _ hin).le
      have hrest : ks.flatMap (fun k' => l.filter fun a => key a = k') =
          l.filter fun a => key a ≠ k := by
        have hothers : ∀ a ∈ l.filter (fun a => key a ≠ k), key a ∈ ks := by
          intro a ha
          rw [mem_filter, decide_eq_true_eq] at ha
          exact (mem_cons.mp (hmem a ha.1)).resolve_left ha.2
        rw [← ih hks.2 (hl.sublist filter_sublist) hothers]
        refine flatMap_congr fun k' hk' => ?_
        have hne : k' ≠ k := (hks.1 k' hk').ne'
        rw [filter_filter]
        refine filter_congr fun a _ => ?_
        rw [← Bool.decide_and, decide_eq_decide]
        exact ⟨fun heq => ⟨heq, heq ▸ hne⟩, And.left⟩
      rw [flatMap_cons, hrest, filter_append_filter_of_sorted hl hleast]

end Groups

end List
