import Mathlib.Data.List.AList
import Mathlib.Algebra.BigOperators.Group.List.Basic
import Mathlib.Algebra.GroupWithZero.Nat

/-! # Weighted association lists

The total weight of an association list, how removing or adding one key
changes it, and what is found after retaining some of the entries. -/

namespace AList

variable {α β : Type*} [DecidableEq α]

def weight (f : α → β → ℕ) (s : AList (fun _ : α => β)) : ℕ :=
  (s.entries.map (fun e => f e.1 e.2)).sum

theorem mem_entries_of_lookup {s : AList (fun _ : α => β)} {a : α} {b : β}
    (h : s.lookup a = some b) : ⟨a, b⟩ ∈ s.entries :=
  mem_lookup_iff.mp h

/-- A present key splits the entry list around its only occurrence. -/
theorem entries_split {s : AList (fun _ : α => β)} {a : α} {b : β} (h : s.lookup a = some b) :
    ∃ front back, s.entries = front ++ ⟨a, b⟩ :: back ∧ (s.erase a).entries = front ++ back := by
  have hmem : a ∈ s.entries.keys :=
    List.mem_keys_of_mem (mem_entries_of_lookup h)
  obtain ⟨b', front, back, _, hsplit, herase⟩ := List.exists_of_kerase hmem
  have hb : s.lookup a = some b' := by
    apply mem_lookup_iff.mpr
    rw [hsplit]
    simp
  obtain rfl : b' = b := by
    rw [h] at hb
    exact (Option.some.inj hb).symm
  exact ⟨front, back, hsplit, herase⟩

theorem weight_erase (f : α → β → ℕ) {s : AList (fun _ : α => β)} {a : α} {b : β}
    (h : s.lookup a = some b) : s.weight f = f a b + (s.erase a).weight f := by
  obtain ⟨front, back, hs, he⟩ := entries_split h
  simp only [weight, hs, he, List.map_append, List.map_cons, List.sum_append, List.sum_cons]
  omega

theorem weight_insert (f : α → β → ℕ) (s : AList (fun _ : α => β)) (a : α) (b : β) :
    (s.insert a b).weight f = f a b + (s.erase a).weight f := by
  have herase : (s.erase a).entries = s.entries.kerase a := rfl
  simp [weight, entries_insert, herase]

theorem length_erase {s : AList (fun _ : α => β)} {a : α} {b : β} (h : s.lookup a = some b) :
    s.entries.length = (s.erase a).entries.length + 1 := by
  obtain ⟨front, back, hs, he⟩ := entries_split h
  simp only [hs, he, List.length_append, List.length_cons]
  omega

theorem lookup_insert_eq (s : AList (fun _ : α => β)) (a : α) (b : β) (c : α) :
    (s.insert a b).lookup c = if c = a then some b else s.lookup c := by
  by_cases h : c = a
  · subst h
    simp
  · simp [h]

theorem lookup_erase_eq (s : AList (fun _ : α => β)) (a c : α) :
    (s.erase a).lookup c = if c = a then none else s.lookup c := by
  by_cases h : c = a
  · subst h
    simp
  · simp [h]

theorem exists_lookup_of_ne_nil {s : AList (fun _ : α => β)} (h : s.entries ≠ []) :
    ∃ a b, s.lookup a = some b := by
  obtain ⟨e, he⟩ := List.exists_mem_of_ne_nil _ h
  exact ⟨e.1, e.2, mem_lookup_iff.mpr he⟩

/-! ## Retaining entries -/

/-- The entries that satisfy a predicate, in their order. -/
def retain (s : AList (fun _ : α => β)) (p : α → β → Bool) : AList (fun _ : α => β) :=
  ⟨s.entries.filter fun e => p e.1 e.2, s.nodupKeys.sublist List.filter_sublist⟩

omit [DecidableEq α] in
theorem length_retain_le (s : AList (fun _ : α => β)) (p : α → β → Bool) :
    (s.retain p).entries.length ≤ s.entries.length :=
  List.length_filter_le _ _

theorem lookup_retain (s : AList (fun _ : α => β)) (p : α → β → Bool) (a : α) :
    (s.retain p).lookup a = (s.lookup a).filter (p a) := by
  apply Option.ext
  intro b
  rw [Option.filter_eq_some_iff, ← Option.mem_def, ← Option.mem_def, mem_lookup_iff, mem_lookup_iff]
  exact List.mem_filter

end AList
