import Mathlib.Order.Nat
import Mathlib.Data.List.Pairwise
import Mathlib.Order.Lattice

/-! # Sorted association lists

A finite map kept as its entries in strictly increasing key order: the contents
and the iteration order of an ordered map. -/

namespace Nitr

structure OrdMap (κ ν : Type*) [LinearOrder κ] where
  entries : List (κ × ν)
  sorted : entries.Pairwise (fun a b => a.1 < b.1)

namespace OrdMap

variable {κ ν : Type*} [LinearOrder κ]

def empty : OrdMap κ ν := ⟨[], List.Pairwise.nil⟩

def get (m : OrdMap κ ν) (k : κ) : Option ν :=
  (m.entries.find? (fun e => decide (e.1 = k))).map Prod.snd

def insertEntry (k : κ) (v : ν) : List (κ × ν) → List (κ × ν)
  | [] => [(k, v)]
  | e :: es =>
      if k < e.1 then (k, v) :: e :: es
      else if k = e.1 then (k, v) :: es
      else e :: insertEntry k v es

/-- The entry with the least key. -/
def first (m : OrdMap κ ν) : Option (κ × ν) := m.entries.head?

/-! ## Membership in the entry list -/

theorem mem_insertEntry (k : κ) (v : ν) (es : List (κ × ν))
    (hs : es.Pairwise (fun a b => a.1 < b.1)) (e : κ × ν) :
    e ∈ insertEntry k v es ↔ e = (k, v) ∨ (e ∈ es ∧ e.1 ≠ k) := by
  induction es with
  | nil => simp [insertEntry]
  | cons x xs ih =>
      have hx : ∀ y ∈ xs, x.1 < y.1 := fun y hy => List.rel_of_pairwise_cons hs hy
      simp only [insertEntry]
      by_cases hlt : k < x.1
      · have hne : ∀ y ∈ x :: xs, y.1 ≠ k := by
          intro y hy
          rcases List.mem_cons.mp hy with rfl | hy
          · exact hlt.ne'
          · exact (hlt.trans (hx y hy)).ne'
        simp only [hlt, if_true, List.mem_cons]
        constructor
        · rintro (he | he)
          · exact Or.inl he
          · exact Or.inr ⟨he, hne e (List.mem_cons.mpr he)⟩
        · rintro (he | ⟨he, _⟩)
          · exact Or.inl he
          · exact Or.inr he
      · by_cases heq : k = x.1
        · have hne : ∀ y ∈ xs, y.1 ≠ k := fun y hy => by
            rw [heq]
            exact (hx y hy).ne'
          rw [if_neg hlt, if_pos heq]
          simp only [List.mem_cons]
          constructor
          · rintro (he | he)
            · exact Or.inl he
            · exact Or.inr ⟨Or.inr he, hne e he⟩
          · rintro (he | ⟨rfl | he, hk⟩)
            · exact Or.inl he
            · exact absurd heq.symm hk
            · exact Or.inr he
        · simp only [hlt, if_false, heq, List.mem_cons, ih hs.tail]
          constructor
          · rintro (rfl | he | ⟨he, hk⟩)
            · exact Or.inr ⟨Or.inl rfl, fun h => heq h.symm⟩
            · exact Or.inl he
            · exact Or.inr ⟨Or.inr he, hk⟩
          · rintro (he | ⟨rfl | he, hk⟩)
            · exact Or.inr (Or.inl he)
            · exact Or.inl rfl
            · exact Or.inr (Or.inr ⟨he, hk⟩)

theorem insertEntry_sorted (k : κ) (v : ν) (es : List (κ × ν))
    (hs : es.Pairwise (fun a b => a.1 < b.1)) :
    (insertEntry k v es).Pairwise (fun a b => a.1 < b.1) := by
  induction es with
  | nil => simp [insertEntry]
  | cons x xs ih =>
      have hx : ∀ y ∈ xs, x.1 < y.1 := fun y hy => List.rel_of_pairwise_cons hs hy
      simp only [insertEntry]
      by_cases hlt : k < x.1
      · rw [if_pos hlt]
        refine List.Pairwise.cons ?_ hs
        intro y hy
        rcases List.mem_cons.mp hy with rfl | hy
        · exact hlt
        · exact hlt.trans (hx y hy)
      · rw [if_neg hlt]
        by_cases heq : k = x.1
        · rw [if_pos heq]
          exact List.Pairwise.cons (fun y hy => heq ▸ hx y hy) hs.tail
        · rw [if_neg heq]
          refine List.Pairwise.cons ?_ (ih hs.tail)
          intro y hy
          rcases (mem_insertEntry k v xs hs.tail y).mp hy with rfl | ⟨hy, _⟩
          · exact lt_of_le_of_ne (le_of_not_gt hlt) (fun h => heq h.symm)
          · exact hx y hy

def insert (m : OrdMap κ ν) (k : κ) (v : ν) : OrdMap κ ν :=
  ⟨insertEntry k v m.entries, insertEntry_sorted k v m.entries m.sorted⟩

def erase (m : OrdMap κ ν) (k : κ) : OrdMap κ ν :=
  ⟨m.entries.filter (fun e => decide (e.1 ≠ k)), m.sorted.filter _⟩

theorem mem_insert (m : OrdMap κ ν) (k : κ) (v : ν) (e : κ × ν) :
    e ∈ (m.insert k v).entries ↔ e = (k, v) ∨ (e ∈ m.entries ∧ e.1 ≠ k) :=
  mem_insertEntry k v m.entries m.sorted e

theorem mem_erase (m : OrdMap κ ν) (k : κ) (e : κ × ν) :
    e ∈ (m.erase k).entries ↔ e ∈ m.entries ∧ e.1 ≠ k := by
  simp [erase]

/-! ## Lookups -/

/-- The keys are strictly ordered, so an entry is determined by its key. -/
theorem eq_of_mem_of_fst_eq (m : OrdMap κ ν) {a b : κ × ν}
    (ha : a ∈ m.entries) (hb : b ∈ m.entries) (h : a.1 = b.1) : a = b := by
  by_contra hne
  have hs := List.pairwise_iff_getElem.mp m.sorted
  obtain ⟨i, hi, rfl⟩ := List.mem_iff_getElem.mp ha
  obtain ⟨j, hj, rfl⟩ := List.mem_iff_getElem.mp hb
  rcases lt_trichotomy i j with hij | rfl | hij
  · exact (hs i j hi hj hij).ne h
  · exact hne rfl
  · exact (hs j i hj hi hij).ne h.symm

theorem get_eq_some_iff (m : OrdMap κ ν) (k : κ) (v : ν) :
    m.get k = some v ↔ (k, v) ∈ m.entries := by
  unfold get
  cases hf : m.entries.find? (fun e => decide (e.1 = k)) with
  | none =>
      rw [List.find?_eq_none] at hf
      simp only [Option.map_none, reduceCtorEq, false_iff]
      intro hm
      exact hf _ hm (by simp)
  | some e =>
      have hm := List.mem_of_find?_eq_some hf
      have hk : e.1 = k := by simpa using List.find?_some hf
      simp only [Option.map_some, Option.some.injEq]
      constructor
      · rintro rfl
        rw [← hk]
        exact hm
      · intro hv
        rw [m.eq_of_mem_of_fst_eq hm hv hk]

theorem get_eq_none_iff (m : OrdMap κ ν) (k : κ) :
    m.get k = none ↔ ∀ e ∈ m.entries, e.1 ≠ k := by
  simp [get, List.find?_eq_none]

@[simp] theorem get_empty (k : κ) : (empty : OrdMap κ ν).get k = none := rfl

theorem get_insert (m : OrdMap κ ν) (k : κ) (v : ν) (j : κ) :
    (m.insert k v).get j = if j = k then some v else m.get j := by
  by_cases h : j = k
  · subst h
    rw [if_pos rfl, get_eq_some_iff, mem_insert]
    exact Or.inl rfl
  · rw [if_neg h]
    ext w
    rw [get_eq_some_iff, get_eq_some_iff, mem_insert]
    simp [h]

theorem get_erase (m : OrdMap κ ν) (k j : κ) :
    (m.erase k).get j = if j = k then none else m.get j := by
  by_cases h : j = k
  · subst h
    rw [if_pos rfl, get_eq_none_iff]
    intro e he
    exact ((mem_erase m j e).mp he).2
  · rw [if_neg h]
    ext w
    rw [get_eq_some_iff, get_eq_some_iff, mem_erase]
    simp [h]

theorem insertEntry_of_mem (k : κ) (v : ν) (es : List (κ × ν))
    (hs : es.Pairwise (fun a b => a.1 < b.1)) (h : (k, v) ∈ es) : insertEntry k v es = es := by
  induction es with
  | nil => cases h
  | cons x xs ih =>
      simp only [insertEntry]
      cases h with
      | head => rw [if_neg (lt_irrefl k), if_pos rfl]
      | tail _ h =>
          have hlt : x.1 < k := List.rel_of_pairwise_cons hs h
          rw [if_neg hlt.not_gt, if_neg hlt.ne', ih hs.tail h]

/-- Storing what is stored changes nothing. -/
theorem insert_of_get (m : OrdMap κ ν) {k : κ} {v : ν} (h : m.get k = some v) : m.insert k v = m := by
  have hentries := insertEntry_of_mem k v m.entries m.sorted ((m.get_eq_some_iff k v).mp h)
  cases m with
  | mk entries sorted =>
      simp only [insert, mk.injEq]
      exact hentries

/-! ## The least key, and insertion past the greatest one -/

theorem first_eq_none_iff (m : OrdMap κ ν) : m.first = none ↔ m.entries = [] := by
  simp [first]

theorem mem_of_first_eq_some (m : OrdMap κ ν) {e : κ × ν} (h : m.first = some e) :
    e ∈ m.entries :=
  List.mem_of_mem_head? h

theorem first_le (m : OrdMap κ ν) {e : κ × ν} (h : m.first = some e) :
    ∀ x ∈ m.entries, e.1 ≤ x.1 := by
  obtain ⟨es, hs⟩ := m
  cases es with
  | nil => simp [first] at h
  | cons y ys =>
      simp only [first, List.head?_cons, Option.some.injEq] at h
      subst h
      intro x hx
      rcases List.mem_cons.mp hx with rfl | hx
      · exact le_rfl
      · exact (List.rel_of_pairwise_cons hs hx).le

theorem entries_insert_of_forall_lt (m : OrdMap κ ν) (k : κ) (v : ν)
    (h : ∀ e ∈ m.entries, e.1 < k) : (m.insert k v).entries = m.entries ++ [(k, v)] := by
  obtain ⟨es, hs⟩ := m
  change insertEntry k v es = es ++ [(k, v)]
  induction es with
  | nil => rfl
  | cons x xs ih =>
      have hx : x.1 < k := h x (by simp)
      have hrest := ih hs.tail (fun e he => h e (by simp [he]))
      simp [insertEntry, hx.not_gt, hx.ne', hrest]

end OrdMap

end Nitr
