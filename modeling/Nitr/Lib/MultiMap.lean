import Mathlib.Data.List.Basic

/-! # Maps with several values a key

An association list in which a key may stand more than once, as the header map of a
message. Values of one key keep their order. -/

structure MultiMap (K V : Type*) where
  entries : List (K × V)

namespace MultiMap

variable {K V : Type*} [DecidableEq K]

def empty : MultiMap K V := ⟨[]⟩

/-- The values of a key, in order. -/
def getAll (m : MultiMap K V) (k : K) : List V :=
  (m.entries.filter fun e => e.1 = k).map Prod.snd

/-- The first value of a key. -/
def get (m : MultiMap K V) (k : K) : Option V := (m.getAll k).head?

def append (m : MultiMap K V) (k : K) (v : V) : MultiMap K V := ⟨m.entries ++ [(k, v)]⟩

def remove (m : MultiMap K V) (k : K) : MultiMap K V := ⟨m.entries.filter fun e => e.1 ≠ k⟩

/-- Puts a value in the place of all values of a key. -/
def insert (m : MultiMap K V) (k : K) (v : V) : MultiMap K V := (m.remove k).append k v

/-- Adds a value for a key that has none. -/
def orInsert (m : MultiMap K V) (k : K) (v : V) : MultiMap K V :=
  if m.getAll k = [] then m.append k v else m

variable {m : MultiMap K V} {k k' : K} {v : V}

@[simp]
theorem getAll_empty : (empty : MultiMap K V).getAll k = [] := rfl

theorem getAll_append : (m.append k v).getAll k' =
    m.getAll k' ++ if k = k' then [v] else [] := by
  unfold append getAll
  by_cases h : k = k' <;> simp [h]

@[simp]
theorem getAll_append_of_ne (h : k' ≠ k) : (m.append k v).getAll k' = m.getAll k' := by
  simp [getAll_append, Ne.symm h]

@[simp]
theorem getAll_remove_self : (m.remove k).getAll k = [] := by
  simp [remove, getAll, List.filter_filter]

@[simp]
theorem getAll_remove_of_ne (h : k' ≠ k) : (m.remove k).getAll k' = m.getAll k' := by
  unfold remove getAll
  rw [List.filter_filter]
  congr 2
  funext e
  by_cases he : e.1 = k'
  · simp [he, h]
  · simp [he]

theorem getAll_remove_of_absent (h : m.getAll k' = []) : (m.remove k).getAll k' = [] := by
  by_cases hk : k' = k
  · rw [hk, getAll_remove_self]
  · rw [getAll_remove_of_ne hk, h]

theorem getAll_foldl_remove_of_absent (ks : List K) (h : m.getAll k = []) :
    (ks.foldl remove m).getAll k = [] := by
  induction ks generalizing m with
  | nil => exact h
  | cons k' ks ih => exact ih (getAll_remove_of_absent h)

/-- Removing a list of keys leaves none of them. -/
theorem getAll_foldl_remove {ks : List K} (h : k ∈ ks) : (ks.foldl remove m).getAll k = [] := by
  induction ks generalizing m with
  | nil => cases h
  | cons k' ks ih =>
      rcases List.mem_cons.mp h with rfl | h
      · exact getAll_foldl_remove_of_absent ks getAll_remove_self
      · exact ih h

@[simp]
theorem getAll_insert_self : (m.insert k v).getAll k = [v] := by
  simp [insert, getAll_append]

@[simp]
theorem getAll_insert_of_ne (h : k' ≠ k) : (m.insert k v).getAll k' = m.getAll k' := by
  simp [insert, h]

@[simp]
theorem getAll_orInsert_of_ne (h : k' ≠ k) : (m.orInsert k v).getAll k' = m.getAll k' := by
  unfold orInsert
  split
  · exact getAll_append_of_ne h
  · rfl

theorem getAll_insert : (m.insert k v).getAll k' = if k = k' then [v] else m.getAll k' := by
  by_cases h : k' = k
  · rw [h, getAll_insert_self, if_pos rfl]
  · rw [getAll_insert_of_ne h, if_neg (Ne.symm h)]

theorem getAll_remove : (m.remove k).getAll k' = if k = k' then [] else m.getAll k' := by
  by_cases h : k' = k
  · rw [h, getAll_remove_self, if_pos rfl]
  · rw [getAll_remove_of_ne h, if_neg (Ne.symm h)]

theorem getAll_orInsert_of_ne_nil (h : m.getAll k' ≠ []) :
    (m.orInsert k v).getAll k' = m.getAll k' := by
  unfold orInsert
  split
  · rename_i hk
    exact getAll_append_of_ne fun heq => h (heq ▸ hk)
  · rfl

/-! ## Maps that agree off one key -/

/-- The two maps have the same values for every key but one. -/
def AgreeOff (k : K) (m m' : MultiMap K V) : Prop := ∀ k', k' ≠ k → m.getAll k' = m'.getAll k'

namespace AgreeOff

variable {skipped : K} {m m' : MultiMap K V}

theorem refl (skipped : K) (m : MultiMap K V) : AgreeOff skipped m m := fun _ _ => rfl

theorem get (h : AgreeOff skipped m m') (hk : k ≠ skipped) : m.get k = m'.get k :=
  congrArg List.head? (h k hk)

theorem append (h : AgreeOff skipped m m') (k : K) (v : V) :
    AgreeOff skipped (m.append k v) (m'.append k v) := by
  intro k' hk
  rw [getAll_append, getAll_append, h k' hk]

theorem remove (h : AgreeOff skipped m m') (k : K) :
    AgreeOff skipped (m.remove k) (m'.remove k) := by
  intro k' hk
  rw [getAll_remove, getAll_remove, h k' hk]

theorem insert (h : AgreeOff skipped m m') (k : K) (v : V) :
    AgreeOff skipped (m.insert k v) (m'.insert k v) := by
  intro k' hk
  rw [getAll_insert, getAll_insert, h k' hk]

theorem orInsert (h : AgreeOff skipped m m') (k : K) (v : V) :
    AgreeOff skipped (m.orInsert k v) (m'.orInsert k v) := by
  intro k' hk
  by_cases heq : k' = k
  · subst heq
    unfold MultiMap.orInsert
    rw [h k' hk]
    split
    · exact h.append k' v k' hk
    · exact h k' hk
  · rw [getAll_orInsert_of_ne heq, getAll_orInsert_of_ne heq, h k' hk]

end AgreeOff

end MultiMap
