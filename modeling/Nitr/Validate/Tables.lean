import Nitr.Validate.Sound

/-! # Facts about tables

Reading back what was set, the keys a built table has, and what is left of a
table when the identities in it are forgotten. -/

namespace Nitr.Validate

namespace Entries

/-- The keys, in iteration order. -/
def keys (es : Entries) : List Key := es.map (·.1)

@[simp] theorem keys_nil : keys [] = [] := rfl

@[simp] theorem keys_cons (e : Key × Value) (es : Entries) : keys (e :: es) = e.1 :: keys es := rfl

@[simp] theorem get_nil (key : Key) : get [] key = .nil := rfl

theorem get_cons (e : Key × Value) (es : Entries) (key : Key) :
    get (e :: es) key = if e.1 = key then e.2 else get es key := by
  unfold get
  by_cases h : e.1 = key <;> simp [h]

theorem get_of_not_mem {es : Entries} {key : Key} (h : key ∉ es.keys) : es.get key = .nil := by
  induction es with
  | nil => rfl
  | cons e es ih =>
      rw [keys_cons, List.mem_cons, not_or] at h
      rw [get_cons, if_neg (Ne.symm h.1), ih h.2]

theorem get_of_mem {es : Entries} (hn : es.keys.Nodup) {e : Key × Value} (h : e ∈ es) :
    es.get e.1 = e.2 := by
  induction es with
  | nil => cases h
  | cons e' es ih =>
      rw [keys_cons, List.nodup_cons] at hn
      rw [get_cons]
      cases h with
      | head => rw [if_pos rfl]
      | tail _ h =>
          have hne : e'.1 ≠ e.1 := by
            intro he
            exact hn.1 (he ▸ List.mem_map_of_mem h)
          rw [if_neg hne, ih hn.2 h]

theorem mem_of_get {es : Entries} {key : Key} (h : es.get key ≠ .nil) :
    (key, es.get key) ∈ es := by
  induction es with
  | nil => exact absurd rfl h
  | cons e es ih =>
      rw [get_cons] at h ⊢
      by_cases he : e.1 = key
      · rw [if_pos he] at h ⊢
        rw [← he]
        exact List.mem_cons_self ..
      · rw [if_neg he] at h ⊢
        exact List.mem_cons_of_mem _ (ih h)

/-! ## Setting a key -/

theorem set_of_not_mem {es : Entries} {key : Key} (h : key ∉ es.keys) (value : Value) :
    es.set key value = if value.isNil then es else es ++ [(key, value)] := by
  induction es with
  | nil => rfl
  | cons e es ih =>
      rw [keys_cons, List.mem_cons, not_or] at h
      unfold set
      rw [if_neg (Ne.symm h.1), ih h.2]
      split <;> rfl

theorem get_set_ne {key key' : Key} (h : key ≠ key') (es : Entries) (value : Value) :
    (es.set key value).get key' = es.get key' := by
  induction es with
  | nil =>
      unfold set
      split
      · rfl
      · rw [get_cons, if_neg h]
  | cons e es ih =>
      unfold set
      by_cases he : e.1 = key
      · have hne : e.1 ≠ key' := he ▸ h
        rw [if_pos he]
        split
        · rw [get_cons, if_neg hne]
        · rw [get_cons, get_cons, if_neg h, if_neg hne]
      · rw [if_neg he, get_cons, get_cons, ih]

theorem get_set_self {value : Value} (h : value ≠ .nil) (es : Entries) (key : Key) :
    (es.set key value).get key = value := by
  have hv : value.isNil = false := Value.isNil_eq_false.mpr h
  induction es with
  | nil => simp [set, hv, get_cons]
  | cons e es ih =>
      unfold set
      by_cases he : e.1 = key
      · simp [he, hv, get_cons]
      · rw [if_neg he, get_cons, if_neg he, ih]

theorem get_set_of_not_mem {es : Entries} {key : Key} (h : key ∉ es.keys) (value : Value) :
    (es.set key value).get key = value := by
  by_cases hv : value = .nil
  · subst hv
    rw [set_of_not_mem h]
    exact get_of_not_mem h
  · exact get_set_self hv es key

theorem mem_keys_set {es : Entries} {key key' : Key} {value : Value}
    (h : key' ∈ (es.set key value).keys) : key' ∈ es.keys ∨ key' = key := by
  obtain ⟨e, he, rfl⟩ := List.mem_map.mp h
  obtain he | rfl := mem_set he
  · exact .inl (List.mem_map_of_mem he)
  · exact .inr rfl

theorem nodup_set {es : Entries} (h : es.keys.Nodup) (key : Key) (value : Value) :
    (es.set key value).keys.Nodup := by
  induction es with
  | nil =>
      unfold set
      split <;> simp
  | cons e es ih =>
      rw [keys_cons, List.nodup_cons] at h
      unfold set
      by_cases he : e.1 = key
      · rw [if_pos he]
        split
        · exact h.2
        · rw [keys_cons, List.nodup_cons, ← he]
          exact h
      · rw [if_neg he, keys_cons, List.nodup_cons]
        refine ⟨fun hm => ?_, ih h.2⟩
        obtain hm | hm := mem_keys_set hm
        · exact h.1 hm
        · exact he hm

theorem length_set_le (es : Entries) (key : Key) (value : Value) :
    (es.set key value).length ≤ es.length + 1 := by
  induction es with
  | nil =>
      unfold set
      split <;> simp
  | cons e es ih =>
      unfold set
      split
      · split
        · exact Nat.le_add_right _ 2
        · exact Nat.le_succ _
      · simpa using ih

/-- No entry holds `nil`. -/
def Solid (es : Entries) : Prop := ∀ e ∈ es, e.2 ≠ .nil

theorem solid_set {es : Entries} (h : es.Solid) (key : Key) (value : Value) :
    (es.set key value).Solid := by
  induction es with
  | nil =>
      unfold set
      split
      · exact h
      · rename_i hv
        intro e he
        rw [List.mem_singleton.mp he]
        exact fun hn => hv (Value.isNil_eq_true.mpr hn)
  | cons e es ih =>
      have hes : Solid es := fun e' he => h e' (List.mem_cons_of_mem _ he)
      unfold set
      split
      · split
        · exact hes
        · rename_i hv
          intro e' he
          obtain rfl | he := List.mem_cons.mp he
          · exact fun hn => hv (Value.isNil_eq_true.mpr hn)
          · exact hes e' he
      · intro e' he
        obtain rfl | he := List.mem_cons.mp he
        · exact h e' (List.mem_cons_self ..)
        · exact ih hes e' he

end Entries

/-! ## Item tables -/

/-- Every key is an index from `1` up to below `i`. -/
def Below (i : ℕ) (es : Entries) : Prop := ∀ key ∈ es.keys, ∃ j : ℕ, 1 ≤ j ∧ j < i ∧ key = .integer j

theorem Below.not_mem {i : ℕ} {es : Entries} (h : Below i es) : .integer i ∉ es.keys := by
  intro hm
  obtain ⟨j, -, hj, he⟩ := h _ hm
  have : (i : ℤ) = j := by simpa using he
  omega

theorem Below.set {i : ℕ} {es : Entries} (h : Below i es) (hi : 1 ≤ i) (value : Value) :
    Below (i + 1) (es.set (.integer i) value) := by
  intro key hm
  obtain hm | rfl := Entries.mem_keys_set hm
  · obtain ⟨j, hj, hlt, rfl⟩ := h key hm
    exact ⟨j, hj, by omega, rfl⟩
  · exact ⟨i, hi, by omega, rfl⟩

theorem Below.setItems {i : ℕ} {es : Entries} (h : Below i es) (hi : 1 ≤ i) (ws : List Value) :
    Below (i + ws.length) (setItems i ws es) := by
  induction ws generalizing i es with
  | nil => exact h
  | cons w ws ih =>
      have h' := ih (h.set hi w) (by omega)
      rw [List.length_cons, ← Nat.add_assoc, Nat.add_right_comm]
      exact h'

theorem below_nil (i : ℕ) : Below i [] := by
  intro key h
  cases h

theorem isSequence_setItems (ws : List Value) : isSequence ws.length (setItems 1 ws []) = true := by
  have hbelow : Below (1 + ws.length) (setItems 1 ws []) :=
    (below_nil 1).setItems le_rfl ws
  unfold isSequence
  rw [List.all_eq_true]
  intro e he
  obtain ⟨j, hj, hlt, hkey⟩ := hbelow e.1 (List.mem_map_of_mem he)
  rw [hkey]
  simp
  omega

theorem get_setItems_lt {i j : ℕ} (h : j < i) (ws : List Value) (es : Entries) :
    (setItems i ws es).get (.integer j) = es.get (.integer j) := by
  induction ws generalizing i es with
  | nil => rfl
  | cons w ws ih =>
      unfold setItems
      rw [ih (by omega), Entries.get_set_ne]
      simp
      omega

theorem get_setItems {i : ℕ} {es : Entries} (h : Below i es) (hi : 1 ≤ i) (ws : List Value)
    (k : ℕ) : (setItems i ws es).get (.integer (i + k : ℕ)) = ws.getD k .nil := by
  induction ws generalizing i es k with
  | nil =>
      refine Entries.get_of_not_mem fun hm => ?_
      obtain ⟨j, -, hj, he⟩ := h _ hm
      have : ((i + k : ℕ) : ℤ) = j := by simpa using he
      omega
  | cons w ws ih =>
      unfold setItems
      cases k with
      | zero =>
          change (setItems (i + 1) ws (es.set (.integer i) w)).get (.integer i) = w
          rw [get_setItems_lt (Nat.lt_add_one i), Entries.get_set_of_not_mem h.not_mem]
      | succ k =>
          have h' := ih (h.set hi w) (by omega) k
          rw [Nat.add_right_comm] at h'
          exact h'

theorem itemsOf_setItems (ws : List Value) : itemsOf ws.length (setItems 1 ws []) = ws := by
  apply List.ext_getElem
  · simp [itemsOf]
  · intro k hk hk'
    have h := get_setItems (below_nil 1) le_rfl ws k
    have hindex : ((k : ℤ) + 1) = ((1 + k : ℕ) : ℤ) := by omega
    simp only [itemsOf, List.getElem_map, List.getElem_range]
    rw [hindex, h]
    simp [hk']

/-! ## Contents -/

namespace Value

@[simp] theorem isNil_erase (v : Value) : v.erase.isNil = v.isNil := by
  cases v <;> rfl

@[simp] theorem erase_eq_nil {v : Value} : v.erase = .nil ↔ v = .nil := by
  cases v <;> simp [erase]

theorem eraseEntries_eq_map (es : Entries) :
    eraseEntries es = es.map fun e => (e.1, e.2.erase) := by
  induction es with
  | nil => rfl
  | cons e es ih =>
      obtain ⟨k, v⟩ := e
      unfold eraseEntries
      rw [ih]
      rfl

@[simp] theorem length_eraseEntries (es : Entries) : (eraseEntries es).length = es.length := by
  simp [eraseEntries_eq_map]

mutual

@[simp] theorem erase_erase : ∀ v : Value, v.erase.erase = v.erase
  | .table _ _ es => by simp only [erase, eraseEntries_eraseEntries es]
  | .nil | .boolean _ | .integer _ | .number _ | .string _ | .function _ | .schema _ | .file .. |
    .other _ => rfl

theorem eraseEntries_eraseEntries :
    ∀ es : List (Key × Value), eraseEntries (eraseEntries es) = eraseEntries es
  | [] => rfl
  | (k, v) :: es => by simp only [eraseEntries, erase_erase v, eraseEntries_eraseEntries es]

end

theorem get_eraseEntries (es : Entries) (key : Key) :
    Entries.get (eraseEntries es) key = (es.get key).erase := by
  induction es with
  | nil => rfl
  | cons e es ih =>
      obtain ⟨k, v⟩ := e
      unfold eraseEntries
      rw [Entries.get_cons, Entries.get_cons, ih]
      split <;> rfl

theorem set_eraseEntries (es : Entries) (key : Key) (value : Value) :
    Entries.set (eraseEntries es) key value.erase = eraseEntries (es.set key value) := by
  induction es with
  | nil =>
      unfold eraseEntries Entries.set
      rw [isNil_erase]
      split <;> rfl
  | cons e es ih =>
      obtain ⟨k, v⟩ := e
      rw [eraseEntries]
      simp only [Entries.set, isNil_erase]
      by_cases hk : k = key
      · simp only [hk, reduceIte]
        split <;> rfl
      · simp only [hk, reduceIte, eraseEntries]
        rw [ih]

theorem setItems_eraseEntries (i : ℕ) (ws : List Value) (es : Entries) :
    setItems i (ws.map erase) (eraseEntries es) = eraseEntries (setItems i ws es) := by
  induction ws generalizing i es with
  | nil => rfl
  | cons w ws ih =>
      simp only [List.map_cons, setItems]
      rw [set_eraseEntries, ih]

theorem itemsOf_eraseEntries (len : ℕ) (es : Entries) :
    itemsOf len (eraseEntries es) = (itemsOf len es).map erase := by
  simp [itemsOf, get_eraseEntries]

@[simp] theorem matchesValue_erase (l : Literal) (v : Value) :
    l.matchesValue v.erase = l.matchesValue v := by
  cases v <;> cases l <;> rfl

end Value

end Nitr.Validate
