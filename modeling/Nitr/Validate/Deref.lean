import Nitr.Validate.Slots

/-! # Reading a visited value after the writes -/

namespace Nitr.Validate

/-! ## Writes that do not concern a table -/

section Apart

variable {s p : ℕ} {later ws : Writes}

theorem Writes.apply_append (es : Entries) :
    Writes.apply (later ++ ws) p es = Writes.apply later p (Writes.apply ws p es) :=
  List.foldr_append ..

theorem Writes.apply_of_ne (h : ∀ w ∈ later, w.1.table ≠ p) (es : Entries) :
    Writes.apply later p es = es := by
  induction later with
  | nil => rfl
  | cons w later ih =>
      have hrest := ih fun w' hw' => h w' (List.mem_cons_of_mem _ hw')
      rw [Writes.apply, List.foldr_cons, if_neg (h w List.mem_cons_self)]
      exact hrest

theorem Writes.apply_append_of_ne (h : ∀ w ∈ later, w.1.table ≠ p) (es : Entries) :
    Writes.apply (later ++ ws) p es = Writes.apply ws p es := by
  rw [Writes.apply_append, Writes.apply_of_ne h]

mutual

theorem Value.deref_old (h : ∀ w ∈ later, s ≤ w.1.table) :
    ∀ v : Value, v.Old s → v.deref (later ++ ws) = v.deref ws
  | .table p len es, hold => by
      rw [Value.deref, Value.deref, Value.derefEntries_old h es hold.2,
        Writes.apply_append_of_ne fun w hw heq => absurd (h w hw) (by rw [heq]; exact hold.1.not_ge)]
  | .nil, _ | .boolean _, _ | .integer _, _ | .number _, _ | .string _, _ | .function _, _
  | .schema _, _ | .file .., _ | .other _, _ => by simp only [Value.deref]

theorem Value.derefEntries_old (h : ∀ w ∈ later, s ≤ w.1.table) :
    ∀ es : List (Key × Value), Value.OldEntries s es →
      Value.derefEntries (later ++ ws) es = Value.derefEntries ws es
  | [], _ => rfl
  | (_, v) :: rest, hold => by
      rw [Value.derefEntries, Value.derefEntries, Value.deref_old h v hold.1,
        Value.derefEntries_old h rest hold.2]

end

end Apart

/-! ## Tables that are built -/

section Build

variable {ws : Writes}

theorem Value.isNil_deref (v : Value) : (v.deref ws).isNil = v.isNil := by
  cases v <;> rfl

theorem Value.derefEntries_set (es : Entries) (key : Key) (v : Value) :
    Value.derefEntries ws (es.set key v) =
      Entries.set (Value.derefEntries ws es) key (v.deref ws) := by
  induction es with
  | nil =>
      change Value.derefEntries ws (if v.isNil then [] else [(key, v)]) =
        if (v.deref ws).isNil then [] else [(key, v.deref ws)]
      rw [Value.isNil_deref]
      split <;> rfl
  | cons e es ih =>
      change Value.derefEntries ws (if e.1 = key then (if v.isNil then es else (key, v) :: es)
          else e :: Entries.set es key v) =
        if e.1 = key then (if (v.deref ws).isNil then Value.derefEntries ws es
            else (key, v.deref ws) :: Value.derefEntries ws es)
          else (e.1, e.2.deref ws) :: Entries.set (Value.derefEntries ws es) key (v.deref ws)
      rw [Value.isNil_deref]
      by_cases hkey : e.1 = key
      · rw [if_pos hkey, if_pos hkey]
        split <;> rfl
      · rw [if_neg hkey, if_neg hkey, ← ih]
        rfl

variable {f g : Visit → Value} {parts : List (Role × Visit)}

theorem derefEntries_build (es : Entries) :
    Value.derefEntries ws (build f parts es) =
      build (fun x => (f x).deref ws) parts (Value.derefEntries ws es) := by
  induction parts generalizing es with
  | nil => rfl
  | cons p parts ih =>
      obtain ⟨role, visit⟩ := p
      cases role with
      | value key => rw [build, build, ih, Value.derefEntries_set]
      | key key => exact ih es
      | filename => exact ih es

theorem nodup_build {es : Entries} (h : es.keys.Nodup) : (build f parts es).keys.Nodup := by
  induction parts generalizing es with
  | nil => exact h
  | cons p parts ih =>
      obtain ⟨role, visit⟩ := p
      cases role with
      | value key => exact ih (Entries.nodup_set h _ _)
      | key key => exact ih h
      | filename => exact ih h

theorem Entries.not_mem_set_nil {es : Entries} (h : es.keys.Nodup) (key : Key) :
    key ∉ (es.set key .nil).keys := by
  induction es with
  | nil => exact List.not_mem_nil
  | cons e es ih =>
      rw [Entries.keys_cons, List.nodup_cons] at h
      rw [Entries.set, Value.isNil, if_pos rfl]
      by_cases hkey : e.1 = key
      · rw [if_pos hkey, ← hkey]
        exact h.1
      · rw [if_neg hkey, Entries.keys_cons, List.mem_cons, not_or]
        exact ⟨Ne.symm hkey, ih h.2⟩

/-- Under distinct keys a key reads as it was set last, also where it was set to `nil`. -/
theorem Entries.get_set {es : Entries} (h : es.keys.Nodup) (key key' : Key) (v : Value) :
    (es.set key v).get key' = if key = key' then v else es.get key' := by
  by_cases hkey : key = key'
  · rw [if_pos hkey, ← hkey]
    by_cases hv : v = .nil
    · rw [hv]
      refine Entries.get_of_not_mem fun hmem => ?_
      exact Entries.not_mem_set_nil h key hmem
    · exact Entries.get_set_self hv es key
  · rw [if_neg hkey, Entries.get_set_ne hkey]

theorem get_build {es : Entries} (h : es.keys.Nodup) (key : Key) :
    (build f parts es).get key = ((lastPart key parts).map f).getD (es.get key) := by
  induction parts generalizing es with
  | nil => rfl
  | cons p parts ih =>
      obtain ⟨role, visit⟩ := p
      cases role with
      | value key' =>
          rw [build, ih (Entries.nodup_set h _ _), lastPart, Entries.get_set h]
          cases hlast : lastPart key parts with
          | some x => rfl
          | none =>
              by_cases hkey : key' = key
              · rw [if_pos hkey, if_pos hkey]
                rfl
              · rw [if_neg hkey, if_neg hkey]
                rfl
      | key key' => exact ih h
      | filename => exact ih h

theorem Writes.nodup_apply {es : Entries} (h : es.keys.Nodup) (p : ℕ) :
    (Writes.apply ws p es).keys.Nodup := by
  induction ws with
  | nil => exact h
  | cons w ws ih =>
      rw [Writes.apply, List.foldr_cons]
      split
      · exact Entries.nodup_set ih _ _
      · exact ih

/-- A key reads as it was last written, or as the table holds it. -/
theorem Writes.get_apply {es : Entries} (h : es.keys.Nodup) (p : ℕ) (key : Key) :
    (∃ r, (⟨p, key⟩, r) ∈ ws ∧ (Writes.apply ws p es).get key = r) ∨
      (∀ r, (⟨p, key⟩, r) ∉ ws) ∧ (Writes.apply ws p es).get key = es.get key := by
  induction ws with
  | nil => exact .inr ⟨fun r => List.not_mem_nil, rfl⟩
  | cons w ws ih =>
      obtain ⟨⟨table, key'⟩, r'⟩ := w
      have hrest : ∀ r, (⟨p, key⟩, r) ∈ ws → (⟨p, key⟩, r) ∈ (⟨table, key'⟩, r') :: ws :=
        fun r hr => List.mem_cons_of_mem _ hr
      by_cases htable : table = p
      · have happly : Writes.apply ((⟨table, key'⟩, r') :: ws) p es = (Writes.apply ws p es).set key' r' :=
          if_pos htable
        rw [happly, Entries.get_set (Writes.nodup_apply h p)]
        by_cases hkey : key' = key
        · rw [if_pos hkey, htable, hkey]
          exact .inl ⟨r', List.mem_cons_self, rfl⟩
        · rw [if_neg hkey]
          obtain ⟨r, hr, hget⟩ | ⟨hnone, hget⟩ := ih
          · exact .inl ⟨r, hrest r hr, hget⟩
          · refine .inr ⟨fun r hr => ?_, hget⟩
            obtain heq | hr := List.mem_cons.mp hr
            · cases heq
              exact hkey rfl
            · exact hnone r hr
      · have happly : Writes.apply ((⟨table, key'⟩, r') :: ws) p es = Writes.apply ws p es :=
          if_neg htable
        rw [happly]
        obtain ⟨r, hr, hget⟩ | ⟨hnone, hget⟩ := ih
        · exact .inl ⟨r, hrest r hr, hget⟩
        · refine .inr ⟨fun r hr => ?_, hget⟩
          obtain heq | hr := List.mem_cons.mp hr
          · cases heq
            exact htable rfl
          · exact hnone r hr

end Build

/-! ## What a visit shows -/

/-- The value of a visit after the writes. -/
def Visit.shown (ws : Writes) (visit : Visit) : Value := visit.checked.deref ws

section Shown

variable {s n n' : ℕ} {visit : Visit} {ws later : Writes}

theorem deref_build (m len : ℕ) (parts : List (Role × Visit)) :
    (Value.table m len (build Visit.checked parts [])).deref ws =
      .table m len (Writes.apply ws m (build (Visit.shown ws) parts [])) := by
  rw [Value.deref, derefEntries_build]
  rfl

@[simp] theorem Value.at_nil (v : Value) : v.at [] = v := by
  cases v <;> rfl

theorem Value.nil_at (place : Place) : Value.nil.at place = .nil := by
  cases place <;> rfl

theorem Value.at_append (v : Value) (place rest : Place) :
    v.at (place ++ rest) = (v.at place).at rest := by
  induction place generalizing v with
  | nil => rw [List.nil_append, Value.at_nil]
  | cons key place ih =>
      cases v with
      | table p len es => exact ih _
      | _ => exact (Value.nil_at rest).symm

/-- What a key of a visited table shows: the last replacement written there, or else the last
value put there. -/
theorem Formed.shown_at (h : Formed s n n' visit) (hkind : visit.rule.kind.isContainer = true)
    (key : Key) :
    n < n' ∧ ((∃ r, (⟨n, key⟩, r) ∈ ws ∧ (visit.shown ws).at [key] = r) ∨
      (∀ r, (⟨n, key⟩, r) ∉ ws) ∧
        (visit.shown ws).at [key] = ((lastPart key visit.parts).map (Visit.shown ws)).getD .nil) := by
  cases h with
  | leaf kind =>
      rw [Visit.rule_mk, kind] at hkind
      cases hkind
  | file kind =>
      rw [Visit.rule_mk, kind] at hkind
      cases hkind
  | @table rule site len parts _ _ kind formed =>
      refine ⟨formed.le, ?_⟩
      rw [Visit.shown, Visit.checked_mk, deref_build, Value.at, Value.at_nil, Visit.parts_mk]
      have hnil : (Entries.keys []).Nodup := List.nodup_nil
      have hnodup : (build (Visit.shown ws) parts []).keys.Nodup := nodup_build hnil
      have hget : (build (Visit.shown ws) parts []).get key =
          ((lastPart key parts).map (Visit.shown ws)).getD .nil :=
        get_build hnil key
      obtain ⟨r, hr, hread⟩ | ⟨hnone, hread⟩ := Writes.get_apply hnodup n key
      · exact .inl ⟨r, hr, hread⟩
      · exact .inr ⟨hnone, hread.trans hget⟩

end Shown

end Nitr.Validate
