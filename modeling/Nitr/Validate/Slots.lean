import Nitr.Validate.Written

/-! # Slots

The slot of a visited value belongs to the table it was put in, and to no other. -/

namespace Nitr.Validate

/-! ## Induction over visits -/

mutual

theorem Visit.induct {P : Visit → Prop} (step : ∀ visit, (∀ p ∈ visit.parts, P p.2) → P visit) :
    ∀ visit, P visit
  | .mk _ _ _ parts => step _ (Visit.inductParts step parts)

theorem Visit.inductParts {P : Visit → Prop}
    (step : ∀ visit, (∀ p ∈ visit.parts, P p.2) → P visit) :
    ∀ parts : List (Role × Visit), ∀ p ∈ parts, P p.2
  | [], _, h => absurd h List.not_mem_nil
  | (_, visit) :: rest, p, h => by
      cases h with
      | head => exact Visit.induct step visit
      | tail _ h => exact Visit.inductParts step rest p h

end

/-! ## Ranges of pointers -/

section Ranges

variable {s m n n' : ℕ} {rule : Rule} {parts : List (Role × Visit)}

theorem Formed.le {visit : Visit} (h : Formed s n n' visit) : n ≤ n' := by
  induction visit using Visit.induct generalizing n n' with
  | step visit ih =>
      have hparts : ∀ {rule : Rule} {m n n' : ℕ} {parts : List (Role × Visit)},
          parts ⊆ visit.parts → FormedParts s rule m n n' parts → n ≤ n' := by
        intro rule m n n' parts hsub h
        induction parts generalizing n with
        | nil =>
            cases h
            exact le_rfl
        | cons p parts ihParts =>
            have hrest : parts ⊆ visit.parts := fun q hq => hsub (List.mem_cons_of_mem _ hq)
            cases h with
            | value typed slot formed more =>
                exact (ih _ (hsub List.mem_cons_self) formed).trans (ihParts hrest more)
            | key slot text leaf formed more =>
                have hname := ih _ (hsub List.mem_cons_self) formed
                exact (Nat.le_of_succ_le hname).trans (ihParts hrest more)
      cases h with
      | leaf => exact le_rfl
      | file kind slot leaf formed => exact Nat.le_of_succ_le (ih _ (List.mem_singleton_self _) formed)
      | table kind formed => exact Nat.le_of_succ_le (hparts (fun _ h => h) formed)

/-- The part drew the pointers from `a` up to `b`. -/
inductive PartFormed (s : ℕ) (rule : Rule) (m : ℕ) : ℕ → ℕ → Role × Visit → Prop where
  | value {a b : ℕ} {key : Key} {visit : Visit} (typed : rule.nested key = some visit.rule)
      (slot : visit.slot = ⟨m, key⟩) (formed : Formed s a b visit) :
      PartFormed s rule m a b (.value key, visit)
  | key {a b : ℕ} {k : LuaString} {visit : Visit} (slot : visit.slot = ⟨a, .integer 1⟩)
      (text : visit.checked = .string k) (leaf : visit.rule.kind.isContainer = false)
      (formed : Formed s (a + 1) b visit) : PartFormed s rule m a b (.key (.string k), visit)

theorem PartFormed.le {a b : ℕ} {p : Role × Visit} (h : PartFormed s rule m a b p) : a ≤ b := by
  cases h with
  | value typed slot formed => exact formed.le
  | key slot text leaf formed => exact Nat.le_of_succ_le formed.le

/-- The first part and the others. -/
theorem FormedParts.cons {p : Role × Visit} (h : FormedParts s rule m n n' (p :: parts)) :
    ∃ n₁, PartFormed s rule m n n₁ p ∧ FormedParts s rule m n₁ n' parts := by
  cases h with
  | value typed slot formed more => exact ⟨_, .value typed slot formed, more⟩
  | key slot text leaf formed more => exact ⟨_, .key slot text leaf formed, more⟩

theorem FormedParts.le (h : FormedParts s rule m n n' parts) : n ≤ n' := by
  induction parts generalizing n with
  | nil =>
      cases h
      exact le_rfl
  | cons p parts ih =>
      obtain ⟨n₁, hp, hrest⟩ := h.cons
      exact hp.le.trans (ih hrest)

theorem FormedParts.mem (h : FormedParts s rule m n n' parts) {p : Role × Visit} (hp : p ∈ parts) :
    ∃ a b, PartFormed s rule m a b p ∧ n ≤ a ∧ b ≤ n' := by
  induction parts generalizing n with
  | nil => cases hp
  | cons q parts ih =>
      obtain ⟨n₁, hq, hrest⟩ := h.cons
      cases hp with
      | head => exact ⟨n, n₁, hq, le_rfl, hrest.le⟩
      | tail _ hp =>
          obtain ⟨a, b, hpart, ha, hb⟩ := ih hrest hp
          exact ⟨a, b, hpart, hq.le.trans ha, hb⟩

/-- Two parts are one and the same, or drew their pointers one after the other. -/
theorem FormedParts.apart (h : FormedParts s rule m n n' parts) {p q : Role × Visit}
    (hp : p ∈ parts) (hq : q ∈ parts) :
    ∃ a b c d, PartFormed s rule m a b p ∧ PartFormed s rule m c d q ∧ n ≤ a ∧ b ≤ n' ∧
      (p = q ∧ a = c ∧ b = d ∨ b ≤ c ∨ d ≤ a) := by
  induction parts generalizing n with
  | nil => cases hp
  | cons r parts ih =>
      obtain ⟨n₁, hr, hrest⟩ := h.cons
      cases hp with
      | head =>
          cases hq with
          | head => exact ⟨n, n₁, n, n₁, hr, hr, le_rfl, hrest.le, .inl ⟨rfl, rfl, rfl⟩⟩
          | tail _ hq =>
              obtain ⟨c, d, hpart, hc, -⟩ := hrest.mem hq
              exact ⟨n, n₁, c, d, hr, hpart, le_rfl, hrest.le, .inr (.inl hc)⟩
      | tail _ hp =>
          cases hq with
          | head =>
              obtain ⟨a, b, hpart, ha, hb⟩ := hrest.mem hp
              exact ⟨a, b, n, n₁, hpart, hr, hr.le.trans ha, hb, .inr (.inr ha)⟩
          | tail _ hq =>
              obtain ⟨a, b, c, d, hpart, hpart', ha, hb, hor⟩ := ih hrest hp hq
              exact ⟨a, b, c, d, hpart, hpart', hr.le.trans ha, hb, hor⟩

end Ranges

/-! ## Where values stand -/

section Reaches

variable {visit x : Visit}

theorem Standing.under_ne_filename {key : Key} {standing : Standing} :
    standing.under key ≠ .filename ↔ standing ≠ .filename := by
  cases standing <;> simp [Standing.under]

/-- What is reached at a place is the visit itself, or reached inside one of its parts. -/
theorem Visit.Reaches.head {place : Place} (h : visit.Reaches (.value place) x) :
    place = [] ∧ x = visit ∨
      ∃ key part rest, place = key :: rest ∧ (.value key, part) ∈ visit.parts ∧
        part.Reaches (.value rest) x := by
  generalize hstanding : Standing.value place = standing at h
  cases h with
  | here =>
      cases hstanding
      exact .inl ⟨rfl, rfl⟩
  | @value _ part _ key standing mem inside =>
      cases standing with
      | value rest =>
          cases hstanding
          exact .inr ⟨key, part, rest, rfl, mem, inside⟩
      | key => cases hstanding
      | filename => cases hstanding
  | key => cases hstanding
  | filename => cases hstanding

/-- A part of what is reached is reached. -/
theorem Visit.Reaches.part {place : Place} {around : Visit} {key : Key}
    (h : visit.Reaches (.value place) around) (hmem : (.value key, x) ∈ around.parts) :
    visit.Reaches (.value (place ++ [key])) x := by
  induction place generalizing visit with
  | nil =>
      obtain ⟨-, rfl⟩ | ⟨_, _, _, hnil, -⟩ := h.head
      · exact .value hmem .here
      · cases hnil
  | cons key' place ih =>
      obtain ⟨hnil, -⟩ | ⟨_, part, _, hcons, hpart, hinside⟩ := h.head
      · cases hnil
      · cases hcons
        exact .value hpart (ih hinside)

/-- The name of an upload is a part of something that stands in the output. -/
theorem Visit.Reaches.around_filename (h : visit.Reaches .filename x) :
    ∃ place around, visit.Reaches (.value place) around ∧ (.filename, x) ∈ around.parts := by
  generalize hstanding : Standing.filename = standing at h
  induction h with
  | here => cases hstanding
  | @value _ _ _ key standing mem inside ih =>
      cases standing with
      | filename =>
          obtain ⟨place, around, haround, hx⟩ := ih rfl
          exact ⟨key :: place, around, .value mem haround, hx⟩
      | value => cases hstanding
      | key => cases hstanding
  | key => cases hstanding
  | filename mem => exact ⟨[], _, .here, mem⟩

/-- A key belongs to a map that stands in the output. -/
theorem Visit.Reaches.around_key {place : Place} {key : Key} (h : visit.Reaches (.key place key) x) :
    ∃ around, visit.Reaches (.value place) around ∧ (.key key, x) ∈ around.parts := by
  generalize hstanding : Standing.key place key = standing at h
  induction h generalizing place with
  | here => cases hstanding
  | @value _ _ _ key' standing mem inside ih =>
      cases standing with
      | key rest key'' =>
          cases hstanding
          obtain ⟨around, haround, hx⟩ := ih rfl
          exact ⟨around, .value mem haround, hx⟩
      | value => cases hstanding
      | filename => cases hstanding
  | key mem =>
      cases hstanding
      exact ⟨_, .here, mem⟩
  | filename mem => cases hstanding

theorem mem_of_lastPart {key : Key} {parts : List (Role × Visit)}
    (h : lastPart key parts = some x) : (.value key, x) ∈ parts := by
  fun_induction lastPart key parts with
  | case1 => cases h
  | case2 key' visit rest ih =>
      obtain hrest | ⟨-, hhead⟩ := Option.or_eq_some_iff.mp h
      · exact List.mem_cons_of_mem _ (ih hrest)
      · split at hhead
        · rename_i hkey
          cases hhead
          rw [hkey]
          exact List.mem_cons_self
        · cases hhead
  | case3 head rest hne ih => exact List.mem_cons_of_mem _ (ih h)

theorem Visit.Keeps.reaches {place : Place} (h : visit.Keeps place x) :
    visit.Reaches (.value place) x := by
  induction h with
  | here => exact .here
  | value outside last ih => exact ih.part (mem_of_lastPart last)

end Reaches

/-! ## Whose a slot is -/

section Owners

variable {s n n' : ℕ} {visit : Visit}

theorem Formed.value_part (h : Formed s n n' visit) {key : Key} {part : Visit}
    (hmem : (.value key, part) ∈ visit.parts) :
    visit.rule.kind.isContainer = true ∧ n < n' ∧
      (∃ len, visit.checked = .table n len (build Visit.checked visit.parts [])) ∧
      FormedParts s visit.rule n (n + 1) n' visit.parts := by
  cases h with
  | leaf => cases hmem
  | file => cases List.mem_singleton.mp hmem
  | table kind formed => exact ⟨kind, formed.le, ⟨_, rfl⟩, formed⟩

theorem Formed.key_part (h : Formed s n n' visit) {key : Key} {part : Visit}
    (hmem : (.key key, part) ∈ visit.parts) :
    FormedParts s visit.rule n (n + 1) n' visit.parts := by
  cases h with
  | leaf => cases hmem
  | file => cases List.mem_singleton.mp hmem
  | table kind formed => exact formed

/-- The slots inside a visit are those of pointers it drew. -/
theorem Formed.slot_range (h : Formed s n n' visit) {standing : Standing} {x : Visit}
    (hx : visit.Reaches standing x) (hst : standing ≠ .filename) :
    x = visit ∨ n ≤ x.slot.table ∧ x.slot.table < n' := by
  induction hx generalizing n n' with
  | here => exact .inl rfl
  | value mem inside ih =>
      obtain ⟨-, hlt, -, hparts⟩ := h.value_part mem
      obtain ⟨a, b, hpart, ha, hb⟩ := hparts.mem mem
      cases hpart with
      | value typed slot formed =>
          obtain rfl | hrange := ih formed (Standing.under_ne_filename.mp hst)
          · rw [slot]
            exact .inr ⟨le_rfl, hlt⟩
          · exact .inr ⟨by omega, by omega⟩
  | key mem =>
      obtain ⟨a, b, hpart, ha, hb⟩ := (h.key_part mem).mem mem
      cases hpart with
      | key slot text leaf formed =>
          have hle := formed.le
          have htable := congrArg Slot.table slot
          dsimp only at htable
          exact .inr ⟨by omega, by omega⟩
  | filename mem => exact absurd rfl hst

/-- A visit that drew a pointer drew it first. -/
theorem Formed.first {a b : ℕ} (h : Formed s n n' visit) (hab : Formed s a b visit) (hlt : a < b) :
    a = n ∧ n < n' := by
  cases hab with
  | leaf => exact absurd hlt (lt_irrefl _)
  | file kind slot leaf formed =>
      cases h with
      | file kind' slot' leaf' formed' =>
          rw [slot] at slot'
          exact ⟨congrArg Slot.table slot', formed'.le⟩
  | table kind formed =>
      generalize hchecked : Value.table a _ (build Visit.checked _ []) = checked at h
      cases h with
      | leaf kind' =>
          rw [kind] at kind'
          cases kind'
      | file kind' =>
          rw [kind] at kind'
          cases kind'
      | table kind' formed' =>
          cases hchecked
          exact ⟨rfl, formed'.le⟩

/-- Only its own parts have slots in the table of a visit. -/
theorem Formed.owner (h : Formed s n n' visit) {place : Place} {z : Visit}
    (hz : visit.Reaches (.value place) z) {a b : ℕ} (hab : Formed s a b z) (hlt : a < b) :
    n ≤ a ∧ a < n' ∧ ∀ standing y, visit.Reaches standing y → standing ≠ .filename →
      y.slot.table = a → y = visit ∨ (.value y.slot.key, y) ∈ z.parts := by
  induction place generalizing visit n n' with
  | nil =>
      obtain ⟨-, rfl⟩ | ⟨_, _, _, hnil, -⟩ := hz.head
      · obtain ⟨rfl, hlt'⟩ := h.first hab hlt
        refine ⟨le_rfl, hlt', fun standing y hy hst htable => ?_⟩
        cases hy with
        | here => exact .inl rfl
        | @value _ part _ key standing mem inside =>
            obtain ⟨-, -, -, hparts⟩ := h.value_part mem
            obtain ⟨c, d, hpart, hc, -⟩ := hparts.mem mem
            cases hpart with
            | value typed slot formed =>
                obtain rfl | hrange := formed.slot_range inside (Standing.under_ne_filename.mp hst)
                · rw [slot]
                  exact .inr mem
                · omega
        | key mem =>
            obtain ⟨c, d, hpart, hc, -⟩ := (h.key_part mem).mem mem
            cases hpart with
            | key slot text leaf formed =>
                rw [slot] at htable
                dsimp only at htable
                omega
        | filename mem => exact absurd rfl hst
      · cases hnil
  | cons key place ih =>
      obtain ⟨hnil, -⟩ | ⟨_, p, _, hcons, hp, hinside⟩ := hz.head
      · cases hnil
      cases hcons
      obtain ⟨-, -, -, hparts⟩ := h.value_part hp
      have hin : n ≤ a ∧ a < n' := by
        obtain ⟨c, d, hpart, hc, hd⟩ := hparts.mem hp
        cases hpart with
        | value typed slot formed =>
            obtain ⟨hca, had, -⟩ := ih formed hinside
            omega
      refine ⟨hin.1, hin.2, fun standing y hy hst htable => ?_⟩
      cases hy with
      | here => exact .inl rfl
      | @value _ q _ key' standing mem inside =>
          obtain ⟨c, d, c', d', hpart, hpart', hc, -, hor⟩ := hparts.apart hp mem
          cases hpart with
          | value typed slot formed =>
          cases hpart' with
          | value typed' slot' formed' =>
              obtain ⟨hca, had, howner⟩ := ih formed hinside
              obtain rfl | hrange := formed'.slot_range inside (Standing.under_ne_filename.mp hst)
              · rw [slot'] at htable
                dsimp only at htable
                omega
              · obtain ⟨heq, -, -⟩ | hor := hor
                · cases heq
                  obtain rfl | hmem := howner _ _ inside (Standing.under_ne_filename.mp hst) htable
                  · rw [slot] at htable
                    dsimp only at htable
                    omega
                  · exact .inr hmem
                · omega
      | key mem =>
          obtain ⟨c, d, c', d', hpart, hpart', hc, -, hor⟩ := hparts.apart hp mem
          cases hpart with
          | value typed slot formed =>
          cases hpart' with
          | key slot' text leaf formed' =>
              obtain ⟨hca, had, -⟩ := ih formed hinside
              have hle := formed'.le
              rw [slot'] at htable
              dsimp only at htable
              obtain ⟨heq, -, -⟩ | hor := hor
              · cases heq
              · omega
      | filename mem => exact absurd rfl hst

end Owners

end Nitr.Validate
