import Nitr.Validate.Served

/-! # What the output holds at a place

Down a place that was reached, the output shows the visit kept there, until it meets the
replacement of a transform. Where a later entry took the key of an earlier one, what was
reached under the earlier entry may be gone. -/

namespace Nitr.Validate

/-! ## The visit kept at a place -/

section Keeps

variable {visit x y : Visit} {place : Place} {key : Key}

theorem Visit.keeps_nil : visit.Keeps [] x ↔ x = visit := by
  constructor
  · intro h
    generalize hplace : ([] : Place) = place at h
    cases h with
    | here => rfl
    | value outside last => exact absurd hplace (by simp)
  · rintro rfl
    exact .here

theorem Visit.keeps_concat :
    visit.Keeps (place ++ [key]) x ↔
      ∃ around, visit.Keeps place around ∧ lastPart key around.parts = some x := by
  constructor
  · intro h
    generalize hplace : place ++ [key] = place' at h
    cases h with
    | here => exact absurd hplace (by simp)
    | value outside last =>
        obtain ⟨rfl, hkey⟩ := List.append_inj' hplace rfl
        cases hkey
        exact ⟨_, outside, last⟩
  · rintro ⟨around, houtside, hlast⟩
    exact .value houtside hlast

theorem Visit.Keeps.unique (h : visit.Keeps place x) (h' : visit.Keeps place y) : x = y := by
  induction h generalizing y with
  | here => exact (Visit.keeps_nil.mp h').symm
  | value outside last ih =>
      obtain ⟨around, houtside, hlast⟩ := Visit.keeps_concat.mp h'
      obtain rfl := ih houtside
      rw [last] at hlast
      exact Option.some.inj hlast

theorem lastPart_of_mem {parts : List (Role × Visit)} (h : (.value key, x) ∈ parts) :
    ∃ y, lastPart key parts = some y := by
  induction parts with
  | nil => cases h
  | cons p parts ih =>
      obtain ⟨role, part⟩ := p
      cases h with
      | head =>
          rw [lastPart, if_pos rfl]
          cases lastPart key parts with
          | none => exact ⟨x, rfl⟩
          | some y => exact ⟨y, rfl⟩
      | tail _ h =>
          obtain ⟨y, hy⟩ := ih h
          refine ⟨y, ?_⟩
          cases role with
          | value key' => rw [lastPart, hy, Option.some_or]
          | key key' => exact hy
          | filename => exact hy

/-- What is reached under a key of a place is a part of what is reached at the place. -/
theorem Visit.Reaches.around (h : visit.Reaches (.value (place ++ [key])) x) :
    ∃ around, visit.Reaches (.value place) around ∧ (.value key, x) ∈ around.parts := by
  induction place generalizing visit with
  | nil =>
      obtain ⟨hnil, -⟩ | ⟨_, part, rest, hcons, hpart, hinside⟩ := h.head
      · cases hnil
      · cases hcons
        obtain ⟨-, rfl⟩ | ⟨_, _, _, hnil, -⟩ := hinside.head
        · exact ⟨visit, .here, hpart⟩
        · cases hnil
  | cons key' place ih =>
      obtain ⟨hnil, -⟩ | ⟨_, part, rest, hcons, hpart, hinside⟩ := h.head
      · cases hnil
      · cases hcons
        obtain ⟨around, haround, hmem⟩ := ih hinside
        exact ⟨around, .value hpart haround, hmem⟩

end Keeps

/-! ## The rule at a place -/

section Rules

variable {s n n' m m' : ℕ} {visit visit' x y : Visit}

theorem Formed.part (h : Formed s n n' visit) {p : Role × Visit} (hp : p ∈ visit.parts) :
    ∃ a b, Formed s a b p.2 := by
  cases h with
  | leaf => cases hp
  | file kind slot leaf formed =>
      rw [List.mem_singleton.mp hp]
      exact ⟨_, _, formed⟩
  | table kind formed =>
      obtain ⟨a, b, hpart, -, -⟩ := formed.mem hp
      cases hpart with
      | value typed slot formed => exact ⟨a, b, formed⟩
      | key slot text leaf formed => exact ⟨a + 1, b, formed⟩

theorem Formed.reached (h : Formed s n n' visit) {standing : Standing}
    (hx : visit.Reaches standing x) : ∃ a b, Formed s a b x := by
  induction hx generalizing n n' with
  | here => exact ⟨n, n', h⟩
  | value mem inside ih =>
      obtain ⟨a, b, hpart⟩ := h.part mem
      exact ih hpart
  | key mem => exact h.part mem
  | filename mem => exact h.part mem

theorem Formed.nested (h : Formed s n n' visit) {key : Key} {part : Visit}
    (hmem : (.value key, part) ∈ visit.parts) : visit.rule.nested key = some part.rule := by
  obtain ⟨-, -, -, hparts⟩ := h.value_part hmem
  obtain ⟨a, b, hpart, -, -⟩ := hparts.mem hmem
  cases hpart with
  | value typed slot formed => exact typed

theorem Formed.part_slot (h : Formed s n n' visit) {key : Key} {part : Visit}
    (hmem : (.value key, part) ∈ visit.parts) : part.slot = ⟨n, key⟩ := by
  obtain ⟨-, -, -, hparts⟩ := h.value_part hmem
  obtain ⟨a, b, hpart, -, -⟩ := hparts.mem hmem
  cases hpart with
  | value typed slot formed => exact slot

/-- Whatever is reached at one place is checked against one rule. -/
theorem Formed.same_rule (h : Formed s n n' visit) (h' : Formed s m m' visit')
    (hrule : visit.rule = visit'.rule) {place : Place} (hx : visit.Reaches (.value place) x)
    (hy : visit'.Reaches (.value place) y) : x.rule = y.rule := by
  induction place generalizing visit visit' n n' m m' with
  | nil =>
      obtain ⟨-, rfl⟩ | ⟨_, _, _, hnil, -⟩ := hx.head
      · obtain ⟨-, rfl⟩ | ⟨_, _, _, hnil, -⟩ := hy.head
        · exact hrule
        · cases hnil
      · cases hnil
  | cons key place ih =>
      obtain ⟨hnil, -⟩ | ⟨_, part, _, hcons, hpart, hinside⟩ := hx.head
      · cases hnil
      cases hcons
      obtain ⟨hnil, -⟩ | ⟨_, part', _, hcons, hpart', hinside'⟩ := hy.head
      · cases hnil
      cases hcons
      obtain ⟨a, b, hformed⟩ := h.part hpart
      obtain ⟨c, d, hformed'⟩ := h'.part hpart'
      have hsome := (h.nested hpart).symm.trans ((congrArg (Rule.nested · key) hrule).trans
        (h'.nested hpart'))
      exact ih hformed hformed' (Option.some.inj hsome) hinside hinside'

/-- The name an entry was checked to is the key of a value. -/
theorem FormedParts.value_of_key {rule : Rule} {parts : List (Role × Visit)} {key : Key}
    (h : FormedParts s rule m n n' parts) (hmem : (.key key, x) ∈ parts) :
    x.rule.kind.isContainer = false ∧ ∃ k part, key = .string k ∧ x.checked = .string k ∧
      (.value key, part) ∈ parts := by
  induction parts generalizing n with
  | nil => cases hmem
  | cons p parts ih =>
      cases h with
      | value typed slot formed more =>
          cases hmem with
          | tail _ hmem =>
              obtain ⟨hleaf, k, part, hkey, htext, hpart⟩ := ih more hmem
              exact ⟨hleaf, k, part, hkey, htext, List.mem_cons_of_mem _ hpart⟩
      | key slot text leaf formed more =>
          cases hmem with
          | head =>
              exact ⟨leaf, _, _, rfl, text, List.mem_cons_of_mem _ List.mem_cons_self⟩
          | tail _ hmem =>
              obtain ⟨hleaf, k, part, hkey, htext, hpart⟩ := ih more hmem
              exact ⟨hleaf, k, part, hkey, htext, List.mem_cons_of_mem _ hpart⟩

end Rules

/-! ## Places in the output -/

/-- A visit kept at the place or above it declares a transform. -/
def Visit.Covered (visit : Visit) (place : Place) : Prop :=
  ∃ above x, above <+: place ∧ visit.Keeps above x ∧ x.rule.transform ≠ none

/-- What the output holds at a place. -/
inductive Left (visit : Visit) (scripts : Scripts) (ws : Writes) (output : Value) : Place → Prop where
  | replaced {above rest : Place} {y : Visit} {f : Function}
      (reached : visit.Reaches (.value above) y) (declared : y.rule.transform = some f)
      (covered : visit.Covered above)
      (held : output.at above = scripts.answer f (y.shown ws)) :
      Left visit scripts ws output (above ++ rest)
  | kept {place : Place} {x : Visit} (clear : ¬visit.Covered place) (keeps : visit.Keeps place x)
      (held : output.at place = x.shown ws) : Left visit scripts ws output place
  | lost {place : Place} (clear : ¬visit.Covered place) (gone : ∀ x, ¬visit.Keeps place x)
      (held : output.at place = .nil) : Left visit scripts ws output place

section Left

variable {visit : Visit} {scripts : Scripts} {ws : Writes} {calls : List HookCall}
  {s n n' : ℕ}

theorem Visit.Covered.mono {place rest : Place} (h : visit.Covered place) :
    visit.Covered (place ++ rest) := by
  obtain ⟨above, x, hprefix, hkeeps, hx⟩ := h
  exact ⟨above, x, hprefix.trans (List.prefix_append ..), hkeeps, hx⟩

theorem Visit.covered_concat {place : Place} {key : Key} :
    visit.Covered (place ++ [key]) ↔
      visit.Covered place ∨ ∃ x, visit.Keeps (place ++ [key]) x ∧ x.rule.transform ≠ none := by
  constructor
  · rintro ⟨above, x, hprefix, hkeeps, hx⟩
    obtain rfl | hprefix := List.prefix_concat_iff.mp hprefix
    · exact .inr ⟨x, hkeeps, hx⟩
    · exact .inl ⟨above, x, hprefix, hkeeps, hx⟩
  · rintro (h | ⟨x, hkeeps, hx⟩)
    · exact h.mono
    · exact ⟨_, x, List.prefix_refl _, hkeeps, hx⟩

/-- A write to the table of a visit is the replacement of one of its parts. -/
theorem Formed.part_of_write (h : Formed s n n' visit) (hroot : visit.rule.transform = none)
    (ha : Accounts scripts visit.Inside ws ws calls) {place : Place} {z : Visit}
    (hz : visit.Reaches (.value place) z) {a b : ℕ} (hab : Formed s a b z) (hlt : a < b) {key : Key}
    {r : Value} (hr : (⟨a, key⟩, r) ∈ ws) :
    ∃ y f, (.value key, y) ∈ z.parts ∧ y.rule.transform = some f ∧
      r = scripts.answer f (y.shown ws) := by
  obtain ⟨y, f, ⟨standing, hne, hy⟩, hf, heq⟩ := ha.written _ hr
  have hslot : ⟨a, key⟩ = y.slot := congrArg Prod.fst heq
  obtain rfl | hmem := (h.owner hz hab hlt).2.2 standing y hy hne (by rw [← hslot])
  · rw [hroot] at hf
    cases hf
  · rw [← hslot] at hmem
    exact ⟨y, f, hmem, hf, congrArg Prod.snd heq⟩

/-- What the output holds at a place that was reached. -/
theorem Formed.left (h : Formed s n n' visit) (hroot : visit.rule.transform = none)
    (ha : Accounts scripts visit.Inside ws ws calls) {place : Place} {x : Visit}
    (hx : visit.Reaches (.value place) x) : Left visit scripts ws (visit.shown ws) place := by
  induction place using List.reverseRecOn generalizing x with
  | nil =>
      refine .kept ?_ .here (Value.at_nil _)
      rintro ⟨above, y, hprefix, hkeeps, hy⟩
      obtain rfl := List.prefix_nil.mp hprefix
      obtain rfl := Visit.keeps_nil.mp hkeeps
      exact hy hroot
  | append_singleton place key ih =>
      obtain ⟨around, haround, hmem⟩ := hx.around
      cases ih haround with
      | replaced reached declared covered held =>
          rw [List.append_assoc]
          exact .replaced reached declared covered held
      | @kept _ z clear keeps held =>
          obtain ⟨a, b, hz⟩ := h.reached keeps.reaches
          obtain ⟨_, _, haround'⟩ := h.reached haround
          have hkind : z.rule.kind.isContainer = true := by
            rw [h.same_rule h rfl keeps.reaches haround]
            exact (haround'.value_part hmem).1
          have hat : (visit.shown ws).at (place ++ [key]) = (z.shown ws).at [key] := by
            rw [Value.at_append, held]
          obtain ⟨hlt, ⟨r, hr, hread⟩ | ⟨hnone, hread⟩⟩ := @Formed.shown_at _ _ _ _ ws hz hkind key
          · obtain ⟨y, f, hy, hf, rfl⟩ := h.part_of_write hroot ha keeps.reaches hz hlt hr
            obtain ⟨w, hw⟩ := lastPart_of_mem hy
            have hrule : w.rule = y.rule := Option.some.inj
              ((hz.nested (mem_of_lastPart hw)).symm.trans (hz.nested hy))
            have hcovered : visit.Covered (place ++ [key]) :=
              Visit.covered_concat.mpr (.inr ⟨w, .value keeps hw, by rw [hrule, hf]; simp⟩)
            rw [← List.append_nil (place ++ [key])]
            exact .replaced (keeps.reaches.part hy) hf hcovered (hat.trans hread)
          · cases hlast : lastPart key z.parts with
            | some w =>
                have hkeeps : visit.Keeps (place ++ [key]) w := .value keeps hlast
                have hw : w.rule.transform = none := by
                  by_contra hne
                  obtain ⟨f, hf⟩ := Option.ne_none_iff_exists'.mp hne
                  have hwritten := (ha.served w ⟨_, by simp, hkeeps.reaches⟩).written f hf
                  rw [hz.part_slot (mem_of_lastPart hlast)] at hwritten
                  exact hnone _ hwritten
                refine .kept (fun hcovered => ?_) hkeeps ?_
                · obtain hcovered | ⟨w', hw', hne⟩ := Visit.covered_concat.mp hcovered
                  · exact clear hcovered
                  · rw [hw'.unique hkeeps] at hne
                    exact hne hw
                · rw [hat, hread, hlast]
                  rfl
            | none =>
                have hgone : ∀ w, ¬visit.Keeps (place ++ [key]) w := by
                  intro w hw
                  obtain ⟨z', hz', hlast'⟩ := Visit.keeps_concat.mp hw
                  rw [hz'.unique keeps, hlast] at hlast'
                  cases hlast'
                refine .lost (fun hcovered => ?_) hgone ?_
                · obtain hcovered | ⟨w, hw, -⟩ := Visit.covered_concat.mp hcovered
                  · exact clear hcovered
                  · exact hgone w hw
                · rw [hat, hread, hlast]
                  rfl
      | lost clear gone held =>
          have hgone : ∀ w, ¬visit.Keeps (place ++ [key]) w := by
            intro w hw
            obtain ⟨z, hz, -⟩ := Visit.keeps_concat.mp hw
            exact gone z hz
          refine .lost (fun hcovered => ?_) hgone ?_
          · obtain hcovered | ⟨w, hw, -⟩ := Visit.covered_concat.mp hcovered
            · exact clear hcovered
            · exact hgone w hw
          · rw [Value.at_append, held, Value.nil_at]

end Left

end Nitr.Validate
