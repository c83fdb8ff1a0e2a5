import Nitr.Lib.Text

/-! # Separated items

A text of items with separators between them, each item written in its own way. Where no item is
written with the separator, the text has one reading. -/

namespace Separated

variable {α β : Type*}

/-- Items, at least one of them. -/
@[ext] structure Chain (β : Type*) where
  first : β
  rest : List β

namespace Chain

def items (chain : Chain β) : List β := chain.first :: chain.rest

theorem items_injective : Function.Injective (items : Chain β → List β) := by
  intro chain chain' h
  obtain ⟨hfirst, hrest⟩ := List.cons.inj h
  exact Chain.ext hfirst hrest

/-- The items as they are written, with separators between them. -/
def text (spell : β → List α) (sep : α) (chain : Chain β) : List α :=
  [sep].intercalate (chain.items.map spell)

variable [DecidableEq α] {spell : β → List α} {sep : α}

theorem splitOn_text (hsep : ∀ b, sep ∉ spell b) (chain : Chain β) :
    (chain.text spell sep).splitOn sep = chain.items.map spell := by
  refine List.splitOn_intercalate sep (fun piece hpiece => ?_) (by simp [items])
  obtain ⟨b, -, rfl⟩ := List.mem_map.mp hpiece
  exact hsep b

/-- A symbol of the text is the separator or of an item. -/
theorem mem_text (hsep : ∀ b, sep ∉ spell b) {chain : Chain β} {c : α}
    (h : c ∈ chain.text spell sep) (hc : c ≠ sep) : ∃ b, c ∈ spell b := by
  obtain ⟨piece, hpiece, hmem⟩ := (List.mem_iff_splitOn hc).mp h
  rw [splitOn_text hsep] at hpiece
  obtain ⟨b, -, rfl⟩ := List.mem_map.mp hpiece
  exact ⟨b, hmem⟩

theorem text_injective (hsep : ∀ b, sep ∉ spell b) (hspell : Function.Injective spell) :
    Function.Injective (text spell sep) := by
  intro chain chain' h
  refine items_injective (hspell.list_map ?_)
  rw [← splitOn_text hsep, h, splitOn_text hsep]

/-- The pieces of a text all pass a test of items exactly if it is written by items. -/
theorem all_splitOn_iff (hsep : ∀ b, sep ∉ spell b) {ok : List α → Bool}
    (hok : ∀ piece, ok piece = true ↔ ∃ b, spell b = piece) {t : List α} :
    (t.splitOn sep).all ok = true ↔ ∃ chain : Chain β, chain.text spell sep = t := by
  constructor
  · intro h
    have hitems : ∀ pieces : List (List α), pieces.all ok = true →
        ∃ items : List β, items.map spell = pieces := by
      intro pieces hpieces
      induction pieces with
      | nil => exact ⟨[], rfl⟩
      | cons piece rest ih =>
          rw [List.all_cons, Bool.and_eq_true] at hpieces
          obtain ⟨b, rfl⟩ := (hok piece).mp hpieces.1
          obtain ⟨items, rfl⟩ := ih hpieces.2
          exact ⟨b :: items, rfl⟩
    obtain ⟨items, hitems⟩ := hitems _ h
    cases items with
    | nil => exact absurd hitems.symm (List.splitOn_ne_nil sep t)
    | cons first rest =>
        refine ⟨⟨first, rest⟩, ?_⟩
        rw [text, show (Chain.mk first rest).items = first :: rest from rfl, hitems,
          List.intercalate_splitOn]
  · rintro ⟨chain, rfl⟩
    rw [splitOn_text hsep, List.all_eq_true]
    intro piece hpiece
    obtain ⟨b, -, rfl⟩ := List.mem_map.mp hpiece
    exact (hok _).mpr ⟨b, rfl⟩

end Chain

end Separated
