import Mathlib.Data.List.Induction

/-! # Escaped separators

A separator inside a piece is written with an escape symbol before it, and a text is split at
the separators that have none. Any other escape symbol is kept, for a later split. -/

namespace List

variable {α : Type*} [DecidableEq α]

/-- Puts the escape symbol before each separator. -/
def escape (esc sep : α) (l : List α) : List α :=
  l.flatMap fun x => if x = sep then [esc, x] else [x]

/-- The pieces between the separators that are not escaped; `cur` is the piece being read. -/
def splitEscaped (esc sep : α) (cur : List α) : List α → List (List α)
  | [] => [cur]
  | [x] => if x = sep then [cur, []] else [cur ++ [x]]
  | x :: y :: rest =>
      if x = esc ∧ y = sep then splitEscaped esc sep (cur ++ [sep]) rest
      else if x = sep then cur :: splitEscaped esc sep [] (y :: rest)
      else splitEscaped esc sep (cur ++ [x]) (y :: rest)

/-- Drops the escape symbol before each separator. -/
def unescape (esc sep : α) : List α → List α
  | [] => []
  | [x] => [x]
  | x :: y :: rest =>
      if x = esc ∧ y = sep then sep :: unescape esc sep rest
      else x :: unescape esc sep (y :: rest)

variable {esc sep : α} {cur rest l : List α} {x : α}

@[simp]
theorem escape_nil : escape esc sep [] = [] := rfl

theorem escape_cons_self : escape esc sep (sep :: l) = esc :: sep :: escape esc sep l := by
  rw [escape, flatMap_cons, if_pos rfl]
  rfl

theorem escape_cons_of_ne (h : x ≠ sep) : escape esc sep (x :: l) = x :: escape esc sep l := by
  rw [escape, flatMap_cons, if_neg h]
  rfl

theorem escape_append {l' : List α} :
    escape esc sep (l ++ l') = escape esc sep l ++ escape esc sep l' := flatMap_append

theorem escape_of_notMem (h : sep ∉ l) : escape esc sep l = l := by
  induction l with
  | nil => rfl
  | cons x l ih =>
      rw [mem_cons, not_or] at h
      rw [escape_cons_of_ne (Ne.symm h.1), ih h.2]

/-- Two separators are escaped in any order. -/
theorem escape_comm {sep' : α} (hne : esc ≠ sep) (hne' : esc ≠ sep') :
    escape esc sep (escape esc sep' l) = escape esc sep' (escape esc sep l) := by
  induction l with
  | nil => rfl
  | cons x l ih =>
      by_cases hsep : sep = sep'
      · rw [hsep]
      · by_cases hx : x = sep
        · have hx' : x ≠ sep' := fun h => hsep (hx.symm.trans h)
          rw [escape_cons_of_ne hx', hx, escape_cons_self, escape_cons_self,
            escape_cons_of_ne hne', escape_cons_of_ne hsep, ih]
        · by_cases hx' : x = sep'
          · rw [escape_cons_of_ne hx, hx', escape_cons_self, escape_cons_self,
              escape_cons_of_ne hne, escape_cons_of_ne (Ne.symm hsep), ih]
          · rw [escape_cons_of_ne hx', escape_cons_of_ne hx, escape_cons_of_ne hx,
              escape_cons_of_ne hx', ih]

/-- An escaped text never starts with the separator. -/
theorem head?_escape_ne (hne : esc ≠ sep) : (escape esc sep l).head? ≠ some sep := by
  cases l with
  | nil => exact nofun
  | cons x l =>
      by_cases hx : x = sep
      · rw [hx, escape_cons_self, head?_cons]
        exact fun h => hne (Option.some.inj h)
      · rw [escape_cons_of_ne hx, head?_cons]
        exact fun h => hx (Option.some.inj h)

/-- Escaping leaves the last symbol in its place. -/
theorem getLast?_escape : (escape esc sep l).getLast? = l.getLast? := by
  induction l using List.reverseRecOn with
  | nil => rfl
  | append_singleton l x _ =>
      rw [escape_append, getLast?_append, getLast?_append]
      by_cases hx : x = sep
      · rw [hx, escape_cons_self]
        rfl
      · rw [escape_cons_of_ne hx]
        rfl

/-! ## One symbol -/

theorem splitEscaped_sep (hne : esc ≠ sep) :
    splitEscaped esc sep cur (sep :: rest) = cur :: splitEscaped esc sep [] rest := by
  cases rest with
  | nil => exact if_pos rfl
  | cons y rest => rw [splitEscaped, if_neg fun h => hne h.1.symm, if_pos rfl]

theorem splitEscaped_escaped :
    splitEscaped esc sep cur (esc :: sep :: rest) = splitEscaped esc sep (cur ++ [sep]) rest := by
  rw [splitEscaped, if_pos ⟨rfl, rfl⟩]

theorem splitEscaped_plain (hx : x ≠ sep) (hrest : x = esc → rest.head? ≠ some sep) :
    splitEscaped esc sep cur (x :: rest) = splitEscaped esc sep (cur ++ [x]) rest := by
  cases rest with
  | nil => exact if_neg hx
  | cons y rest =>
      have hpair : ¬(x = esc ∧ y = sep) := by
        rintro ⟨hesc, rfl⟩
        exact hrest hesc rfl
      rw [splitEscaped, if_neg hpair, if_neg hx]

theorem unescape_plain (hrest : x = esc → rest.head? ≠ some sep) :
    unescape esc sep (x :: rest) = x :: unescape esc sep rest := by
  cases rest with
  | nil => rw [unescape, unescape]
  | cons y rest =>
      refine (if_neg ?_ : unescape esc sep (x :: y :: rest) = _)
      rintro ⟨hesc, rfl⟩
      exact hrest hesc rfl

/-- Dropping the escapes of an escaped text gives the text, whatever is in it. -/
theorem unescape_escape (hne : esc ≠ sep) : unescape esc sep (escape esc sep l) = l := by
  induction l with
  | nil => rfl
  | cons x l ih =>
      by_cases hx : x = sep
      · rw [hx, escape_cons_self]
        exact (if_pos ⟨rfl, rfl⟩).trans (congrArg (sep :: ·) ih)
      · rw [escape_cons_of_ne hx, unescape_plain fun _ => head?_escape_ne hne, ih]

/-! ## Pieces -/

/-- An escaped piece is read whole, unless its last symbol could escape what follows. -/
theorem splitEscaped_escape_append (hne : esc ≠ sep) (hlast : l.getLast? ≠ some esc) :
    splitEscaped esc sep cur (escape esc sep l ++ rest) =
      splitEscaped esc sep (cur ++ l) rest := by
  induction l generalizing cur with
  | nil => rw [escape_nil, nil_append, append_nil]
  | cons x l ih =>
      have hnext : cur ++ x :: l = (cur ++ [x]) ++ l := by rw [append_assoc, singleton_append]
      have hlast' : l.getLast? ≠ some esc := by
        cases l with
        | nil => exact nofun
        | cons y l => rwa [getLast?_cons_cons] at hlast
      by_cases hx : x = sep
      · rw [hnext, hx, escape_cons_self, cons_append, cons_append, splitEscaped_escaped, ih hlast']
      · have hhead : x = esc → (escape esc sep l ++ rest).head? ≠ some sep := by
          rintro rfl
          cases l with
          | nil => exact absurd rfl hlast
          | cons y l =>
              have hfirst := head?_escape_ne (l := y :: l) hne
              rw [head?_append]
              cases hcase : (escape x sep (y :: l)).head? with
              | none =>
                  have hlen := congrArg List.getLast? (head?_eq_none_iff.mp hcase)
                  rw [getLast?_escape] at hlen
                  cases hlen
              | some z =>
                  rw [hcase] at hfirst
                  exact hfirst
        rw [hnext, escape_cons_of_ne hx, cons_append, splitEscaped_plain hx hhead, ih hlast']

/-- Escaped pieces between separators are split into the pieces. -/
theorem splitEscaped_intercalate_escape (hne : esc ≠ sep) {pieces : List (List α)}
    (hpieces : pieces ≠ []) (hlast : ∀ piece ∈ pieces, piece.getLast? ≠ some esc) :
    splitEscaped esc sep [] ([sep].intercalate (pieces.map (escape esc sep))) = pieces := by
  induction pieces with
  | nil => exact absurd rfl hpieces
  | cons piece pieces ih =>
      have hpiece := hlast piece mem_cons_self
      cases pieces with
      | nil =>
          rw [map_singleton, intercalate_singleton, ← append_nil (escape esc sep piece),
            splitEscaped_escape_append hne hpiece, nil_append, splitEscaped]
      | cons next pieces =>
          rw [map_cons, map_cons, intercalate_cons_cons, append_assoc,
            splitEscaped_escape_append hne hpiece, nil_append, singleton_append,
            splitEscaped_sep hne, ← map_cons,
            ih (cons_ne_nil _ _) fun p hp => hlast p (mem_cons_of_mem _ hp)]

end List
