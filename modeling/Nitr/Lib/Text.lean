import Mathlib.Data.List.DropRight
import Mathlib.Data.List.Basic
import Mathlib.Data.List.TakeDrop

/-! # Texts as lists

Stripping a known start or end, trimming, and splitting at a separator, over lists
of any kind of symbol. -/

namespace List

variable {α : Type*} [DecidableEq α]

/-! ## Known starts and ends -/

/-- The rest after a given start. -/
def stripPrefix (l start : List α) : Option (List α) :=
  if start <+: l then some (l.drop start.length) else none

/-- The rest before a given end. -/
def stripSuffix (l stop : List α) : Option (List α) :=
  if stop <:+ l then some (l.take (l.length - stop.length)) else none

theorem stripPrefix_eq_some {start l rest : List α} :
    stripPrefix l start = some rest ↔ l = start ++ rest := by
  unfold stripPrefix
  constructor
  · intro h
    split at h
    · rename_i hp
      obtain ⟨rest', rfl⟩ := hp
      simpa using h
    · cases h
  · rintro rfl
    simp

theorem stripSuffix_eq_some {stop l rest : List α} :
    stripSuffix l stop = some rest ↔ l = rest ++ stop := by
  unfold stripSuffix
  constructor
  · intro h
    split at h
    · rename_i hp
      obtain ⟨rest', rfl⟩ := hp
      simpa using h
    · cases h
  · rintro rfl
    simp

theorem stripPrefix_eq_none {start l : List α} : stripPrefix l start = none ↔ ¬start <+: l := by
  unfold stripPrefix
  split <;> simp_all

/-- A run without a symbol lies on one side of it. -/
theorem infix_append_cons {α : Type*} {r l₁ l₂ : List α} {x : α} (h : r <:+: l₁ ++ x :: l₂)
    (hx : x ∉ r) : r <:+: l₁ ∨ r <:+: l₂ := by
  obtain ⟨pre, post, h⟩ := h
  rw [append_assoc] at h
  rcases append_eq_append_iff.mp h with ⟨mid, rfl, hmid⟩ | ⟨mid, rfl, hmid⟩
  · rcases append_eq_append_iff.mp hmid with ⟨mid', rfl, hrest⟩ | ⟨mid', rfl, hrest⟩
    · exact .inl ⟨pre, mid', by simp⟩
    · cases mid' with
      | nil => exact .inl ⟨pre, [], by simp⟩
      | cons y mid' =>
          rw [cons_append] at hrest
          exact absurd (by simp [(cons.inj hrest).1]) hx
  · cases mid with
    | nil =>
        rw [nil_append] at hmid
        cases r with
        | nil => exact .inl ( nil_infix ..)
        | cons y r => exact absurd (by simp [(cons.inj hmid).1]) hx
    | cons y mid =>
        rw [cons_append] at hmid
        exact .inr ⟨mid, post, by rw [append_assoc]; exact ((cons.inj hmid).2).symm⟩

/-! ## Trimming -/

section Trim

variable {α : Type*} (p : α → Bool)

/-- Without the blanks at both ends. -/
def trimBy (l : List α) : List α := (l.dropWhile p).rdropWhile p

variable {p}

theorem dropWhile_append_of_all {pre l : List α} (h : ∀ x ∈ pre, p x = true) :
    (pre ++ l).dropWhile p = l.dropWhile p := by
  induction pre with
  | nil => rfl
  | cons x pre ih =>
      rw [cons_append, dropWhile_cons_of_pos (h x (mem_cons_self ..))]
      exact ih fun y hy => h y (mem_cons_of_mem _ hy)

/-- Blanks around a text that neither starts nor ends with one are trimmed off. -/
theorem trimBy_append {pre l post : List α} (hpre : ∀ x ∈ pre, p x = true)
    (hpost : ∀ x ∈ post, p x = true) (hne : l ≠ []) (hhead : p (l.head hne) = false)
    (hlast : p (l.getLast hne) = false) : trimBy p (pre ++ l ++ post) = l := by
  unfold trimBy
  rw [append_assoc, dropWhile_append_of_all hpre]
  obtain ⟨x, rest, rfl⟩ := exists_cons_of_ne_nil hne
  rw [cons_append, dropWhile_cons_of_neg (by simpa using hhead)]
  unfold rdropWhile
  rw [← cons_append, reverse_append,
    dropWhile_append_of_all (by simpa using hpost)]
  have hrev : (x :: rest).reverse ≠ [] := by simp
  obtain ⟨y, back, hback⟩ := exists_cons_of_ne_nil hrev
  have hy : p y = false := by
    have : (x :: rest).getLast hne = y := by
      have hl : (x :: rest) = back.reverse ++ [y] := by
        have := congrArg reverse hback
        simpa using this
      simp [hl]
    rw [← this]
    exact hlast
  rw [hback, dropWhile_cons_of_neg (by simpa using hy), ← hback, reverse_reverse]

theorem trimBy_eq_self {l : List α} (h : ∀ x ∈ l, p x = false) : trimBy p l = l := by
  by_cases hne : l = []
  · subst hne
    rfl
  · have := @trimBy_append α p [] l [] (by simp) (by simp) hne (h _ (head_mem hne))
      (h _ (getLast_mem hne))
    simpa using this

theorem dropWhile_congr {q : α → Bool} {l : List α} (h : ∀ x ∈ l, p x = q x) :
    l.dropWhile p = l.dropWhile q := by
  induction l with
  | nil => rfl
  | cons x l ih =>
      rw [dropWhile_cons, dropWhile_cons, h x (mem_cons_self ..),
        ih fun y hy => h y (mem_cons_of_mem _ hy)]

theorem trimBy_congr {q : α → Bool} {l : List α} (h : ∀ x ∈ l, p x = q x) :
    trimBy p l = trimBy q l := by
  unfold trimBy rdropWhile
  rw [dropWhile_congr h, dropWhile_congr]
  intro x hx
  exact h x ((dropWhile_suffix q).subset (mem_reverse.mp hx))

theorem trimBy_sublist (l : List α) : (trimBy p l).Sublist l :=
  ( rdropWhile_prefix p _).sublist.trans (dropWhile_suffix p).sublist

theorem mem_trimBy {l : List α} {x : α} (hx : x ∈ l) (hp : p x = false) : x ∈ trimBy p l := by
  have hkeep : ∀ {l : List α}, x ∈ l → x ∈ l.dropWhile p := by
    intro l hx
    rw [← takeWhile_append_dropWhile (p := p) (l := l), mem_append] at hx
    obtain hx | hx := hx
    · have := mem_takeWhile_imp hx
      rw [hp] at this
      cases this
    · exact hx
  unfold trimBy rdropWhile
  rw [mem_reverse]
  exact hkeep (mem_reverse.mpr (hkeep hx))

/-- A text that neither starts nor ends with a blank is left as it is. -/
theorem trimBy_of_ends {l : List α} (hhead : ∀ x, l.head? = some x → p x = false)
    (hlast : ∀ x, l.getLast? = some x → p x = false) : trimBy p l = l := by
  by_cases hne : l = []
  · subst hne
    rfl
  · have := @trimBy_append α p [] l [] (by simp) (by simp) hne (hhead _ (head?_eq_some_head hne))
      (hlast _ (getLast?_eq_some_getLast hne))
    simpa using this

theorem head_trimBy {l : List α} {x : α} (h : (trimBy p l).head? = some x) : p x = false := by
  obtain ⟨rest, hrest⟩ : trimBy p l <+: l.dropWhile p := rdropWhile_prefix p _
  have hx : (l.dropWhile p).head? = some x := by
    rw [← hrest, head?_append, h]
    rfl
  have := head?_dropWhile_not p l
  rw [hx] at this
  simpa using this

theorem last_trimBy {l : List α} {x : α} (h : (trimBy p l).getLast? = some x) : p x = false := by
  have := head?_dropWhile_not p (l.dropWhile p).reverse
  rw [trimBy, rdropWhile, getLast?_reverse] at h
  rw [h] at this
  simpa using this

/-- A text with the blanks it was trimmed of. -/
theorem exists_trimBy (l : List α) : ∃ pre post, l = pre ++ trimBy p l ++ post ∧
    (∀ x ∈ pre, p x = true) ∧ ∀ x ∈ post, p x = true := by
  refine ⟨l.takeWhile p, (l.dropWhile p).rtakeWhile p, ?_, ?_, ?_⟩
  · rw [append_assoc, trimBy, rdropWhile_append_rtakeWhile, takeWhile_append_dropWhile]
  · exact fun x => mem_takeWhile_imp
  · exact fun x => mem_rtakeWhile_imp

/-- A symbol that is no blank stops the trimming from both ends. -/
theorem trimBy_append_cons {x y : List α} {c : α} (h : p c = false) :
    trimBy p (x ++ c :: y) = x.dropWhile p ++ c :: y.rdropWhile p := by
  have hdrop : (x ++ c :: y).dropWhile p = x.dropWhile p ++ c :: y := by
    rw [dropWhile_append]
    split
    · rename_i hnil
      rw [isEmpty_iff.mp hnil, nil_append, dropWhile_cons_of_neg (by simp [h])]
    · rfl
  rw [trimBy, hdrop]
  unfold rdropWhile
  rw [reverse_append, reverse_cons, append_assoc, dropWhile_append]
  split
  · rename_i hnil
    rw [isEmpty_iff.mp hnil, singleton_append, dropWhile_cons_of_neg (by simp [h])]
    simp
  · simp

theorem trimBy_eq_nil {l : List α} (h : ∀ x ∈ l, p x = true) : trimBy p l = [] := by
  have hdrop := @dropWhile_append_of_all α p l [] h
  rw [append_nil, dropWhile_nil] at hdrop
  rw [trimBy, hdrop]
  rfl

theorem trimBy_dropWhile (l : List α) : trimBy p (l.dropWhile p) = trimBy p l := by
  rw [trimBy, dropWhile_idempotent, trimBy]

/-- Blanks around a text do not matter. -/
theorem trimBy_blanks {pre l post : List α} (hpre : ∀ x ∈ pre, p x = true)
    (hpost : ∀ x ∈ post, p x = true) : trimBy p (pre ++ l ++ post) = trimBy p l := by
  obtain ⟨pre', post', hl, hpre', hpost'⟩ := @exists_trimBy α p l
  by_cases hne : trimBy p l = []
  · rw [hne]
    refine trimBy_eq_nil ?_
    rw [hne] at hl
    simp only [hl, mem_append]
    rintro x ((hx | (hx | hx) | hx) | hx)
    · exact hpre x hx
    · exact hpre' x hx
    · cases hx
    · exact hpost' x hx
    · exact hpost x hx
  · have htext : pre ++ l ++ post = (pre ++ pre') ++ trimBy p l ++ (post' ++ post) := by
      conv_lhs => rw [hl]
      simp
    rw [htext]
    exact trimBy_append (forall_mem_append.mpr ⟨hpre, hpre'⟩)
      (forall_mem_append.mpr ⟨hpost', hpost⟩) hne
      (head_trimBy (head?_eq_some_head hne)) (last_trimBy (getLast?_eq_some_getLast hne))

theorem trimBy_rdropWhile (l : List α) : trimBy p (l.rdropWhile p) = trimBy p l := by
  have h := @trimBy_blanks α p [] (l.rdropWhile p) (l.rtakeWhile p) (by simp)
    fun x => mem_rtakeWhile_imp
  rw [nil_append, rdropWhile_append_rtakeWhile] at h
  exact h.symm

/-- A weaker test finds the same first element exactly if it takes none before that. -/
theorem find?_eq_find?_iff {q : α → Bool} {l : List α} (h : ∀ x, p x = true → q x = true) :
    l.find? q = l.find? p ↔ ∀ x ∈ l.takeWhile fun x => !p x, q x = false := by
  induction l with
  | nil => simp
  | cons x l ih =>
      by_cases hp : p x = true
      · rw [find?_cons_of_pos hp, find?_cons_of_pos (h x hp), takeWhile_cons_of_neg (by simp [hp])]
        simp
      · rw [find?_cons_of_neg hp, takeWhile_cons_of_pos (by simp [hp]), forall_mem_cons, ← ih]
        by_cases hq : q x = true
        · rw [find?_cons_of_pos hq]
          refine iff_of_false ?_ (by simp [hq])
          intro hfind
          exact hp (find?_some hfind.symm)
        · rw [find?_cons_of_neg hq]
          simp [hq]

/-- What a test keeps at the start is all it keeps, if it never holds after it failed. -/
theorem takeWhile_eq_filter {l : List α} (h : l.Pairwise fun x y => p y = true → p x = true) :
    l.takeWhile p = l.filter p := by
  induction l with
  | nil => rfl
  | cons x l ih =>
      obtain ⟨hx, hl⟩ := pairwise_cons.mp h
      by_cases hp : p x = true
      · rw [takeWhile_cons_of_pos hp, filter_cons_of_pos hp, ih hl]
      · rw [takeWhile_cons_of_neg hp, filter_cons_of_neg hp, eq_comm, filter_eq_nil_iff]
        intro y hy hpy
        exact hp (hx y hy hpy)

end Trim

/-! ## Splitting -/

/-- The parts of texts joined by a separator are the parts of each. -/
theorem splitOn_intercalate_eq_flatMap (sep : α) {ls : List (List α)} (hne : ls ≠ []) :
    (intercalate [sep] ls).splitOn sep = ls.flatMap (splitOn sep) := by
  induction ls with
  | nil => exact absurd rfl hne
  | cons l ls ih =>
      cases ls with
      | nil => simp [intercalate]
      | cons l' ls =>
          have h := ih (by simp)
          rw [flatMap_cons, ← h]
          simp [intercalate, splitOn_append_cons_self]

theorem not_mem_of_mem_splitOn {sep : α} {piece l : List α} (h : piece ∈ l.splitOn sep) :
    sep ∉ piece := by
  induction l generalizing piece with
  | nil =>
      rw [splitOn_nil, mem_singleton] at h
      simp [h]
  | cons x l ih =>
      rw [splitOn_cons_eq_if_modifyHead] at h
      split at h
      · rcases mem_cons.mp h with rfl | h
        · simp
        · exact ih h
      · rename_i hx
        cases hpieces : splitOn sep l with
        | nil => simp [hpieces] at h
        | cons first others =>
            rw [hpieces, modifyHead_cons] at h
            rcases mem_cons.mp h with rfl | h
            · have hfirst : sep ∉ first := ih (by simp [hpieces])
              have hne : sep ≠ x := fun e => hx (by simp [e])
              simp [hne, hfirst]
            · exact ih (by simp [hpieces, h])

theorem cons_intercalate_eq_flatMap {α : Type*} (sep : α) {ls : List (List α)} (hne : ls ≠ []) :
    sep :: intercalate [sep] ls = ls.flatMap (sep :: ·) := by
  induction ls with
  | nil => exact absurd rfl hne
  | cons l ls ih =>
      cases ls with
      | nil => simp [intercalate]
      | cons l' ls =>
          rw [flatMap_cons, ← ih (by simp)]
          simp [intercalate]

theorem cons_eq_flatMap_splitOn (sep : α) (l : List α) :
    sep :: l = (l.splitOn sep).flatMap (sep :: ·) := by
  rw [← cons_intercalate_eq_flatMap sep (splitOn_ne_nil sep l), intercalate_splitOn]

/-- The symbols of a text are the separators and those of its pieces. -/
theorem mem_iff_splitOn {sep x : α} {l : List α} (hx : x ≠ sep) :
    x ∈ l ↔ ∃ piece ∈ l.splitOn sep, x ∈ piece := by
  have h : x ∈ l ↔ x ∈ sep :: l := by simp [hx]
  rw [h, cons_eq_flatMap_splitOn, mem_flatMap]
  simp [hx]

/-- The pieces are what stands between two separators, with one put at each end. -/
theorem mem_splitOn {sep : α} {piece l : List α} :
    piece ∈ l.splitOn sep ↔ sep ∉ piece ∧ sep :: (piece ++ [sep]) <:+: sep :: (l ++ [sep]) := by
  constructor
  · intro h
    refine ⟨not_mem_of_mem_splitOn h, ?_⟩
    obtain ⟨before, after, hsplit⟩ := append_of_mem h
    rw [← @cons_append _ sep l, cons_eq_flatMap_splitOn sep l, hsplit]
    cases after with
    | nil => exact ⟨before.flatMap (sep :: ·), [], by simp⟩
    | cons next after =>
        exact ⟨before.flatMap (sep :: ·), next ++ after.flatMap (sep :: ·) ++ [sep], by simp⟩
  · rintro ⟨hsep, pre, post, h⟩
    have hlast : ∀ {front : List α}, l ++ [sep] = front ++ piece ++ sep :: post →
        piece ∈ (front ++ piece).splitOn sep → piece ∈ l.splitOn sep := by
      intro front h hmem
      cases post using List.reverseRecOn with
      | nil =>
          rw [append_cancel_right h]
          exact hmem
      | append_singleton post last =>
          have hl : l = front ++ piece ++ sep :: post := by
            rw [← cons_append, ← append_assoc] at h
            exact (append_inj' h rfl).1
          rw [hl, splitOn_append_cons_self]
          exact mem_append_left _ hmem
    cases pre with
    | nil =>
        have hrest : l ++ [sep] = [] ++ piece ++ sep :: post := by simpa using h.symm
        refine hlast hrest ?_
        rw [nil_append, splitOn_eq_singleton hsep]
        exact mem_singleton_self _
    | cons first pre =>
        have hrest : l ++ [sep] = pre ++ [sep] ++ piece ++ sep :: post := by
          simpa using (cons.inj h).2.symm
        refine hlast hrest ?_
        rw [append_assoc, singleton_append, splitOn_append_cons_self, splitOn_eq_singleton hsep]
        exact mem_append_right _ (mem_singleton_self _)

/-- Splitting at two separators splits the pieces of one at the other. -/
theorem splitOnP_eq_flatMap {p : α → Bool} {a b : α} (hp : ∀ x, p x = (x == a || x == b))
    (l : List α) : l.splitOnP p = (l.splitOn a).flatMap (splitOn b) := by
  induction l with
  | nil => rfl
  | cons x l ih =>
      rw [splitOnP_cons_eq_if_modifyHead, splitOn_cons_eq_if_modifyHead, ih, hp]
      obtain ⟨first, rest, hsplit⟩ := exists_cons_of_ne_nil (splitOn_ne_nil a l)
      rw [hsplit]
      by_cases ha : x = a
      · simp [ha]
      · by_cases hb : x = b
        · subst hb
          simp [ha, splitOn_cons_eq_if_modifyHead]
        · obtain ⟨first', rest', hsplit'⟩ := exists_cons_of_ne_nil (splitOn_ne_nil b first)
          simp [ha, hb, splitOn_cons_eq_if_modifyHead, hsplit']

/-- `split_once`: at the first separator. -/
def splitOnce (sep : α) (l : List α) : Option (List α × List α) :=
  match l.span (· ≠ sep) with
  | (_, []) => none
  | (before, _ :: after) => some (before, after)

theorem splitOnce_append {sep : α} {before after : List α} (h : sep ∉ before) :
    splitOnce sep (before ++ sep :: after) = some (before, after) := by
  have htest : ∀ x ∈ before, decide (x ≠ sep) = true := by
    intro x hx
    exact decide_eq_true fun heq => h (heq ▸ hx)
  have hspan : (before ++ sep :: after).span (· ≠ sep) = (before, sep :: after) := by
    rw [span_eq_takeWhile_dropWhile, takeWhile_append_of_pos htest, dropWhile_append_of_pos htest]
    simp
  unfold splitOnce
  rw [hspan]

theorem splitOnce_eq_some {sep : α} {l before after : List α} :
    splitOnce sep l = some (before, after) ↔ l = before ++ sep :: after ∧ sep ∉ before := by
  constructor
  · intro h
    unfold splitOnce at h
    rw [span_eq_takeWhile_dropWhile] at h
    split at h
    · cases h
    · rename_i before' x after' hspan
      obtain ⟨hbefore, hafter⟩ := Prod.mk.inj hspan
      obtain ⟨rfl, rfl⟩ := Prod.mk.inj (Option.some.inj h)
      have hx : x = sep := by
        have := head?_dropWhile_not (fun y => decide (y ≠ sep)) l
        rw [hafter] at this
        simpa using this
      refine ⟨?_, ?_⟩
      · rw [← hx, ← hbefore, ← hafter, takeWhile_append_dropWhile]
      · intro hmem
        rw [← hbefore] at hmem
        have := mem_takeWhile_imp hmem
        simp at this
  · rintro ⟨rfl, h⟩
    exact splitOnce_append h

theorem splitOnce_eq_none {sep : α} {l : List α} : splitOnce sep l = none ↔ sep ∉ l := by
  rw [Option.eq_none_iff_forall_not_mem]
  constructor
  · intro h hmem
    have ⟨before, after, hl, hbefore⟩ := eq_append_cons_of_mem hmem
    exact h (before, after) (splitOnce_eq_some.mpr ⟨hl, hbefore⟩)
  · intro h parts hparts
    rw [(splitOnce_eq_some.mp hparts).1] at h
    exact h (mem_append_right _ mem_cons_self)

/-- `rsplit_once`: at the last separator. -/
def rsplitOnce (sep : α) : List α → Option (List α × List α)
  | [] => none
  | x :: l =>
      match rsplitOnce sep l with
      | some (before, after) => some (x :: before, after)
      | none => if x = sep then some ([], l) else none

theorem rsplitOnce_eq_none {sep : α} {l : List α} : rsplitOnce sep l = none ↔ sep ∉ l := by
  induction l with
  | nil => simp [rsplitOnce]
  | cons x l ih =>
      unfold rsplitOnce
      cases h : rsplitOnce sep l with
      | some parts =>
          have hmem : sep ∈ l := not_not.mp fun hnot => by simp [ih.mpr hnot] at h
          simp [hmem]
      | none =>
          have hnot := ih.mp h
          by_cases hx : x = sep
          · simp [hx]
          · simp [hx, Ne.symm hx, hnot]

theorem rsplitOnce_append {sep : α} {before after : List α} (h : sep ∉ after) :
    rsplitOnce sep (before ++ sep :: after) = some (before, after) := by
  induction before with
  | nil =>
      rw [nil_append, rsplitOnce, rsplitOnce_eq_none.mpr h]
      simp
  | cons x before ih => rw [cons_append, rsplitOnce, ih]

theorem rsplitOnce_eq_some {sep : α} {l before after : List α} :
    rsplitOnce sep l = some (before, after) ↔ l = before ++ sep :: after ∧ sep ∉ after := by
  constructor
  · intro h
    induction l generalizing before with
    | nil => cases h
    | cons x l ih =>
        unfold rsplitOnce at h
        cases hl : rsplitOnce sep l with
        | some parts =>
            obtain ⟨before', after'⟩ := parts
            rw [hl] at h
            cases h
            obtain ⟨rfl, hnot⟩ := ih hl
            exact ⟨rfl, hnot⟩
        | none =>
            rw [hl] at h
            by_cases hx : x = sep
            · simp only [hx, if_true, Option.some.injEq, Prod.mk.injEq] at h
              obtain ⟨rfl, rfl⟩ := h
              exact ⟨by rw [hx, nil_append], rsplitOnce_eq_none.mp hl⟩
            · simp [hx] at h
  · rintro ⟨rfl, h⟩
    exact rsplitOnce_append h

end List

/-! ## Classes of characters -/

namespace Unicode

/-- The characters of the category `Cc`. -/
def isControl (c : Char) : Bool := c.toNat < 0x20 || (0x7F ≤ c.toNat && c.toNat ≤ 0x9F)

/-- The characters with the property `White_Space`. -/
def isWhitespace (c : Char) : Bool :=
  (0x09 ≤ c.toNat && c.toNat ≤ 0x0D) || (0x2000 ≤ c.toNat && c.toNat ≤ 0x200A) ||
    [0x20, 0x85, 0xA0, 0x1680, 0x2028, 0x2029, 0x202F, 0x205F, 0x3000].contains c.toNat

/-- `str::trim`. -/
def trim (text : List Char) : List Char := text.trimBy isWhitespace

end Unicode
