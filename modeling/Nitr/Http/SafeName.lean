import Nitr.Http.UploadRoot

/-! # What a sanitized name is

`safe_filename` of `multipart/upload.rs`. Everything a name has to be follows from how it
starts and ends; only the cut of an overlong name without an extension can undo that. -/

namespace Nitr.Upload

open Nitr.Static

/-! ## Bytes of a name -/

theorem byteLen_append (name rest : List Char) :
    byteLen (name ++ rest) = byteLen name + byteLen rest := by
  induction name with
  | nil => simp [byteLen]
  | cons c name ih =>
      rw [List.cons_append, byteLen, byteLen, ih]
      omega

theorem byteLen_drop_le {name : List Char} {i j : ℕ} (h : i ≤ j) :
    byteLen (name.drop j) ≤ byteLen (name.drop i) := by
  have hsplit : (name.drop i).take (j - i) ++ name.drop j = name.drop i := by
    have := List.take_append_drop (j - i) (name.drop i)
    rwa [List.drop_drop, Nat.add_sub_cancel' h] at this
  rw [← hsplit, byteLen_append]
  omega

theorem byteLen_fit_le (budget : ℕ) (name : List Char) : byteLen (fit budget name) ≤ budget := by
  induction name generalizing budget with
  | nil => exact Nat.zero_le _
  | cons c name ih =>
      rw [fit]
      split
      · rename_i hc
        have hrest := ih (budget - c.utf8Size)
        rw [byteLen]
        omega
      · exact Nat.zero_le _

theorem fit_eq_self {budget : ℕ} {name : List Char} (h : byteLen name ≤ budget) :
    fit budget name = name := by
  induction name generalizing budget with
  | nil => rfl
  | cons c name ih =>
      rw [byteLen] at h
      rw [fit, if_pos (by omega), ih (by omega)]

/-- A character fits in four bytes. -/
theorem head?_fit {budget : ℕ} (h : 4 ≤ budget) (name : List Char) :
    (fit budget name).head? = name.head? := by
  cases name with
  | nil => rfl
  | cons c name =>
      have hc : c.utf8Size ≤ budget := c.utf8Size_le_four.trans h
      rw [fit, if_pos hc]
      rfl

/-! ## The extension -/

/-- A dot of the name with at most 16 bytes after it, not the first character. -/
def isExt (name : List Char) (i : ℕ) : Bool :=
  name[i]? = some '.' && byteLen (name.drop i) ≤ 17 && decide (0 < i)

/-- The extension starts at the first such dot. -/
theorem extAt_eq_find? (name : List Char) :
    extAt name = (List.range name.length).find? (isExt name) := by
  have hdots : (((List.range name.length).filter fun i => name[i]? = some '.').reverse).Pairwise
      fun i j => decide (byteLen (name.drop j) ≤ 17) = true →
        decide (byteLen (name.drop i) ≤ 17) = true := by
    refine List.pairwise_reverse.mpr ((List.pairwise_lt_range.filter _).imp ?_)
    intro i j hij hi
    have hle := @byteLen_drop_le name i j hij.le
    simp only [decide_eq_true_eq] at hi ⊢
    omega
  unfold extAt
  simp only
  rw [List.takeWhile_eq_filter hdots, List.filter_reverse, List.filter_reverse,
    List.getLast?_reverse, List.head?_filter, List.filter_filter, ← List.head?_filter,
    List.filter_filter, List.head?_filter]
  congr 1
  funext i
  unfold isExt
  cases decide (name[i]? = some '.') <;> cases decide (byteLen (name.drop i) ≤ 17) <;>
    cases decide (0 < i) <;> rfl

theorem extAt_eq_some {name : List Char} {i : ℕ} (h : extAt name = some i) :
    isExt name i = true ∧ ∀ j, isExt name j = true → i ≤ j := by
  rw [extAt_eq_find?, List.find?_range_eq_some] at h
  refine ⟨h.1, ?_⟩
  intro j hj
  by_contra hlt
  have hnot := h.2.2 j (not_le.mp hlt)
  rw [hj] at hnot
  cases hnot

theorem lt_length_of_isExt {name : List Char} {i : ℕ} (h : isExt name i = true) :
    i < name.length := by
  simp only [isExt, Bool.and_eq_true, decide_eq_true_eq] at h
  exact (List.getElem?_eq_some_iff.mp h.1.1).1

theorem extAt_eq_none {name : List Char} : extAt name = none ↔ ∀ i, isExt name i = false := by
  rw [extAt_eq_find?, List.find?_range_eq_none]
  constructor
  · intro h i
    by_contra hext
    rw [Bool.not_eq_false] at hext
    have hnot := h i (lt_length_of_isExt hext)
    rw [hext] at hnot
    cases hnot
  · intro h i _
    rw [h i]
    rfl

theorem isExt_length {stem suffix : List Char} (hsuffix : byteLen suffix ≤ 16) (hstem : stem ≠ []) :
    isExt (stem ++ '.' :: suffix) stem.length = true := by
  have hdot : byteLen ('.' :: suffix) = 1 + byteLen suffix := rfl
  simp only [isExt, List.getElem?_append_right (Nat.le_refl _), Nat.sub_self,
    List.getElem?_cons_zero, List.drop_left, hdot, Bool.and_eq_true, decide_eq_true_eq,
    true_and]
  exact ⟨by omega, List.length_pos_iff.mpr hstem⟩

/-! ## The stages -/

/-- What is trimmed off both ends. -/
def isTrimmed (c : Char) : Bool := c = '.' || Unicode.isWhitespace c

/-- Neither end of a text is a dot or a space. -/
structure Trimmed (name : List Char) : Prop where
  head : ∀ c, name.head? = some c → isTrimmed c = false
  last : ∀ c, name.getLast? = some c → isTrimmed c = false

theorem trimmed_trimmedName (raw : List Char) : Trimmed (trimmedName raw) :=
  ⟨fun _ => List.head_trimBy, fun _ => List.last_trimBy⟩

/-- A clean text is its own sanitized form before the cut. -/
theorem trimmedName_eq_self {name : List Char} (h : Trimmed name)
    (hclean : ∀ c ∈ name, isSeparator c = false ∧ isInvisible c = false) :
    trimmedName name = name := by
  have hlast : name.rtakeWhile (fun c => !isSeparator c) = name :=
    List.rtakeWhile_eq_self_iff.mpr fun c hc => by simp [(hclean c hc).1]
  have hvisible : name.filter (fun c => !isInvisible c) = name :=
    List.filter_eq_self.mpr fun c hc => by simp [(hclean c hc).2]
  unfold trimmedName
  simp only
  rw [hlast, hvisible]
  exact List.trimBy_of_ends h.head h.last

theorem stemAndExt_of_le {name : List Char} (h : byteLen name ≤ nameMax) :
    stemAndExt name = (name, []) := by
  unfold stemAndExt
  cases extAt name with
  | none => rfl
  | some i => simp only [if_neg (not_lt.mpr h)]

theorem stemAndExt_of_ext {name : List Char} {i : ℕ} (h : nameMax < byteLen name)
    (hext : extAt name = some i) : stemAndExt name = (name.take i, name.drop i) := by
  unfold stemAndExt
  rw [hext]
  simp only [if_pos h]

theorem stemAndExt_of_none {name : List Char} (hext : extAt name = none) :
    stemAndExt name = (name, []) := by
  unfold stemAndExt
  rw [hext]

/-- The name after the cut. -/
def cutName (name : List Char) : List Char :=
  fit (nameMax - byteLen (stemAndExt name).2) (stemAndExt name).1 ++ (stemAndExt name).2

theorem safeFilename_eq (raw : List Char) : safeFilename raw =
    if cutName (trimmedName raw) = [] ∨ cutName (trimmedName raw) = ['.'] ∨
      cutName (trimmedName raw) = ['.', '.'] then fallbackName else cutName (trimmedName raw) := rfl

theorem cutName_of_none {name : List Char} (hext : extAt name = none) :
    cutName name = fit nameMax name := by
  rw [cutName, stemAndExt_of_none hext, List.append_nil]
  rfl

theorem cutName_of_ext {name : List Char} {i : ℕ} (h : nameMax < byteLen name)
    (hext : extAt name = some i) :
    cutName name = fit (nameMax - byteLen (name.drop i)) (name.take i) ++ name.drop i := by
  rw [cutName, stemAndExt_of_ext h hext]

theorem cutName_of_le {name : List Char} (h : byteLen name ≤ nameMax) : cutName name = name := by
  rw [cutName, stemAndExt_of_le h, List.append_nil]
  exact fit_eq_self h

/-- The cut keeps the first character. -/
theorem head?_cutName {name : List Char} : (cutName name).head? = name.head? := by
  by_cases hlen : byteLen name ≤ nameMax
  · rw [cutName_of_le hlen]
  · cases hext : extAt name with
    | none => rw [cutName_of_none hext, head?_fit (by decide)]
    | some i =>
        obtain ⟨hi, -⟩ := extAt_eq_some hext
        have hlt := lt_length_of_isExt hi
        simp only [isExt, Bool.and_eq_true, decide_eq_true_eq] at hi
        have hbudget : 4 ≤ nameMax - byteLen (name.drop i) := by
          have : nameMax = 255 := rfl
          omega
        rw [cutName_of_ext (not_le.mp hlen) hext, List.head?_append, head?_fit hbudget,
          List.head?_take, if_neg (by omega)]
        cases name with
        | nil => cases hlt
        | cons c name => rfl

theorem byteLen_cutName_le (name : List Char) : byteLen (cutName name) ≤ nameMax := by
  by_cases hlen : byteLen name ≤ nameMax
  · rwa [cutName_of_le hlen]
  · cases hext : extAt name with
    | none =>
        rw [cutName_of_none hext]
        exact byteLen_fit_le _ _
    | some i =>
        obtain ⟨hi, -⟩ := extAt_eq_some hext
        simp only [isExt, Bool.and_eq_true, decide_eq_true_eq] at hi
        have hmax : nameMax = 255 := rfl
        have hfit := byteLen_fit_le (nameMax - byteLen (name.drop i)) (name.take i)
        rw [cutName_of_ext (not_le.mp hlen) hext, byteLen_append]
        omega

/-- What the name has after a short extension's dot, its cut has. -/
theorem suffix_cutName {name stem suffix : List Char} (hname : name = stem ++ '.' :: suffix)
    (hstem : stem ≠ []) (hsuffix : byteLen suffix ≤ 16) : '.' :: suffix <:+ cutName name := by
  have hext := isExt_length hsuffix hstem
  rw [← hname] at hext
  by_cases hlen : byteLen name ≤ nameMax
  · rw [cutName_of_le hlen, hname]
    exact List.suffix_append ..
  · cases hat : extAt name with
    | none =>
        have hnone := extAt_eq_none.mp hat stem.length
        rw [hext] at hnone
        cases hnone
    | some i =>
        have hle := (extAt_eq_some hat).2 _ hext
        have hdrop : '.' :: suffix <:+ name.drop i := by
          rw [hname, List.drop_append_of_le_length hle]
          exact List.suffix_append ..
        rw [cutName_of_ext (not_le.mp hlen) hat]
        exact hdrop.trans (List.suffix_append ..)

/-! ## The contract -/

/-- At most 16 bytes follow some dot. -/
def ShortExt (name : List Char) : Prop :=
  ∃ stem suffix, name = stem ++ '.' :: suffix ∧ byteLen suffix ≤ 16

theorem Trimmed.stem_ne_nil {name stem suffix : List Char} (h : Trimmed name)
    (hname : name = stem ++ '.' :: suffix) : stem ≠ [] := by
  rintro rfl
  have hdot := h.head '.' (by rw [hname]; rfl)
  exact absurd hdot (by decide)

theorem Trimmed.extAt_eq_none_iff {name : List Char} (h : Trimmed name) :
    extAt name = none ↔ ¬ShortExt name := by
  constructor
  · rintro hnone ⟨stem, suffix, hname, hsuffix⟩
    have hext := isExt_length hsuffix (h.stem_ne_nil hname)
    rw [← hname, extAt_eq_none.mp hnone] at hext
    cases hext
  · intro hshort
    cases hat : extAt name with
    | none => rfl
    | some i =>
        obtain ⟨hi, -⟩ := extAt_eq_some hat
        simp only [isExt, Bool.and_eq_true, decide_eq_true_eq] at hi
        obtain ⟨⟨hdot, hbytes⟩, -⟩ := hi
        obtain ⟨hlt, hget⟩ := List.getElem?_eq_some_iff.mp hdot
        have hdrop : name.drop i = '.' :: name.drop (i + 1) := by
          rw [List.drop_eq_getElem_cons hlt, hget]
        have hone : byteLen ('.' :: name.drop (i + 1)) = 1 + byteLen (name.drop (i + 1)) := rfl
        refine absurd ⟨name.take i, name.drop (i + 1), ?_, ?_⟩ hshort
        · rw [← hdrop, List.take_append_drop]
        · rw [hdrop, hone] at hbytes
          omega

/-- What a sanitized name has to be. -/
structure SafeName (raw : List Char) : Prop where
  ne_nil : safeFilename raw ≠ []
  bytes : byteLen (safeFilename raw) ≤ 255
  clean : ∀ c ∈ safeFilename raw, c ≠ '/' ∧ c ≠ '\\' ∧ isInvisible c = false ∧
    Unicode.isControl c = false
  ne_dots : safeFilename raw ≠ ['.'] ∧ safeFilename raw ≠ ['.', '.']
  head : ∀ c, (safeFilename raw).head? = some c → c ≠ '.' ∧ Unicode.isWhitespace c = false
  last : ∀ c, (safeFilename raw).getLast? = some c → c ≠ '.' ∧ Unicode.isWhitespace c = false
  ext : ∀ stem suffix, trimmedName raw = stem ++ '.' :: suffix → byteLen suffix ≤ 16 →
    '.' :: suffix <:+ safeFilename raw
  again : safeFilename (safeFilename raw) = safeFilename raw

/-- An overlong name without a short extension is not cut right after a dot or a space. -/
def CleanCut (name : List Char) : Prop :=
  nameMax < byteLen name → ¬ShortExt name →
    ∀ c, (fit nameMax name).getLast? = some c → c ≠ '.' ∧ Unicode.isWhitespace c = false

theorem isTrimmed_eq_false {c : Char} :
    isTrimmed c = false ↔ c ≠ '.' ∧ Unicode.isWhitespace c = false := by
  simp [isTrimmed]

/-- The cut leaves the end of a name clean exactly if it does not fall after a dot or a space. -/
theorem Trimmed.cutName_iff {name : List Char} (h : Trimmed name) :
    Trimmed (cutName name) ↔ CleanCut name := by
  have hhead : ∀ c, (cutName name).head? = some c → isTrimmed c = false := by
    intro c hc
    rw [head?_cutName] at hc
    exact h.head c hc
  by_cases hlen : byteLen name ≤ nameMax
  · rw [cutName_of_le hlen]
    exact iff_of_true h fun hlong => absurd hlen (not_le.mpr hlong)
  · cases hat : extAt name with
    | none =>
        have hcut := cutName_of_none hat
        constructor
        · intro hcutTrimmed _ _ c hc
          rw [← hcut] at hc
          exact isTrimmed_eq_false.mp (hcutTrimmed.last c hc)
        · intro hclean
          refine ⟨hhead, ?_⟩
          intro c hc
          rw [hcut] at hc
          exact isTrimmed_eq_false.mpr
            (hclean (not_le.mp hlen) (h.extAt_eq_none_iff.mp hat) c hc)
    | some i =>
        obtain ⟨hi, -⟩ := extAt_eq_some hat
        have hdrop : name.drop i ≠ [] := by
          rw [ne_eq, List.drop_eq_nil_iff, not_le]
          exact lt_length_of_isExt hi
        refine iff_of_true ⟨hhead, ?_⟩ ?_
        · intro c hc
          rw [cutName_of_ext (not_le.mp hlen) hat,
            List.getLast?_append_of_ne_nil _ hdrop, List.getLast?_drop,
            if_neg (not_le.mpr (lt_length_of_isExt hi))] at hc
          exact h.last c hc
        · intro _ hshort
          rw [h.extAt_eq_none_iff.mpr hshort] at hat
          cases hat

/-- Without a dot in front, only the empty name is replaced. -/
theorem safeFilename_cases (raw : List Char) :
    (trimmedName raw = [] ∧ safeFilename raw = fallbackName) ∨
      (trimmedName raw ≠ [] ∧ safeFilename raw = cutName (trimmedName raw)) := by
  have hhead := @head?_cutName (trimmedName raw)
  by_cases hnil : trimmedName raw = []
  · refine .inl ⟨hnil, ?_⟩
    rw [safeFilename_eq, hnil]
    rfl
  · refine .inr ⟨hnil, ?_⟩
    rw [safeFilename_eq, if_neg]
    rintro (hcut | hcut | hcut)
    · rw [hcut] at hhead
      exact hnil (List.head?_eq_none_iff.mp hhead.symm)
    · rw [hcut] at hhead
      exact absurd ((trimmed_trimmedName raw).head '.' hhead.symm) (by decide)
    · rw [hcut] at hhead
      exact absurd ((trimmed_trimmedName raw).head '.' hhead.symm) (by decide)

/-- A clean name that is short enough is kept. -/
theorem safeFilename_eq_self {name : List Char} (hne : name ≠ []) (h : Trimmed name)
    (hclean : ∀ c ∈ name, isSeparator c = false ∧ isInvisible c = false)
    (hlen : byteLen name ≤ nameMax) : safeFilename name = name := by
  have hself := trimmedName_eq_self h hclean
  rcases safeFilename_cases name with ⟨hnil, -⟩ | ⟨-, hcut⟩
  · exact absurd (hself ▸ hnil) hne
  · rw [hcut, hself, cutName_of_le hlen]

theorem byteLen_safeFilename_le (raw : List Char) : byteLen (safeFilename raw) ≤ nameMax := by
  rcases safeFilename_cases raw with ⟨-, h⟩ | ⟨-, h⟩
  · rw [h]
    decide
  · rw [h]
    exact byteLen_cutName_le _

theorem trimmed_safeFilename_iff (raw : List Char) :
    Trimmed (safeFilename raw) ↔ CleanCut (trimmedName raw) := by
  rcases safeFilename_cases raw with ⟨hnil, hsafe⟩ | ⟨-, hsafe⟩
  · rw [hsafe, hnil]
    refine iff_of_true ⟨?_, ?_⟩ fun hlong => absurd hlong (by decide)
    · intro c hc
      cases hc
      decide
    · intro c hc
      cases hc
      decide
  · rw [hsafe]
    exact (trimmed_trimmedName raw).cutName_iff

/-- The sanitized name is what it has to be exactly if the cut of an overlong name is clean. -/
theorem safeName_iff (raw : List Char) : SafeName raw ↔ CleanCut (trimmedName raw) := by
  rw [← trimmed_safeFilename_iff]
  constructor
  · intro h
    exact ⟨fun c hc => isTrimmed_eq_false.mpr (h.head c hc),
      fun c hc => isTrimmed_eq_false.mpr (h.last c hc)⟩
  · intro h
    obtain ⟨hne, hdots⟩ := proper_safeFilename raw
    have hlen := byteLen_safeFilename_le raw
    refine ⟨hne, hlen, ?_, hdots, ?_, ?_, ?_, ?_⟩
    · intro c hc
      obtain ⟨hsep, hvisible⟩ := mem_safeFilename hc
      refine ⟨?_, ?_, hvisible, ?_⟩
      · rintro rfl
        exact absurd hsep (by decide)
      · rintro rfl
        exact absurd hsep (by decide)
      · simp only [isInvisible, Bool.or_eq_false_iff] at hvisible
        exact hvisible.1.1.1.1.1
    · exact fun c hc => isTrimmed_eq_false.mp (h.head c hc)
    · exact fun c hc => isTrimmed_eq_false.mp (h.last c hc)
    · intro stem suffix hname hsuffix
      have hstem := (trimmed_trimmedName raw).stem_ne_nil hname
      rcases safeFilename_cases raw with ⟨hnil, -⟩ | ⟨-, hsafe⟩
      · rw [hnil] at hname
        simp at hname
      · rw [hsafe]
        exact suffix_cutName hname hstem hsuffix
    · exact safeFilename_eq_self hne h (fun c hc => mem_safeFilename hc) hlen

/-- 254 letters, a space and more letters. -/
def spacedName : List Char := List.replicate 254 'a' ++ ' ' :: List.replicate 5 'b'

theorem spacedName_not_safe : ¬SafeName spacedName ∧
    safeFilename spacedName = List.replicate 254 'a' ++ [' '] := by
  have hsafe : safeFilename spacedName = List.replicate 254 'a' ++ [' '] := by decide +kernel
  refine ⟨?_, hsafe⟩
  intro h
  have hlast := h.last ' ' (by rw [hsafe, List.getLast?_concat])
  exact absurd hlast.2 (by decide)

end Nitr.Upload
