import Nitr.Http.Upload

/-! # Saved uploads stay inside the upload root -/

namespace Nitr.Upload

open FileTree Nitr.Static

/-! ## The lexical rule -/

/-- What is joined under a root is names: neither `..` nor anything skipped. -/
theorem joinParts_proper {path joined : Path} {parts : List (List Char)}
    (h : joinParts path parts = .ok joined) :
    ∃ names, joined = { path with segments := path.segments ++ names } ∧
      ∀ name ∈ names, Proper name := by
  induction parts generalizing path with
  | nil =>
      cases h
      exact ⟨[], by simp, by simp⟩
  | cons part rest ih =>
      rw [joinParts] at h
      split at h
      · exact ih h
      · rename_i hskip
        split at h
        · cases h
        · rename_i hup
          obtain ⟨names, hjoined, hnames⟩ := ih h
          refine ⟨part :: names, ?_, ?_⟩
          · rw [hjoined]
            simp [push]
          · intro name hname
            rcases List.mem_cons.mp hname with rfl | hname
            · exact ⟨fun hn => hskip (.inl hn), fun hn => hskip (.inr hn), hup⟩
            · exact hnames name hname

theorem safeJoin_proper {root joined : Path} {rel : List Char}
    (h : safeJoin root rel = .ok joined) :
    ∃ names, joined = { root with segments := root.segments ++ names } ∧
      ∀ name ∈ names, Proper name := by
  unfold safeJoin at h
  split at h
  · cases h
  · split at h
    · cases h
    · exact joinParts_proper h

/-- A name without separators is joined as it stands. -/
theorem safeJoin_name {root : Path} {name : List Char} (hname : Proper name) (hslash : '/' ∉ name)
    (hnul : '\x00' ∉ name) : safeJoin root name = .ok (push root name) := by
  have hhead : name.head? ≠ some '/' := fun h => hslash (List.mem_of_mem_head? h)
  have hskip : ¬(name = [] ∨ name = ['.']) := by simp [hname.1, hname.2.1]
  unfold safeJoin
  rw [if_neg hnul, if_neg hhead, List.splitOn_eq_singleton hslash, joinParts, if_neg hskip,
    if_neg hname.2.2, joinParts]

/-! ## The resolved target -/

section Resolve

variable {α : Type} {fs : FileSystem α} {refuses : Path → Option String}

/-- A name for a regular file in a directory of the upload root. -/
structure Contained (fs : FileSystem α) (root : Path) (target : List (List Char)) : Prop where
  parent : ∃ canonicalRoot place name, fs.canonicalize root = some canonicalRoot ∧
    target = place ++ [name] ∧ Proper name ∧ canonicalRoot <+: place ∧
    fs.root.IsDirAt place ∧ fs.canonicalize ⟨true, place⟩ = some place
  unoccupied : fs.root.lookup target = none ∨ ∃ data, fs.root.lookup target = some (.file data)
  notRoot : fs.canonicalize root ≠ some target

theorem resolve_eq_ok {path : Path} {names : List (List Char)}
    (h : resolve fs refuses path = .ok names) : fs.canonicalize path = some names := by
  unfold resolve at h
  split at h
  · cases h
  · cases h
  · rename_i hnames
    cases h
    exact hnames

theorem inspect_eq_ok {place target : List (List Char)} {name : List Char}
    (hreal : fs.root.IsReal place) (h : inspect fs refuses place name = .ok target) :
    target = place ++ [name] ∧ fs.root.IsDirAt place ∧
      (fs.root.lookup target = none ∨ ∃ data, fs.root.lookup target = some (.file data)) := by
  unfold inspect at h
  split at h
  · cases h
  · cases h
  · rename_i data _ hdata
    cases h
    obtain ⟨hdir, hfound⟩ := FileSystem.symlinkMetadata_eq_ok hdata
    exact ⟨rfl, ⟨hreal.proper, hdir⟩, .inr ⟨data, hfound⟩⟩
  · cases h
  · rename_i habsent
    cases h
    obtain ⟨hdir, hnone⟩ := FileSystem.symlinkMetadata_eq_notFound hreal habsent
    exact ⟨rfl, ⟨hreal.proper, hdir⟩, .inl hnone⟩
  · cases h

theorem resolveUploadPath_contained {root : Path} {rel : List Char} {target : List (List Char)}
    (h : resolveUploadPath fs refuses root rel = .ok target) : Contained fs root target := by
  unfold resolveUploadPath at h
  split at h
  · cases h
  · rename_i joined hjoin
    obtain ⟨names, rfl, hnames⟩ := safeJoin_proper hjoin
    split at h
    · cases h
    · rename_i hself
      rcases List.eq_nil_or_concat' names with rfl | ⟨front, last, rfl⟩
      · exact absurd (by simp) hself
      · have hlast : Proper last := hnames last (by simp)
        rw [← List.append_assoc, parent_concat hlast, fileName_concat hlast] at h
        simp only at h
        split at h
        · cases h
        · rename_i canonicalRoot hroot
          split at h
          · cases h
          · rename_i place hplace
            split at h
            · rename_i hbelow
              have hcanonical := resolve_eq_ok hplace
              obtain ⟨rfl, hdir, hfree⟩ :=
                inspect_eq_ok (FileSystem.canonicalize_isReal hcanonical) h
              refine ⟨⟨canonicalRoot, place, last, resolve_eq_ok hroot, rfl, hlast, hbelow, hdir,
                FileSystem.canonicalize_idem hcanonical⟩, hfree, ?_⟩
              rw [resolve_eq_ok hroot]
              intro heq
              have hle := hbelow.length_le
              rw [Option.some.inj heq, List.length_append, List.length_singleton] at hle
              omega
            · cases h

end Resolve

/-! ## The sanitized name -/

theorem fit_sublist (budget : ℕ) (name : List Char) : (fit budget name).Sublist name := by
  induction name generalizing budget with
  | nil => exact .slnil
  | cons c rest ih =>
      rw [fit]
      split
      · exact (ih _).cons_cons c
      · exact List.nil_sublist _

theorem mem_stemAndExt {name : List Char} {c : Char}
    (h : c ∈ (stemAndExt name).1 ∨ c ∈ (stemAndExt name).2) : c ∈ name := by
  unfold stemAndExt at h
  split at h
  · split at h
    · rcases h with h | h
      · exact List.mem_of_mem_take h
      · exact List.mem_of_mem_drop h
    · simpa using h
  · simpa using h

/-- Neither separators nor what is not seen survives. -/
theorem mem_trimmedName {raw : List Char} {c : Char} (h : c ∈ trimmedName raw) :
    isSeparator c = false ∧ isInvisible c = false := by
  have hfilter := (List.trimBy_sublist _).subset h
  obtain ⟨hlast, hvisible⟩ := List.mem_filter.mp hfilter
  have hsep := List.mem_rtakeWhile_imp hlast
  simp only [Bool.not_eq_true'] at hsep hvisible
  exact ⟨hsep, hvisible⟩

theorem mem_safeFilename {raw : List Char} {c : Char} (h : c ∈ safeFilename raw) :
    isSeparator c = false ∧ isInvisible c = false := by
  unfold safeFilename at h
  simp only at h
  split at h
  · have hall : fallbackName.all (fun c => !isSeparator c && !isInvisible c) = true := by decide
    simpa using List.all_eq_true.mp hall c h
  · rcases List.mem_append.mp h with h | h
    · exact mem_trimmedName (mem_stemAndExt (.inl ((fit_sublist _ _).subset h)))
    · exact mem_trimmedName (mem_stemAndExt (.inr h))

theorem proper_safeFilename (raw : List Char) : Proper (safeFilename raw) := by
  unfold safeFilename
  simp only
  split
  · unfold Proper
    decide
  · rename_i hkept
    exact ⟨fun h => hkept (.inl h), fun h => hkept (.inr (.inl h)), fun h => hkept (.inr (.inr h))⟩

theorem slash_not_mem_safeFilename (raw : List Char) : '/' ∉ safeFilename raw := by
  intro h
  exact absurd (mem_safeFilename h).1 (by decide)

theorem nul_not_mem_safeFilename (raw : List Char) : '\x00' ∉ safeFilename raw := by
  intro h
  exact absurd (mem_safeFilename h).2 (by decide)

/-! ## Uploads -/

/-- Every target of a save lies inside the upload root, and a sanitized name is one the
lexical rule takes for a direct child of it. -/
theorem uploads_contained :
    (∀ (α : Type) (fs : FileSystem α) (refuses : Path → Option String) (root : Path)
      (rel : List Char) (target : List (List Char)),
      resolveUploadPath fs refuses root rel = .ok target → Contained fs root target) ∧
    ∀ (root : Path) (raw : List Char),
      safeJoin root (safeFilename raw) = .ok (push root (safeFilename raw)) ∧
        Proper (safeFilename raw) ∧ '/' ∉ safeFilename raw :=
  ⟨fun _ _ _ _ _ _ h => resolveUploadPath_contained h, fun _ raw =>
    ⟨safeJoin_name (proper_safeFilename raw) (slash_not_mem_safeFilename raw)
      (nul_not_mem_safeFilename raw), proper_safeFilename raw, slash_not_mem_safeFilename raw⟩⟩

/-- A root with a directory and a link to it. -/
def uploads : FileSystem Unit where
  entries := [("up".toList, .dir
    [("pics".toList, .dir []), ("new".toList, .link ⟨false, ["pics".toList]⟩)])]
  cwd := []
  limit := 8
  cwd_dir := isDirAt_nil _

theorem uploads_contained_linked :
    resolveUploadPath uploads (fun _ => none) ⟨true, ["up".toList]⟩ "new/a.png".toList =
        .ok ["up".toList, "pics".toList, "a.png".toList] ∧
      Contained uploads ⟨true, ["up".toList]⟩ ["up".toList, "pics".toList, "a.png".toList] :=
  have h : resolveUploadPath uploads (fun _ => none) ⟨true, ["up".toList]⟩ "new/a.png".toList =
      .ok ["up".toList, "pics".toList, "a.png".toList] := by decide +kernel
  ⟨h, uploads_contained.1 _ _ _ _ _ _ h⟩

end Nitr.Upload
