import Nitr.Http.StaticFiles

/-! # Confinement of static files -/

namespace Nitr.Static

open FileTree

/-! ## Hidden components -/

/-- The components of a relative path that are resolved: no separator is among them, and
neither are empty parts nor `.`. -/
def components (rel : List Char) : List (List Char) :=
  ((rel.dropWhile (· = '/')).splitOn '/').filter fun part => part ≠ [] ∧ part ≠ ['.']

/-- Only a leading `.well-known` starts with a dot. -/
def NoneHidden (names : List (List Char)) : Prop :=
  ∀ i name, names[i]? = some name → startsWithDot name → i = 0 ∧ name = wellKnown

theorem splitOnP_isSeparator (rel : List Char) :
    rel.splitOnP isSeparator = (rel.splitOn '/').flatMap (List.splitOn '\\') :=
  List.splitOnP_eq_flatMap (fun _ => rfl) rel

/-- A part without backslashes is a segment. -/
theorem mem_segments {rel part : List Char} (h : part ∈ rel.splitOn '/') (hback : '\\' ∉ part) :
    part ∈ rel.splitOnP isSeparator := by
  rw [splitOnP_isSeparator, List.mem_flatMap]
  exact ⟨part, h, by simp [List.splitOn_eq_singleton hback]⟩

theorem noneHidden_of_wellKnown {rel : List Char} (h : isWellKnown rel = true)
    (hback : ∀ name ∈ (rel.splitOn '/').filter fun part => part ≠ [] ∧ part ≠ ['.'],
      startsWithDot name → '\\' ∉ name) :
    NoneHidden ((rel.splitOn '/').filter fun part => part ≠ [] ∧ part ≠ ['.']) := by
  obtain ⟨first, rest, hparts⟩ := List.exists_cons_of_ne_nil (List.splitOn_ne_nil '/' rel)
  obtain ⟨seg, segs, hsegs⟩ := List.exists_cons_of_ne_nil (List.splitOn_ne_nil '\\' first)
  rw [isWellKnown, splitOnP_isSeparator, hparts, List.flatMap_cons, hsegs] at h
  simp only [List.cons_append, Bool.and_eq_true, decide_eq_true_eq, List.all_eq_true,
    Bool.not_eq_true', List.mem_append, List.mem_flatMap] at h
  obtain ⟨hseg, hothers⟩ := h
  have hkept : first ≠ [] ∧ first ≠ ['.'] := by
    constructor
    · rintro rfl
      rw [List.splitOn_nil] at hsegs
      rw [← (List.cons.inj hsegs).1] at hseg
      exact absurd hseg (by decide)
    · rintro rfl
      have hdot : List.splitOn '\\' ['.'] = [['.']] := by decide
      rw [hdot] at hsegs
      rw [← (List.cons.inj hsegs).1] at hseg
      exact absurd hseg (by decide)
  rw [hparts, List.filter_cons_of_pos (by simpa using hkept)] at hback ⊢
  intro i name hget hdot
  have hplain := hback name (List.mem_of_getElem? hget) hdot
  cases i with
  | zero =>
      rw [List.getElem?_cons_zero] at hget
      cases hget
      rw [List.splitOn_eq_singleton hplain] at hsegs
      exact ⟨rfl, (List.cons.inj hsegs).1.trans hseg⟩
  | succ i =>
      rw [List.getElem?_cons_succ] at hget
      have hmem := List.mem_of_mem_filter (List.mem_of_getElem? hget)
      have hseg' : name ∈ List.splitOn '\\' name := by simp [List.splitOn_eq_singleton hplain]
      have := hothers name (.inr ⟨name, hmem, hseg'⟩)
      rw [hdot] at this
      cases this

/-- A path that is not refused hides a component only behind a backslash. -/
theorem noneHidden_iff {m : StaticMount} {rel : List Char} (hm : m.dotfiles = false)
    (h : refusedAsDotfile m rel = false) :
    NoneHidden (components rel) ↔
      ∀ name ∈ components rel, startsWithDot name → '\\' ∉ name := by
  constructor
  · intro hnone name hname hdot
    obtain ⟨i, hi⟩ := List.getElem?_of_mem hname
    rw [(hnone i name hi hdot).2]
    decide
  · intro hback
    simp only [refusedAsDotfile, hm, Bool.not_false, Bool.and_true] at h
    cases hknown : isWellKnown (rel.dropWhile (· = '/')) with
    | true => exact noneHidden_of_wellKnown hknown hback
    | false =>
        rw [hknown, Bool.not_false, Bool.and_true] at h
        intro i name hget hdot
        have hmem := List.mem_of_getElem? hget
        obtain ⟨hpart, hkept⟩ := List.mem_filter.mp hmem
        have hseg := mem_segments hpart (hback name hmem hdot)
        have := List.any_eq_false.mp h name hseg
        simp [hdot] at this
        simp [this] at hkept

/-! ## Located files -/

section Locate

variable {fs : FileSystem Stat}

theorem regularAt_isFile {path found : Path} {stat : Stat}
    (h : regularAt fs path = some (found, stat)) :
    ∃ names, fs.canonicalize found = some names ∧ fs.root.lookup names = some (.file stat) := by
  have hfile : ∀ {path : Path}, fs.metadata path = some (.file stat) →
      ∃ names, fs.canonicalize path = some names ∧ fs.root.lookup names = some (.file stat) :=
    fun h => Option.bind_eq_some_iff.mp h
  unfold regularAt at h
  split at h
  · split at h
    · rename_i hmeta
      cases h
      exact hfile hmeta
    · cases h
  · rename_i hmeta
    cases h
    exact hfile hmeta
  · cases h

/-- A regular file, at its canonical path inside a canonical directory. -/
structure Inside (fs : FileSystem Stat) (root file : List (List Char)) (stat : Stat) : Prop where
  real : fs.root.IsReal file
  isFile : fs.root.lookup file = some (.file stat)
  below : root <+: file

theorem locate_inside {dir : Path} {rel : List Char} {file : List (List Char)} {stat : Stat}
    (h : locate fs dir rel = some (file, stat)) :
    ∃ root, fs.canonicalize dir = some root ∧ Inside fs root file stat := by
  unfold locate at h
  split at h
  · cases h
  · obtain ⟨⟨path, stat'⟩, hregular, h⟩ := Option.bind_eq_some_iff.mp h
    obtain ⟨canonical, hcanonical, h⟩ := Option.bind_eq_some_iff.mp h
    obtain ⟨root, hroot, h⟩ := Option.bind_eq_some_iff.mp h
    split at h
    · rename_i hbelow
      cases h
      obtain ⟨names, hnames, hfile⟩ := regularAt_isFile hregular
      rw [hcanonical] at hnames
      cases hnames
      exact ⟨root, hroot, FileSystem.canonicalize_isReal hcanonical, hfile, hbelow⟩
    · cases h

/-- The regular file found for a request: its own, or the index of the application. -/
def found (fs : FileSystem Stat) (m : StaticMount) (rel : List Char) (spaFallback : Bool) :
    Option (List (List Char) × Stat) :=
  match locateIn fs m rel with
  | some f => some f
  | none => if m.spa && spaFallback then locate fs m.dir "index.html".toList else none

theorem found_inside {m : StaticMount} {rel : List Char} {spaFallback : Bool}
    {file : List (List Char)} {stat : Stat} (h : found fs m rel spaFallback = some (file, stat)) :
    ∃ root, fs.canonicalize m.dir = some root ∧ Inside fs root file stat := by
  unfold found at h
  split at h
  · rename_i f hlocate
    cases h
    unfold locateIn at hlocate
    split at hlocate
    · cases hlocate
    · exact locate_inside hlocate
  · split at h
    · exact locate_inside h
    · cases h

end Locate

/-! ## Sidecars -/

section Sidecar

variable {fs : FileSystem Stat}

/-- What stands where a file's sidecar is looked for does not lead out of the directory: it
is no link to a regular file elsewhere. Beside a single file that is mounted as a directory
there is no inside. -/
def SidecarStays (fs : FileSystem Stat) (root file : List (List Char)) (encoding : Encoding) :
    Prop :=
  match fs.root.lookup (sidecarPath file encoding.extension) with
  | some (.file _) => root ≠ file
  | some (.link target) => ∀ names stat, fs.follow file.dropLast target = some names →
      fs.root.lookup names = some (.file stat) → root <+: names
  | _ => True

theorem proper_sidecar (name : List Char) (encoding : Encoding) :
    Proper (name ++ '.' :: encoding.extension) := by
  have hlength : 3 ≤ (name ++ '.' :: encoding.extension).length := by
    cases encoding <;> simp [Encoding.extension]
  refine ⟨?_, ?_, ?_⟩ <;> intro h <;> rw [h] at hlength <;> simp at hlength

/-- Where the sidecar's path leads. -/
theorem canonicalize_sidecar {root file : List (List Char)} {stat : Stat}
    (h : Inside fs root file stat) (encoding : Encoding) :
    fs.canonicalize ⟨true, sidecarPath file encoding.extension⟩ =
      match fs.root.lookup (sidecarPath file encoding.extension) with
      | none => none
      | some (.link target) => fs.follow file.dropLast target
      | some _ => some (sidecarPath file encoding.extension) := by
  rcases List.eq_nil_or_concat' file with rfl | ⟨dir, name, rfl⟩
  · have := h.isFile
    rw [lookup_nil] at this
    cases this
  · have hdir := h.real.isDirAt (List.cons_ne_nil name [])
    simp only [sidecarPath, List.getLast?_append, List.getLast?_singleton, Option.some_or,
      List.dropLast_concat]
    rw [FileSystem.canonicalize_entry hdir (proper_sidecar name encoding)]
    cases fs.root.lookup (dir ++ [name ++ '.' :: encoding.extension]) with
    | none => rfl
    | some node => cases node <;> rfl

/-- A regular sidecar is inside the directory unless the file is the directory itself. -/
theorem below_sidecar_iff {root file : List (List Char)} {stat : Stat}
    (h : Inside fs root file stat) (encoding : Encoding) :
    root <+: sidecarPath file encoding.extension ↔ root ≠ file := by
  rcases List.eq_nil_or_concat' file with rfl | ⟨dir, name, rfl⟩
  · have := h.isFile
    rw [lookup_nil] at this
    cases this
  · have hbelow := h.below
    simp only [sidecarPath, List.getLast?_append, List.getLast?_singleton, Option.some_or,
      List.dropLast_concat]
    constructor
    · rintro hprefix rfl
      have heq := hprefix.eq_of_length (by simp)
      have := congrArg List.length (List.cons.inj (List.append_cancel_left heq)).1
      simp at this
    · intro hne
      have hdir := (List.prefix_concat_iff.mp hbelow).resolve_left hne
      exact hdir.trans (List.prefix_append ..)

/-- The chosen sidecar is inside the directory exactly if it stays there. -/
theorem sidecarFor_below_iff {root file : List (List Char)} {stat : Stat}
    (h : Inside fs root file stat) (encoding : Encoding) :
    (∀ sidecar stat encoding', sidecarFor fs file encoding = some (sidecar, stat, encoding') →
      ∃ names, fs.canonicalize ⟨true, sidecar⟩ = some names ∧ root <+: names) ↔
      SidecarStays fs root file encoding := by
  have hcanonical := canonicalize_sidecar h encoding
  have hbelow := below_sidecar_iff h encoding
  unfold sidecarFor SidecarStays FileSystem.metadata
  simp only
  cases hnode : fs.root.lookup (sidecarPath file encoding.extension) with
  | none =>
      rw [hnode] at hcanonical
      simp [hcanonical]
  | some node =>
      rw [hnode] at hcanonical
      cases node with
      | file data => simp [hcanonical, hnode, hbelow]
      | dir entries => simp [hcanonical, hnode]
      | other => simp [hcanonical, hnode]
      | link target =>
          simp only at hcanonical ⊢
          rw [hcanonical]
          constructor
          · intro hall names stat hfollow hat
            obtain ⟨names', hnames', hprefix⟩ :=
              hall (sidecarPath file encoding.extension) stat encoding (by simp [hfollow, hat])
            rw [hcanonical, hfollow] at hnames'
            cases hnames'
            exact hprefix
          · intro hstays sidecar stat' encoding' hsome
            split at hsome
            · rename_i stat'' hmeta
              cases hsome
              obtain ⟨names, hfollow, hat⟩ := Option.bind_eq_some_iff.mp hmeta
              exact ⟨names, hcanonical.trans hfollow, hstays names _ hfollow hat⟩
            · cases hsome

end Sidecar

/-! ## Requests -/

section Requests

variable (fs : FileSystem Stat)

/-- The mount that answers, the request path relative to it, and the file found. -/
def answering (decoded : List Char) (spaFallback : Bool) :
    List StaticMount → Option (StaticMount × List Char × List (List Char) × Stat)
  | [] => none
  | m :: rest =>
      match (m.relative decoded).bind fun rel =>
          (found fs m rel spaFallback).map fun f => (m, rel, f) with
      | some answer => some answer
      | none => answering decoded spaFallback rest

/-- The response's file with the sidecar that is there. -/
def withSidecar (file : List (List Char)) (stat : Stat) (encoding : Option Encoding) : Located :=
  match encoding.bind (sidecarFor fs file) with
  | some (sidecar, stat, encoding) => ⟨file, some (sidecar, encoding), stat⟩
  | none => ⟨file, none, stat⟩

theorem locateFor_eq_map (m : StaticMount) (rel : List Char) (encoding : Option Encoding)
    (spaFallback : Bool) :
    locateFor fs m rel encoding spaFallback =
      (found fs m rel spaFallback).map fun f => withSidecar fs f.1 f.2 encoding := by
  unfold locateFor found withSidecar
  cases locateIn fs m rel with
  | some f =>
      cases h : encoding.bind (sidecarFor fs f.1) with
      | none => simp [h]
      | some s => simp [h]
  | none =>
      by_cases hspa : (m.spa && spaFallback) = true
      · simp only [hspa, if_true]
        cases locate fs m.dir "index.html".toList with
        | none => rfl
        | some f =>
            cases h : encoding.bind (sidecarFor fs f.1) with
            | none => simp [h]
            | some s => simp [h]
      · simp [hspa]

theorem serveFirst_eq_map (method : Method) (decoded : List Char) (encoding : Option Encoding)
    (spaFallback : Bool) (asked : Stat → Asked) (mounts : List StaticMount) :
    serveFirst fs method decoded encoding spaFallback asked mounts =
      (answering fs decoded spaFallback mounts).map fun answer =>
        serveFile method asked answer.1 (withSidecar fs answer.2.2.1 answer.2.2.2 encoding) := by
  induction mounts with
  | nil => rfl
  | cons m rest ih =>
      simp only [serveFirst, answering, locateFor_eq_map]
      cases m.relative decoded with
      | none => exact ih
      | some rel =>
          simp only [Option.bind_some]
          cases found fs m rel spaFallback with
          | none => exact ih
          | some f => rfl

theorem answering_eq_some {decoded : List Char} {spaFallback : Bool} {mounts : List StaticMount}
    {m : StaticMount} {rel : List Char} {file : List (List Char)} {stat : Stat}
    (h : answering fs decoded spaFallback mounts = some (m, rel, file, stat)) :
    m.relative decoded = some rel ∧ found fs m rel spaFallback = some (file, stat) := by
  induction mounts with
  | nil => cases h
  | cons m' rest ih =>
      rw [answering] at h
      split at h
      · rename_i answer hanswer
        cases h
        obtain ⟨rel', hrel, hfound⟩ := Option.bind_eq_some_iff.mp hanswer
        obtain ⟨f, hf, heq⟩ := Option.map_eq_some_iff.mp hfound
        cases heq
        exact ⟨hrel, hf⟩
      · exact ih h

/-- The relative path that was resolved: the request's, or that of the fallback. -/
def resolved (m : StaticMount) (rel : List Char) : List Char :=
  if (locateIn fs m rel).isSome then rel else "index.html".toList

/-- Bytes read from `source` are those of a file inside the mount, and nothing hidden was
asked for. -/
structure Confined (m : StaticMount) (rel : List Char) (source : List (List Char)) : Prop where
  inside : ∃ root names, fs.canonicalize m.dir = some root ∧
    fs.canonicalize ⟨true, source⟩ = some names ∧ root <+: names
  visible : m.dotfiles = false → NoneHidden (components (resolved fs m rel))

/-- No hidden component lies behind a backslash, and the file's sidecar stays in the mount. -/
structure Keeps (m : StaticMount) (rel : List Char) (file : List (List Char))
    (encoding : Option Encoding) : Prop where
  plain : m.dotfiles = false → (locateIn fs m rel).isSome →
    ∀ name ∈ components rel, startsWithDot name → '\\' ∉ name
  stays : ∀ root coding, fs.canonicalize m.dir = some root → encoding = some coding →
    SidecarStays fs root file coding

theorem noneHidden_resolved_iff {m : StaticMount} {rel : List Char} (hm : m.dotfiles = false) :
    NoneHidden (components (resolved fs m rel)) ↔
      ((locateIn fs m rel).isSome → ∀ name ∈ components rel, startsWithDot name → '\\' ∉ name) := by
  unfold resolved
  cases hlocate : locateIn fs m rel with
  | none =>
      simp only [Option.isSome_none, Bool.false_eq_true, if_false, false_imp_iff, iff_true]
      intro i name hget hdot
      have hmem := List.mem_of_getElem? hget
      have hcomponents : components "index.html".toList = ["index.html".toList] := by decide
      rw [hcomponents, List.mem_singleton] at hmem
      rw [hmem] at hdot
      cases hdot
  | some f =>
      have hrefused : refusedAsDotfile m rel = false := by
        unfold locateIn at hlocate
        split at hlocate
        · cases hlocate
        · rename_i hnot
          exact Bool.eq_false_iff.mpr hnot
      simp only [Option.isSome_some, if_true, forall_const]
      exact noneHidden_iff hm hrefused

/-- What is read for a file found in a mount is confined exactly if the mount keeps it. -/
theorem confined_withSidecar_iff {m : StaticMount} {rel : List Char} {spaFallback : Bool}
    {file : List (List Char)} {stat : Stat} (h : found fs m rel spaFallback = some (file, stat))
    (encoding : Option Encoding) :
    Confined fs m rel (withSidecar fs file stat encoding).source ↔ Keeps fs m rel file encoding := by
  obtain ⟨root, hroot, hinside⟩ := found_inside h
  have hfile := FileSystem.canonicalize_of_isReal hinside.real
  have hstays : (∃ root names, fs.canonicalize m.dir = some root ∧
      fs.canonicalize ⟨true, (withSidecar fs file stat encoding).source⟩ = some names ∧
        root <+: names) ↔
      ∀ root coding, fs.canonicalize m.dir = some root → encoding = some coding →
        SidecarStays fs root file coding := by
    cases encoding with
    | none => simp [withSidecar, Located.source, hroot, hfile, hinside.below]
    | some coding =>
        have hiff := sidecarFor_below_iff hinside coding
        have honly : (∀ root' coding', fs.canonicalize m.dir = some root' →
            some coding = some coding' → SidecarStays fs root' file coding') ↔
            SidecarStays fs root file coding := by
          constructor
          · intro hall
            exact hall root coding hroot rfl
          · intro hstays root' coding' hroot' hcoding
            rw [hroot] at hroot'
            cases hroot'
            cases hcoding
            exact hstays
        rw [honly, ← hiff]
        cases hsidecar : sidecarFor fs file coding with
        | none => simp [withSidecar, hsidecar, Located.source, hroot, hfile, hinside.below]
        | some s =>
            obtain ⟨sidecar, stat', coding'⟩ := s
            simp [withSidecar, hsidecar, Located.source, hroot]
  constructor
  · intro hc
    refine ⟨fun hm => (noneHidden_resolved_iff fs hm).mp (hc.visible hm), ?_⟩
    exact hstays.mp hc.inside
  · intro hk
    exact ⟨hstays.mpr hk.stays, fun hm => (noneHidden_resolved_iff fs hm).mpr (hk.plain hm)⟩

/-- A request is answered by the first mount with a file for it. -/
theorem tryServe_eq_some {decode : List Char → Option (List Char)} {mounts : List StaticMount}
    {method : Method} {path : List Char} {encoding : Option Encoding} {spaFallback : Bool}
    {asked : Stat → Asked} {response : Response}
    (h : tryServe fs decode mounts method path encoding spaFallback asked = some response) :
    ∃ decoded m rel file stat, decode path = some decoded ∧
      answering fs decoded spaFallback mounts = some (m, rel, file, stat) ∧
      response = serveFile method asked m (withSidecar fs file stat encoding) := by
  unfold tryServe at h
  split at h
  · cases h
  · split at h
    · cases h
    · rename_i decoded hdecode
      rw [serveFirst_eq_map] at h
      obtain ⟨⟨m, rel, file, stat⟩, hanswer, heq⟩ := Option.map_eq_some_iff.mp h
      exact ⟨decoded, m, rel, file, stat, hdecode, hanswer, heq.symm⟩

theorem serveFile_body {method : Method} {asked : Stat → Asked} {m : StaticMount}
    {located : Located} {source : List (List Char)} {span : ℕ × ℕ}
    (h : (serveFile method asked m located).body = some (source, span)) :
    method = .get ∧ source = located.source := by
  unfold serveFile at h
  split at h
  · cases h
    exact ⟨rfl, rfl⟩
  · cases h

theorem serveFile_mount (method : Method) (asked : Stat → Asked) (m : StaticMount)
    (located : Located) : (serveFile method asked m located).mount = m := by
  unfold serveFile
  split <;> rfl

/-- Bytes leave a mount, or come from behind a hidden name, exactly for a `GET` whose
mount does not keep the file found. -/
theorem tryServe_confined_iff (decode : List Char → Option (List Char))
    (mounts : List StaticMount) (method : Method) (path : List Char) (encoding : Option Encoding)
    (spaFallback : Bool) :
    (∀ asked response source span decoded rel,
      tryServe fs decode mounts method path encoding spaFallback asked = some response →
      response.body = some (source, span) → decode path = some decoded →
      response.mount.relative decoded = some rel → Confined fs response.mount rel source) ↔
      (method = .get → ∀ decoded m rel file stat, decode path = some decoded →
        answering fs decoded spaFallback mounts = some (m, rel, file, stat) →
        Keeps fs m rel file encoding) := by
  constructor
  · intro hall hget decoded m rel file stat hdecode hanswer
    obtain ⟨hrel, hfound⟩ := answering_eq_some fs hanswer
    have hne : mounts.isEmpty = false := by
      cases mounts with
      | nil => cases hanswer
      | cons m rest => rfl
    have hserve : tryServe fs decode mounts method path encoding spaFallback
        (fun _ => .span 0 0) = some (serveFile method (fun _ => .span 0 0) m
          (withSidecar fs file stat encoding)) := by
      simp [tryServe, hne, hget, hdecode, serveFirst_eq_map, hanswer]
    have hconfined := hall _ _ (withSidecar fs file stat encoding).source (0, 0) decoded rel
      hserve (by rw [hget]; rfl) hdecode (by rw [serveFile_mount]; exact hrel)
    rw [serveFile_mount] at hconfined
    exact (confined_withSidecar_iff fs hfound encoding).mp hconfined
  · intro hkeeps asked response source span decoded rel hserve hbody hdecode hrel
    obtain ⟨decoded', m, rel', file, stat, hdecode', hanswer, rfl⟩ := tryServe_eq_some fs hserve
    obtain ⟨hget, rfl⟩ := serveFile_body hbody
    rw [serveFile_mount] at hrel ⊢
    rw [hdecode] at hdecode'
    cases hdecode'
    obtain ⟨hrel', hfound⟩ := answering_eq_some fs hanswer
    rw [hrel] at hrel'
    cases hrel'
    exact (confined_withSidecar_iff fs hfound encoding).mpr
      (hkeeps hget decoded m rel file stat hdecode hanswer)

end Requests

/-- A site whose `app.js.gz` is a link to a file outside. -/
def linkedSidecar : FileSystem Stat where
  entries := [
    ("site".toList, .dir [
      ("app.js".toList, .file ⟨10, none⟩),
      ("app.js.gz".toList, .link ⟨true, ["secret".toList]⟩)]),
    ("secret".toList, .file ⟨20, none⟩)]
  cwd := []
  limit := 40
  cwd_dir := isDirAt_nil _

def site : StaticMount := .new ['/'] ⟨true, ["site".toList]⟩ false none

/-- The sidecar of `/app.js` is read from outside its mount. -/
theorem sidecar_escapes :
    ¬∀ (fs : FileSystem Stat) (decode : List Char → Option (List Char))
      (mounts : List StaticMount) (method : Method) (path : List Char)
      (encoding : Option Encoding) (spaFallback : Bool) (asked : Stat → Asked)
      (response : Response) (source : List (List Char)) (span : ℕ × ℕ) (decoded rel : List Char),
      tryServe fs decode mounts method path encoding spaFallback asked = some response →
      response.body = some (source, span) → decode path = some decoded →
      response.mount.relative decoded = some rel → Confined fs response.mount rel source := by
  intro hall
  have hconfined := hall linkedSidecar some [site] .get "/app.js".toList (some .gzip) false
    (fun stat => .span 0 stat.len)
    ⟨site, ⟨["site".toList, "app.js".toList], some (["site".toList, "app.js.gz".toList], .gzip),
      ⟨20, none⟩⟩, some (["site".toList, "app.js.gz".toList], 0, 20)⟩
    ["site".toList, "app.js.gz".toList] (0, 20) "/app.js".toList "app.js".toList
    (by decide +kernel) rfl rfl (by decide +kernel)
  obtain ⟨root, names, hroot, hnames, hbelow⟩ := hconfined.inside
  have hroot' : linkedSidecar.canonicalize ⟨true, ["site".toList]⟩ = some ["site".toList] := by
    decide +kernel
  have hnames' : linkedSidecar.canonicalize ⟨true, ["site".toList, "app.js.gz".toList]⟩ =
      some ["secret".toList] := by
    decide +kernel
  cases hroot'.symm.trans hroot
  cases hnames'.symm.trans hnames
  exact absurd hbelow (by decide +kernel)

end Nitr.Static
