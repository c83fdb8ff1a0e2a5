import Mathlib.Data.List.DropRight
import Mathlib.Data.List.Infix

/-! # File trees with symbolic links

Directories, regular files and symbolic links, and the resolution of paths among them. -/

namespace FileTree

/-- A path as its text between separators; the empty text has no segments. -/
structure Path where
  absolute : Bool
  segments : List (List Char)
deriving DecidableEq, Repr

inductive Node (α : Type) where
  | file (data : α)
  | dir (entries : List (List Char × Node α))
  | link (target : Path)
  | other

variable {α : Type}

/-- The node at a list of names, links not followed. -/
def Node.lookup : Node α → List (List Char) → Option (Node α)
  | node, [] => some node
  | .dir entries, name :: rest => (entries.lookup name).bind fun child => child.lookup rest
  | .file _, _ :: _ => none
  | .link _, _ :: _ => none
  | .other, _ :: _ => none

/-- Resolution from the directory `cur`; a link is left to `follow`. -/
def descend (root : Node α) (follow : List (List Char) → List (List Char) → Option (List (List Char)))
    (cur : List (List Char)) : List (List Char) → Option (List (List Char))
  | [] => some cur
  | seg :: rest =>
      if seg = [] ∨ seg = ['.'] then descend root follow cur rest
      else if seg = ['.', '.'] then descend root follow cur.dropLast rest
      else
        match root.lookup (cur ++ [seg]) with
        | none => none
        | some (.dir _) => descend root follow (cur ++ [seg]) rest
        | some (.link target) =>
            follow (if target.absolute then [] else cur) (target.segments ++ rest)
        | some _ => if rest = [] then some (cur ++ [seg]) else none

/-- Resolution that follows at most as many links as its first argument says. -/
def walk (root : Node α) : ℕ → List (List Char) → List (List Char) → Option (List (List Char))
  | 0 => descend root fun _ _ => none
  | limit + 1 => descend root (walk root limit)

/-- What a name inside a directory can be. -/
def Proper (name : List Char) : Prop := name ≠ [] ∧ name ≠ ['.'] ∧ name ≠ ['.', '.']

/-- A directory at a list of names without links. -/
def Node.IsDirAt (root : Node α) (names : List (List Char)) : Prop :=
  (∀ name ∈ names, Proper name) ∧ ∃ entries, root.lookup names = some (.dir entries)

/-- A node that is no link at a list of names without links. -/
structure Node.IsReal (root : Node α) (names : List (List Char)) : Prop where
  proper : ∀ name ∈ names, Proper name
  found : ∃ node, root.lookup names = some node ∧ ∀ target, node ≠ .link target

namespace Path

/-- Segments that are skipped. -/
def skipped (segment : List Char) : Bool := segment = [] || segment = ['.']

/-- `Path::file_name`. -/
def fileName (path : Path) : Option (List Char) :=
  match (path.segments.rdropWhile skipped).getLast? with
  | some name => if name = ['.', '.'] then none else some name
  | none => none

/-- `Path::parent`. A relative path that starts with `.` has that as a component. -/
def parent (path : Path) : Option Path :=
  match path.segments.rdropWhile skipped with
  | [] => if !path.absolute && path.segments.head? = some ['.'] then some ⟨false, []⟩ else none
  | names => some { path with segments := names.dropLast }

end Path

/-- A tree with a working directory. -/
structure FileSystem (α : Type) where
  entries : List (List Char × Node α)
  cwd : List (List Char)
  limit : ℕ
  cwd_dir : (Node.dir entries).IsDirAt cwd

namespace FileSystem

def root (fs : FileSystem α) : Node α := .dir fs.entries

/-- Where a path leads. -/
def canonicalize (fs : FileSystem α) (path : Path) : Option (List (List Char)) :=
  if path.absolute then walk fs.root fs.limit [] path.segments
  else if path.segments = [] then none
  else walk fs.root fs.limit fs.cwd path.segments

inductive ErrorKind where
  | notFound
  | notADirectory
deriving DecidableEq, Repr

/-- A name in a place without links, the name itself not followed. -/
def symlinkMetadata (fs : FileSystem α) (place : List (List Char)) (name : List Char) :
    Except ErrorKind (Node α) :=
  match fs.root.lookup place with
  | some (.dir entries) =>
      match entries.lookup name with
      | some node => .ok node
      | none => .error .notFound
  | some _ => .error .notADirectory
  | none => .error .notFound

/-- The node a path leads to. -/
def metadata (fs : FileSystem α) (path : Path) : Option (Node α) :=
  (fs.canonicalize path).bind fs.root.lookup

end FileSystem

/-! ## Lookups -/

@[simp] theorem lookup_nil (node : Node α) : node.lookup [] = some node := by
  cases node <;> rfl

theorem lookup_append (node : Node α) (names more : List (List Char)) :
    node.lookup (names ++ more) = (node.lookup names).bind fun child => child.lookup more := by
  induction names generalizing node with
  | nil => simp
  | cons name rest ih =>
      cases node with
      | dir entries =>
          simp only [List.cons_append, Node.lookup]
          cases entries.lookup name with
          | none => rfl
          | some child => exact ih child
      | file data => rfl
      | link target => rfl
      | other => rfl

/-- Above anything found there are directories. -/
theorem isDir_of_lookup_append {node child : Node α} {names more : List (List Char)}
    (h : node.lookup (names ++ more) = some child) (hmore : more ≠ []) :
    ∃ entries, node.lookup names = some (.dir entries) := by
  rw [lookup_append] at h
  obtain ⟨parent, hparent, hchild⟩ := Option.bind_eq_some_iff.mp h
  cases more with
  | nil => exact absurd rfl hmore
  | cons name rest =>
      cases parent with
      | dir entries => exact ⟨entries, hparent⟩
      | file data => cases hchild
      | link target => cases hchild
      | other => cases hchild

theorem isDirAt_nil (entries : List (List Char × Node α)) : (Node.dir entries).IsDirAt [] :=
  ⟨by simp, entries, rfl⟩

theorem Node.IsDirAt.isReal {root : Node α} {names : List (List Char)} (h : root.IsDirAt names) :
    root.IsReal names := by
  obtain ⟨hproper, entries, hentries⟩ := h
  exact ⟨hproper, .dir entries, hentries, by simp⟩

theorem Node.IsDirAt.dropLast {root : Node α} {names : List (List Char)} (h : root.IsDirAt names) :
    root.IsDirAt names.dropLast := by
  obtain ⟨hproper, entries, hentries⟩ := h
  refine ⟨fun name hname => hproper name (List.mem_of_mem_dropLast hname), ?_⟩
  rcases List.eq_nil_or_concat' names with rfl | ⟨front, last, rfl⟩
  · exact ⟨entries, hentries⟩
  · rw [List.dropLast_concat]
    exact isDir_of_lookup_append hentries (by simp)

/-- The directories above a node. -/
theorem Node.IsReal.isDirAt {root : Node α} {names more : List (List Char)}
    (h : root.IsReal (names ++ more)) (hmore : more ≠ []) : root.IsDirAt names := by
  obtain ⟨node, hnode, -⟩ := h.found
  exact ⟨fun name hname => h.proper name (List.mem_append_left _ hname),
    isDir_of_lookup_append hnode hmore⟩

theorem proper_concat {names : List (List Char)} {name : List Char}
    (h : ∀ n ∈ names, Proper n) (hname : Proper name) : ∀ n ∈ names ++ [name], Proper n := by
  intro n hn
  rcases List.mem_append.mp hn with hn | hn
  · exact h n hn
  · rw [List.mem_singleton.mp hn]
    exact hname

/-! ## The last name -/

theorem fileName_concat {absolute : Bool} {names : List (List Char)} {name : List Char}
    (h : Proper name) : Path.fileName ⟨absolute, names ++ [name]⟩ = some name := by
  have hkept : Path.skipped name = false := by simp [Path.skipped, h.1, h.2.1]
  unfold Path.fileName
  rw [List.rdropWhile_concat_neg _ _ _ (by simp [hkept]), List.getLast?_concat]
  simp [h.2.2]

theorem parent_concat {absolute : Bool} {names : List (List Char)} {name : List Char}
    (h : Proper name) : Path.parent ⟨absolute, names ++ [name]⟩ = some ⟨absolute, names⟩ := by
  have hkept : Path.skipped name = false := by simp [Path.skipped, h.1, h.2.1]
  unfold Path.parent
  rw [List.rdropWhile_concat_neg _ _ _ (by simp [hkept])]
  split
  · rename_i hnil
    simp at hnil
  · simp

/-! ## Resolution ends at real places -/

section Descend

variable {root : Node α}
  {follow : List (List Char) → List (List Char) → Option (List (List Char))}

theorem descend_isReal
    (hroot : root.IsDirAt [])
    (hfollow : ∀ cur segs p, root.IsDirAt cur → follow cur segs = some p → root.IsReal p)
    {cur segs p : List (List Char)} (hcur : root.IsDirAt cur)
    (h : descend root follow cur segs = some p) : root.IsReal p := by
  induction segs generalizing cur with
  | nil =>
      cases h
      exact hcur.isReal
  | cons seg rest ih =>
      unfold descend at h
      split at h
      · exact ih hcur h
      · split at h
        · exact ih hcur.dropLast h
        · rename_i hskip hup
          have hproper : Proper seg := ⟨fun hs => hskip (.inl hs), fun hs => hskip (.inr hs), hup⟩
          have hnames := proper_concat hcur.1 hproper
          cases hnode : root.lookup (cur ++ [seg]) with
          | none =>
              rw [hnode] at h
              cases h
          | some node =>
              rw [hnode] at h
              cases node with
              | dir entries => exact ih ⟨hnames, entries, hnode⟩ h
              | link target =>
                  refine hfollow _ _ p ?_ h
                  split
                  · exact hroot
                  · exact hcur
              | file data =>
                  simp only at h
                  split at h
                  · cases h
                    exact ⟨hnames, _, hnode, by simp⟩
                  · cases h
              | other =>
                  simp only at h
                  split at h
                  · cases h
                    exact ⟨hnames, _, hnode, by simp⟩
                  · cases h

theorem descend_cons_proper {seg : List Char} (hseg : Proper seg) (cur rest : List (List Char)) :
    descend root follow cur (seg :: rest) =
      match root.lookup (cur ++ [seg]) with
      | none => none
      | some (.dir _) => descend root follow (cur ++ [seg]) rest
      | some (.link target) =>
          follow (if target.absolute then [] else cur) (target.segments ++ rest)
      | some _ => if rest = [] then some (cur ++ [seg]) else none := by
  rw [descend, if_neg (by simp [hseg.1, hseg.2.1]), if_neg hseg.2.2]

/-- Names that lead to a directory are walked as they stand. -/
theorem descend_append {names : List (List Char)} {cur : List (List Char)}
    (h : root.IsDirAt (cur ++ names)) (segs : List (List Char)) :
    descend root follow cur (names ++ segs) = descend root follow (cur ++ names) segs := by
  induction names generalizing cur with
  | nil => simp
  | cons name rest ih =>
      have hassoc : cur ++ name :: rest = cur ++ [name] ++ rest := by simp
      rw [hassoc] at h ⊢
      have hdir : root.IsDirAt (cur ++ [name]) := by
        by_cases hrest : rest = []
        · subst hrest
          simpa using h
        · exact h.isReal.isDirAt hrest
      obtain ⟨entries, hentries⟩ := hdir.2
      rw [List.cons_append, descend_cons_proper (hdir.1 name (by simp)), hentries]
      exact ih h

end Descend

theorem walk_eq_descend (root : Node α) (limit : ℕ) :
    ∃ follow, walk root limit = descend root follow := by
  cases limit with
  | zero => exact ⟨_, rfl⟩
  | succ limit => exact ⟨_, rfl⟩

theorem walk_isReal {root : Node α} (hroot : root.IsDirAt []) {limit : ℕ}
    {cur segs p : List (List Char)} (hcur : root.IsDirAt cur)
    (h : walk root limit cur segs = some p) : root.IsReal p := by
  induction limit generalizing cur segs p with
  | zero => exact descend_isReal hroot (by simp) hcur h
  | succ limit ih =>
      exact descend_isReal hroot (fun cur segs q hc hq => ih hc hq) hcur h

/-- A real place leads to itself. -/
theorem walk_of_isReal {root : Node α} {limit : ℕ} {p : List (List Char)} (h : root.IsReal p) :
    walk root limit [] p = some p := by
  obtain ⟨follow, hfollow⟩ := walk_eq_descend root limit
  rw [hfollow]
  rcases List.eq_nil_or_concat' p with rfl | ⟨front, last, rfl⟩
  · rfl
  · have hfront := h.isDirAt (List.cons_ne_nil last [])
    obtain ⟨node, hnode, hlink⟩ := h.found
    rw [descend_append (by simpa using hfront), List.nil_append,
      descend_cons_proper (h.proper last (by simp)), hnode]
    cases node with
    | dir entries => rfl
    | file data => rfl
    | link target => exact absurd rfl (hlink target)
    | other => rfl

namespace FileSystem

variable {fs : FileSystem α}

theorem canonicalize_isReal {path : Path} {p : List (List Char)}
    (h : fs.canonicalize path = some p) : fs.root.IsReal p := by
  unfold canonicalize at h
  split at h
  · exact walk_isReal (isDirAt_nil _) (isDirAt_nil _) h
  · split at h
    · cases h
    · exact walk_isReal (isDirAt_nil _) fs.cwd_dir h

/-- A canonical path is its own canonical path. -/
theorem canonicalize_of_isReal {p : List (List Char)} (h : fs.root.IsReal p) :
    fs.canonicalize ⟨true, p⟩ = some p :=
  walk_of_isReal h

theorem canonicalize_idem {path : Path} {p : List (List Char)}
    (h : fs.canonicalize path = some p) : fs.canonicalize ⟨true, p⟩ = some p :=
  canonicalize_of_isReal (canonicalize_isReal h)

theorem lookup_concat {place : List (List Char)} {entries : List (List Char × Node α)}
    (h : fs.root.lookup place = some (.dir entries)) (name : List Char) :
    fs.root.lookup (place ++ [name]) = entries.lookup name := by
  rw [lookup_append, h, Option.bind_some, Node.lookup]
  cases entries.lookup name <;> simp

theorem symlinkMetadata_eq_ok {place : List (List Char)} {name : List Char} {node : Node α}
    (h : fs.symlinkMetadata place name = .ok node) :
    (∃ entries, fs.root.lookup place = some (.dir entries)) ∧
      fs.root.lookup (place ++ [name]) = some node := by
  unfold symlinkMetadata at h
  split at h
  · rename_i entries hplace
    split at h
    · rename_i found hfound
      cases h
      exact ⟨⟨entries, hplace⟩, by rw [lookup_concat hplace, hfound]⟩
    · cases h
  · cases h
  · cases h

/-- In a real place only a directory can lack a name. -/
theorem symlinkMetadata_eq_notFound {place : List (List Char)} {name : List Char}
    (hreal : fs.root.IsReal place) (h : fs.symlinkMetadata place name = .error .notFound) :
    (∃ entries, fs.root.lookup place = some (.dir entries)) ∧
      fs.root.lookup (place ++ [name]) = none := by
  obtain ⟨node, hnode, -⟩ := hreal.found
  unfold symlinkMetadata at h
  split at h
  · rename_i entries hplace
    split at h
    · cases h
    · rename_i hnone
      exact ⟨⟨entries, hplace⟩, by rw [lookup_concat hplace, hnone]⟩
  · cases h
  · rename_i hnone
    rw [hnode] at hnone
    cases hnone

/-- Where a link found in a directory leads. -/
def follow (fs : FileSystem α) (dir : List (List Char)) (target : Path) :
    Option (List (List Char)) :=
  match fs.limit with
  | 0 => none
  | limit + 1 => walk fs.root limit (if target.absolute then [] else dir) target.segments

/-- A name in a directory leads to itself, or to where the link it is leads. -/
theorem canonicalize_entry {dir : List (List Char)} (hdir : fs.root.IsDirAt dir)
    {name : List Char} (hname : Proper name) :
    fs.canonicalize ⟨true, dir ++ [name]⟩ =
      match fs.root.lookup (dir ++ [name]) with
      | none => none
      | some (.link target) => fs.follow dir target
      | some _ => some (dir ++ [name]) := by
  unfold canonicalize follow
  rw [if_pos rfl]
  cases hlimit : fs.limit with
  | zero =>
      rw [walk, descend_append (by simpa using hdir), List.nil_append, descend_cons_proper hname]
      cases hnode : fs.root.lookup (dir ++ [name]) with
      | none => rfl
      | some node => cases node <;> rfl
  | succ limit =>
      rw [walk, descend_append (by simpa using hdir), List.nil_append, descend_cons_proper hname]
      cases hnode : fs.root.lookup (dir ++ [name]) with
      | none => rfl
      | some node =>
          cases node with
          | dir entries => rfl
          | file data => rfl
          | link target => simp
          | other => rfl

end FileSystem

end FileTree
