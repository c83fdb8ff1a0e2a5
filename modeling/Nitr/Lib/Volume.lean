import Nitr.Lib.FileTree
import Nitr.Lib.Text

/-! # Volumes

A file tree whose directories name their entries properly and once each, some of them
unreadable, with the calls that list a directory. There are finitely many places. -/

namespace FileTree

variable {α : Type}

/-! ## Every place of a tree -/

mutual

/-- The places of the nodes of a tree. -/
def Node.places : Node α → List (List (List Char))
  | .dir entries => [] :: placesOf entries
  | .file _ => [[]]
  | .link _ => [[]]
  | .other => [[]]

def placesOf : List (List Char × Node α) → List (List (List Char))
  | [] => []
  | (name, child) :: rest => child.places.map (name :: ·) ++ placesOf rest

end

mutual

/-- Every directory of the tree has proper names, each once. -/
def Node.tidy : Node α → Bool
  | .dir entries => decide (entries.map Prod.fst).Nodup && tidyEntries entries
  | .file _ => true
  | .link _ => true
  | .other => true

def tidyEntries : List (List Char × Node α) → Bool
  | [] => true
  | (name, child) :: rest =>
      name != [] && name != ['.'] && name != ['.', '.'] && child.tidy && tidyEntries rest

end

theorem mem_placesOf {entries : List (List Char × Node α)} {name : List Char} {child : Node α}
    {place : List (List Char)} (hname : entries.lookup name = some child)
    (hplace : place ∈ child.places) : name :: place ∈ placesOf entries := by
  induction entries with
  | nil => cases hname
  | cons entry entries ih =>
      have ⟨first, node⟩ := entry
      rw [placesOf]
      rw [List.lookup_cons] at hname
      split at hname
      · rename_i heq
        cases hname
        rw [beq_iff_eq.mp heq]
        exact List.mem_append_left _ (List.mem_map_of_mem hplace)
      · exact List.mem_append_right _ (ih hname)

theorem nil_mem_places (node : Node α) : [] ∈ node.places := by
  cases node with
  | dir entries =>
      rw [Node.places]
      exact List.mem_cons_self
  | file data => exact List.mem_singleton_self _
  | link target => exact List.mem_singleton_self _
  | other => exact List.mem_singleton_self _

theorem mem_places_of_lookup {node child : Node α} {place : List (List Char)}
    (h : node.lookup place = some child) : place ∈ node.places := by
  induction place generalizing node with
  | nil => exact nil_mem_places node
  | cons name place ih =>
      cases node with
      | dir children =>
          have ⟨next, hnext, hlookup⟩ := Option.bind_eq_some_iff.mp h
          rw [Node.places]
          exact List.mem_cons_of_mem _ (mem_placesOf hnext (ih hlookup))
      | file data => cases h
      | link target => cases h
      | other => cases h

theorem tidy_of_lookup {entries : List (List Char × Node α)} {name : List Char} {child : Node α}
    (htidy : tidyEntries entries = true) (h : entries.lookup name = some child) :
    child.tidy = true := by
  induction entries with
  | nil => cases h
  | cons entry entries ih =>
      have ⟨first, node⟩ := entry
      rw [tidyEntries, Bool.and_eq_true, Bool.and_eq_true] at htidy
      rw [List.lookup_cons] at h
      split at h
      · cases h
        exact htidy.1.2
      · exact ih htidy.2 h

theorem proper_of_mem {entries : List (List Char × Node α)} {name : List Char}
    (htidy : tidyEntries entries = true) (h : name ∈ entries.map Prod.fst) : Proper name := by
  induction entries with
  | nil => cases h
  | cons entry entries ih =>
      have ⟨first, node⟩ := entry
      simp only [tidyEntries, Bool.and_eq_true, bne_iff_ne] at htidy
      cases List.mem_cons.mp h with
      | inl heq =>
          rw [heq]
          exact ⟨htidy.1.1.1.1, htidy.1.1.1.2, htidy.1.1.2⟩
      | inr hrest => exact ih htidy.2 hrest

/-- A tidy tree's directories are tidy. -/
theorem tidy_lookup {node child : Node α} {place : List (List Char)} (htidy : node.tidy = true)
    (h : node.lookup place = some child) : child.tidy = true := by
  induction place generalizing node with
  | nil =>
      rw [lookup_nil] at h
      cases h
      exact htidy
  | cons name place ih =>
      cases node with
      | dir children =>
          have ⟨next, hnext, hlookup⟩ := Option.bind_eq_some_iff.mp h
          rw [Node.tidy, Bool.and_eq_true] at htidy
          exact ih (tidy_of_lookup htidy.2 hnext) hlookup
      | file data => cases h
      | link target => cases h
      | other => cases h

/-! ## Paths -/

namespace Path

/-- `Path::join` with one plain name. -/
def join (path : Path) (name : List Char) : Path :=
  { path with segments := path.segments ++ [name] }

/-- `Path::extension`. -/
def extension (path : Path) : Option (List Char) :=
  match path.fileName.bind fun name => name.rsplitOnce '.' with
  | some (before, after) => if before = [] then none else some after
  | none => none

/-- The parts of a path that its order compares: the root, a leading `.`, `..` and names, in
this order of kinds. -/
def component (segment : List Char) : ℕ × List Char :=
  if segment = ['.', '.'] then (2, []) else (3, segment)

def components (path : Path) : List (ℕ × List Char) :=
  let front : List (ℕ × List Char) :=
    if path.absolute then [(0, [])]
    else if path.segments.head? = some ['.'] then [(1, [])]
    else []
  front ++ (path.segments.filter fun segment => !skipped segment).map component

end Path

/-! ## Volumes -/

structure Volume (α : Type) extends FileSystem α where
  tidy : (Node.dir toFileSystem.entries).tidy = true
  unreadable : List (List Char) → Bool

namespace Volume

/-- The names that `read_dir` lists. -/
def readDir (vol : Volume α) (path : Path) : Option (List (List Char)) :=
  match vol.canonicalize path with
  | none => none
  | some real =>
      match vol.root.lookup real with
      | some (.dir entries) => if vol.unreadable real then none else some (entries.map Prod.fst)
      | _ => none

/-- `Path::is_dir`: links are followed. -/
def isDir (vol : Volume α) (path : Path) : Bool :=
  match vol.metadata path with
  | some (.dir _) => true
  | _ => false

variable {vol : Volume α} {path : Path} {names : List (List Char)}

theorem readDir_eq_some (h : vol.readDir path = some names) :
    ∃ real entries, vol.canonicalize path = some real ∧
      vol.root.lookup real = some (.dir entries) ∧ names = entries.map Prod.fst := by
  rw [readDir] at h
  cases hreal : vol.canonicalize path with
  | none =>
      rw [hreal] at h
      cases h
  | some real =>
      rw [hreal] at h
      simp only at h
      split at h
      · rename_i entries hentries
        split at h
        · cases h
        · exact ⟨real, entries, rfl, hentries, (Option.some.inj h).symm⟩
      · cases h

theorem tidy_of_readDir (h : vol.readDir path = some names) :
    names.Nodup ∧ ∀ name ∈ names, Proper name := by
  have ⟨real, entries, _, hentries, hnames⟩ := readDir_eq_some h
  have htidy := tidy_lookup vol.tidy hentries
  rw [Node.tidy, Bool.and_eq_true, decide_eq_true_eq] at htidy
  rw [hnames]
  exact ⟨htidy.1, fun name hname => proper_of_mem htidy.2 hname⟩

/-- A directory that is not unreadable is listed. -/
theorem readDir_of_isDir (hread : ∀ place, vol.unreadable place = false)
    (h : vol.isDir path = true) :
    ∃ real names, vol.canonicalize path = some real ∧ vol.readDir path = some names := by
  rw [isDir] at h
  split at h
  · rename_i entries hentries
    have ⟨real, hreal, hlookup⟩ := Option.bind_eq_some_iff.mp hentries
    refine ⟨real, entries.map Prod.fst, hreal, ?_⟩
    rw [readDir, hreal]
    simp only [hlookup, hread, Bool.false_eq_true, if_false]
  · cases h

theorem mem_places {real : List (List Char)} (h : vol.canonicalize path = some real) :
    real ∈ vol.root.places := by
  have ⟨_, hnode, _⟩ := (FileSystem.canonicalize_isReal h).found
  exact mem_places_of_lookup hnode

end Volume

/-! ## Names under a path -/

namespace Path

theorem join_inj {p q : Path} {n m : List Char} (h : p.join n = q.join m) : p = q ∧ n = m := by
  have ⟨habsolute, hsegments⟩ := Path.mk.inj h
  have ⟨hfront, hlast⟩ := List.append_inj' hsegments rfl
  cases p
  cases q
  cases habsolute
  cases hfront
  exact ⟨rfl, List.singleton_inj.mp hlast⟩

theorem components_join (path : Path) {name : List Char} (h : Proper name) :
    (path.join name).components = path.components ++ [(3, name)] := by
  have hkept : skipped name = false := by
    rw [skipped, decide_eq_false h.1, decide_eq_false h.2.1]
    rfl
  have hcomponent : component name = (3, name) := if_neg h.2.2
  have hlead : (path.segments ++ [name]).head? = some ['.'] ↔
      path.segments.head? = some ['.'] := by
    cases path.segments with
    | nil => exact ⟨fun heq => absurd (Option.some.inj heq) h.2.1, fun heq => absurd heq.symm (Option.some_ne_none _)⟩
    | cons first rest => exact Iff.rfl
  rw [components, components, join]
  simp only [hlead, List.filter_append, List.map_append, List.append_assoc]
  rw [List.filter_cons_of_pos (by rw [hkept]; rfl), List.filter_nil, List.map_singleton, hcomponent]

end Path

end FileTree
