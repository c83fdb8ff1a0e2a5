import Mathlib.Data.Char
import Mathlib.Data.List.Lex
import Mathlib.Data.List.Sort
import Mathlib.Data.Prod.Lex
import Nitr.Lib.ChainWalk
import Nitr.Lib.Volume

/-! # The sources of a bundle

`lua_files` walks the handler's directory and follows linked directories; a directory that is
one of its own ancestors is left. The walk ends on every volume, and finds each Lua file once. -/

open FileTree

namespace Nitr.App.Bundle

variable {α : Type}

inductive WalkError where
  /-- `cannot resolve the directory` -/
  | resolve (dir : Path)
  /-- `cannot read the directory` -/
  | read (dir : Path)
deriving DecidableEq, Repr

/-- The calls of the walk. -/
def space (vol : Volume α) : ChainWalk.Space Path (List Char) (List (List Char)) WalkError where
  join := Path.join
  place dir :=
    match vol.canonicalize dir with
    | some real => .ok real
    | none => .error (.resolve dir)
  names dir :=
    match vol.readDir dir with
    | some names => .ok names
    | none => .error (.read dir)
  isDir := vol.isDir
  wanted path := path.extension = some ['l', 'u', 'a']

/-- The order of paths compares their components. -/
def key (path : Path) : List (ℕ ×ₗ List Char) := path.components.map toLex

/-- `lua_files`, with the rounds it may take. -/
def luaFiles (vol : Volume α) (rounds : ℕ) (dir : Path) : Option (Except WalkError (List Path)) :=
  ((space vol).walk rounds [(dir, [])] []).map fun found =>
    found.map fun out => out.insertionSort fun p q => key p ≤ key q

/-! ## The calls -/

section

variable {vol : Volume α} {dir : Path} {real : List (List Char)} {names : List (List Char)}

theorem place_eq_ok (h : (space vol).place dir = .ok real) : vol.canonicalize dir = some real := by
  simp only [space] at h
  split at h
  · rename_i hreal
    cases h
    exact hreal
  · cases h

theorem names_eq_ok (h : (space vol).names dir = .ok names) : vol.readDir dir = some names := by
  simp only [space] at h
  split at h
  · rename_i hnames
    cases h
    exact hnames
  · cases h

/-- There are finitely many places. -/
theorem place_mem (dir : Path) (real : List (List Char)) (h : (space vol).place dir = .ok real) :
    real ∈ vol.root.places :=
  Volume.mem_places (place_eq_ok h)

theorem readable (hread : ∀ place, vol.unreadable place = false) (dir : Path)
    (h : (space vol).isDir dir = true) :
    ∃ real names, (space vol).place dir = .ok real ∧ (space vol).names dir = .ok names := by
  have ⟨real, names, hreal, hnames⟩ := Volume.readDir_of_isDir hread h
  refine ⟨real, names, ?_, ?_⟩
  · simp only [space, hreal]
  · simp only [space, hnames]

theorem free (vol : Volume α) : ChainWalk.Free (space vol) fun p => p.segments.length where
  join_inj _ _ _ _ h := Path.join_inj h
  size_join p n := by
    simp only [space, Path.join, List.length_append, List.length_singleton]
  names_nodup _ _ h := (Volume.tidy_of_readDir (names_eq_ok h)).1

end

/-! ## The order -/

section

variable {vol : Volume α} {dir p : Path} {above chain : List (List (List Char))}

/-- Names that are listed continue the components of the start. -/
theorem components_foldl (dir : Path) {word : List (List Char)} (h : ∀ name ∈ word, Proper name) :
    (word.foldl Path.join dir).components = dir.components ++ word.map fun name => (3, name) := by
  induction word using List.reverseRecOn with
  | nil => exact (List.append_nil _).symm
  | append_singleton word name ih =>
      have hname : Proper name := h name (List.mem_append_right _ (List.mem_singleton_self _))
      have hword : ∀ name ∈ word, Proper name := fun n hn => h n (List.mem_append_left _ hn)
      rw [List.foldl_append, List.foldl_cons, List.foldl_nil, Path.components_join _ hname,
        ih hword, List.map_append, List.append_assoc, List.map_singleton]

/-- The names on a route are names of directories' entries. -/
theorem route_word (h : ChainWalk.Route (space vol) dir above p chain) :
    ∃ word : List (List Char), (∀ name ∈ word, Proper name) ∧ p = word.foldl Path.join dir := by
  induction h with
  | start => exact ⟨[], fun _ hn => absurd hn List.not_mem_nil, rfl⟩
  | @step dir' chain real names name route place entries entry descends ih =>
      have ⟨word, hword, hdir⟩ := ih
      refine ⟨word ++ [name], ?_, ?_⟩
      · intro n hn
        cases List.mem_append.mp hn with
        | inl hold => exact hword n hold
        | inr hnew =>
            rw [List.mem_singleton.mp hnew]
            exact (Volume.tidy_of_readDir (names_eq_ok entries)).2 name entry
      · rw [List.foldl_append, ← hdir]
        rfl

theorem found_word (h : ChainWalk.Found (space vol) dir above p) :
    ∃ word : List (List Char), (∀ name ∈ word, Proper name) ∧ p = word.foldl Path.join dir := by
  have ⟨dir', chain, real, names, name, hroute, _, _, hnames, hname, hp, _⟩ := h.found
  have ⟨word, hword, hdir⟩ := route_word hroute
  refine ⟨word ++ [name], ?_, ?_⟩
  · intro n hn
    cases List.mem_append.mp hn with
    | inl hold => exact hword n hold
    | inr hnew =>
        rw [List.mem_singleton.mp hnew]
        exact (Volume.tidy_of_readDir (names_eq_ok hnames)).2 name hname
  · rw [hp, List.foldl_append, ← hdir]
    rfl

/-- Two paths that the walk finds and that compare equal are one path. -/
theorem eq_of_key_eq {q : Path} (hp : ChainWalk.Found (space vol) dir above p)
    (hq : ChainWalk.Found (space vol) dir above q) (h : key p = key q) : p = q := by
  have ⟨word, hword, hpath⟩ := found_word hp
  have ⟨word', hword', hpath'⟩ := found_word hq
  have hcomponents : p.components = q.components :=
    List.map_injective_iff.mpr toLex.injective h
  rw [hpath, hpath', components_foldl dir hword, components_foldl dir hword'] at hcomponents
  have hnames := List.append_cancel_left hcomponents
  have hsame : word = word' :=
    List.map_injective_iff.mpr (fun _ _ heq => (Prod.mk.inj heq).2) hnames
  rw [hpath, hpath', hsame]

/-- Sorted without equals, what compares equal being equal. -/
theorem insertionSort_strict {out : List Path} (hnodup : out.Nodup)
    (hkey : ∀ p ∈ out, ∀ q ∈ out, key p = key q → p = q) :
    (out.insertionSort fun p q => key p ≤ key q).Pairwise fun p q => key p < key q := by
  have htotal : Std.Total fun p q : Path => key p ≤ key q := ⟨fun p q => le_total _ _⟩
  have htrans : IsTrans Path fun p q => key p ≤ key q := ⟨fun _ _ _ => le_trans⟩
  have hperm := List.perm_insertionSort (fun p q => key p ≤ key q) out
  have hsorted := List.pairwise_insertionSort (fun p q : Path => key p ≤ key q) out
  have hdistinct := hperm.nodup_iff.mpr hnodup
  refine (hsorted.and hdistinct).imp_of_mem fun {p q} hp hq hpq => ?_
  refine lt_of_le_of_ne hpq.1 fun heq => hpq.2 ?_
  exact hkey p (hperm.mem_iff.mp hp) q (hperm.mem_iff.mp hq) heq

end

/-! ## The walk -/

section

variable (vol : Volume α) (dir : Path)

/-- The rounds that suffice. -/
def enough : ℕ := (space vol).load vol.root.places [(dir, [])] + 1

theorem luaFiles_ends :
    ∃ result, ∀ rounds, enough vol dir ≤ rounds → luaFiles vol rounds dir = some result := by
  have hchains : ∀ e ∈ [(dir, ([] : List (List (List Char))))],
      ChainWalk.Chain vol.root.places e.2 := by
    intro e he
    rw [List.mem_singleton.mp he]
    exact ChainWalk.chain_nil
  have ⟨result, hwalk⟩ : ∃ result, (space vol).walk (enough vol dir) [(dir, [])] [] = some result :=
    ChainWalk.walk_ends place_mem hchains (Nat.lt_succ_self _)
  refine ⟨result.map fun out => out.insertionSort fun p q => key p ≤ key q,
    fun rounds hle => ?_⟩
  rw [luaFiles, ChainWalk.walk_mono hwalk hle, Option.map_some]

theorem luaFiles_of_readable (hdir : vol.isDir dir = true)
    (hread : ∀ place, vol.unreadable place = false) {rounds : ℕ} (hle : enough vol dir ≤ rounds) :
    luaFiles vol rounds dir =
      some (.ok (((space vol).collect (ChainWalk.depth vol.root.places []) dir []).insertionSort
        fun p q => key p ≤ key q)) := by
  have hstart : ∀ e ∈ [(dir, ([] : List (List (List Char))))],
      (space vol).isDir e.1 = true ∧ ChainWalk.Chain vol.root.places e.2 := by
    intro e he
    rw [List.mem_singleton.mp he]
    exact ⟨hdir, ChainWalk.chain_nil⟩
  rw [luaFiles, ChainWalk.walk_eq place_mem (readable hread) hstart hle, List.nil_append,
    List.flatMap_singleton]
  rfl

end

/-- The walk ends, in an error or a list. Where no directory is unreadable it ends in the
list, sorted and without duplicates, of the Lua files on the routes that repeat no place. -/
theorem luaFiles_complete (vol : Volume α) (dir : Path) :
    (∃ result least, ∀ rounds, least ≤ rounds → luaFiles vol rounds dir = some result) ∧
    (vol.isDir dir = true → (∀ place, vol.unreadable place = false) →
      ∃ files least, (∀ rounds, least ≤ rounds → luaFiles vol rounds dir = some (.ok files)) ∧
        files.Pairwise (fun p q => key p < key q) ∧
        ∀ p, p ∈ files ↔ ChainWalk.Found (space vol) dir [] p) := by
  constructor
  · have ⟨result, hresult⟩ := luaFiles_ends vol dir
    exact ⟨result, enough vol dir, hresult⟩
  · intro hdir hread
    have hmem : ∀ p, p ∈ (space vol).collect (ChainWalk.depth vol.root.places []) dir [] ↔
        ChainWalk.Found (space vol) dir [] p := fun p =>
      ChainWalk.mem_collect place_mem ChainWalk.chain_nil
    refine ⟨_, enough vol dir, fun rounds hle => luaFiles_of_readable vol dir hdir hread hle,
      ?_, ?_⟩
    · refine insertionSort_strict (ChainWalk.collect_nodup (free vol) _ _ _) ?_
      intro p hp q hq heq
      exact eq_of_key_eq ((hmem p).mp hp) ((hmem q).mp hq) heq
    · intro p
      exact (List.mem_insertionSort _).trans (hmem p)

/-- An application directory with a link to itself and a module below. -/
def looped : Volume Unit where
  entries := [(['a', '.', 'l', 'u', 'a'], .file ()), (['l', 'o', 'o', 'p'], .link ⟨false, [['.']]⟩),
    (['s', 'u', 'b'], .dir [(['b', '.', 'l', 'u', 'a'], .file ())])]
  cwd := []
  limit := 40
  cwd_dir := isDirAt_nil _
  tidy := by decide
  unreadable _ := false

theorem luaFiles_complete_looped :
    looped.isDir ⟨false, [['.']]⟩ = true ∧ (∀ place, looped.unreadable place = false) ∧
    ∃ files least, (∀ rounds, least ≤ rounds →
        luaFiles looped rounds ⟨false, [['.']]⟩ = some (.ok files)) ∧
      files.Pairwise (fun p q => key p < key q) ∧
      ∀ p, p ∈ files ↔ ChainWalk.Found (space looped) ⟨false, [['.']]⟩ [] p :=
  ⟨by decide, fun _ => rfl, (luaFiles_complete looped ⟨false, [['.']]⟩).2 (by decide) fun _ => rfl⟩

example : luaFiles looped 5 ⟨false, [['.']]⟩ =
    some (.ok [⟨false, [['.'], ['a', '.', 'l', 'u', 'a']]⟩,
      ⟨false, [['.'], ['s', 'u', 'b'], ['b', '.', 'l', 'u', 'a']]⟩]) := by
  decide +kernel

end Nitr.App.Bundle
