import Mathlib.Algebra.Ring.Nat
import Mathlib.Data.List.Induction
import Mathlib.Data.List.Nodup
import Mathlib.Data.List.Perm.Subperm

/-! # Walks that know their ancestors

A depth-first walk over paths of which several lead to one place. Each path on the stack
carries the places above it, and a path is left where its place is one of them. With finitely
many places the walk ends, and it keeps exactly what lies on paths that repeat no place. -/

namespace ChainWalk

variable {P ν K ε : Type}

structure Space (P ν K ε : Type) where
  /-- A name under a path. -/
  join : P → ν → P
  /-- Where a path leads. -/
  place : P → Except ε K
  names : P → Except ε (List ν)
  isDir : P → Bool
  wanted : P → Bool

/-- The directories under a path. -/
def Space.below (s : Space P ν K ε) (dir : P) (names : List ν) : List P :=
  (names.map (s.join dir)).filter s.isDir

/-- What is kept of a directory's entries. -/
def Space.kept (s : Space P ν K ε) (dir : P) (names : List ν) : List P :=
  (names.map (s.join dir)).filter fun p => !s.isDir p && s.wanted p

section

variable [DecidableEq K]

/-- The walk with the rounds it may take; the top of the stack is its head. -/
def Space.walk (s : Space P ν K ε) :
    ℕ → List (P × List K) → List P → Option (Except ε (List P))
  | 0, _, _ => none
  | _ + 1, [], out => some (.ok out)
  | rounds + 1, (dir, ancestors) :: stack, out =>
      match s.place dir with
      | .error e => some (.error e)
      | .ok real =>
          if real ∈ ancestors then s.walk rounds stack out
          else
            match s.names dir with
            | .error e => some (.error e)
            | .ok names =>
                let chain := ancestors ++ [real]
                s.walk rounds (((s.below dir names).map fun p => (p, chain)).reverse ++ stack)
                  (out ++ s.kept dir names)

end

/-! ## What the walk should find -/

/-- From a path with the places above it, the paths below with theirs. -/
inductive Route (s : Space P ν K ε) (start : P) (above : List K) : P → List K → Prop where
  | start : Route s start above start above
  | step {dir : P} {chain : List K} {real : K} {names : List ν} {name : ν}
      (route : Route s start above dir chain) (place : s.place dir = .ok real)
      (entries : s.names dir = .ok names) (entry : name ∈ names)
      (descends : s.isDir (s.join dir name) = true) :
      Route s start above (s.join dir name) (chain ++ [real])

/-- A wanted path in a directory that a route without a repeated place leads to. -/
structure Found (s : Space P ν K ε) (start : P) (above : List K) (p : P) : Prop where
  intro ::
  found : ∃ dir chain real names name, Route s start above dir chain ∧ s.place dir = .ok real ∧
    (chain ++ [real]).Nodup ∧ s.names dir = .ok names ∧ name ∈ names ∧ p = s.join dir name ∧
    s.isDir p = false ∧ s.wanted p = true

section

variable {s : Space P ν K ε} {start dir p : P} {above chain : List K}

/-- A route with one more path in front of it. -/
theorem Route.head {real : K} {names : List ν} {name : ν} (hplace : s.place start = .ok real)
    (hnames : s.names start = .ok names) (hname : name ∈ names)
    (hdir : s.isDir (s.join start name) = true)
    (h : Route s (s.join start name) (above ++ [real]) dir chain) :
    Route s start above dir chain := by
  induction h with
  | start => exact .step .start hplace hnames hname hdir
  | step _ place entries entry descends ih => exact .step ih place entries entry descends

/-- A route goes nowhere or starts with one of the names. -/
theorem Route.cases_head (h : Route s start above dir chain) :
    (dir = start ∧ chain = above) ∨
      ∃ real names name, s.place start = .ok real ∧ s.names start = .ok names ∧ name ∈ names ∧
        s.isDir (s.join start name) = true ∧
        Route s (s.join start name) (above ++ [real]) dir chain := by
  induction h with
  | start => exact .inl ⟨rfl, rfl⟩
  | step route place entries entry descends ih =>
      cases ih with
      | inl hstart =>
          have ⟨hdir, hchain⟩ := hstart
          subst hdir hchain
          exact .inr ⟨_, _, _, place, entries, entry, descends, .start⟩
      | inr hstep =>
          have ⟨real, names, name, hplace, hnames, hname, hdescends, hroute⟩ := hstep
          exact .inr ⟨real, names, name, hplace, hnames, hname, hdescends,
            .step hroute place entries entry descends⟩

/-- A route only adds places. -/
theorem Route.prefix_chain (h : Route s start above dir chain) : above <+: chain := by
  induction h with
  | start => exact List.prefix_refl _
  | step _ _ _ _ _ ih => exact ih.trans (List.prefix_append ..)

theorem mem_below {names : List ν} :
    p ∈ s.below dir names ↔ ∃ name ∈ names, s.join dir name = p ∧ s.isDir p = true := by
  rw [Space.below, List.mem_filter, List.mem_map]
  constructor
  · intro ⟨⟨name, hname, hp⟩, hdir⟩
    exact ⟨name, hname, hp, hdir⟩
  · intro ⟨name, hname, hp, hdir⟩
    exact ⟨⟨name, hname, hp⟩, hdir⟩

theorem mem_kept {names : List ν} :
    p ∈ s.kept dir names ↔
      ∃ name ∈ names, s.join dir name = p ∧ s.isDir p = false ∧ s.wanted p = true := by
  rw [Space.kept, List.mem_filter, List.mem_map, Bool.and_eq_true, Bool.not_eq_true']
  constructor
  · intro ⟨⟨name, hname, hp⟩, hdir, hwanted⟩
    exact ⟨name, hname, hp, hdir, hwanted⟩
  · intro ⟨name, hname, hp, hdir, hwanted⟩
    exact ⟨⟨name, hname, hp⟩, hdir, hwanted⟩

end

/-! ## The tree that is walked -/

section

variable [DecidableEq K]

/-- What lies under a path, to a depth, in the order of the walk. -/
def Space.collect (s : Space P ν K ε) : ℕ → P → List K → List P
  | 0, _, _ => []
  | depth + 1, dir, ancestors =>
      match s.place dir, s.names dir with
      | .ok real, .ok names =>
          if real ∈ ancestors then []
          else s.kept dir names ++
            (s.below dir names).reverse.flatMap fun p => s.collect depth p (ancestors ++ [real])
      | _, _ => []

/-- The rounds that a path on the stack takes. -/
def Space.cost (s : Space P ν K ε) : ℕ → P → List K → ℕ
  | 0, _, _ => 1
  | depth + 1, dir, ancestors =>
      match s.place dir, s.names dir with
      | .ok real, .ok names =>
          if real ∈ ancestors then 1
          else 1 + ((s.below dir names).reverse.map fun p =>
            s.cost depth p (ancestors ++ [real])).sum
      | _, _ => 1

variable {s : Space P ν K ε} {stack : List (P × List K)} {out : List P} {rounds : ℕ}

/-- More rounds change nothing. -/
theorem walk_mono {result : Except ε (List P)} (h : s.walk rounds stack out = some result)
    {more : ℕ} (hle : rounds ≤ more) : s.walk more stack out = some result := by
  induction rounds generalizing stack out more with
  | zero => cases h
  | succ rounds ih =>
      cases more with
      | zero => exact absurd hle (Nat.not_succ_le_zero _)
      | succ more =>
          have hle' := Nat.le_of_succ_le_succ hle
          cases stack with
          | nil => exact h
          | cons e stack =>
              have ⟨dir, ancestors⟩ := e
              rw [Space.walk] at h ⊢
              cases hplace : s.place dir with
              | error e =>
                  rw [hplace] at h
                  exact h
              | ok real =>
                  rw [hplace] at h
                  simp only at h ⊢
                  by_cases hseen : real ∈ ancestors
                  · rw [if_pos hseen] at h ⊢
                    exact ih h hle'
                  · rw [if_neg hseen] at h ⊢
                    cases hnames : s.names dir with
                    | error e =>
                        rw [hnames] at h
                        exact h
                    | ok names =>
                        rw [hnames] at h
                        exact ih h hle'

/-! ## The end of the walk -/

/-- A chain of distinct places, all among the given ones. -/
structure Chain (places : List K) (chain : List K) : Prop where
  nodup : chain.Nodup
  subset : chain ⊆ places

/-- The places that a chain leaves, and one more. -/
def depth (places chain : List K) : ℕ := places.length + 1 - chain.length

def Space.load (s : Space P ν K ε) (places : List K) (stack : List (P × List K)) : ℕ :=
  (stack.map fun e => s.cost (depth places e.2) e.1 e.2).sum

variable {places chain : List K} {dir : P} {real : K} {names : List ν}

omit [DecidableEq K] in
theorem chain_nil : Chain places [] := ⟨List.nodup_nil, List.nil_subset _⟩

omit [DecidableEq K] in
theorem Chain.length_le (h : Chain places chain) : chain.length ≤ places.length :=
  (h.nodup.subperm h.subset).length_le

omit [DecidableEq K] in
theorem Chain.concat (h : Chain places chain) (hreal : real ∈ places) (hnew : real ∉ chain) :
    Chain places (chain ++ [real]) where
  nodup := List.nodup_append.mpr ⟨h.nodup, List.nodup_singleton _, fun _ ha _ hb heq =>
    hnew (List.mem_singleton.mp hb ▸ heq ▸ ha)⟩
  subset := List.append_subset.mpr ⟨h.subset, List.cons_subset.mpr ⟨hreal, List.nil_subset _⟩⟩

omit [DecidableEq K] in
/-- A longer chain leaves one place less. -/
theorem depth_concat (h : Chain places (chain ++ [real])) :
    depth places chain = depth places (chain ++ [real]) + 1 := by
  have hlen := h.length_le
  rw [List.length_append, List.length_singleton] at hlen
  rw [depth, depth, List.length_append, List.length_singleton]
  omega

omit [DecidableEq K] in
theorem depth_pos (h : Chain places chain) : ∃ d, depth places chain = d + 1 := by
  have hlen := h.length_le
  exact ⟨places.length - chain.length, by rw [depth]; omega⟩

theorem cost_pos (d : ℕ) (dir : P) (chain : List K) : 1 ≤ s.cost d dir chain := by
  cases d with
  | zero => exact Nat.le_refl 1
  | succ d =>
      rw [Space.cost]
      split
      · split <;> omega
      · exact Nat.le_refl 1

/-- The stack once a directory is opened. -/
theorem load_open (hplace : s.place dir = .ok real) (hnames : s.names dir = .ok names)
    (hnew : real ∉ chain) (hchain : Chain places (chain ++ [real])) :
    s.load places ((dir, chain) :: stack) =
      s.load places (((s.below dir names).map fun p => (p, chain ++ [real])).reverse ++ stack) +
        1 := by
  rw [Space.load, Space.load, List.map_cons, List.sum_cons, depth_concat hchain, Space.cost, hplace,
    hnames, List.map_append, List.sum_append, ← List.map_reverse, List.map_map]
  simp only [if_neg hnew]
  rw [Nat.add_comm 1, Nat.add_right_comm]
  rfl

theorem load_lt (dir : P) (chain : List K) :
    s.load places stack < s.load places ((dir, chain) :: stack) := by
  have hcost := cost_pos (s := s) (depth places chain) dir chain
  rw [Space.load, Space.load, List.map_cons, List.sum_cons]
  exact Nat.lt_add_of_pos_left hcost

/-- With finitely many places the walk ends, in an error or not. -/
theorem walk_ends (hplaces : ∀ dir real, s.place dir = .ok real → real ∈ places)
    (hstack : ∀ e ∈ stack, Chain places e.2) (hload : s.load places stack < rounds) :
    ∃ result, s.walk rounds stack out = some result := by
  induction rounds generalizing stack out with
  | zero => exact absurd hload (Nat.not_lt_zero _)
  | succ rounds ih =>
      cases stack with
      | nil => exact ⟨_, rfl⟩
      | cons e stack =>
          have ⟨dir, chain⟩ := e
          have hrest : ∀ e ∈ stack, Chain places e.2 := fun e he =>
            hstack e (List.mem_cons_of_mem _ he)
          rw [Space.walk]
          cases hplace : s.place dir with
          | error e => exact ⟨_, rfl⟩
          | ok real =>
              simp only
              by_cases hseen : real ∈ chain
              · rw [if_pos hseen]
                exact ih hrest (Nat.lt_of_lt_of_le (load_lt dir chain) (Nat.le_of_lt_succ hload))
              · rw [if_neg hseen]
                cases hnames : s.names dir with
                | error e => exact ⟨_, rfl⟩
                | ok names =>
                    have hchain := (hstack _ List.mem_cons_self).concat (hplaces _ _ hplace) hseen
                    rw [load_open hplace hnames hseen hchain] at hload
                    refine ih ?_ (Nat.lt_of_succ_lt_succ hload)
                    intro e he
                    cases List.mem_append.mp he with
                    | inl hnew =>
                        have ⟨p, _, hp⟩ := List.mem_map.mp (List.mem_reverse.mp hnew)
                        exact hp ▸ hchain
                    | inr hold => exact hrest e hold

theorem collect_open (hplace : s.place dir = .ok real) (hnames : s.names dir = .ok names)
    (hnew : real ∉ chain) (hnext : Chain places (chain ++ [real])) :
    s.collect (depth places chain) dir chain =
      s.kept dir names ++ (s.below dir names).reverse.flatMap fun p =>
        s.collect (depth places (chain ++ [real])) p (chain ++ [real]) := by
  rw [depth_concat hnext, Space.collect, hplace, hnames]
  exact if_neg hnew

/-- Where every directory can be read, the walk ends with the tree below its stack. -/
theorem walk_eq (hplaces : ∀ dir real, s.place dir = .ok real → real ∈ places)
    (hread : ∀ dir, s.isDir dir = true → ∃ real names, s.place dir = .ok real ∧
      s.names dir = .ok names)
    (hstack : ∀ e ∈ stack, s.isDir e.1 = true ∧ Chain places e.2)
    (hload : s.load places stack < rounds) :
    s.walk rounds stack out =
      some (.ok (out ++ stack.flatMap fun e => s.collect (depth places e.2) e.1 e.2)) := by
  induction rounds generalizing stack out with
  | zero => exact absurd hload (Nat.not_lt_zero _)
  | succ rounds ih =>
      cases stack with
      | nil =>
          rw [Space.walk, List.flatMap_nil, List.append_nil]
      | cons e stack =>
          have ⟨dir, chain⟩ := e
          have hrest : ∀ e ∈ stack, s.isDir e.1 = true ∧ Chain places e.2 := fun e he =>
            hstack e (List.mem_cons_of_mem _ he)
          have ⟨hdir, hchain⟩ := hstack _ List.mem_cons_self
          have ⟨real, names, hplace, hnames⟩ := hread dir hdir
          have ⟨d, hd⟩ := depth_pos hchain
          rw [Space.walk, hplace, hnames, List.flatMap_cons]
          simp only
          by_cases hseen : real ∈ chain
          · have hcut : s.collect (depth places chain) dir chain = [] := by
              rw [hd, Space.collect, hplace, hnames]
              exact if_pos hseen
            rw [if_pos hseen, hcut, List.nil_append]
            exact ih hrest (Nat.lt_of_lt_of_le (load_lt dir chain) (Nat.le_of_lt_succ hload))
          · have hnext := hchain.concat (hplaces _ _ hplace) hseen
            rw [load_open hplace hnames hseen hnext] at hload
            rw [if_neg hseen, ih ?_ (Nat.lt_of_succ_lt_succ hload),
              collect_open hplace hnames hseen hnext, List.flatMap_append,
              ← List.map_reverse, List.flatMap_map, List.append_assoc, List.append_assoc]
            intro e he
            cases List.mem_append.mp he with
            | inl hnew =>
                have ⟨p, hp, heq⟩ := List.mem_map.mp (List.mem_reverse.mp hnew)
                have ⟨_, _, _, hdescends⟩ := mem_below.mp hp
                exact heq ▸ ⟨hdescends, hnext⟩
            | inr hold => exact hrest e hold

/-! ## What the tree holds -/

theorem found_of_mem_collect {d : ℕ} {p : P} (hdistinct : chain.Nodup)
    (h : p ∈ s.collect d dir chain) : Found s dir chain p := by
  induction d generalizing dir chain with
  | zero => cases h
  | succ d ih =>
      rw [Space.collect] at h
      cases hplace : s.place dir with
      | error e =>
          rw [hplace] at h
          cases h
      | ok real =>
          cases hnames : s.names dir with
          | error e =>
              rw [hplace, hnames] at h
              cases h
          | ok names =>
              rw [hplace, hnames] at h
              simp only at h
              split at h
              · cases h
              · rename_i hnew
                have hnext : (chain ++ [real]).Nodup :=
                  List.nodup_append.mpr ⟨hdistinct, List.nodup_singleton _, fun _ ha _ hb heq =>
                    hnew (List.mem_singleton.mp hb ▸ heq ▸ ha)⟩
                cases List.mem_append.mp h with
                | inl hkept =>
                    have ⟨name, hname, hp, hfile, hwanted⟩ := mem_kept.mp hkept
                    exact ⟨dir, chain, real, names, name, .start, hplace, hnext, hnames, hname,
                      hp.symm, hfile, hwanted⟩
                | inr hbelow =>
                    have ⟨q, hq, hcollect⟩ := List.mem_flatMap.mp hbelow
                    have ⟨name, hname, heq, hdescends⟩ := mem_below.mp (List.mem_reverse.mp hq)
                    rw [← heq] at hcollect hdescends
                    have ⟨dir', chain', real', names', name', hroute, hrest⟩ :=
                      (ih hnext hcollect).found
                    exact ⟨dir', chain', real', names', name',
                      .head hplace hnames hname hdescends hroute, hrest⟩

theorem mem_collect_of_found {p : P}
    (hplaces : ∀ dir real, s.place dir = .ok real → real ∈ places) (hchain : Chain places chain)
    (h : Found s dir chain p) : p ∈ s.collect (depth places chain) dir chain := by
  have ⟨dir', chain', real', names', name', hroute, hplace', hdistinct, hrest⟩ := h.found
  -- A route gets shorter from its front, and the chain it starts with longer.
  generalize hd : depth places chain = d
  induction d generalizing dir chain with
  | zero =>
      have ⟨_, hpos⟩ := depth_pos hchain
      rw [hpos] at hd
      cases hd
  | succ d ih =>
      cases hroute.cases_head with
      | inl hstart =>
          have ⟨hdir, hsame⟩ := hstart
          subst hdir hsame
          have ⟨hnames, hname, hp, hfile, hwanted⟩ := hrest
          have hnew : real' ∉ chain' := fun hmem =>
            (List.nodup_append.mp hdistinct).2.2 _ hmem _ (List.mem_singleton_self _) rfl
          have hnext := hchain.concat (hplaces _ _ hplace') hnew
          rw [← hd, collect_open hplace' hnames hnew hnext]
          exact List.mem_append_left _ (mem_kept.mpr ⟨name', hname, hp.symm, hfile, hwanted⟩)
      | inr hstep =>
          have ⟨real, names, name, hplace, hnames, hname, hdescends, hlater⟩ := hstep
          have hlonger : chain ++ [real] <+: chain' ++ [real'] :=
            hlater.prefix_chain.trans (List.prefix_append ..)
          have hnew : real ∉ chain := fun hmem =>
            (List.nodup_append.mp (hlonger.sublist.nodup hdistinct)).2.2 _ hmem _
              (List.mem_singleton_self _) rfl
          have hnext := hchain.concat (hplaces _ _ hplace) hnew
          have hdepth := depth_concat hnext
          have hbelow := ih hnext ⟨dir', chain', real', names', name', hlater, hplace', hdistinct,
            hrest⟩ hlater (by omega)
          rw [← hd, collect_open hplace hnames hnew hnext, show depth places (chain ++ [real]) = d by
            omega]
          refine List.mem_append_right _ (List.mem_flatMap.mpr ⟨s.join dir name, ?_, hbelow⟩)
          exact List.mem_reverse.mpr (mem_below.mpr ⟨name, hname, rfl, hdescends⟩)

/-- The tree below a directory holds what the routes from it find. -/
theorem mem_collect {p : P} (hplaces : ∀ dir real, s.place dir = .ok real → real ∈ places)
    (hchain : Chain places chain) :
    p ∈ s.collect (depth places chain) dir chain ↔ Found s dir chain p :=
  ⟨found_of_mem_collect hchain.nodup, mem_collect_of_found hplaces hchain⟩

/-! ## Nothing twice -/

/-- Names lead to distinct paths, each longer than the one it is under. -/
structure Free (s : Space P ν K ε) (size : P → ℕ) : Prop where
  join_inj : ∀ p q n m, s.join p n = s.join q m → p = q ∧ n = m
  size_join : ∀ p n, size (s.join p n) = size p + 1
  names_nodup : ∀ p names, s.names p = .ok names → names.Nodup

section Words

variable {size : P → ℕ} (hfree : Free s size)

include hfree

omit [DecidableEq K] in
theorem Free.size_foldl (p : P) (word : List ν) :
    size (word.foldl s.join p) = size p + word.length := by
  induction word generalizing p with
  | nil => rfl
  | cons n word ih =>
      rw [List.foldl_cons, ih, hfree.size_join, List.length_cons]
      omega

omit [DecidableEq K] in
theorem Free.foldl_inj {p : P} {word word' : List ν}
    (h : word.foldl s.join p = word'.foldl s.join p) : word = word' := by
  have hsize := congrArg size h
  rw [hfree.size_foldl, hfree.size_foldl] at hsize
  induction word using List.reverseRecOn generalizing word' with
  | nil =>
      cases word' with
      | nil => rfl
      | cons m word' =>
          rw [List.length_nil, List.length_cons] at hsize
          omega
  | append_singleton word n ih =>
      cases word' using List.reverseRecOn with
      | nil =>
          rw [List.length_append, List.length_singleton, List.length_nil] at hsize
          omega
      | append_singleton word' m =>
          rw [List.foldl_append, List.foldl_append] at h
          rw [List.length_append, List.length_append, List.length_singleton,
            List.length_singleton] at hsize
          have ⟨hword, hname⟩ := hfree.join_inj _ _ _ _ h
          rw [ih hword (by omega), hname]

end Words

/-- What lies under a path continues it by at least one name. -/
theorem exists_word {d : ℕ} {p : P} (h : p ∈ s.collect d dir chain) :
    ∃ name word, p = (name :: word).foldl s.join dir := by
  induction d generalizing dir chain with
  | zero => cases h
  | succ d ih =>
      rw [Space.collect] at h
      split at h
      · split at h
        · cases h
        · cases List.mem_append.mp h with
          | inl hkept =>
              have ⟨name, _, hp, _⟩ := mem_kept.mp hkept
              exact ⟨name, [], hp.symm⟩
          | inr hbelow =>
              have ⟨q, hq, hcollect⟩ := List.mem_flatMap.mp hbelow
              have ⟨name, _, heq, _⟩ := mem_below.mp (List.mem_reverse.mp hq)
              have ⟨next, word, hp⟩ := ih hcollect
              exact ⟨name, next :: word, by rw [hp, ← heq]; rfl⟩
      · cases h

theorem collect_nodup {size : P → ℕ} (hfree : Free s size) (d : ℕ) (dir : P) (chain : List K) :
    (s.collect d dir chain).Nodup := by
  induction d generalizing dir chain with
  | zero => exact List.nodup_nil
  | succ d ih =>
      rw [Space.collect]
      split
      · rename_i real names _ hnames
        split
        · exact List.nodup_nil
        · have hinj : Function.Injective (s.join dir) := fun n m heq =>
            (hfree.join_inj _ _ _ _ heq).2
          have hjoined : (names.map (s.join dir)).Nodup :=
            (hfree.names_nodup _ _ hnames).map hinj
          have hbelow : (s.below dir names).reverse.Nodup :=
            List.nodup_reverse.mpr (hjoined.filter _)
          refine List.nodup_append.mpr ⟨hjoined.filter _, List.nodup_flatMap.mpr
            ⟨fun p _ => ih p _, ?_⟩, ?_⟩
          · -- Under distinct names the words differ at the first one.
            refine hbelow.pairwise_of_forall_ne fun q hq q' hq' hne => ?_
            refine List.disjoint_left.mpr fun p hp hp' => ?_
            obtain ⟨name, _, heq, _⟩ := mem_below.mp (List.mem_reverse.mp hq)
            obtain ⟨name', _, heq', _⟩ := mem_below.mp (List.mem_reverse.mp hq')
            obtain ⟨next, word, hword⟩ := exists_word hp
            obtain ⟨next', word', hword'⟩ := exists_word hp'
            rw [← heq] at hword
            rw [← heq'] at hword'
            have hsame : (name :: next :: word).foldl s.join dir =
                (name' :: next' :: word').foldl s.join dir := hword.symm.trans hword'
            have hname := (List.cons.inj (hfree.foldl_inj hsame)).1
            exact hne (by rw [← heq, ← heq', hname])
          · -- What is kept here is one name long, what lies below longer.
            intro p hp p' hp' heq
            obtain ⟨q, hq, hcollect⟩ := List.mem_flatMap.mp hp'
            obtain ⟨name, _, hname, _⟩ := mem_kept.mp hp
            obtain ⟨name', _, hname', _⟩ := mem_below.mp (List.mem_reverse.mp hq)
            obtain ⟨next, word, hword⟩ := exists_word hcollect
            rw [← hname'] at hword
            have hsame : [name].foldl s.join dir = (name' :: next :: word).foldl s.join dir :=
              hname.trans (heq.trans hword)
            cases hfree.foldl_inj hsame
      · exact List.nodup_nil

end

end ChainWalk
