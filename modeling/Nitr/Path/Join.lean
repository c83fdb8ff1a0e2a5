import Nitr.Path.Normalize

/-! # Joining and normalizing

What is joined keeps the style of its first segment, so a join can be taken up again. A segment
without a root only adds its names to those of the base, and the stack machine reads the names of
a normal form as it reads the names it came from. -/

namespace Nitr.Path

/-! ## The style of what is joined -/

/-- A text that shows the style it is given. -/
def Keeps (windows : Bool) (out : Text) : Prop := '/' ∈ out ∨ drive out = windows

theorem drive_append {out : Text} (h : drive out = true) (more : Text) :
    drive (out ++ more) = true := by
  obtain ⟨c, rest, rfl, hc⟩ := drive_eq_true h
  exact hc

theorem isWindowsStyle_restyle {out : Text} {windows : Bool} (hback : '\\' ∉ out)
    (h : Keeps windows out) : isWindowsStyle (restyle out windows) = windows := by
  by_cases hslash : '/' ∈ out
  · cases windows with
    | false => simp [isWindowsStyle, restyle, hback, hslash]
    | true =>
        have hmem : '\\' ∈ restyle out true := List.mem_map.mpr ⟨'/', hslash, rfl⟩
        simp [isWindowsStyle, hmem]
  · have hdrive := h.resolve_left hslash
    rw [restyle_of_not_mem hslash]
    simp [isWindowsStyle, hback, hslash, hdrive]

theorem keeps_canonical (segment : Text) : Keeps (isWindowsStyle segment) (canonical segment) := by
  by_cases hback : '\\' ∈ segment
  · exact .inl (List.mem_map.mpr ⟨'\\', hback, rfl⟩)
  · rw [Keeps, canonical_of_not_mem hback]
    by_cases hslash : '/' ∈ segment
    · exact .inl hslash
    · exact .inr (by simp [isWindowsStyle, hback, hslash])

theorem Keeps.joinStep {windows : Bool} {out : Text} (h : Keeps windows out) (hne : out ≠ [])
    (segment : Text) : Keeps windows (joinStep out segment) := by
  unfold Path.joinStep
  by_cases hsegment : segment = []
  · rwa [if_pos hsegment]
  rw [if_neg hsegment, if_neg hne]
  dsimp only
  by_cases hslash : '/' ∈ out
  · refine .inl ?_
    split <;> simp [hslash]
  · have hdrive := h.resolve_left hslash
    have hlast : out.getLast? ≠ some '/' := fun hlast => hslash (List.mem_of_getLast? hlast)
    by_cases hbare : (decide (out.length = 2) && drive out) = true
    · rw [if_neg (by simp [hbare])]
      have htrue := (Bool.and_eq_true_iff.mp hbare).2
      exact .inr ((drive_append htrue _).trans (htrue.symm.trans hdrive))
    · rw [if_pos (by simp [hlast, Bool.eq_false_iff.mpr hbare])]
      exact .inl (by simp)

theorem backslash_not_mem_joinStep {out : Text} (h : '\\' ∉ out) (segment : Text) :
    '\\' ∉ joinStep out segment := by
  have hsegment := backslash_not_mem_canonical segment
  have hdrop : '\\' ∉ (canonical segment).dropWhile (· = '/') :=
    fun hmem => hsegment ((List.dropWhile_suffix _).subset hmem)
  unfold joinStep
  by_cases hnil : segment = []
  · rwa [if_pos hnil]
  by_cases hout : out = []
  · rwa [if_neg hnil, if_pos hout]
  rw [if_neg hnil, if_neg hout]
  dsimp only
  rw [List.mem_append, not_or]
  refine ⟨?_, hdrop⟩
  split
  · simp [h]
  · exact h

theorem joinStep_ne_nil {out segment : Text} (h : out ≠ [] ∨ segment ≠ []) :
    joinStep out segment ≠ [] := by
  unfold joinStep
  by_cases hnil : segment = []
  · rw [if_pos hnil]
    exact h.resolve_right (not_not.mpr hnil)
  by_cases hout : out = []
  · rw [if_neg hnil, if_pos hout]
    simpa [canonical] using hnil
  rw [if_neg hnil, if_neg hout]
  dsimp only
  split <;> simp [hout]

/-- What a join has put together before it is styled. -/
structure Joined (segments : List Text) (out : Text) : Prop where
  backslash : '\\' ∉ out
  first : (segments.find? (· ≠ []) = none ∧ out = []) ∨
    ∃ first, segments.find? (· ≠ []) = some first ∧ out ≠ [] ∧ Keeps (isWindowsStyle first) out

theorem joined_foldl (segments : List Text) : Joined segments (segments.foldl joinStep []) := by
  induction segments using List.reverseRecOn with
  | nil => exact ⟨by simp, .inl ⟨rfl, rfl⟩⟩
  | append_singleton segments segment ih =>
      rw [List.foldl_append, List.foldl_cons, List.foldl_nil]
      refine ⟨backslash_not_mem_joinStep ih.backslash segment, ?_⟩
      rcases ih.first with ⟨hnone, hnil⟩ | ⟨first, hfirst, hne, hkeeps⟩
      · rw [List.find?_append, hnone, Option.none_or, hnil]
        by_cases hsegment : segment = []
        · exact .inl ⟨by simp [hsegment], by simp [joinStep, hsegment]⟩
        · refine .inr ⟨segment, by simp [hsegment], joinStep_ne_nil (.inr hsegment), ?_⟩
          rw [joinStep, if_neg hsegment, if_pos rfl]
          exact keeps_canonical segment
      · refine .inr ⟨first, ?_, joinStep_ne_nil (.inl hne), hkeeps.joinStep hne segment⟩
        rw [List.find?_append, hfirst, Option.some_or]

theorem join_eq (segments : List Text) : join segments =
    restyle (segments.foldl joinStep []) ((segments.find? (· ≠ [])).any isWindowsStyle) := rfl

/-- A join that is taken up again goes on. -/
theorem join_cons_join (segments more : List Text) :
    join (join segments :: more) = join (segments ++ more) := by
  have hjoined := joined_foldl segments
  have hcanonical : canonical (join segments) = segments.foldl joinStep [] :=
    canonical_restyle hjoined.backslash _
  rcases hjoined.first with ⟨hnone, hnil⟩ | ⟨first, hfirst, hne, hkeeps⟩
  · have hjoin : join segments = [] := by
      rw [join, hnil]
      exact restyle_of_not_mem (by simp) _
    rw [hjoin, join_eq ([] :: more), join_eq (segments ++ more), List.foldl_append, hnil,
      List.find?_append, hnone, Option.none_or]
    rfl
  · have hstyle : isWindowsStyle (join segments) = isWindowsStyle first := by
      rw [join, hfirst]
      exact isWindowsStyle_restyle hjoined.backslash hkeeps
    have hjoin : join segments ≠ [] := by
      intro hnil
      rw [hnil] at hcanonical
      exact hne hcanonical.symm
    have hstep : joinStep [] (join segments) = segments.foldl joinStep [] := by
      rw [joinStep, if_neg hjoin, if_pos rfl, hcanonical]
    have hhead : (join segments :: more).find? (· ≠ []) = some (join segments) :=
      List.find?_cons_of_pos (by simpa using hjoin)
    rw [join_eq (join segments :: more), hhead, List.foldl_cons, hstep, join_eq (segments ++ more),
      List.foldl_append, List.find?_append, hfirst, Option.some_or, Option.any_some,
      Option.any_some, hstyle]

/-! ## The machine on a normal form -/

/-- A name and the `..` after it cancel, so a word and its normal form do the same to a stack. -/
theorem foldl_climb_machine (anchored : Bool) (stack segments : List Text) :
    (machine false segments).foldl (climb anchored) stack =
      segments.foldl (climb anchored) stack := by
  induction segments using List.reverseRecOn with
  | nil => rfl
  | append_singleton segments segment ih =>
      unfold machine at ih ⊢
      rw [List.foldl_append, List.foldl_append, List.foldl_cons, List.foldl_nil, List.foldl_cons,
        List.foldl_nil, ← ih]
      generalize segments.foldl (climb false) [] = below
      by_cases hdots : segment = dotDot
      · subst hdots
        cases below with
        | nil => rfl
        | cons top below =>
            by_cases htop : top = dotDot
            · subst htop
              simp [climb]
            · have hpop : climb false (top :: below) dotDot = below := by simp [climb, htop]
              have hclimb : ∀ stack', climb anchored (climb anchored stack' top) dotDot = stack' := by
                intro stack'
                simp [climb, htop]
              rw [hpop, List.reverse_cons, List.foldl_append, List.foldl_cons, List.foldl_nil, hclimb]
      · have hpush : climb false below segment = segment :: below := by simp [climb, hdots]
        rw [hpush, List.reverse_cons, List.foldl_append]
        rfl

theorem machine_append (anchored : Bool) (segments more : List Text) :
    machine anchored (segments ++ machine false more) = machine anchored (segments ++ more) := by
  unfold machine
  rw [List.foldl_append, List.foldl_append]
  exact congrArg List.reverse (foldl_climb_machine anchored _ more)

/-- Names only add to the stack. -/
theorem machine_append_names {anchored : Bool} (segments : List Text) {more : List Text}
    (h : dotDot ∉ more) :
    machine anchored (segments ++ more) = machine anchored segments ++ more := by
  induction more using List.reverseRecOn with
  | nil => simp
  | append_singleton more name ih =>
      rw [List.mem_append, not_or, List.mem_singleton] at h
      have ih := ih h.1
      unfold machine at ih ⊢
      have hpush : ∀ stack, climb anchored stack name = name :: stack := fun stack => by
        simp [climb, Ne.symm h.2]
      rw [← List.append_assoc, List.foldl_append, List.foldl_cons, List.foldl_nil, hpush,
        List.reverse_cons, ih, List.append_assoc]

/-! ## Joining a segment without a root -/

theorem names_append_cons (rest more : Text) :
    names (rest ++ '/' :: more) = names rest ++ names more := by
  rw [names, List.splitOn_append_cons_self, List.filter_append]
  rfl

theorem names_nil : names [] = [] := by decide

theorem splitRoot_nil_iff {s : Text} : (splitRoot s).1 = [] ↔ rootLen (canonical s) = 0 := by
  rw [splitRoot, List.splitAt_eq]
  constructor
  · intro h
    rcases List.take_eq_nil_iff.mp h with h | h
    · exact h
    · rw [h]
      rfl
  · intro h
    rw [h]
    rfl

/-- The base ends in a separator or is a bare drive: a join puts no separator after it. -/
def Closed (base : Text) : Prop :=
  base.getLast? = some '/' ∨ (base.length = 2 ∧ drive base = true)

theorem drive_singleton (c : Char) : drive [c] = false := rfl

theorem drive_cons_cons (c d : Char) (rest : Text) :
    drive (c :: d :: rest) = (decide (d = ':') && c.isAlpha) := by
  by_cases hd : d = ':'
  · subst hd
    rfl
  · unfold drive
    split
    · rename_i heq
      exact absurd (List.cons.inj (List.cons.inj heq).2).1 hd
    · simp [hd]

/-- What a join puts behind a base does not change its root. -/
theorem rootLen_append {base more : Text} (hne : base ≠ [])
    (hclosed : Closed base → more.head? ≠ some '/')
    (hopen : ¬Closed base → more = [] ∨ more.head? = some '/') :
    rootLen (base ++ more) = rootLen base := by
  match base with
  | [] => exact absurd rfl hne
  | [c] =>
      by_cases hc : c = '/'
      · subst hc
        have hhead := hclosed (.inl rfl)
        have hstart : ¬['/'] <+: more := mt singleton_prefix_iff.mp hhead
        have hdrive : drive ('/' :: more) = false := by
          cases more with
          | nil => rfl
          | cons d more => simp [drive_cons_cons]
        simp [rootLen, drive_singleton, hdrive, List.cons_prefix_cons, hstart]
      · have hnot : ¬Closed [c] := by simp [Closed, hc]
        rcases hopen hnot with rfl | hhead
        · simp
        · obtain ⟨rest, rfl⟩ := List.head?_eq_some_iff.mp hhead
          simp [rootLen, drive_singleton, drive_cons_cons, List.cons_prefix_cons, Ne.symm hc]
  | [c, d] =>
      by_cases hdrive : drive [c, d] = true
      · have hstart : ¬['/'] <+: more := mt singleton_prefix_iff.mp (hclosed (.inr ⟨rfl, hdrive⟩))
        simp [rootLen, drive_cons_cons, List.cons_prefix_cons, hstart]
      · rw [drive_cons_cons] at hdrive
        simp [rootLen, drive_cons_cons, List.cons_prefix_cons, hdrive]
  | c :: d :: e :: rest => simp [rootLen, drive_cons_cons, List.cons_prefix_cons]

theorem rootLen_le (base : Text) : rootLen base ≤ base.length := by
  match base with
  | [] => decide
  | [c] =>
      simp only [rootLen, drive_singleton]
      split_ifs <;> simp_all [List.cons_prefix_cons]
  | [c, d] =>
      simp only [rootLen]
      split_ifs <;> simp_all
  | c :: d :: e :: rest =>
      simp only [rootLen]
      split_ifs <;> simp

theorem dropWhile_slash {text : Text} (h : text.head? ≠ some '/') :
    text.dropWhile (· = '/') = text := by
  cases text with
  | nil => rfl
  | cons c text => exact List.dropWhile_cons_of_neg (by simpa using h)

theorem joinStep_closed {base s : Text} (hbase : base ≠ []) (hs : s ≠ [])
    (hhead : (canonical s).head? ≠ some '/') (h : Closed base) :
    joinStep base s = base ++ canonical s := by
  have hsep : ¬(decide (base.getLast? ≠ some '/') && !(decide (base.length = 2) && drive base)) =
      true := by
    rcases h with h | ⟨hlen, hdrive⟩
    · simp [h]
    · simp [hlen, hdrive]
  rw [joinStep, if_neg hs, if_neg hbase]
  dsimp only
  rw [if_neg hsep, dropWhile_slash hhead]

theorem joinStep_open {base s : Text} (hbase : base ≠ []) (hs : s ≠ [])
    (hhead : (canonical s).head? ≠ some '/') (h : ¬Closed base) :
    joinStep base s = base ++ '/' :: canonical s := by
  have hsep : (decide (base.getLast? ≠ some '/') && !(decide (base.length = 2) && drive base)) =
      true := by
    rw [Closed, not_or, not_and] at h
    simpa [imp_iff_not_or] using h
  rw [joinStep, if_neg hs, if_neg hbase]
  dsimp only
  rw [if_pos hsep, dropWhile_slash hhead, List.append_assoc]
  rfl

/-- A base that takes no separator has an empty rest, or one that ends in a separator. -/
theorem Closed.drop_rootLen {base : Text} (h : Closed base) :
    base.drop (rootLen base) = [] ∨ ∃ front, base.drop (rootLen base) = front ++ ['/'] := by
  rcases h with hlast | ⟨hlen, hdrive⟩
  · by_cases hnil : base.drop (rootLen base) = []
    · exact .inl hnil
    · refine .inr ⟨(base.drop (rootLen base)).dropLast, ?_⟩
      have hdropLast : (base.drop (rootLen base)).getLast? = some '/' := by
        rw [List.getLast?_drop, if_neg, hlast]
        rwa [List.drop_eq_nil_iff] at hnil
      exact (List.dropLast_append_getLast? _ hdropLast).symm
  · refine .inl (List.drop_eq_nil_iff.mpr ?_)
    obtain ⟨c, rest, rfl, hc⟩ := drive_eq_true hdrive
    have hrest : rest = [] := by simpa using hlen
    subst hrest
    have hslash : '/' ≠ c := by
      rintro rfl
      cases hc
    simp [rootLen, drive_cons_cons, List.cons_prefix_cons, hc]

/-- What is put behind a base leaves its root and adds the segment's names. -/
theorem exists_joinStep {base s : Text} (hbase : base ≠ [])
    (hhead : (canonical s).head? ≠ some '/') : ∃ more, joinStep base s = base ++ more ∧
      rootLen (base ++ more) = rootLen base ∧
      names (base.drop (rootLen base) ++ more) =
        names (base.drop (rootLen base)) ++ names (canonical s) := by
  by_cases hs : s = []
  · subst hs
    refine ⟨[], by simp [joinStep], by simp, ?_⟩
    rw [List.append_nil, show canonical [] = [] from rfl, names_nil, List.append_nil]
  by_cases hclosed : Closed base
  · refine ⟨canonical s, joinStep_closed hbase hs hhead hclosed,
      rootLen_append hbase (fun _ => hhead) (fun h => absurd hclosed h), ?_⟩
    rcases hclosed.drop_rootLen with hnil | ⟨front, hfront⟩
    · rw [hnil, List.nil_append, names_nil, List.nil_append]
    · rw [hfront, List.append_assoc, List.singleton_append, names_append_cons, names_append_cons,
        names_nil, List.append_nil]
  · exact ⟨'/' :: canonical s, joinStep_open hbase hs hhead hclosed,
      rootLen_append hbase (fun h => absurd h hclosed) (fun _ => .inr rfl),
      names_append_cons _ _⟩

/-- The root of a base stays, and the names of a segment without a root come after its own. -/
theorem splitRoot_join {base s : Text} (hbase : base ≠ []) (hroot : (splitRoot s).1 = []) :
    (splitRoot (join [base, s])).1 = (splitRoot base).1 ∧
      names (splitRoot (join [base, s])).2 = names (splitRoot base).2 ++ names (splitRoot s).2 ∧
      isWindowsStyle (join [base, s]) = isWindowsStyle base := by
  have hfirst : [base, s].find? (· ≠ []) = some base := List.find?_cons_of_pos (by simpa using hbase)
  have hstart : joinStep [] base = canonical base := by
    rw [joinStep, if_neg hbase, if_pos rfl]
  have hjoined := joined_foldl [base, s]
  rw [List.foldl_cons, hstart, List.foldl_cons, List.foldl_nil] at hjoined
  have hjoin : join [base, s] = restyle (joinStep (canonical base) s) (isWindowsStyle base) := by
    rw [join_eq, hfirst, List.foldl_cons, hstart]
    rfl
  have hne : canonical base ≠ [] := by simpa [canonical] using hbase
  rw [hjoin, splitRoot_restyle hjoined.backslash, isWindowsStyle_restyle hjoined.backslash
    ((keeps_canonical base).joinStep hne s)]
  have hlen := splitRoot_nil_iff.mp hroot
  have hhead : (canonical s).head? ≠ some '/' := by
    intro hslash
    have hpos : rootLen (canonical s) ≠ 0 := by
      rw [rootLen, if_pos (singleton_prefix_iff.mpr hslash)]
      split_ifs <;> simp
    exact hpos hlen
  obtain ⟨more, hmore, hsame, hnames⟩ := exists_joinStep hne hhead
  have hle := rootLen_le (canonical base)
  rw [hmore, List.splitAt_eq, hsame, List.take_append_of_le_length hle,
    List.drop_append_of_le_length hle, splitRoot, splitRoot, List.splitAt_eq, List.splitAt_eq, hlen]
  exact ⟨rfl, hnames, rfl⟩

/-! ## Joining composes with normalizing -/

theorem names_normalize {s : Text} (hroot : (splitRoot s).1 = []) :
    names (splitRoot (normalize s)).2 = machine false (names (splitRoot s).2) := by
  have habs : isAbsolute s = false := by
    rw [isAbsolute, hroot]
    rfl
  rw [← filter_components, (normalize_normal s).machine, habs]

theorem partsOf_join {base s : Text} (hbase : base ≠ []) (hroot : (splitRoot s).1 = []) :
    partsOf (join [base, s]) =
      machine (isAbsolute base) (names (splitRoot base).2 ++ names (splitRoot s).2) := by
  obtain ⟨hjoinRoot, hnames, -⟩ := splitRoot_join hbase hroot
  rw [partsOf, resolve_components, hnames, isAbsolute, hjoinRoot]
  rfl

/-- An empty segment in front only settles the style. -/
theorem normalize_join_nil (s : Text) : normalize (join [[], s]) = normalize s := by
  have hjoin : join [[], s] = restyle (canonical s) (isWindowsStyle s) := by
    cases s with
    | nil => rfl
    | cons c s =>
        rw [join_eq, List.find?_cons_of_neg (by simp), List.find?_cons_of_pos (by simp)]
        rfl
  have hback := backslash_not_mem_canonical s
  have hroot : splitRoot (restyle (canonical s) (isWindowsStyle s)) = splitRoot s :=
    splitRoot_restyle hback _
  rw [hjoin, normalize, hroot, isWindowsStyle_restyle hback (keeps_canonical s)]
  rfl

theorem normalize_join {base s : Text} (hroot : (splitRoot s).1 = []) :
    normalize (join [base, s]) = normalize (join [base, normalize s]) := by
  by_cases hbase : base = []
  · rw [hbase, normalize_join_nil, normalize_join_nil, normalize_normalize]
  · have hroot' : (splitRoot (normalize s)).1 = [] := (root_normalize s).trans hroot
    obtain ⟨hfirst, -, hstyle⟩ := splitRoot_join hbase hroot
    obtain ⟨hfirst', -, hstyle'⟩ := splitRoot_join hbase hroot'
    have hparts : partsOf (join [base, s]) = partsOf (join [base, normalize s]) := by
      rw [partsOf_join hbase hroot, partsOf_join hbase hroot', names_normalize hroot,
        machine_append]
    rw [normalize_eq, normalize_eq (join [base, normalize s]), hfirst, hfirst', hstyle, hstyle',
      hparts]

/-- A segment that does not climb out of itself stays below an absolute base. -/
theorem components_join {base s : Text} (habs : isAbsolute base = true)
    (hroot : (splitRoot s).1 = [])
    (hstays : (components (splitRoot (normalize s)).2).head? ≠ some dotDot) :
    components (splitRoot (normalize base)).2 <+:
      components (splitRoot (normalize (join [base, s]))).2 := by
  have hbase : base ≠ [] := by
    rintro rfl
    cases habs
  have hrooted : (splitRoot base).1 ≠ [] := by
    intro hnil
    rw [isAbsolute, hnil] at habs
    cases habs
  have hjoinRoot := (splitRoot_join hbase hroot).1
  have hcomponents : ∀ path, (splitRoot path).1 ≠ [] →
      components (splitRoot (normalize path)).2 = partsOf path := fun path hne =>
    (components_normalize path).resolve_right fun h => hne h.1
  have hdots : dotDot ∉ machine false (names (splitRoot s).2) := by
    have hresolved := resolved_partsOf s
    obtain ⟨n, rest, hparts, hrest, -⟩ := hresolved.shape
    have hmachine : partsOf s = machine false (names (splitRoot s).2) := by
      rw [partsOf, resolve_components, isAbsolute, hroot]
      rfl
    rw [← hmachine, hparts]
    cases n with
    | zero => simpa using hrest
    | succ n =>
        -- A first part `..` is the first component: it is neither empty nor like a drive.
        refine absurd ?_ hstays
        rcases components_normalize s with h | ⟨-, -, ⟨hnil, -⟩ | ⟨name, tail, hcons, hdrive⟩⟩
        · rw [h, hparts]
          rfl
        · rw [hnil] at hparts
          cases hparts
        · rw [hparts, List.replicate_succ, List.cons_append, List.cons.injEq] at hcons
          rw [← hcons.1] at hdrive
          cases hdrive
  rw [hcomponents base hrooted, hcomponents _ (by rw [hjoinRoot]; exact hrooted),
    partsOf_join hbase hroot, partsOf, resolve_components, habs, ← machine_append,
    machine_append_names _ hdots]
  exact List.prefix_append _ _

/-- Joining goes on from a join; normalizing a segment without a root before it is joined changes
nothing; and one that does not climb out of itself stays below an absolute base. -/
theorem join_composes (a b c base s : Text) : join [a, b, c] = join [join [a, b], c] ∧
    ((splitRoot s).1 = [] → normalize (join [base, s]) = normalize (join [base, normalize s]) ∧
      (isAbsolute base = true → (components (splitRoot (normalize s)).2).head? ≠ some dotDot →
        components (splitRoot (normalize base)).2 <+:
          components (splitRoot (normalize (join [base, s]))).2)) :=
  ⟨(join_cons_join [a, b] [c]).symm, fun hroot =>
    ⟨normalize_join hroot, fun habs hstays => components_join habs hroot hstays⟩⟩

/-- A base of the other style and a segment that climbs inside itself. -/
theorem join_composes_windows : components (splitRoot (normalize "C:\\srv".toList)).2 <+:
    components (splitRoot (normalize (join ["C:\\srv".toList, "a/../b".toList]))).2 :=
  (((join_composes [] [] [] "C:\\srv".toList "a/../b".toList).2 (by decide)).2 (by decide)) (by decide)

end Nitr.Path
