import Nitr.Path.Lexical

/-! # What normalizing a path gives

The parts are those of a stack machine. Put together, they are taken apart again into the same
root and the same parts, whatever the names look like. -/

namespace Nitr.Path

/-! ## The stack machine -/

/-- A name is pushed; `..` pops a name, and where there is none it is dropped at an anchored
root and kept at another. The top of the stack comes first. -/
def climb (anchored : Bool) (stack : List Text) (segment : Text) : List Text :=
  if segment ≠ dotDot then segment :: stack
  else
    match stack with
    | [] => if anchored then [] else [dotDot]
    | top :: below =>
        if top ≠ dotDot then below else if anchored then top :: below else dotDot :: top :: below

/-- The names of a path without its root. -/
def names (rest : Text) : List Text := (rest.splitOn '/').filter fun s => s ≠ [] ∧ s ≠ dot

def machine (anchored : Bool) (segments : List Text) : List Text :=
  (segments.foldl (climb anchored) []).reverse

theorem dotDot_ne_dot : dotDot ≠ dot := by decide

theorem pushPart_reverse {anchored : Bool} {stack : List Text} {segment : Text}
    (h : segment ≠ dot) :
    pushPart anchored stack.reverse segment = (climb anchored stack segment).reverse := by
  unfold pushPart climb
  rw [if_neg h]
  by_cases hdots : segment = dotDot
  · rw [if_pos hdots, if_neg (not_not.mpr hdots)]
    cases stack with
    | nil => cases anchored <;> rfl
    | cons top below =>
        simp only [List.getLast?_reverse, List.head?_cons, Option.any_some]
        by_cases htop : top = dotDot
        · cases anchored <;> simp [htop]
        · simp [htop]
  · rw [if_neg hdots, if_pos hdots, List.reverse_cons]

theorem foldl_pushPart {anchored : Bool} {segments : List Text}
    (h : ∀ s ∈ segments, s ≠ dot) (stack : List Text) :
    segments.foldl (pushPart anchored) stack.reverse =
      (segments.foldl (climb anchored) stack).reverse := by
  induction segments generalizing stack with
  | nil => rfl
  | cons segment segments ih =>
      obtain ⟨hsegment, hsegments⟩ := List.forall_mem_cons.mp h
      rw [List.foldl_cons, List.foldl_cons, pushPart_reverse hsegment, ih hsegments]

/-- Dots do not count. -/
theorem foldl_pushPart_filter {anchored : Bool} (segments parts : List Text) :
    segments.foldl (pushPart anchored) parts =
      (segments.filter (· ≠ dot)).foldl (pushPart anchored) parts := by
  rw [List.foldl_filter]
  congr 1
  funext parts segment
  by_cases h : segment = dot
  · simp [h, pushPart]
  · simp [h]

theorem filter_foldl_pushComponent (segments parts : List Text) :
    (segments.foldl pushComponent parts).filter (· ≠ dot) =
      parts.filter (· ≠ dot) ++ segments.filter fun s => s ≠ [] ∧ s ≠ dot := by
  induction segments generalizing parts with
  | nil => simp
  | cons segment segments ih =>
      rw [List.foldl_cons, ih, pushComponent]
      by_cases hnil : segment = []
      · simp [hnil]
      · by_cases hdot : segment = dot
        · by_cases hparts : parts = []
          · simp [hdot, hparts]
          · simp [hdot, hparts]
        · simp [hnil, hdot]

theorem filter_components (rest : Text) : (components rest).filter (· ≠ dot) = names rest :=
  filter_foldl_pushComponent _ _

/-- The parts are those of the machine. -/
theorem resolve_components (anchored : Bool) (rest : Text) :
    resolve anchored (components rest) = machine anchored (names rest) := by
  have hnames : ∀ s ∈ names rest, s ≠ dot := by
    intro s hs
    have := (List.mem_filter.mp hs).2
    simp only [decide_eq_true_eq] at this
    exact this.2
  rw [resolve, foldl_pushPart_filter, filter_components]
  exact foldl_pushPart hnames []

/-! ## The shape of the parts -/

/-- A name between separators. -/
structure Plain (s : Text) : Prop where
  ne_nil : s ≠ []
  ne_dot : s ≠ dot
  slash : '/' ∉ s
  backslash : '\\' ∉ s

/-- What is left of the components: names, after the `..` that could not be resolved. -/
structure Resolved (anchored : Bool) (parts : List Text) : Prop where
  plain : ∀ s ∈ parts, Plain s
  shape : ∃ n names, parts = List.replicate n dotDot ++ names ∧ dotDot ∉ names ∧
    (anchored = true → n = 0)

theorem plain_dotDot : Plain dotDot := ⟨by decide, by decide, by decide, by decide⟩

theorem Resolved.nil (anchored : Bool) : Resolved anchored [] :=
  ⟨by simp, 0, [], rfl, by simp, fun _ => rfl⟩

/-- A step keeps the shape. -/
theorem Resolved.pushPart {anchored : Bool} {parts : List Text} {segment : Text}
    (h : Resolved anchored parts) (hsegment : segment ≠ dot → Plain segment) :
    Resolved anchored (pushPart anchored parts segment) := by
  obtain ⟨hplain, n, names, rfl, hnames, hn⟩ := h
  unfold Path.pushPart
  by_cases hdot : segment = dot
  · rw [if_pos hdot]
    exact ⟨hplain, n, names, rfl, hnames, hn⟩
  rw [if_neg hdot]
  by_cases hdots : segment = dotDot
  · rw [if_pos hdots]
    cases names using List.reverseRecOn with
    | nil =>
        have hlast : ((List.replicate n dotDot ++ []).getLast?.any (· ≠ dotDot)) = false := by
          rw [List.append_nil, List.getLast?_replicate]
          split <;> simp
        rw [hlast]
        cases anchored with
        | true => exact ⟨hplain, n, [], rfl, hnames, hn⟩
        | false =>
            refine ⟨?_, n + 1, [], ?_, by simp, by simp⟩
            · simp only [Bool.false_eq_true, if_false, Bool.not_false, if_true]
              intro s hs
              rcases List.mem_append.mp hs with hs | hs
              · exact hplain s hs
              · rw [List.mem_singleton.mp hs]
                exact plain_dotDot
            · simp [List.replicate_succ']
    | append_singleton names last =>
        have hlast : last ≠ dotDot := fun heq => hnames (by simp [heq])
        have hany : ((List.replicate n dotDot ++ (names ++ [last])).getLast?.any (· ≠ dotDot)) =
            true := by
          rw [← List.append_assoc, List.getLast?_concat]
          simpa using hlast
        rw [if_pos hany, ← List.append_assoc, List.dropLast_concat]
        refine ⟨?_, n, names, rfl, fun hmem => hnames (by simp [hmem]), hn⟩
        intro s hs
        exact hplain s (by rw [← List.append_assoc]; exact List.mem_append_left _ hs)
  · rw [if_neg hdots]
    refine ⟨?_, n, names ++ [segment], by simp, ?_, hn⟩
    · intro s hs
      rcases List.mem_append.mp hs with hs | hs
      · exact hplain s hs
      · rw [List.mem_singleton.mp hs]
        exact hsegment hdot
    · intro hmem
      rcases List.mem_append.mp hmem with hmem | hmem
      · exact hnames hmem
      · exact hdots (List.mem_singleton.mp hmem).symm

theorem Resolved.foldl {anchored : Bool} {parts segments : List Text} (h : Resolved anchored parts)
    (hsegments : ∀ s ∈ segments, s ≠ dot → Plain s) :
    Resolved anchored (segments.foldl (Path.pushPart anchored) parts) := by
  induction segments generalizing parts with
  | nil => exact h
  | cons segment segments ih =>
      obtain ⟨hsegment, hrest⟩ := List.forall_mem_cons.mp hsegments
      exact ih (h.pushPart hsegment) hrest

/-- Names are pushed. -/
theorem foldl_pushPart_names {anchored : Bool} {names : List Text} (hdots : dotDot ∉ names)
    (hplain : ∀ s ∈ names, Plain s) (parts : List Text) :
    names.foldl (pushPart anchored) parts = parts ++ names := by
  induction names generalizing parts with
  | nil => simp
  | cons name names ih =>
      obtain ⟨hname, hnames⟩ := List.forall_mem_cons.mp hplain
      obtain ⟨hfirst, hrest⟩ := not_or.mp (mt List.mem_cons.mpr hdots)
      have hpush : pushPart anchored parts name = parts ++ [name] := by
        rw [pushPart, if_neg hname.ne_dot, if_neg (Ne.symm hfirst)]
      rw [List.foldl_cons, hpush, ih hrest hnames]
      simp

theorem foldl_pushPart_dotDots (n k : ℕ) :
    (List.replicate n dotDot).foldl (pushPart false) (List.replicate k dotDot) =
      List.replicate (k + n) dotDot := by
  induction n generalizing k with
  | zero => rfl
  | succ n ih =>
      have hpush : pushPart false (List.replicate k dotDot) dotDot =
          List.replicate (k + 1) dotDot := by
        have hlast : ((List.replicate k dotDot).getLast?.any (· ≠ dotDot)) = false := by
          rw [List.getLast?_replicate]
          split <;> simp
        rw [pushPart, if_neg dotDot_ne_dot, if_pos rfl, hlast, List.replicate_succ']
        rfl
      rw [List.replicate_succ, List.foldl_cons, hpush, ih]
      congr 1
      omega

/-- What is resolved stays. -/
theorem Resolved.resolve_eq {anchored : Bool} {parts : List Text} (h : Resolved anchored parts) :
    resolve anchored parts = parts := by
  obtain ⟨hplain, n, names, rfl, hnames, hn⟩ := h
  have hrest : ∀ s ∈ names, Plain s := fun s hs => hplain s (List.mem_append_right _ hs)
  cases anchored with
  | true =>
      rw [hn rfl, List.replicate_zero, List.nil_append, resolve,
        foldl_pushPart_names hnames hrest, List.nil_append]
  | false =>
      have hdots := foldl_pushPart_dotDots n 0
      rw [List.replicate_zero, Nat.zero_add] at hdots
      rw [resolve, List.foldl_append, hdots, foldl_pushPart_names hnames hrest]

/-! ## Taking apart what was put together -/

theorem foldl_pushComponent {parts : List Text} (h : ∀ s ∈ parts, Plain s) (first : List Text) :
    parts.foldl pushComponent first = first ++ parts := by
  induction parts generalizing first with
  | nil => simp
  | cons part parts ih =>
      obtain ⟨hpart, hparts⟩ := List.forall_mem_cons.mp h
      have hpush : pushComponent first part = first ++ [part] := by
        rw [pushComponent, if_neg]
        rintro (hnil | ⟨hdot, -⟩)
        · exact hpart.ne_nil hnil
        · exact hpart.ne_dot hdot
      rw [List.foldl_cons, hpush, ih hparts]
      simp

theorem components_intercalate {parts : List Text} (h : ∀ s ∈ parts, Plain s) :
    components (['/'].intercalate parts) = parts := by
  cases parts with
  | nil => rfl
  | cons part parts =>
      rw [components, List.splitOn_intercalate '/' (fun s hs => (h s hs).slash) (by simp),
        foldl_pushComponent h, List.nil_append]

theorem components_dot_intercalate {parts : List Text} (h : ∀ s ∈ parts, Plain s)
    (hne : parts ≠ []) : components (['.', '/'] ++ ['/'].intercalate parts) = dot :: parts := by
  have hsplit : (['.', '/'] ++ ['/'].intercalate parts).splitOn '/' = dot :: parts := by
    have hdot : '/' ∉ dot := by decide
    change (dot ++ '/' :: ['/'].intercalate parts).splitOn '/' = dot :: parts
    rw [List.splitOn_append_cons_self_of_not_mem hdot,
      List.splitOn_intercalate '/' (fun s hs => (h s hs).slash) hne]
  rw [components, hsplit, List.foldl_cons]
  exact foldl_pushComponent h [dot]

theorem canonical_of_not_mem {text : Text} (h : '\\' ∉ text) : canonical text = text := by
  unfold canonical
  conv_rhs => rw [← List.map_id text]
  refine List.map_congr_left ?_
  intro c hc
  rw [if_neg]
  · rfl
  · rintro rfl
    exact h hc

/-- The style is not seen in the canonical form. -/
theorem canonical_restyle {text : Text} (h : '\\' ∉ text) (windows : Bool) :
    canonical (restyle text windows) = text := by
  cases windows with
  | false => exact canonical_of_not_mem h
  | true =>
      unfold canonical restyle
      rw [if_pos rfl, List.map_map]
      conv_rhs => rw [← List.map_id text]
      refine List.map_congr_left ?_
      intro c hc
      by_cases hslash : c = '/'
      · simp [hslash]
      · have hback : c ≠ '\\' := fun heq => h (heq ▸ hc)
        simp [hslash, hback]

theorem restyle_of_not_mem {text : Text} (h : '/' ∉ text) (windows : Bool) :
    restyle text windows = text := by
  cases windows with
  | false => rfl
  | true =>
      unfold restyle
      rw [if_pos rfl]
      conv_rhs => rw [← List.map_id text]
      refine List.map_congr_left ?_
      intro c hc
      rw [if_neg]
      · rfl
      · rintro rfl
        exact h hc

/-- A text keeps the style it was given. -/
theorem restyle_isWindowsStyle {text : Text} (h : '\\' ∉ text) (windows : Bool) :
    restyle text (isWindowsStyle (restyle text windows)) = restyle text windows := by
  by_cases hslash : '/' ∈ text
  · cases windows with
    | false =>
        have hstyle : isWindowsStyle (restyle text false) = false := by
          simp [isWindowsStyle, restyle, h, hslash]
        rw [hstyle]
    | true =>
        have hstyle : isWindowsStyle (restyle text true) = true := by
          have hback : '\\' ∈ restyle text true := List.mem_map.mpr ⟨'/', hslash, rfl⟩
          simp [isWindowsStyle, hback]
        rw [hstyle]
  · rw [restyle_of_not_mem hslash, restyle_of_not_mem hslash]

theorem splitRoot_restyle {text : Text} (h : '\\' ∉ text) (windows : Bool) :
    splitRoot (restyle text windows) = text.splitAt (rootLen text) := by
  rw [splitRoot, canonical_restyle h]

/-- The roots of paths. -/
inductive IsRoot : Text → Prop
  | none : IsRoot []
  | slash : IsRoot ['/']
  | unc : IsRoot ['/', '/']
  | bare (c : Char) (h : c.isAlpha = true) : IsRoot [c, ':']
  | drive (c : Char) (h : c.isAlpha = true) : IsRoot [c, ':', '/']

theorem drive_eq_true {text : Text} (h : drive text = true) :
    ∃ c rest, text = c :: ':' :: rest ∧ c.isAlpha = true := by
  unfold drive at h
  split at h
  · exact ⟨_, _, rfl, h⟩
  · cases h

theorem isRoot_splitRoot (path : Text) : IsRoot (splitRoot path).1 := by
  rw [splitRoot, List.splitAt_eq, rootLen]
  generalize canonical path = text
  simp only
  split
  · rename_i hunc
    obtain ⟨rest, rfl⟩ := hunc
    exact .unc
  · split
    · rename_i hdrive
      obtain ⟨c, rest, rfl, hc⟩ := drive_eq_true hdrive
      split
      · rename_i hslash
        obtain ⟨rest', hrest⟩ := hslash
        simp only [List.drop_succ_cons, List.drop_zero] at hrest
        rw [← hrest]
        exact .drive c hc
      · exact .bare c hc
    · split
      · rename_i hslash
        obtain ⟨rest, rfl⟩ := hslash
        exact .slash
      · exact .none

theorem singleton_prefix_iff {text : Text} {c : Char} : [c] <+: text ↔ text.head? = some c := by
  cases text with
  | nil => simp
  | cons d text => simp [List.cons_prefix_cons, eq_comm]

/-- A root in front of names is the root. -/
theorem splitAt_root_append {root joined : Text} (hroot : IsRoot root) (hne : root ≠ [])
    (hjoined : joined.head? ≠ some '/') :
    (root ++ joined).splitAt (rootLen (root ++ joined)) = (root, joined) := by
  have hstart : ¬['/'] <+: joined := mt singleton_prefix_iff.mp hjoined
  rw [List.splitAt_eq]
  cases hroot with
  | none => exact absurd rfl hne
  | slash =>
      have hunc : ¬['/', '/'] <+: '/' :: joined := by
        rw [List.cons_prefix_cons]
        exact fun h => hstart h.2
      have hdrive : drive ('/' :: joined) = false := by
        unfold drive
        split
        · rename_i heq
          cases heq
          rfl
        · rfl
      have hlen : rootLen ('/' :: joined) = 1 := by simp [rootLen, hunc, hdrive]
      simp [hlen]
  | unc =>
      have hlen : rootLen ('/' :: '/' :: joined) = 2 := by simp [rootLen]
      simp [hlen]
  | bare c hc =>
      have hunc : ¬['/', '/'] <+: c :: ':' :: joined := by
        rintro h
        rw [List.cons_prefix_cons] at h
        rw [← h.1] at hc
        cases hc
      have hlen : rootLen (c :: ':' :: joined) = 2 := by simp [rootLen, hunc, drive, hc, hstart]
      simp [hlen]
  | drive c hc =>
      have hunc : ¬['/', '/'] <+: c :: ':' :: '/' :: joined := by
        rintro h
        rw [List.cons_prefix_cons] at h
        rw [← h.1] at hc
        cases hc
      have hlen : rootLen (c :: ':' :: '/' :: joined) = 3 := by simp [rootLen, hunc, drive, hc]
      simp [hlen]

theorem head?_intercalate {parts : List Text} (h : ∀ s ∈ parts, Plain s) :
    (['/'].intercalate parts).head? ≠ some '/' := by
  cases parts with
  | nil => simp [List.intercalate]
  | cons part parts =>
      have hpart := h part (List.mem_cons_self ..)
      obtain ⟨c, rest, rfl⟩ := List.exists_cons_of_ne_nil hpart.ne_nil
      have hhead : (['/'].intercalate ((c :: rest) :: parts)).head? = some c := by
        cases parts <;> simp [List.intercalate]
      rw [hhead]
      intro heq
      cases heq
      exact hpart.slash (List.mem_cons_self ..)

theorem intercalate_ne_nil {parts : List Text} (h : ∀ s ∈ parts, Plain s) (hne : parts ≠ []) :
    ['/'].intercalate parts ≠ [] := by
  intro hnil
  have := components_intercalate h
  rw [hnil] at this
  exact hne this.symm

theorem backslash_not_mem_intercalate {parts : List Text} (h : ∀ s ∈ parts, Plain s) :
    '\\' ∉ ['/'].intercalate parts := by
  induction parts with
  | nil => simp [List.intercalate]
  | cons part parts ih =>
      obtain ⟨hpart, hparts⟩ := List.forall_mem_cons.mp h
      cases parts with
      | nil => simpa [List.intercalate] using hpart.backslash
      | cons next parts =>
          have hrest := ih hparts
          simp only [List.intercalate, List.intersperse_cons_cons, List.flatten_cons,
            List.mem_append, not_or] at hrest ⊢
          exact ⟨hpart.backslash, by decide, hrest⟩

/-- A first part that looks like a drive shows in the joined text, and the other way round. -/
theorem drive_intercalate {part : Text} {parts : List Text} (h : Plain part)
    (hdrive : drive (['/'].intercalate (part :: parts)) = true) : drive part = true := by
  obtain ⟨c, rest, htext, hc⟩ := drive_eq_true hdrive
  obtain ⟨d, part', rfl⟩ := List.exists_cons_of_ne_nil h.ne_nil
  cases parts with
  | nil =>
      have : ['/'].intercalate [d :: part'] = d :: part' := by simp [List.intercalate]
      rwa [this] at hdrive
  | cons next parts =>
      have hjoin : ['/'].intercalate ((d :: part') :: next :: parts) =
          d :: (part' ++ '/' :: ['/'].intercalate (next :: parts)) := by
        simp [List.intercalate]
      rw [hjoin, List.cons.injEq] at htext
      obtain ⟨rfl, htext⟩ := htext
      cases part' with
      | nil => exact absurd (List.cons.inj htext).1 (by decide)
      | cons e part' =>
          rw [List.cons_append, List.cons.injEq] at htext
          rw [htext.1]
          exact hc

/-- What is put together is taken apart into the root and, but for a dot in front, the parts. -/
structure TakenApart (root : Text) (parts : List Text) (out : Text) : Prop where
  backslash : '\\' ∉ out
  root_eq : (out.splitAt (rootLen out)).1 = root
  parts_eq : components (out.splitAt (rootLen out)).2 = parts ∨
    (root = [] ∧ components (out.splitAt (rootLen out)).2 = dot :: parts ∧
      (parts = [] ∧ out = dot ∨ ∃ name rest, parts = name :: rest ∧ drive name = true))

theorem IsRoot.backslash {root : Text} (h : IsRoot root) : '\\' ∉ root := by
  have halpha : ∀ c : Char, c.isAlpha = true → '\\' ≠ c := by
    rintro _ hc rfl
    cases hc
  cases h with
  | none => simp
  | slash => decide
  | unc => decide
  | bare c hc => simp [halpha c hc]
  | drive c hc => simp [halpha c hc]

theorem takenApart_assemble {root : Text} {parts : List Text} (hroot : IsRoot root)
    (hplain : ∀ s ∈ parts, Plain s) : TakenApart root parts (assemble root parts) := by
  have hback := backslash_not_mem_intercalate hplain
  have hhead := head?_intercalate hplain
  unfold assemble
  simp only
  by_cases hne : root ≠ []
  · rw [if_pos hne]
    have hsplit := splitAt_root_append hroot hne hhead
    refine ⟨?_, by rw [hsplit], .inl (by rw [hsplit]; exact components_intercalate hplain)⟩
    rw [List.mem_append, not_or]
    exact ⟨hroot.backslash, hback⟩
  rw [if_neg hne]
  obtain rfl : root = [] := not_not.mp hne
  cases parts with
  | nil => exact ⟨by decide, rfl, .inr ⟨rfl, rfl, .inl ⟨rfl, rfl⟩⟩⟩
  | cons part parts =>
      have hjoined := intercalate_ne_nil hplain (List.cons_ne_nil part parts)
      rw [if_neg hjoined]
      have hslash : ¬['/'] <+: ['/'].intercalate (part :: parts) :=
        mt singleton_prefix_iff.mp hhead
      have hunc : ¬['/', '/'] <+: ['/'].intercalate (part :: parts) := by
        rintro ⟨rest, hrest⟩
        exact hslash ⟨'/' :: rest, hrest⟩
      by_cases hdrive : drive (['/'].intercalate (part :: parts)) = true
      · have hkept : (splitRoot (['/'].intercalate (part :: parts))).1 ≠ [] := by
          obtain ⟨c, rest, htext, hc⟩ := drive_eq_true hdrive
          have hlen : rootLen (c :: ':' :: rest) ≠ 0 := by
            rw [htext] at hunc hdrive
            rw [rootLen, if_neg hunc, if_pos hdrive]
            split <;> simp
          rw [splitRoot, canonical_of_not_mem hback, htext, List.splitAt_eq, ne_eq,
            List.take_eq_nil_iff, not_or]
          exact ⟨hlen, List.cons_ne_nil c (':' :: rest)⟩
        rw [if_pos hkept]
        have hlen : rootLen (['.', '/'] ++ ['/'].intercalate (part :: parts)) = 0 := by
          simp [rootLen, drive]
        refine ⟨by simpa using hback, by rw [hlen]; rfl, .inr ⟨rfl, ?_, .inr ⟨part, parts, rfl, ?_⟩⟩⟩
        · rw [hlen]
          exact components_dot_intercalate hplain (List.cons_ne_nil part parts)
        · exact drive_intercalate (hplain part (List.mem_cons_self ..)) hdrive
      · have hlen : rootLen (['/'].intercalate (part :: parts)) = 0 := by
          simp [rootLen, hunc, hdrive, hslash]
        have hkept : ¬(splitRoot (['/'].intercalate (part :: parts))).1 ≠ [] := by
          rw [splitRoot, canonical_of_not_mem hback, hlen]
          simp
        rw [if_neg hkept]
        refine ⟨hback, by rw [hlen, List.splitAt_eq]; rfl, .inl ?_⟩
        rw [hlen, List.splitAt_eq]
        exact components_intercalate hplain

/-! ## Normalizing -/

theorem mem_foldl_pushComponent {segments parts : List Text} {s : Text}
    (h : s ∈ segments.foldl pushComponent parts) : s ∈ parts ∨ (s ∈ segments ∧ s ≠ []) := by
  induction segments generalizing parts with
  | nil => exact .inl h
  | cons segment segments ih =>
      rcases ih h with h | ⟨h, hne⟩
      · unfold pushComponent at h
        split at h
        · exact .inl h
        · rename_i hkept
          rcases List.mem_append.mp h with h | h
          · exact .inl h
          · obtain rfl := List.mem_singleton.mp h
            exact .inr ⟨List.mem_cons_self .., fun hnil => hkept (.inl hnil)⟩
      · exact .inr ⟨List.mem_cons_of_mem _ h, hne⟩

theorem backslash_not_mem_canonical (path : Text) : '\\' ∉ canonical path := by
  intro h
  obtain ⟨c, -, hc⟩ := List.mem_map.mp h
  split at hc
  · cases hc
  · rename_i hne
    exact hne hc

theorem plain_of_mem_components {path s : Text} (h : s ∈ components (splitRoot path).2)
    (hdot : s ≠ dot) : Plain s := by
  rcases mem_foldl_pushComponent h with h | ⟨hpiece, hne⟩
  · cases h
  · refine ⟨hne, hdot, List.not_mem_of_mem_splitOn hpiece, ?_⟩
    intro hback
    have hrest : '\\' ∈ (splitRoot path).2 :=
      (List.mem_iff_splitOn (by decide)).mpr ⟨s, hpiece, hback⟩
    rw [splitRoot, List.splitAt_eq] at hrest
    exact backslash_not_mem_canonical path (List.mem_of_mem_drop hrest)

/-- The parts of the normal form of a path. -/
def partsOf (path : Text) : List Text :=
  resolve (isAbsolute path) (components (splitRoot path).2)

theorem normalize_eq (path : Text) :
    normalize path = restyle (assemble (splitRoot path).1 (partsOf path)) (isWindowsStyle path) :=
  rfl

theorem resolved_partsOf (path : Text) : Resolved (isAbsolute path) (partsOf path) :=
  (Resolved.nil _).foldl fun _ => plain_of_mem_components

theorem takenApart_normalize (path : Text) :
    TakenApart (splitRoot path).1 (partsOf path) (assemble (splitRoot path).1 (partsOf path)) :=
  takenApart_assemble (isRoot_splitRoot path) (resolved_partsOf path).plain

theorem splitRoot_normalize (path : Text) :
    splitRoot (normalize path) = (assemble (splitRoot path).1 (partsOf path)).splitAt
      (rootLen (assemble (splitRoot path).1 (partsOf path))) := by
  rw [normalize_eq, splitRoot_restyle (takenApart_normalize path).backslash]

theorem root_normalize (path : Text) : (splitRoot (normalize path)).1 = (splitRoot path).1 := by
  rw [splitRoot_normalize]
  exact (takenApart_normalize path).root_eq

theorem isAbsolute_normalize (path : Text) : isAbsolute (normalize path) = isAbsolute path := by
  rw [isAbsolute, root_normalize]
  rfl

/-- The components of the normal form are the parts, but for a dot that stands for no parts or
in front of what looks like a drive. -/
theorem components_normalize (path : Text) :
    components (splitRoot (normalize path)).2 = partsOf path ∨
      ((splitRoot path).1 = [] ∧ components (splitRoot (normalize path)).2 = dot :: partsOf path ∧
        (partsOf path = [] ∧ normalize path = dot ∨
          ∃ name rest, partsOf path = name :: rest ∧ drive name = true)) := by
  rw [splitRoot_normalize]
  rcases (takenApart_normalize path).parts_eq with h | ⟨hroot, h, hwhy⟩
  · exact .inl h
  · refine .inr ⟨hroot, h, hwhy.imp_left ?_⟩
    rintro ⟨hnil, hout⟩
    refine ⟨hnil, ?_⟩
    rw [normalize_eq, hout]
    exact restyle_of_not_mem (by decide) _

theorem partsOf_normalize (path : Text) : partsOf (normalize path) = partsOf path := by
  have hresolved := (resolved_partsOf path).resolve_eq
  rw [partsOf, isAbsolute_normalize]
  rcases components_normalize path with h | ⟨-, h, -⟩
  · rw [h, hresolved]
  · rw [h]
    exact hresolved

theorem normalize_normalize (path : Text) : normalize (normalize path) = normalize path := by
  rw [normalize_eq (normalize path), root_normalize, partsOf_normalize]
  conv_lhs => rw [normalize_eq path]
  rw [restyle_isWindowsStyle (takenApart_normalize path).backslash, ← normalize_eq]

/-- What normalizing a path is to give. -/
structure Normal (path : Text) : Prop where
  again : normalize (normalize path) = normalize path
  absolute : isAbsolute (normalize path) = isAbsolute path
  root : (splitRoot (normalize path)).1 = (splitRoot path).1
  anchored : isAbsolute path = true → dotDot ∉ components (splitRoot (normalize path)).2
  leading : isAbsolute path = false → ∃ n rest,
    components (splitRoot (normalize path)).2 = List.replicate n dotDot ++ rest ∧ dotDot ∉ rest
  dots : ∀ i, (components (splitRoot (normalize path)).2)[i]? = some dot → i = 0 ∧
    (normalize path = dot ∨ ((splitRoot path).1 = [] ∧
      ∃ name, (components (splitRoot (normalize path)).2)[1]? = some name ∧ drive name = true))
  machine : (components (splitRoot (normalize path)).2).filter (· ≠ dot) =
    machine (isAbsolute path) (names (splitRoot path).2)

theorem normalize_normal (path : Text) : Normal path := by
  have hresolved := resolved_partsOf path
  obtain ⟨n, rest, hparts, hrest, hn⟩ := hresolved.shape
  have hnodot : dot ∉ partsOf path := fun h => (hresolved.plain dot h).ne_dot rfl
  have hmachine : partsOf path = machine (isAbsolute path) (names (splitRoot path).2) :=
    resolve_components _ _
  refine ⟨normalize_normalize path, isAbsolute_normalize path, root_normalize path, ?_, ?_, ?_, ?_⟩
  · intro habs
    rw [hn habs, List.replicate_zero, List.nil_append] at hparts
    rcases components_normalize path with h | ⟨-, h, -⟩
    · rwa [h, hparts]
    · rw [h, hparts, List.mem_cons, not_or]
      exact ⟨dotDot_ne_dot, hrest⟩
  · intro _
    rcases components_normalize path with h | ⟨-, h, ⟨hnil, -⟩ | ⟨name, tail, hcons, hdrive⟩⟩
    · exact ⟨n, rest, by rw [h, hparts], hrest⟩
    · exact ⟨0, [dot], by rw [h, hnil]; rfl, by decide⟩
    · -- What looks like a drive is not `..`, so no `..` is in front of it.
      have hzero : n = 0 := by
        cases n with
        | zero => rfl
        | succ n =>
            rw [hcons, List.replicate_succ, List.cons_append, List.cons.injEq] at hparts
            rw [hparts.1] at hdrive
            cases hdrive
      rw [hzero, List.replicate_zero, List.nil_append] at hparts
      refine ⟨0, dot :: rest, by rw [h, hparts]; rfl, ?_⟩
      rw [List.mem_cons, not_or]
      exact ⟨dotDot_ne_dot, hrest⟩
  · intro i hi
    rcases components_normalize path with h | ⟨hroot, h, hwhy⟩
    · rw [h] at hi
      exact absurd (List.mem_of_getElem? hi) hnodot
    · rw [h] at hi ⊢
      cases i with
      | succ i =>
          rw [List.getElem?_cons_succ] at hi
          exact absurd (List.mem_of_getElem? hi) hnodot
      | zero =>
          refine ⟨rfl, ?_⟩
          rcases hwhy with ⟨-, hout⟩ | ⟨name, tail, hcons, hdrive⟩
          · exact .inl hout
          · exact .inr ⟨hroot, name, by rw [hcons]; rfl, hdrive⟩
  · have hfilter : (partsOf path).filter (· ≠ dot) = partsOf path :=
      List.filter_eq_self.mpr fun s hs => by simpa using (hresolved.plain s hs).ne_dot
    rw [← hmachine]
    rcases components_normalize path with h | ⟨-, h, -⟩
    · rw [h, hfilter]
    · rw [h, List.filter_cons_of_neg (by simp), hfilter]

example : normalize "./C:x/y/..".toList = "./C:x".toList := by decide

end Nitr.Path
