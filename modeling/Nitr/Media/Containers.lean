import Nitr.Media.Reads

/-! # Detection over machine words

The walk over the local headers of a ZIP container ends in the names that the walk over
numbers gives, unless the headers lead to an offset among the last of the words: then
`pos + 30` overflows. Detection ends wherever the walk does. -/

namespace Nitr.Media.Words

open Machine

/-! ## Where the headers lead -/

/-- The offset at which the local header at `pos` says the next one starts. -/
def followingHeader (head : List UInt8) (pos : ℕ) : Option ℕ :=
  if pos + 30 ≤ head.length && Media.occursAt head pos (bytes "PK\x03\x04") then
    let field := fun i => (Media.le16 head (pos + i)).getD 0
    let nameEnd := pos + 30 + field 26
    if head.length < nameEnd ∨ field 6 / 8 % 2 = 1 then none
    else some (nameEnd + field 28 + (Media.le32 head (pos + 18)).getD 0)
  else none

/-- The offset that as many headers lead to. -/
def headerOffset (head : List UInt8) : ℕ → ℕ → Option ℕ
  | 0, pos => some pos
  | more + 1, pos => (followingHeader head pos).bind (headerOffset head more)

/-- A word that a header's thirty bytes take past the last one. -/
def LastWords (w : Usize) (pos : ℕ) : Prop := pos < w.size ∧ w.size ≤ pos + 30

instance (w : Usize) (pos : ℕ) : Decidable (LastWords w pos) := inferInstanceAs (Decidable (_ ∧ _))

/-- Fewer headers than the count lead from `pos` to one of the last words. -/
def WrapsFrom (w : Usize) (head : List UInt8) (count pos : ℕ) : Prop :=
  ∃ more < count, ∃ offset ∈ headerOffset head more pos, LastWords w offset

instance (w : Usize) (head : List UInt8) (count pos : ℕ) :
    Decidable (WrapsFrom w head count pos) :=
  inferInstanceAs (Decidable (∃ more < count, ∃ offset ∈ headerOffset head more pos, _))

/-- The first eight local headers lead to one of the last words. -/
def ZipWraps (w : Usize) (head : List UInt8) : Prop := WrapsFrom w head 8 0

instance (w : Usize) (head : List UInt8) : Decidable (ZipWraps w head) :=
  inferInstanceAs (Decidable (WrapsFrom ..))

section

variable {w : Usize} {head : List UInt8} {count pos : ℕ}

theorem wrapsFrom_zero : ¬WrapsFrom w head 0 pos := fun ⟨_, hless, _⟩ => Nat.not_lt_zero _ hless

theorem wrapsFrom_succ :
    WrapsFrom w head (count + 1) pos ↔
      LastWords w pos ∨ ∃ next ∈ followingHeader head pos, WrapsFrom w head count next := by
  constructor
  · intro ⟨more, hless, offset, hoffset, hlast⟩
    cases more with
    | zero =>
        cases Option.mem_some.mp hoffset
        exact .inl hlast
    | succ more =>
        have ⟨next, hnext, hrest⟩ := Option.bind_eq_some_iff.mp hoffset
        exact .inr ⟨next, hnext, more, by omega, offset, hrest, hlast⟩
  · intro h
    cases h with
    | inl hlast => exact ⟨0, Nat.succ_pos _, pos, rfl, hlast⟩
    | inr hnext =>
        have ⟨next, hnext, more, hless, offset, hoffset, hlast⟩ := hnext
        exact ⟨more + 1, by omega, offset, Option.bind_eq_some_iff.mpr ⟨next, hnext, hoffset⟩,
          hlast⟩

theorem followingHeader_of_long (h : head.length < pos + 30) : followingHeader head pos = none := by
  rw [followingHeader, decide_eq_false (by omega)]
  rfl

theorem zipNamesFrom_of_long (h : head.length < pos + 30) : zipNamesFrom head count pos = [] := by
  cases count with
  | zero => rfl
  | succ count =>
      rw [zipNamesFrom, decide_eq_false (by omega)]
      rfl

/-- Nothing is led to from past the words. -/
theorem not_wrapsFrom_of_large (hlen : head.length ≤ w.sliceMax) (h : w.size ≤ pos) :
    ¬WrapsFrom w head count pos := by
  cases count with
  | zero => exact wrapsFrom_zero
  | succ count =>
      have hroom := w.room hlen (Nat.zero_le _)
      rw [wrapsFrom_succ, followingHeader_of_long (by omega)]
      intro hwraps
      cases hwraps with
      | inl hlast => exact absurd hlast.1 (by omega)
      | inr hnext =>
          have ⟨_, hnone, _⟩ := hnext
          cases hnone

end

/-! ## The walk -/

/-- What the walk ends in. -/
def zipOutcome (w : Usize) (head : List UInt8) (names : List (List UInt8)) (count pos : ℕ) :
    Checked (List (List UInt8)) :=
  if WrapsFrom w head count pos then .error .overflow
  else .ok (names ++ zipNamesFrom head count pos)

section

variable {w : Usize} {head : List UInt8} {names : List (List UInt8)} {count pos : ℕ}

theorem zipOutcome_last (h : LastWords w pos) :
    zipOutcome w head names (count + 1) pos = .error .overflow :=
  if_pos (wrapsFrom_succ.mpr (.inl h))

/-- Where no header follows, the walk ends with the names of the one at hand. -/
theorem zipOutcome_stop (hlast : ¬LastWords w pos) (hnext : followingHeader head pos = none) :
    zipOutcome w head names (count + 1) pos =
      .ok (names ++ zipNamesFrom head (count + 1) pos) := by
  refine if_neg fun hwraps => ?_
  rw [wrapsFrom_succ, hnext] at hwraps
  cases hwraps with
  | inl h => exact hlast h
  | inr h =>
      have ⟨_, hnone, _⟩ := h
      cases hnone

theorem zipOutcome_next {next : ℕ} {name : List UInt8} (names : List (List UInt8))
    (hlast : ¬LastWords w pos)
    (hnext : followingHeader head pos = some next)
    (hnames : zipNamesFrom head (count + 1) pos = name :: zipNamesFrom head count next) :
    zipOutcome w head names (count + 1) pos = zipOutcome w head (names ++ [name]) count next := by
  have hiff : WrapsFrom w head (count + 1) pos ↔ WrapsFrom w head count next := by
    rw [wrapsFrom_succ, hnext]
    constructor
    · intro h
      cases h with
      | inl h => exact absurd h hlast
      | inr h =>
          have ⟨_, hsome, hwraps⟩ := h
          cases Option.mem_some.mp hsome
          exact hwraps
    · exact fun h => .inr ⟨next, rfl, h⟩
  rw [zipOutcome, zipOutcome, hnames, List.append_assoc, List.singleton_append]
  exact if_congr hiff rfl rfl

/-- Past the words the names are those found. -/
theorem zipOutcome_large (hlen : head.length ≤ w.sliceMax) (h : w.size ≤ pos) :
    zipOutcome w head names count pos = .ok names := by
  have hroom := w.room hlen (Nat.zero_le _)
  rw [zipOutcome, if_neg (not_wrapsFrom_of_large hlen h), zipNamesFrom_of_long (by omega),
    List.append_nil]

theorem le16_getD_lt (head : List UInt8) (i : ℕ) : (Media.le16 head i).getD 0 < 2 ^ 16 := by
  rw [Media.le16]
  rcases head.drop i with _ | ⟨a, _ | ⟨b, rest⟩⟩
  · exact Nat.two_pow_pos _
  · exact Nat.two_pow_pos _
  · have ha := a.toNat_lt
    have hb := b.toNat_lt
    change a.toNat + b.toNat * 256 < _
    omega

theorem le32_getD_lt (head : List UInt8) (i : ℕ) : (Media.le32 head i).getD 0 < 2 ^ 32 := by
  rw [Media.le32]
  rcases head.drop i with _ | ⟨a, _ | ⟨b, _ | ⟨c, _ | ⟨d, rest⟩⟩⟩⟩
  · exact Nat.two_pow_pos _
  · exact Nat.two_pow_pos _
  · exact Nat.two_pow_pos _
  · exact Nat.two_pow_pos _
  · have ha := a.toNat_lt
    have hb := b.toNat_lt
    have hc := c.toNat_lt
    have hd := d.toNat_lt
    change a.toNat + (b.toNat + (c.toNat + d.toNat * 256) * 256) * 256 < _
    omega

/-- A header that the prefix holds: the walk goes on behind its name, or ends. -/
theorem zipHeader_spec (names : List (List UInt8)) (count : ℕ) (hlen : head.length ≤ w.sliceMax)
    (hpos : pos + 30 ≤ head.length)
    (hsigned : Media.occursAt head pos (bytes "PK\x03\x04") = true) :
    (∃ name next, zipHeader w head names pos = .ok (.next (names ++ [name], next)) ∧
      next < w.size ∧
      zipOutcome w head (names ++ [name]) count next = zipOutcome w head names (count + 1) pos) ∨
    ∃ result, zipHeader w head names pos = .ok (.stop result) ∧
      zipOutcome w head names (count + 1) pos = .ok result := by
  have hroom : head.length + 2 ^ 31 < w.size := w.room hlen (Nat.le_refl _)
  have hlast : ¬LastWords w pos := fun h => absurd h.2 (by omega)
  have hwithin : (decide (pos + 30 ≤ head.length) &&
      Media.occursAt head pos (bytes "PK\x03\x04")) = true := by
    rw [hsigned, decide_eq_true hpos]
    rfl
  have hnlen := le16_getD_lt head (pos + 26)
  have hxlen := le16_getD_lt head (pos + 28)
  have hfollowing : followingHeader head pos =
      if head.length < pos + 30 + (Media.le16 head (pos + 26)).getD 0 ∨
        (Media.le16 head (pos + 6)).getD 0 / 8 % 2 = 1 then none
      else some (pos + 30 + (Media.le16 head (pos + 26)).getD 0 +
        (Media.le16 head (pos + 28)).getD 0 + (Media.le32 head (pos + 18)).getD 0) := by
    rw [followingHeader, if_pos hwithin]
  have hnames (count : ℕ) : zipNamesFrom head (count + 1) pos =
      if head.length < pos + 30 + (Media.le16 head (pos + 26)).getD 0 then []
      else if (Media.le16 head (pos + 6)).getD 0 / 8 % 2 = 1 then
        [(head.drop (pos + 30)).take ((Media.le16 head (pos + 26)).getD 0)]
      else (head.drop (pos + 30)).take ((Media.le16 head (pos + 26)).getD 0) ::
        zipNamesFrom head count (pos + 30 + (Media.le16 head (pos + 26)).getD 0 +
          (Media.le16 head (pos + 28)).getD 0 + (Media.le32 head (pos + 18)).getD 0) := by
    rw [zipNamesFrom, if_pos hwithin]
  rw [zipHeader, u16At_eq hlen (by omega), u32At_eq hlen (by omega), u16At_eq hlen (by omega),
    u16At_eq hlen (by omega), w.add_eq (show pos + 30 < w.size by omega)]
  generalize (Media.le16 head (pos + 6)).getD 0 = flags at *
  generalize (Media.le32 head (pos + 18)).getD 0 = csize at *
  generalize (Media.le16 head (pos + 26)).getD 0 = nlen at *
  generalize (Media.le16 head (pos + 28)).getD 0 = xlen at *
  simp only [ok_bind, w.checkedAdd_eq (show pos + 30 + nlen < w.size by omega)]
  by_cases hlong : head.length < pos + 30 + nlen
  · rw [if_pos (.inl hlong)] at hfollowing
    refine .inr ⟨names, if_pos hlong, ?_⟩
    rw [zipOutcome_stop hlast hfollowing, hnames, if_pos hlong, List.append_nil]
  · rw [if_neg hlong, slice_eq (Nat.le_add_right ..) (by omega), ok_bind, Nat.add_sub_cancel_left]
    by_cases hdeferred : flags / 8 % 2 = 1
    · rw [if_pos (.inr hdeferred)] at hfollowing
      refine .inr ⟨_, if_pos hdeferred, ?_⟩
      rw [zipOutcome_stop hlast hfollowing, hnames, if_neg hlong, if_pos hdeferred]
    · rw [if_neg (not_or.mpr ⟨hlong, hdeferred⟩)] at hfollowing
      have hcount := hnames count
      rw [if_neg hlong, if_neg hdeferred] at hcount
      have hnext := zipOutcome_next names hlast hfollowing hcount
      rw [if_neg hdeferred, w.checkedAdd_eq (show pos + 30 + nlen + xlen < w.size by omega),
        Option.bind_some]
      by_cases hfits : pos + 30 + nlen + xlen + csize < w.size
      · rw [w.checkedAdd_eq hfits]
        exact .inl ⟨_, _, rfl, hfits, hnext.symm⟩
      · rw [w.checkedAdd_eq_none (by omega)]
        refine .inr ⟨_, rfl, ?_⟩
        rw [hnext, zipOutcome_large hlen (by omega)]

/-- The walk from eight names at most. -/
theorem loop_zipRound (hlen : head.length ≤ w.sliceMax) {rounds : ℕ} (hrounds : 8 < rounds) :
    loop (zipRound w head) rounds ([], 0) = zipOutcome w head [] 8 0 := by
  have hroom : head.length + 2 ^ 31 < w.size := w.room hlen (Nat.le_refl _)
  refine loop_eq (fun s : ZipState => zipOutcome w head s.1 (8 - s.1.length) s.2)
    (fun s => s.1.length ≤ 8 ∧ s.2 < w.size) (fun s => 8 - s.1.length) ?_
    ⟨Nat.zero_le _, by omega⟩ hrounds
  intro ⟨names, pos⟩ ⟨hnames, hpos⟩
  simp only [zipRound]
  by_cases hmore : names.length < 8
  · have hcount : 8 - names.length = 8 - (names.length + 1) + 1 := by omega
    rw [if_pos hmore, hcount]
    by_cases hlast : LastWords w pos
    · rw [w.add_overflow hlast.2, error_bind, zipOutcome_last hlast]
      exact .inr (.inr ⟨_, rfl, rfl⟩)
    · have hbound : pos + 30 < w.size := by
        by_contra hover
        exact hlast ⟨hpos, by omega⟩
      rw [w.add_eq hbound, ok_bind]
      by_cases hheld : pos + 30 ≤ head.length
      · have hmagic : pos + (bytes "PK\x03\x04").length < w.size := by
          have : (bytes "PK\x03\x04").length = 4 := rfl
          omega
        rw [if_pos hheld, occursAt_eq hmagic (List.cons_ne_nil _ _), ok_bind]
        cases hsigned : Media.occursAt head pos (bytes "PK\x03\x04") with
        | true =>
            rw [if_pos rfl]
            cases zipHeader_spec names (8 - (names.length + 1)) hlen hheld hsigned with
            | inl hnext =>
                have ⟨name, next, heq, hfits, houtcome⟩ := hnext
                refine .inl ⟨_, heq, ⟨?_, hfits⟩, ?_, ?_⟩
                · rw [List.length_append, List.length_singleton]
                  omega
                · simp only [List.length_append, List.length_singleton]
                  omega
                · simp only [List.length_append, List.length_singleton]
                  exact houtcome
            | inr hstop => exact .inr (.inl hstop)
        | false =>
            have hnone : followingHeader head pos = none := by
              rw [followingHeader, hsigned, Bool.and_false]
              rfl
            refine .inr (.inl ⟨names, rfl, ?_⟩)
            rw [zipOutcome_stop hlast hnone, zipNamesFrom, hsigned, Bool.and_false,
              if_neg Bool.false_ne_true, List.append_nil]
      · rw [if_neg hheld]
        refine .inr (.inl ⟨names, rfl, ?_⟩)
        rw [zipOutcome_stop hlast (followingHeader_of_long (by omega)),
          zipNamesFrom_of_long (by omega), List.append_nil]
  · rw [if_neg hmore, show 8 - names.length = 0 by omega, zipOutcome, if_neg wrapsFrom_zero,
      zipNamesFrom, List.append_nil]
    exact .inr (.inl ⟨names, rfl, rfl⟩)

end

/-! ## The kind of a container -/

section

variable {w : Usize} {head : List UInt8} {rounds : ℕ}

theorem firstEntry_eq (body : List UInt8) {candidates : List String}
    (h : ∀ name ∈ candidates, (lookup name).isSome) :
    firstEntry body candidates =
      .ok ((candidates.find? fun name => Media.starts body (bytes name)).bind lookup) := by
  induction candidates with
  | nil => rfl
  | cons name candidates ih =>
      have ⟨media, hmedia⟩ := Option.isSome_iff_exists.mp (h name List.mem_cons_self)
      rw [firstEntry, starts_eq, ok_bind, List.find?_cons]
      cases Media.starts body (bytes name) with
      | true =>
          rw [if_pos rfl, hmedia]
          exact congrArg Except.ok hmedia.symm
      | false => exact ih fun n hn => h n (List.mem_cons_of_mem _ hn)

theorem lookup_mimetypeEntries : ∀ name ∈ mimetypeEntries, (lookup name).isSome := by decide

theorem declaredType_eq (head first : List UInt8) :
    declaredType w head first =
      .ok (if first = bytes "mimetype" then
          (mimetypeEntries.find? fun name => Media.starts (head.drop 38) (bytes name)).bind lookup
        else none) := by
  rw [declaredType]
  split
  · rename_i hfirst
    have hlen : first.length = 8 := congrArg List.length hfirst
    have hdrop : (head.drop (min 38 head.length)).take (head.length - min 38 head.length) =
        head.drop 38 := by
      rw [List.take_of_length_le (by rw [List.length_drop])]
      by_cases hshort : 38 ≤ head.length
      · rw [Nat.min_eq_left hshort]
      · rw [Nat.min_eq_right (by omega), List.drop_length, List.drop_eq_nil_of_le (by omega)]
    rw [hlen, w.add_eq (w.small (by decide)), ok_bind,
      slice_eq (Nat.min_le_right ..) (Nat.le_refl _), ok_bind, hdrop,
      firstEntry_eq _ lookup_mimetypeEntries]
  · rfl

theorem hit_of_isSome {name : String} (h : (lookup name).isSome) :
    hit name =
      match lookup name with
      | some media => .detected media
      | none => hit "application/zip" := by
  have ⟨media, hmedia⟩ := Option.isSome_iff_exists.mp h
  simp only [hit, hmedia]

theorem hit_officeType (names : List (List UInt8)) :
    hit (
      if names.contains (bytes "[Content_Types].xml") ||
          names.any fun n => Media.starts n (bytes "_rels/") then
        if names.any fun n => Media.starts n (bytes "word/") then
          "application/vnd.openxmlformats-officedocument.wordprocessingml.document"
        else if names.any fun n => Media.starts n (bytes "xl/") then
          "application/vnd.openxmlformats-officedocument.spreadsheetml.sheet"
        else if names.any fun n => Media.starts n (bytes "ppt/") then
          "application/vnd.openxmlformats-officedocument.presentationml.presentation"
        else "application/zip"
      else "application/zip") =
      match officeType names with
      | some media => .detected media
      | none => hit "application/zip" := by
  rw [officeType]
  split
  · refine hit_of_isSome ?_
    split
    · rfl
    · split
      · rfl
      · split <;> rfl
  · rfl

/-- The kind is that of the names. -/
theorem hit_zipKind (head : List UInt8) :
    hit (Media.zipKind head) =
      match
        (if (Media.zipEntryNames head).head?.getD [] = bytes "mimetype" then
          (mimetypeEntries.find? fun name => Media.starts (head.drop 38) (bytes name)).bind lookup
        else none) with
      | some media => .detected media
      | none =>
          match officeType (Media.zipEntryNames head) with
          | some media => .detected media
          | none => hit "application/zip" := by
  rw [Media.zipKind]
  generalize Media.zipEntryNames head = names
  have hfirst : names.head? = some (bytes "mimetype") ↔ names.head?.getD [] = bytes "mimetype" := by
    cases names with
    | nil => exact ⟨(nomatch ·), (nomatch ·)⟩
    | cons first rest => exact Option.some_inj
  by_cases hmimetype : names.head?.getD [] = bytes "mimetype"
  · rw [if_pos hmimetype, if_pos (hfirst.mpr hmimetype)]
    cases hfind : mimetypeEntries.find? fun name => Media.starts (head.drop 38) (bytes name) with
    | some name =>
        have ⟨media, hmedia⟩ := Option.isSome_iff_exists.mp
          (lookup_mimetypeEntries name (List.mem_of_find?_eq_some hfind))
        rw [Option.bind_some, hmedia]
        simp only [hit, hmedia]
    | none => exact hit_officeType names
  · rw [if_neg hmimetype, if_neg (mt hfirst.mp hmimetype)]
    exact hit_officeType names

theorem zipEntryNames_eq (hlen : head.length ≤ w.sliceMax) (hrounds : 8 < rounds)
    (hwraps : ¬ZipWraps w head) :
    zipEntryNames w rounds head = .ok (Media.zipEntryNames head) := by
  rw [zipEntryNames, loop_zipRound hlen hrounds]
  exact if_neg hwraps

theorem zipKind_eq (hlen : head.length ≤ w.sliceMax) (hrounds : 8 < rounds)
    (hwraps : ¬ZipWraps w head) :
    ∃ media, zipKind w rounds head = .ok media ∧ hit (Media.zipKind head) = .detected media := by
  rw [zipKind, zipEntryNames_eq hlen hrounds hwraps, ok_bind, declaredType_eq, ok_bind,
    hit_zipKind]
  cases (if (Media.zipEntryNames head).head?.getD [] = bytes "mimetype" then
      (mimetypeEntries.find? fun name => Media.starts (head.drop 38) (bytes name)).bind lookup
    else none) with
  | some media => exact ⟨media, rfl, rfl⟩
  | none =>
      cases officeType (Media.zipEntryNames head) with
      | some media => exact ⟨media, rfl, rfl⟩
      | none => exact ⟨_, rfl, rfl⟩

theorem zipKind_overflow (hlen : head.length ≤ w.sliceMax) (hrounds : 8 < rounds)
    (hwraps : ZipWraps w head) : zipKind w rounds head = .error .overflow := by
  have houtcome : zipOutcome w head [] 8 0 = .error .overflow := if_pos hwraps
  rw [zipKind, zipEntryNames, loop_zipRound hlen hrounds, houtcome, error_bind]

end

/-! ## Detection -/

section

variable {w : Usize} {head : List UInt8} {rounds : ℕ}

theorem occursAt_const (head : List UInt8) (offset : ℕ) (text : String)
    (hfits : offset + (bytes text).length ≤ 2 ^ 31) (htext : bytes text ≠ []) :
    occursAt w head offset (bytes text) = .ok (Media.occursAt head offset (bytes text)) :=
  occursAt_eq (w.small hfits) htext

/-- Detection goes as far as the container. -/
def ZipReached (head : List UInt8) : Prop :=
  Media.starts head (bytes "PK\x03\x04") = true ∧ Media.occursAt head 4 (bytes "ftyp") = false

theorem detectRest_eq (head : List UInt8) :
    detectRest head =
      .ok (match Media.audioFrame head with
        | some name => hit name
        | none =>
            if Media.starts head (bytes "\x1A\x45\xDF\xA3") then
              hit (if (windows head).contains (bytes "webm") then "video/webm"
                else "video/x-matroska")
            else if Media.isText head then .text
            else .unknown) := by
  rw [detectRest, audioFrame_eq, ok_bind]
  cases Media.audioFrame head with
  | some name => rfl
  | none =>
      simp only [starts_eq, isText_eq, ok_bind]
      cases Media.starts head (bytes "\x1A\x45\xDF\xA3") with
      | true => rfl
      | false => cases Media.isText head <;> rfl

theorem ftypBrand_eq (head : List UInt8) :
    ftypBrand w head =
      .ok (if Media.occursAt head 4 (bytes "ftyp") && decide (12 ≤ head.length) then
          some ((head.drop 8).take 4)
        else none) := by
  rw [ftypBrand, occursAt_const head 4 "ftyp" (by decide) (by decide), ok_bind]
  cases Media.occursAt head 4 (bytes "ftyp") with
  | false => rfl
  | true =>
      by_cases hlong : 12 ≤ head.length
      · rw [decide_eq_true hlong, slice_eq (by decide) hlong]
        rfl
      · rw [decide_eq_false hlong]
        rfl

theorem riffType_eq (head : List UInt8) :
    riffType w head =
      .ok (if Media.starts head (bytes "RIFF") && Media.occursAt head 8 (bytes "WEBP") then
          some "image/webp"
        else if Media.starts head (bytes "RIFF") && Media.occursAt head 8 (bytes "WAVE") then
          some "audio/wav"
        else if Media.starts head (bytes "RIFF") && Media.occursAt head 8 (bytes "AVI ") then
          some "video/x-msvideo"
        else none) := by
  simp only [riffType, starts_eq, ok_bind, occursAt_const head 8 "WEBP" (by decide) (by decide),
    occursAt_const head 8 "WAVE" (by decide) (by decide),
    occursAt_const head 8 "AVI " (by decide) (by decide)]
  cases Media.starts head (bytes "RIFF") with
  | false => rfl
  | true =>
      cases Media.occursAt head 8 (bytes "WEBP") with
      | true => rfl
      | false =>
          cases Media.occursAt head 8 (bytes "WAVE") with
          | true => rfl
          | false => cases Media.occursAt head 8 (bytes "AVI ") <;> rfl

theorem detectLate_eq (hlen : head.length ≤ w.sliceMax) (hrounds : 8 < rounds)
    (hwraps : Media.starts head (bytes "PK\x03\x04") = true → ¬ZipWraps w head) :
    detectLate w rounds head =
      .ok (
        if Media.starts head (bytes "BM") &&
            (Media.le32 head 14).any [12, 40, 52, 56, 108, 124].contains then hit "image/bmp"
        else if Media.starts head (bytes "PK\x03\x04") then hit (Media.zipKind head)
        else if Media.occursAt head 257 (bytes "ustar") then hit "application/x-tar"
        else
          match Media.audioFrame head with
          | some name => hit name
          | none =>
              if Media.starts head (bytes "\x1A\x45\xDF\xA3") then
                hit (if (windows head).contains (bytes "webm") then "video/webm"
                  else "video/x-matroska")
              else if Media.isText head then .text
              else .unknown) := by
  simp only [detectLate, starts_eq, ok_bind, isBitmap_eq,
    occursAt_const head 257 "ustar" (by decide) (by decide), detectRest_eq]
  cases Media.starts head (bytes "BM") &&
      (Media.le32 head 14).any [12, 40, 52, 56, 108, 124].contains with
  | true => rfl
  | false =>
      cases hzip : Media.starts head (bytes "PK\x03\x04") with
      | true =>
          have ⟨media, hmedia, hhit⟩ := zipKind_eq hlen hrounds (hwraps hzip)
          simp only [hmedia, hhit, ok_bind]
          rfl
      | false => cases Media.occursAt head 257 (bytes "ustar") <;> rfl

/-- Detection ends in what it gives over numbers, unless it comes to a container whose headers
lead past the words. -/
theorem detect_eq (hlen : head.length ≤ w.sliceMax) (hrounds : 8 < rounds)
    (hwraps : ¬(ZipReached head ∧ ZipWraps w head)) :
    detect w rounds head = .ok (Media.detect head) := by
  rw [detect, Media.detect, isExecutable_eq, ok_bind]
  cases Media.isExecutable head with
  | true => rfl
  | false =>
      rw [if_neg Bool.false_ne_true, if_neg Bool.false_ne_true, firstSignature_eq, ok_bind]
      cases signatures.find? fun s => Media.starts head s.1 with
      | some s => rfl
      | none =>
          simp only [Option.map_none, riffType_eq, ftypBrand_eq, ok_bind,
            occursAt_const head 4 "ftyp" (by decide) (by decide)]
          cases Media.starts head (bytes "RIFF") && Media.occursAt head 8 (bytes "WEBP") with
          | true => rfl
          | false =>
              cases Media.starts head (bytes "RIFF") && Media.occursAt head 8 (bytes "WAVE") with
              | true => rfl
              | false =>
                  cases Media.starts head (bytes "RIFF") &&
                      Media.occursAt head 8 (bytes "AVI ") with
                  | true => rfl
                  | false =>
                      cases hiso : Media.occursAt head 4 (bytes "ftyp") with
                      | true =>
                          by_cases hshort : head.length < 12
                          · rw [decide_eq_true hshort]
                            exact congrArg Except.ok (if_pos hshort).symm
                          · rw [decide_eq_false hshort, decide_eq_true (Nat.le_of_not_lt hshort)]
                            exact congrArg Except.ok (if_neg hshort).symm
                      | false =>
                          exact detectLate_eq hlen hrounds fun hzip hz => hwraps ⟨⟨hzip, hiso⟩, hz⟩

/-- A prefix that starts as a container starts as nothing else. -/
theorem detect_overflow (hlen : head.length ≤ w.sliceMax) (hrounds : 8 < rounds)
    (hreached : ZipReached head) (hwraps : ZipWraps w head) :
    detect w rounds head = .error .overflow := by
  have ⟨hzip, hiso⟩ := hreached
  have ⟨rest, hrest⟩ := List.isPrefixOf_iff_prefix.mp hzip
  have hhead : head = 0x50 :: 0x4B :: 0x03 :: 0x04 :: rest := hrest.symm
  have hmagic : Media.be32 head 0 = some 0x504B0304 := by rw [hhead]; rfl
  have hexecutable : Media.isExecutable head = false := by
    have hmach : [0xFEEDFACE, 0xFEEDFACF, 0xCEFAEDFE, 0xCFFAEDFE].contains 0x504B0304 = false := by
      decide
    rw [Media.isExecutable, hmagic, Option.any_some, hmach, hhead]
    rfl
  have hsignature : (signatures.find? fun s => Media.starts head s.1) = none := by rw [hhead]; rfl
  have hriff : Media.starts head (bytes "RIFF") = false := by rw [hhead]; rfl
  have hbm : Media.starts head (bytes "BM") = false := by rw [hhead]; rfl
  rw [detect, isExecutable_eq, ok_bind, hexecutable, if_neg Bool.false_ne_true, firstSignature_eq,
    hsignature, Option.map_none, ok_bind]
  simp only [riffType_eq, ftypBrand_eq, ok_bind, hriff, hiso, Bool.false_and, Bool.false_eq_true,
    if_false, occursAt_const head 4 "ftyp" (by decide) (by decide)]
  rw [detectLate, isBitmap_eq, ok_bind, hbm, Bool.false_and, if_neg Bool.false_ne_true, starts_eq,
    ok_bind, hzip, if_pos rfl, zipKind_overflow hlen hrounds hwraps, error_bind]

theorem total_detect_iff (hlen : head.length ≤ w.sliceMax) :
    Total (fun rounds => detect w rounds head) ↔ ¬(ZipReached head ∧ ZipWraps w head) := by
  constructor
  · intro htotal ⟨hreached, hwraps⟩
    exact not_total_of_error (fun _ hrounds => detect_overflow hlen hrounds hreached hwraps) htotal
  · exact fun h => .of_eq fun _ hrounds => detect_eq hlen hrounds h

/-- A header leads at most by the extra field and the data past the prefix. -/
theorem followingHeader_lt {pos next : ℕ} (h : followingHeader head pos = some next) :
    next < head.length + 2 ^ 33 := by
  have hxlen := le16_getD_lt head (pos + 28)
  have hcsize := le32_getD_lt head (pos + 18)
  rw [followingHeader] at h
  split at h
  · dsimp only at h
    split at h
    · cases h
    · rename_i hheld
      have hnext := Option.some.inj h
      omega
  · cases h

/-- On addresses of 64 bits no header leads to the last words. -/
theorem not_wrapsFrom_bits64 (hlen : head.length ≤ Usize.bits64.sliceMax) {count pos : ℕ}
    (hpos : pos < head.length + 2 ^ 33) : ¬WrapsFrom .bits64 head count pos := by
  have hmax : Usize.bits64.sliceMax = 2 ^ 63 - 1 := rfl
  have hsize : Usize.bits64.size = 2 ^ 64 := rfl
  induction count generalizing pos with
  | zero => exact wrapsFrom_zero
  | succ count ih =>
      rw [wrapsFrom_succ]
      intro hwraps
      cases hwraps with
      | inl hlast => exact absurd hlast.2 (by omega)
      | inr hnext =>
          have ⟨next, hnext, hrest⟩ := hnext
          exact ih (followingHeader_lt hnext) hrest

theorem not_zipWraps_bits64 (hlen : head.length ≤ Usize.bits64.sliceMax) :
    ¬ZipWraps .bits64 head := not_wrapsFrom_bits64 hlen (by omega)

end

end Nitr.Media.Words
