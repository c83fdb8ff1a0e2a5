import Nitr.Media.Containers

/-! # Where the header parsers end

The readers of dimensions end in what they give over numbers, but for `i + 2` at the directory
of a TIFF image, which overflows on addresses of 32 bits. With detection, this says exactly
which prefixes stop a parser. -/

namespace Nitr.Media.Words

open Machine

variable {w : Usize} {head : List UInt8} {rounds : ℕ}

/-! ## Fields at fixed offsets -/

theorem both_eq (first second : Option ℕ) :
    both (.ok first) (.ok second) =
      .ok (do
        let a ← first
        let b ← second
        some (a, b)) := by
  cases first with
  | none => rfl
  | some a => cases second <;> rfl

theorem png_eq (head : List UInt8) : png w head = .ok (Media.png head) := by
  rw [png, Media.png, occursAt_const head 12 "IHDR" (by decide) (by decide), ok_bind,
    be32_eq (w.small (by decide)), be32_eq (w.small (by decide)), both_eq]
  cases Media.occursAt head 12 (bytes "IHDR") <;> rfl

theorem gif_eq (head : List UInt8) : gif w head = .ok (Media.gif head) := by
  rw [gif, Media.gif, le16_eq (w.small (by decide)), le16_eq (w.small (by decide)), both_eq]

theorem bmp_eq (head : List UInt8) : bmp w head = .ok (Media.bmp head) := by
  rw [bmp, Media.bmp, le32_eq (w.small (by decide)), ok_bind,
    le16_eq (w.small (by decide)), le16_eq (w.small (by decide)), both_eq,
    le32_eq (w.small (by decide)), le32_eq (w.small (by decide)), both_eq]
  cases Media.le32 head 14 with
  | none => rfl
  | some header =>
      change (if header = 12 then _ else _) = Except.ok (if header = 12 then _ else _)
      split
      · rfl
      · cases Media.le32 head 18 with
        | none => rfl
        | some width => cases Media.le32 head 22 <;> rfl

/-! ## WebP -/

theorem u24_eq {i : ℕ} (h : i + 2 < w.size) : u24 w head i = .ok (Media.le24 head i) := by
  have hat (k : ℕ) : head[i + k]? = (head.drop i)[k]? := (List.getElem?_drop ..).symm
  rw [u24, Media.le24, w.add_eq (by omega), w.add_eq h]
  simp only [ok_bind, hat 1, hat 2, show head[i]? = (head.drop i)[0]? from hat 0]
  rcases head.drop i with _ | ⟨a, _ | ⟨b, _ | ⟨c, rest⟩⟩⟩ <;> rfl

theorem le24_lt {i n : ℕ} (h : Media.le24 head i = some n) : n < 2 ^ 24 := by
  rw [Media.le24] at h
  split at h
  · rename_i a b c _ _
    have ha := a.toNat_lt
    have hb := b.toNat_lt
    have hc := c.toNat_lt
    have hn := Option.some.inj h
    omega
  · cases h

theorem oneMore_eq {n : ℕ} (h : n < 2 ^ 24) : oneMore n = .ok (n + 1) := addBelow_eq (by omega)

/-- The tag of a chunk is a text of four bytes. -/
theorem tag_eq_iff (magic : List UInt8) (hmagic : magic.length = 4) {tag : List UInt8}
    (h : getRange head 12 16 = some tag) : tag = magic ↔ Media.occursAt head 12 magic = true := by
  rw [show (16 : ℕ) = 12 + 4 from rfl, getRange_field (by decide)] at h
  split at h
  · rw [← Option.some.inj h, Media.occursAt, Media.starts, List.isPrefixOf_iff_prefix,
      List.prefix_iff_eq_take, hmagic, eq_comm]
  · cases h

theorem occursAt_of_getRange {magic : List UInt8} (hmagic : magic.length = 4)
    (h : getRange head 12 16 = none) : Media.occursAt head 12 magic = false := by
  rw [show (16 : ℕ) = 12 + 4 from rfl, getRange_field (by decide)] at h
  split at h
  · cases h
  · rename_i hshort
    rw [Media.occursAt, Media.starts, ← Bool.not_eq_true, List.isPrefixOf_iff_prefix]
    intro hprefix
    exact hshort (hmagic ▸ hprefix.length_le)

theorem webp_eq (head : List UInt8) : webp w head = .ok (Media.webp head) := by
  rw [webp, Media.webp]
  cases htag : getRange head 12 16 with
  | none =>
      rw [occursAt_of_getRange rfl htag, occursAt_of_getRange rfl htag,
        occursAt_of_getRange rfl htag]
      rfl
  | some tag =>
      simp only [← tag_eq_iff (bytes "VP8 ") rfl htag, ← tag_eq_iff (bytes "VP8L") rfl htag,
        ← tag_eq_iff (bytes "VP8X") rfl htag]
      split
      · rw [occursAt_eq (w.small (by decide)) (by decide), ok_bind,
          le16_eq (w.small (by decide)), le16_eq (w.small (by decide)), both_eq]
        cases Media.occursAt head 23 (bytes "\x9d\x01\x2a") with
        | false => rfl
        | true =>
            cases Media.le16 head 26 with
            | none => rfl
            | some width => cases Media.le16 head 28 <;> rfl
      · split
        · split
          · rw [le32_eq (w.small (by decide)), ok_bind]
            cases Media.le32 head 21 with
            | none => rfl
            | some bits =>
                simp only [oneMore_eq (show bits % 0x4000 < 2 ^ 24 by omega),
                  oneMore_eq (show bits / 0x4000 % 0x4000 < 2 ^ 24 by omega), ok_bind]
                rfl
          · rfl
        · split
          · rw [u24_eq (w.small (by decide)), u24_eq (w.small (by decide)), ok_bind]
            cases hwidth : Media.le24 head 24 with
            | none => rfl
            | some width =>
                simp only [oneMore_eq (le24_lt hwidth), ok_bind]
                cases hheight : Media.le24 head 27 with
                | none => rfl
                | some height =>
                    simp only [oneMore_eq (le24_lt hheight), ok_bind]
                    rfl
          · rfl

/-! ## JPEG -/

/-- The walk over numbers is the same with any rounds enough. -/
theorem jpegFrom_stable {n m pos : ℕ} (hn : head.length < pos + n) (hm : head.length < pos + m) :
    jpegFrom head n pos = jpegFrom head m pos := by
  induction n generalizing m pos with
  | zero =>
      cases m with
      | zero => rfl
      | succ m => rw [jpegFrom, jpegFrom, if_pos (by omega)]
  | succ n ih =>
      cases m with
      | zero => rw [jpegFrom, jpegFrom, if_pos (by omega)]
      | succ m =>
          have hstep (k : ℕ) (hk : 0 < k) :
              jpegFrom head n (pos + k) = jpegFrom head m (pos + k) := ih (by omega) (by omega)
          rw [jpegFrom, jpegFrom]
          simp only [hstep 1 (by decide), hstep 2 (by decide),
            hstep (2 + (Media.be16 head (pos + 2)).getD 0) (by omega), Nat.add_assoc]

theorem be16_getD {i : ℕ} (h : i + 2 ≤ head.length) :
    (Media.be16 head i).getD 0 = (head.getD i 0).toNat * 256 + (head.getD (i + 1) 0).toNat ∧
      (Media.be16 head i).getD 0 < 2 ^ 16 := by
  have hat (k : ℕ) : head.getD (i + k) 0 = (head.drop i).getD k 0 := by
    rw [List.getD_eq_getElem?_getD, List.getD_eq_getElem?_getD, List.getElem?_drop]
  have hdrop := List.length_drop (i := i) (l := head)
  rw [Media.be16, hat 1, show head.getD i 0 = _ from hat 0]
  rcases hrest : head.drop i with _ | ⟨a, _ | ⟨b, rest⟩⟩
  · rw [hrest, List.length_nil] at hdrop
    omega
  · rw [hrest, List.length_singleton] at hdrop
    omega
  · have ha := a.toNat_lt
    have hb := b.toNat_lt
    refine ⟨rfl, ?_⟩
    change a.toNat * 256 + b.toNat < _
    omega

/-- Nine bytes at a position, and how the walk over numbers reads them. -/
theorem jpegRound_spec (hlen : head.length ≤ w.sliceMax) {pos : ℕ}
    (hpos : pos < head.length + 2 ^ 17) (n : ℕ) :
    (∃ next, jpegRound w head pos = .ok (.next next) ∧ pos < head.length ∧ pos < next ∧
      next < head.length + 2 ^ 17 ∧ jpegFrom head n next = jpegFrom head (n + 1) pos) ∨
    ∃ result, jpegRound w head pos = .ok (.stop result) ∧ jpegFrom head (n + 1) pos = result := by
  have hroom : head.length + 2 ^ 31 < w.size := w.room hlen (Nat.le_refl _)
  rw [jpegRound, w.add_eq (by omega), ok_bind]
  by_cases hbound : pos + 9 ≤ head.length
  · have hadd (k : ℕ) (hk : k ≤ 8) : w.add pos k = .ok (pos + k) := w.add_eq (by omega)
    have hbyte (k : ℕ) (hk : k ≤ 8) : index head (pos + k) = .ok (head.getD (pos + k) 0) := by
      refine index_eq ?_
      rw [List.getD_eq_getElem?_getD, List.getElem?_eq_getElem (by omega), Option.getD_some]
    have hfield (k : ℕ) (hk : k ≤ 7) : be16 w head (pos + k) = .ok (Media.be16 head (pos + k)) :=
      be16_eq (by omega)
    have hlead : index head pos = .ok (head.getD pos 0) := hbyte 0 (by decide)
    have ⟨hlength, hlengthLt⟩ := be16_getD (show pos + 2 + 2 ≤ head.length by omega)
    rw [if_pos hbound, hlead, ok_bind, jpegFrom,
      if_neg (show ¬head.length < pos + 9 by omega)]
    simp only [hadd 1 (by decide), hadd 2 (by decide), hadd 3 (by decide), hadd 5 (by decide),
      hadd 7 (by decide), hbyte 1 (by decide), hbyte 2 (by decide), hbyte 3 (by decide),
      hfield 5 (by decide), hfield 7 (by decide), ok_bind]
    rw [Nat.add_assoc pos 2 1] at hlength
    rw [← hlength]
    generalize (Media.be16 head (pos + 2)).getD 0 = len at *
    generalize (head.getD (pos + 1) 0).toNat = marker at *
    by_cases hstart : head.getD pos 0 ≠ 0xFF
    · exact .inr ⟨none, if_pos hstart, if_pos hstart⟩
    rw [if_neg hstart, if_neg hstart]
    by_cases hfill : marker = 0xFF
    · rw [if_pos hfill, if_pos hfill]
      exact .inl ⟨pos + 1, rfl, by omega, by omega, by omega, rfl⟩
    rw [if_neg hfill, if_neg hfill]
    by_cases hstandalone : standalone marker = true
    · rw [if_pos hstandalone, if_pos hstandalone]
      exact .inl ⟨pos + 2, rfl, by omega, by omega, by omega, rfl⟩
    rw [if_neg hstandalone, if_neg hstandalone]
    by_cases hframe : startOfFrame marker = true
    · rw [if_pos hframe, if_pos hframe]
      cases Media.be16 head (pos + 5) with
      | none => exact .inr ⟨none, rfl, rfl⟩
      | some height =>
          cases Media.be16 head (pos + 7) with
          | none => exact .inr ⟨none, rfl, rfl⟩
          | some width => exact .inr ⟨some (width, height), rfl, rfl⟩
    rw [if_neg hframe, if_neg hframe]
    by_cases hend : (decide (marker = 0xDA) || decide (len < 2)) = true
    · rw [if_pos hend, if_pos hend]
      exact .inr ⟨none, rfl, rfl⟩
    rw [if_neg hend, if_neg hend, w.add_eq (show 2 + len < w.size by omega), ok_bind,
      w.add_eq (show pos + (2 + len) < w.size by omega), ok_bind]
    exact .inl ⟨pos + (2 + len), rfl, by omega, by omega, by omega, by rw [Nat.add_assoc]⟩
  · refine .inr ⟨none, if_neg hbound, ?_⟩
    rw [jpegFrom, if_pos (by omega)]

theorem jpeg_eq (hlen : head.length ≤ w.sliceMax) (hrounds : head.length + 1 < rounds) :
    jpeg w rounds head = .ok (Media.jpeg head) := by
  have hloop : loop (jpegRound w head) rounds 2 = .ok (jpegFrom head (head.length + 1) 2) := by
    refine loop_eq (fun pos => .ok (jpegFrom head (head.length + 1) pos))
      (fun pos => pos < head.length + 2 ^ 17 ∧ 0 < pos) (fun pos => head.length + 1 - pos) ?_
      ⟨by omega, by decide⟩ (by omega)
    intro pos ⟨hpos, hstart⟩
    cases jpegRound_spec hlen hpos head.length with
    | inl hnext =>
        have ⟨next, heq, hin, hless, hnextLt, hsame⟩ := hnext
        refine .inl ⟨next, heq, ⟨hnextLt, by omega⟩, by omega, ?_⟩
        rw [← hsame]
        exact congrArg Except.ok (jpegFrom_stable (by omega) (by omega))
    | inr hstop =>
        have ⟨result, heq, hresult⟩ := hstop
        exact .inr (.inl ⟨result, heq, congrArg Except.ok hresult⟩)
  rw [jpeg, hloop, Media.jpeg]
  exact congrArg Except.ok (jpegFrom_stable (by omega) (by omega))

/-! ## TIFF -/

/-- Where a TIFF prefix says its first directory is. -/
def directoryOffset (head : List UInt8) : Option ℕ :=
  if Media.starts head (bytes "II") then Media.le32 head 4 else Media.be32 head 4

/-- The directory is at one of the last two words. -/
def TiffWraps (w : Usize) (head : List UInt8) : Prop :=
  ∃ ifd ∈ directoryOffset head, w.size ≤ ifd + 2

instance (w : Usize) (head : List UInt8) : Decidable (TiffWraps w head) :=
  inferInstanceAs (Decidable (∃ ifd ∈ directoryOffset head, _))

/-- Readers that fault only past the words. -/
structure Reads (w : Usize) (width : ℕ) (checked : ℕ → Checked (Option ℕ)) (plain : ℕ → Option ℕ) :
    Prop where
  fits : ∀ i, i + width < w.size → checked i = .ok (plain i)
  wraps : ∀ i, w.size ≤ i + width → checked i = .error .overflow

theorem reads_16 (w : Usize) (head : List UInt8) (little : Bool) :
    Reads w 2 (fun i => if little then le16 w head i else be16 w head i)
      (fun i => if little then Media.le16 head i else Media.be16 head i) := by
  constructor
  · intro i hi
    cases little with
    | true => exact le16_eq hi
    | false => exact be16_eq hi
  · intro i hi
    cases little with
    | true =>
        change le16 w head i = _
        rw [le16, w.add_overflow hi, error_bind]
    | false =>
        change be16 w head i = _
        rw [be16, w.add_overflow hi, error_bind]

theorem reads_32 (w : Usize) (head : List UInt8) (little : Bool) :
    Reads w 4 (fun i => if little then le32 w head i else be32 w head i)
      (fun i => if little then Media.le32 head i else Media.be32 head i) := by
  constructor
  · intro i hi
    cases little with
    | true => exact le32_eq hi
    | false => exact be32_eq hi
  · intro i hi
    cases little with
    | true =>
        change le32 w head i = _
        rw [le32, w.add_overflow hi, error_bind]
    | false =>
        change be32 w head i = _
        rw [be32, w.add_overflow hi, error_bind]

section

variable {checked16 checked32 : ℕ → Checked (Option ℕ)} {plain16 plain32 : ℕ → Option ℕ}

theorem tiffEntry_eq (h16 : Reads w 2 checked16 plain16) (h32 : Reads w 4 checked32 plain32)
    (hlen : head.length ≤ w.sliceMax) {ifd i : ℕ} (hifd : ifd + 2 ≤ head.length) (hi : i < 64) :
    tiffEntry w checked16 checked32 ifd i =
      .ok (do
        let tag ← plain16 (ifd + 2 + i * 12)
        let kind ← plain16 (ifd + 2 + i * 12 + 2)
        let value ← if kind = 3 then plain16 (ifd + 2 + i * 12 + 8)
          else plain32 (ifd + 2 + i * 12 + 8)
        some (tag, value)) := by
  have hroom : head.length + 2 ^ 31 < w.size := w.room hlen (Nat.le_refl _)
  rw [tiffEntry, w.add_eq (by omega), ok_bind, w.mul_eq (by omega), ok_bind, w.add_eq (by omega),
    ok_bind, h16.fits _ (by omega), ok_bind, w.add_eq (by omega), w.add_eq (by omega)]
  cases plain16 (ifd + 2 + i * 12) with
  | none => rfl
  | some tag =>
      simp only [ok_bind, h16.fits (ifd + 2 + i * 12 + 2) (by omega)]
      cases plain16 (ifd + 2 + i * 12 + 2) with
      | none => rfl
      | some kind =>
          simp only [h16.fits (ifd + 2 + i * 12 + 8) (by omega),
            h32.fits (ifd + 2 + i * 12 + 8) (by omega)]
          by_cases hkind : kind = 3
          · rw [if_pos hkind, ok_bind]
            simp only [Option.bind_eq_bind, Option.bind_some, if_pos hkind]
            cases plain16 (ifd + 2 + i * 12 + 8) <;> rfl
          · rw [if_neg hkind, ok_bind]
            simp only [Option.bind_eq_bind, Option.bind_some, if_neg hkind]
            cases plain32 (ifd + 2 + i * 12 + 8) <;> rfl

theorem tiffEntries_eq (h16 : Reads w 2 checked16 plain16) (h32 : Reads w 4 checked32 plain32)
    (hlen : head.length ≤ w.sliceMax) {ifd : ℕ} (hifd : ifd + 2 ≤ head.length) {entries : List ℕ}
    (hentries : ∀ i ∈ entries, i < 64) (found : Option ℕ × Option ℕ) :
    tiffEntries w checked16 checked32 ifd entries found =
      .ok (Media.tiffEntries plain16 plain32 ifd entries found) := by
  induction entries generalizing found with
  | nil => rfl
  | cons i entries ih =>
      have ⟨width, height⟩ := found
      rw [tiffEntries, tiffEntry_eq h16 h32 hlen hifd (hentries i List.mem_cons_self), ok_bind,
        Media.tiffEntries]
      have hrest := ih fun j hj => hentries j (List.mem_cons_of_mem _ hj)
      cases plain16 (ifd + 2 + i * 12) with
      | none => rfl
      | some tag =>
          cases plain16 (ifd + 2 + i * 12 + 2) with
          | none => rfl
          | some kind =>
              by_cases hkind : kind = 3
              · simp only [Option.bind_eq_bind, Option.bind_some, if_pos hkind]
                cases plain16 (ifd + 2 + i * 12 + 8) with
                | none => rfl
                | some value => exact hrest _
              · simp only [Option.bind_eq_bind, Option.bind_some, if_neg hkind]
                cases plain32 (ifd + 2 + i * 12 + 8) with
                | none => rfl
                | some value => exact hrest _

end

/-- A field of two bytes is within the prefix. -/
theorem length_of_field {little : Bool} {i n : ℕ}
    (h : (if little then Media.le16 head i else Media.be16 head i) = some n) :
    i + 2 ≤ head.length := by
  have hdrop := List.length_drop (i := i) (l := head)
  rw [Media.le16, Media.be16] at h
  rcases hrest : head.drop i with _ | ⟨a, _ | ⟨b, rest⟩⟩
  · rw [hrest] at h
    cases little <;> cases h
  · rw [hrest] at h
    cases little <;> cases h
  · rw [hrest, List.length_cons, List.length_cons] at hdrop
    omega

theorem tiff_eq (hlen : head.length ≤ w.sliceMax) (hwraps : ¬TiffWraps w head) :
    tiff w head = .ok (Media.tiff head) := by
  have h16 := reads_16 w head (Media.starts head (bytes "II"))
  have h32 := reads_32 w head (Media.starts head (bytes "II"))
  have hoffset := h32.fits 4 (w.small (by decide))
  simp only [tiff, Media.tiff] at hoffset ⊢
  rw [hoffset, ok_bind]
  cases hifd : (if Media.starts head (bytes "II") then Media.le32 head 4
      else Media.be32 head 4) with
  | none => rfl
  | some ifd =>
      have hfits : ifd + 2 < w.size := by
        by_contra hover
        exact hwraps ⟨ifd, hifd, by omega⟩
      have hcount := h16.fits ifd hfits
      simp only [Option.bind_eq_bind, Option.bind_some] at hcount ⊢
      rw [hcount, ok_bind]
      cases hsome : (if Media.starts head (bytes "II") then Media.le16 head ifd
          else Media.be16 head ifd) with
      | none => rfl
      | some count =>
          have hentries : ∀ i ∈ List.range (min count 64), i < 64 := fun i hi =>
            Nat.lt_of_lt_of_le (List.mem_range.mp hi) (Nat.min_le_right ..)
          simp only [tiffEntries_eq h16 h32 hlen (length_of_field hsome) hentries, ok_bind,
            Option.bind_some]
          generalize Media.tiffEntries _ _ ifd (List.range (min count 64)) (none, none) = run
          cases run with
          | none => rfl
          | some found =>
              have ⟨width, height⟩ := found
              cases width with
              | none => rfl
              | some width => cases height <;> rfl

theorem tiff_overflow (hwraps : TiffWraps w head) : tiff w head = .error .overflow := by
  have ⟨ifd, hifd, hover⟩ := hwraps
  have hoffset := (reads_32 w head (Media.starts head (bytes "II"))).fits 4 (w.small (by decide))
  have hcount := (reads_16 w head (Media.starts head (bytes "II"))).wraps ifd hover
  rw [Option.mem_def, directoryOffset] at hifd
  simp only [tiff] at hoffset hcount ⊢
  rw [hoffset, ok_bind, hifd]
  simp only
  rw [hcount, error_bind]

theorem be32_getD_lt (head : List UInt8) (i : ℕ) : (Media.be32 head i).getD 0 < 2 ^ 32 := by
  rw [Media.be32]
  rcases head.drop i with _ | ⟨a, _ | ⟨b, _ | ⟨c, _ | ⟨d, rest⟩⟩⟩⟩
  · exact Nat.two_pow_pos _
  · exact Nat.two_pow_pos _
  · exact Nat.two_pow_pos _
  · exact Nat.two_pow_pos _
  · have ha := a.toNat_lt
    have hb := b.toNat_lt
    have hc := c.toNat_lt
    have hd := d.toNat_lt
    change ((a.toNat * 256 + b.toNat) * 256 + c.toNat) * 256 + d.toNat < _
    omega

/-- On addresses of 64 bits a directory's offset is far from the last words. -/
theorem not_tiffWraps_bits64 : ¬TiffWraps .bits64 head := by
  intro ⟨ifd, hifd, hover⟩
  have hsize : Usize.bits64.size = 2 ^ 64 := rfl
  have hlt : ifd < 2 ^ 32 := by
    rw [Option.mem_def, directoryOffset] at hifd
    split at hifd
    · have := le32_getD_lt head 4
      rw [hifd] at this
      exact this
    · have := be32_getD_lt head 4
      rw [hifd] at this
      exact this
  omega

/-! ## Dimensions -/

theorem dimensions_eq {media : MediaType} (hlen : head.length ≤ w.sliceMax)
    (hrounds : head.length + 1 < rounds)
    (hwraps : ¬(media.name = "image/tiff" ∧ TiffWraps w head)) :
    dimensions w rounds media head = .ok (Media.dimensions media head) := by
  rw [dimensions, Media.dimensions, png_eq, gif_eq, bmp_eq, jpeg_eq hlen hrounds, webp_eq]
  by_cases htiff : media.name = "image/tiff"
  · rw [htiff, tiff_eq hlen fun h => hwraps ⟨htiff, h⟩]
    rfl
  · rw [if_neg htiff, if_neg htiff]
    split
    · rfl
    · split
      · rfl
      · split
        · rfl
        · split
          · rfl
          · split <;> rfl

theorem dimensions_overflow {media : MediaType} (hmedia : media.name = "image/tiff")
    (hwraps : TiffWraps w head) : dimensions w rounds media head = .error .overflow := by
  rw [dimensions, hmedia, tiff_overflow hwraps]
  rfl

theorem total_dimensions_iff {media : MediaType} (hlen : head.length ≤ w.sliceMax) :
    Total (fun rounds => dimensions w rounds media head) ↔
      ¬(media.name = "image/tiff" ∧ TiffWraps w head) := by
  constructor
  · intro htotal ⟨hmedia, hwraps⟩
    have herror (rounds : ℕ) (_ : 0 ≤ rounds) :
        dimensions w rounds media head = .error .overflow := dimensions_overflow hmedia hwraps
    exact not_total_of_error herror htotal
  · exact fun h => .of_eq fun _ hrounds => dimensions_eq hlen hrounds h

/-! ## All parsers -/

/-- The parsers end without a fault. -/
structure Ends (w : Usize) (media : MediaType) (declared : String) (head : List UInt8) : Prop where
  detect : Total fun rounds => detect w rounds head
  textSubtypeMatches : Total fun _ => textSubtypeMatches declared head
  dimensions : Total fun rounds => dimensions w rounds media head

theorem total_textSubtypeMatches (declared : String) (head : List UInt8) :
    Total fun _ => textSubtypeMatches declared head :=
  .of_eq fun _ (_ : 0 ≤ _) => textSubtypeMatches_eq declared head

/-- The parsers end on every prefix whose ZIP headers do not lead to one of the last thirty
words, or that is an ISO media file, and whose TIFF directory, where it is read as such, is not
at one of the last two. -/
theorem ends_iff {media : MediaType} {declared : String} (hlen : head.length ≤ w.sliceMax) :
    Ends w media declared head ↔
      ¬(ZipReached head ∧ ZipWraps w head) ∧ ¬(media.name = "image/tiff" ∧ TiffWraps w head) := by
  constructor
  · intro h
    exact ⟨(total_detect_iff hlen).mp h.detect, (total_dimensions_iff hlen).mp h.dimensions⟩
  · intro ⟨hzip, htiff⟩
    exact ⟨(total_detect_iff hlen).mpr hzip, total_textSubtypeMatches declared head,
      (total_dimensions_iff hlen).mpr htiff⟩

def tiffType : MediaType := ⟨"image/tiff", ["tif", "tiff"], .detected, true⟩

/-- A TIFF header whose directory is at the last word of 32 bits. -/
def farDirectory : List UInt8 := [0x49, 0x49, 0x2A, 0x00, 0xFF, 0xFF, 0xFF, 0xFF]

theorem ends_iff_farDirectory :
    Ends .bits32 tiffType "text/plain" farDirectory ↔
      ¬(ZipReached farDirectory ∧ ZipWraps .bits32 farDirectory) ∧
        ¬(tiffType.name = "image/tiff" ∧ TiffWraps .bits32 farDirectory) :=
  ends_iff (by decide)

theorem farDirectory_overflows :
    ¬∀ (w : Usize) (media : MediaType) (declared : String) (head : List UInt8),
      head.length ≤ w.sliceMax → Ends w media declared head := by
  intro h
  have hends := h .bits32 tiffType "text/plain" farDirectory (by decide)
  exact (total_dimensions_iff (by decide)).mp hends.dimensions ⟨rfl, by decide⟩

/-- A local header whose data ends at one of the last words. -/
example : ZipWraps .bits32 ([0x50, 0x4B, 0x03, 0x04] ++ List.replicate 14 0 ++
    [0xD0, 0xFF, 0xFF, 0xFF] ++ List.replicate 8 0) := by decide

/-- On addresses of 64 bits the parsers end on every prefix. -/
theorem ends_bits64 {media : MediaType} {declared : String}
    (hlen : head.length ≤ Usize.bits64.sliceMax) : Ends .bits64 media declared head :=
  ⟨(total_detect_iff hlen).mpr fun h => not_zipWraps_bits64 hlen h.2,
    total_textSubtypeMatches declared head,
    (total_dimensions_iff hlen).mpr fun h => not_tiffWraps_bits64 h.2⟩

end Nitr.Media.Words
