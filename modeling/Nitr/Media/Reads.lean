import Nitr.Media.Words

/-! # Reading without faults

The pieces of the header parsers over machine words that read at fixed offsets, or at offsets
known to fit a word, end in what their counterparts over numbers give. -/

namespace Nitr.Media.Words

open Machine

variable {w : Usize} {head : List UInt8}

/-! ## Reading -/

theorem starts_eq (head magic : List UInt8) :
    starts head magic = .ok (Media.starts head magic) := by
  have htake : (head.take magic.length == magic) = Media.starts head magic := by
    rw [Bool.eq_iff_iff, beq_iff_eq, Media.starts, List.isPrefixOf_iff_prefix,
      List.prefix_iff_eq_take, eq_comm]
  rw [starts]
  split
  · rename_i hle
    rw [slice_eq (Nat.zero_le _) hle, List.drop_zero, Nat.sub_zero, ← htake]
    rfl
  · rename_i hlong
    have hne : Media.starts head magic = false := by
      rw [← htake, beq_eq_false_iff_ne]
      intro heq
      have hlen := congrArg List.length heq
      rw [List.length_take] at hlen
      omega
    rw [hne]
    rfl

theorem occursAt_eq {offset : ℕ} {magic : List UInt8} (hfits : offset + magic.length < w.size)
    (hmagic : magic ≠ []) :
    occursAt w head offset magic = .ok (Media.occursAt head offset magic) := by
  have hpos := List.length_pos_iff.mpr hmagic
  have hstarts := starts_eq (head.drop offset) magic
  rw [occursAt, w.add_eq hfits, Media.occursAt, ← hstarts, starts]
  change (if offset + magic.length ≤ head.length then _ else _) = _
  by_cases hle : offset + magic.length ≤ head.length
  · have hdrop : magic.length ≤ (head.drop offset).length := by
      rw [List.length_drop]
      omega
    rw [if_pos hle, if_pos hdrop, slice_eq (Nat.zero_le _) hdrop]
    change (slice head offset (offset + magic.length) >>= _) = _
    rw [slice_eq (Nat.le_add_right ..) hle, Nat.add_sub_cancel_left]
    rfl
  · have hdrop : ¬magic.length ≤ (head.drop offset).length := by
      rw [List.length_drop]
      omega
    rw [if_neg hle, if_neg hdrop]

/-- A range of a fixed length is there where the rest is as long. -/
theorem getRange_field {i k : ℕ} (hk : 0 < k) :
    getRange head i (i + k) =
      if k ≤ (head.drop i).length then some ((head.drop i).take k) else none := by
  rw [getRange, Nat.add_sub_cancel_left, List.length_drop]
  by_cases hle : i + k ≤ head.length
  · rw [if_pos ⟨Nat.le_add_right .., hle⟩, if_pos (by omega)]
  · rw [if_neg (fun h => hle h.2), if_neg (by omega)]

section

variable {i : ℕ}

theorem be16_eq (h : i + 2 < w.size) : be16 w head i = .ok (Media.be16 head i) := by
  rw [be16, w.add_eq h, ok_bind, getRange_field Nat.two_pos, Media.be16]
  rcases head.drop i with _ | ⟨a, _ | ⟨b, rest⟩⟩ <;> rfl

theorem le16_eq (h : i + 2 < w.size) : le16 w head i = .ok (Media.le16 head i) := by
  rw [le16, w.add_eq h, ok_bind, getRange_field Nat.two_pos, Media.le16]
  rcases head.drop i with _ | ⟨a, _ | ⟨b, rest⟩⟩ <;> rfl

theorem be32_eq (h : i + 4 < w.size) : be32 w head i = .ok (Media.be32 head i) := by
  rw [be32, w.add_eq h, ok_bind, getRange_field (by decide), Media.be32]
  rcases head.drop i with _ | ⟨a, _ | ⟨b, _ | ⟨c, _ | ⟨d, rest⟩⟩⟩⟩ <;> rfl

theorem le32_eq (h : i + 4 < w.size) : le32 w head i = .ok (Media.le32 head i) := by
  rw [le32, w.add_eq h, ok_bind, getRange_field (by decide), Media.le32]
  rcases head.drop i with _ | ⟨a, _ | ⟨b, _ | ⟨c, _ | ⟨d, rest⟩⟩⟩⟩ <;> rfl

end

theorem index_eq_of_drop {i : ℕ} {b : UInt8} {rest : List UInt8} (h : head.drop i = b :: rest)
    (k : ℕ) : head[i + k]? = (b :: rest)[k]? := by
  rw [← h, List.getElem?_drop]

theorem u16At_eq {pos i : ℕ} (hlen : head.length ≤ w.sliceMax) (h : pos + i + 2 ≤ head.length) :
    u16At w head pos i = .ok ((Media.le16 head (pos + i)).getD 0) := by
  have hroom := w.room hlen (Nat.zero_le _)
  rw [u16At, w.add_eq (by omega), Media.le16]
  have hdrop := List.length_drop (i := pos + i) (l := head)
  rcases hhead : head.drop (pos + i) with _ | ⟨a, _ | ⟨b, rest⟩⟩
  · rw [hhead, List.length_nil] at hdrop
    omega
  · rw [hhead, List.length_singleton] at hdrop
    omega
  · have ha := index_eq (index_eq_of_drop hhead 0)
    have hb := index_eq (index_eq_of_drop hhead 1)
    rw [Nat.add_zero] at ha
    rw [ok_bind, ha, ok_bind, w.add_eq (by omega), ok_bind, hb]
    rfl

theorem u32At_eq {pos i : ℕ} (hlen : head.length ≤ w.sliceMax) (h : pos + i + 4 ≤ head.length) :
    u32At w head pos i = .ok ((Media.le32 head (pos + i)).getD 0) := by
  have hroom := w.room hlen (Nat.zero_le _)
  rw [u32At, w.add_eq (by omega), Media.le32]
  have hdrop := List.length_drop (i := pos + i) (l := head)
  rcases hhead : head.drop (pos + i) with _ | ⟨a, _ | ⟨b, _ | ⟨c, _ | ⟨d, rest⟩⟩⟩⟩
  · rw [hhead, List.length_nil] at hdrop
    omega
  · rw [hhead, List.length_singleton] at hdrop
    omega
  · rw [hhead, List.length_cons, List.length_singleton] at hdrop
    omega
  · rw [hhead, List.length_cons, List.length_cons, List.length_singleton] at hdrop
    omega
  · have ha := index_eq (index_eq_of_drop hhead 0)
    have hb := index_eq (index_eq_of_drop hhead 1)
    have hc := index_eq (index_eq_of_drop hhead 2)
    have hd := index_eq (index_eq_of_drop hhead 3)
    rw [Nat.add_zero] at ha
    rw [ok_bind, ha, ok_bind, w.add_eq (by omega), ok_bind, hb, ok_bind, w.add_eq (by omega),
      ok_bind, hc, ok_bind, w.add_eq (by omega), ok_bind, hd]
    rfl

/-! ## Text and executables -/

theorem isText_eq (head : List UInt8) : isText head = .ok (Media.isText head) := by
  rw [isText, Media.isText]
  cases hempty : head.isEmpty with
  | true => rfl
  | false =>
      simp only [Bool.false_eq_true, if_false, Bool.false_or]
      cases hread : Utf8.fromUtf8 (unmarked head) with
      | ok _ => rfl
      | error e =>
          obtain ⟨validUpTo, errorLen⟩ := e
          cases errorLen with
          | some n => rfl
          | none =>
              obtain ⟨hwhole, hunfinished⟩ := Utf8.fromUtf8_unfinished hread
              have hle : validUpTo ≤ (unmarked head).length := by
                by_contra hlong
                rw [List.drop_eq_nil_of_le (by omega)] at hunfinished
                exact hunfinished.not_whole Utf8.whole_nil
              by_cases hpos : 0 < validUpTo
              · simp only [hpos, if_true, decide_true, Bool.true_and]
                rw [slice_eq (Nat.zero_le _) hle, List.drop_zero, Nat.sub_zero, ok_bind,
                  Utf8.fromUtf8_eq_ok.mpr hwhole]
                rfl
              · simp only [hpos, if_false, decide_false, Bool.false_and]
                rfl

theorem isExecutable_eq (head : List UInt8) :
    isExecutable head = .ok (Media.isExecutable head) := by
  rw [isExecutable, Media.isExecutable]
  simp only [starts_eq]
  change (if _ then _ else _) = _
  cases (Media.starts head (bytes "MZ") || Media.starts head (bytes "\x7fELF") ||
    Media.starts head (bytes "#!") || Media.starts head (bytes "\xCA\xFE\xBA\xBE")) with
  | true => rfl
  | false =>
      rw [if_neg Bool.false_ne_true, Bool.false_or]
      rcases head with _ | ⟨a, _ | ⟨b, _ | ⟨c, _ | ⟨d, rest⟩⟩⟩⟩ <;> rfl

theorem bmpHeader_eq (head : List UInt8) :
    bmpHeader head = .ok ((Media.le32 head 14).any [12, 40, 52, 56, 108, 124].contains) := by
  rw [bmpHeader, Media.le32, show (18 : ℕ) = 14 + 4 from rfl, getRange_field (by decide)]
  rcases head.drop 14 with _ | ⟨a, _ | ⟨b, _ | ⟨c, _ | ⟨d, rest⟩⟩⟩⟩ <;> rfl

theorem isBitmap_eq (head : List UInt8) :
    isBitmap head =
      .ok (Media.starts head (bytes "BM") &&
        (Media.le32 head 14).any [12, 40, 52, 56, 108, 124].contains) := by
  rw [isBitmap, starts_eq, ok_bind]
  cases Media.starts head (bytes "BM") with
  | true => exact bmpHeader_eq head
  | false => rfl

theorem firstSignature_eq (head : List UInt8) (table : List (List UInt8 × String)) :
    firstSignature head table =
      .ok ((table.find? fun s => Media.starts head s.1).map Prod.snd) := by
  induction table with
  | nil => rfl
  | cons s table ih =>
      have ⟨magic, name⟩ := s
      rw [firstSignature, starts_eq, List.find?_cons]
      change (if Media.starts head magic then _ else _) = _
      cases Media.starts head magic with
      | true => rfl
      | false => exact ih

theorem audioFrame_eq (head : List UInt8) : audioFrame head = .ok (Media.audioFrame head) := by
  cases head with
  | nil => rfl
  | cons a rest =>
      cases rest with
      | nil =>
          rw [audioFrame, Media.audioFrame]
          · rfl
          · intro b rest heq
            cases heq
      | cons b rest =>
          change (if a = 0xFF then _ else _) = _
          split
          · rename_i ha
            rw [ha]
            change (if b &&& 0xF6 = 0xF0 then _ else _) = Except.ok (if _ then _ else _)
            split
            · rfl
            · split <;> rfl
          · rename_i ha
            rw [Media.audioFrame]
            · rfl
            · intro b rest heq
              exact ha (List.cons.inj heq).1

theorem textSubtypeMatches_eq (declared : String) (head : List UInt8) :
    textSubtypeMatches declared head = .ok (Media.textSubtypeMatches declared head) := by
  rw [textSubtypeMatches, Media.textSubtypeMatches]
  split
  · rfl
  · split
    · rfl
    · split
      · rw [slice_eq (Nat.zero_le _) (Nat.min_le_left ..)]
        change Except.ok (svgText _) = Except.ok (svgText _)
        have htake : (unmarked head).take (min (min (unmarked head).length 4096) 4096) =
            (unmarked head).take 4096 := List.take_eq_take_iff.mpr (by omega)
        rw [svgText, svgText, List.drop_zero, Nat.sub_zero, List.take_take, Nat.min_comm 4096,
          htake]
      · rfl

end Nitr.Media.Words
