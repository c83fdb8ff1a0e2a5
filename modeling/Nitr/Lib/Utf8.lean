import Mathlib.Data.List.Induction
import Mathlib.Data.Nat.Notation

/-! # Checking bytes for UTF-8

The automaton reads one byte at a time and knows what may follow the bytes of the
sequence it is in. An error says where the sequence began, and whether a byte was wrong or
the bytes ended. -/

namespace Utf8

/-- The bytes a place in a sequence may hold. -/
structure Range where
  low : ℕ
  high : ℕ
deriving DecidableEq, Repr

def Range.Holds (r : Range) (b : UInt8) : Prop := r.low ≤ b.toNat ∧ b.toNat ≤ r.high

instance (r : Range) (b : UInt8) : Decidable (r.Holds b) :=
  inferInstanceAs (Decidable (_ ∧ _))

def continuation : Range := ⟨0x80, 0xBF⟩

/-- The second bytes of a three-byte sequence: neither overlong nor a surrogate. -/
def second3 (lead : ℕ) : Range :=
  ⟨if lead = 0xE0 then 0xA0 else 0x80, if lead = 0xED then 0x9F else 0xBF⟩

/-- The second bytes of a four-byte sequence: neither overlong nor past the last scalar. -/
def second4 (lead : ℕ) : Range :=
  ⟨if lead = 0xF0 then 0x90 else 0x80, if lead = 0xF4 then 0x8F else 0xBF⟩

/-- What must follow the first byte of a sequence. -/
def expected (lead : UInt8) : Option (List Range) :=
  if lead.toNat < 0x80 then some []
  else if lead.toNat < 0xC2 then none
  else if lead.toNat < 0xE0 then some [continuation]
  else if lead.toNat < 0xF0 then some [second3 lead.toNat, continuation]
  else if lead.toNat < 0xF5 then some [second4 lead.toNat, continuation, continuation]
  else none

structure Utf8Error where
  validUpTo : ℕ
  /-- `none` where the bytes ended inside a sequence. -/
  errorLen : Option ℕ
deriving DecidableEq, Repr

/-- Where the sequence being read began, the bytes of it read and those to come. -/
structure State where
  start : ℕ
  seen : ℕ
  want : List Range
deriving DecidableEq, Repr

/-- Between two sequences. -/
def between (start : ℕ) : State := ⟨start, 0, []⟩

def settle (start seen : ℕ) : List Range → State
  | [] => between (start + seen)
  | want => ⟨start, seen, want⟩

@[simp] theorem settle_cons (start seen : ℕ) (r : Range) (want : List Range) :
    settle start seen (r :: want) = ⟨start, seen, r :: want⟩ := rfl

def advance (s : State) (b : UInt8) : Except Utf8Error State :=
  match s.want with
  | [] =>
      match expected b with
      | some want => .ok (settle s.start 1 want)
      | none => .error ⟨s.start, some 1⟩
  | r :: want =>
      if r.Holds b then .ok (settle s.start (s.seen + 1) want)
      else .error ⟨s.start, some s.seen⟩

def read (s : State) : List UInt8 → Except Utf8Error State
  | [] => .ok s
  | b :: rest =>
      match advance s b with
      | .ok s' => read s' rest
      | .error e => .error e

/-- `core::str::from_utf8`, without the text. -/
def fromUtf8 (bytes : List UInt8) : Except Utf8Error Unit :=
  match read (between 0) bytes with
  | .ok s => if s.want = [] then .ok () else .error ⟨s.start, none⟩
  | .error e => .error e

/-- The bytes are whole sequences. -/
def Whole (bytes : List UInt8) : Prop := read (between 0) bytes = .ok (between bytes.length)

/-! ## Reading in parts -/

theorem read_append (s : State) (bytes more : List UInt8) :
    read s (bytes ++ more) =
      match read s bytes with
      | .ok s' => read s' more
      | .error e => .error e := by
  induction bytes generalizing s with
  | nil => rfl
  | cons b rest ih =>
      rw [List.cons_append, read, read]
      cases advance s b with
      | ok s' => exact ih s'
      | error e => rfl

theorem read_append_of_ok {s s' : State} {bytes : List UInt8} (h : read s bytes = .ok s')
    (more : List UInt8) : read s (bytes ++ more) = read s' more := by
  rw [read_append, h]

/-- A wrong byte stays one, whatever follows. -/
theorem read_append_of_error {s : State} {bytes : List UInt8} {e : Utf8Error}
    (h : read s bytes = .error e) (more : List UInt8) : read s (bytes ++ more) = .error e := by
  rw [read_append, h]

/-! ## Positions -/

/-- A state as the automaton reaches it. -/
structure State.Reached (s : State) : Prop where
  settled : s.want = [] → s.seen = 0

theorem reached_between (n : ℕ) : (between n).Reached := ⟨fun _ => rfl⟩

theorem reached_settle (start seen : ℕ) (want : List Range) : (settle start seen want).Reached := by
  cases want with
  | nil => exact reached_between _
  | cons r want => exact ⟨by simp [settle]⟩

theorem settle_end (start seen : ℕ) (want : List Range) :
    (settle start seen want).start + (settle start seen want).seen = start + seen := by
  cases want <;> rfl

/-- One byte further, in the same sequence or past its end. -/
theorem advance_ok {s s' : State} {b : UInt8} (hs : s.Reached) (h : advance s b = .ok s') :
    ∃ want, s' = settle s.start (s.seen + 1) want := by
  unfold advance at h
  split at h
  · rename_i hwant
    split at h
    · rename_i want _
      cases h
      exact ⟨want, by rw [hs.settled hwant]⟩
    · cases h
  · rename_i want _
    split at h
    · cases h
      exact ⟨want, rfl⟩
    · cases h

theorem read_ok {s s' : State} {bytes : List UInt8} (hs : s.Reached) (h : read s bytes = .ok s') :
    s'.Reached ∧ s'.start + s'.seen = s.start + s.seen + bytes.length := by
  induction bytes generalizing s with
  | nil =>
      cases h
      exact ⟨hs, rfl⟩
  | cons b rest ih =>
      rw [read] at h
      split at h
      · rename_i next hnext
        obtain ⟨want, rfl⟩ := advance_ok hs hnext
        obtain ⟨hreached, hend⟩ := ih (reached_settle _ _ _) h
        rw [settle_end] at hend
        exact ⟨hreached, by simp only [List.length_cons]; omega⟩
      · cases h

theorem read_end {s : State} {bytes : List UInt8} (h : read (between 0) bytes = .ok s) :
    s.start + s.seen = bytes.length := by
  have hend := (read_ok (reached_between 0) h).2
  simpa only [between, Nat.zero_add] using hend

/-- Between sequences only the position is known. -/
theorem State.Reached.eq_between {s : State} (hs : s.Reached) (h : s.want = []) :
    s = between (s.start + s.seen) := by
  have hseen := hs.settled h
  cases s
  simp_all [between]

theorem fromUtf8_eq_ok {bytes : List UInt8} : fromUtf8 bytes = .ok () ↔ Whole bytes := by
  unfold fromUtf8 Whole
  cases h : read (between 0) bytes with
  | error e => simp
  | ok s =>
      constructor
      · intro hok
        have hwant : s.want = [] := by
          by_contra hne
          simp [hne] at hok
        rw [(read_ok (reached_between 0) h).1.eq_between hwant, read_end h]
      · intro hok
        rw [Except.ok.inj hok]
        rfl

/-! ## Moving the start -/

def State.shift (s : State) (n : ℕ) : State := { s with start := s.start + n }

def Utf8Error.shift (e : Utf8Error) (n : ℕ) : Utf8Error := { e with validUpTo := e.validUpTo + n }

theorem settle_shift (start seen n : ℕ) (want : List Range) :
    settle (start + n) seen want = (settle start seen want).shift n := by
  cases want with
  | nil => simp [settle, between, State.shift]; omega
  | cons r want => rfl

theorem advance_shift (s : State) (n : ℕ) (b : UInt8) :
    advance (s.shift n) b =
      match advance s b with
      | .ok s' => .ok (s'.shift n)
      | .error e => .error (e.shift n) := by
  unfold advance
  simp only [State.shift]
  cases s.want with
  | nil =>
      cases expected b with
      | none => rfl
      | some want => simp only [settle_shift]; rfl
  | cons r want =>
      by_cases hb : r.Holds b
      · simp only [hb, if_true, settle_shift]
        rfl
      · simp only [hb, if_false]
        rfl

theorem read_shift (s : State) (n : ℕ) (bytes : List UInt8) :
    read (s.shift n) bytes =
      match read s bytes with
      | .ok s' => .ok (s'.shift n)
      | .error e => .error (e.shift n) := by
  induction bytes generalizing s with
  | nil => rfl
  | cons b rest ih =>
      rw [read, read, advance_shift]
      cases advance s b with
      | ok s' => exact ih s'
      | error e => rfl

theorem read_between (n : ℕ) (bytes : List UInt8) :
    read (between n) bytes =
      match read (between 0) bytes with
      | .ok s' => .ok (s'.shift n)
      | .error e => .error (e.shift n) := by
  have hn : between n = (between 0).shift n := by simp [between, State.shift]
  rw [hn]
  exact read_shift _ n bytes

/-- Whole sequences only move what follows. -/
theorem Whole.read_append {bytes : List UInt8} (h : Whole bytes) (more : List UInt8) :
    read (between 0) (bytes ++ more) =
      match read (between 0) more with
      | .ok s' => .ok (s'.shift bytes.length)
      | .error e => .error (e.shift bytes.length) := by
  rw [read_append_of_ok h, read_between]

theorem Whole.append_iff {bytes : List UInt8} (h : Whole bytes) {more : List UInt8} :
    Whole (bytes ++ more) ↔ Whole more := by
  unfold Whole
  rw [h.read_append]
  cases read (between 0) more with
  | error e => simp
  | ok s =>
      cases s
      simp only [Except.ok.injEq, List.length_append, State.shift, between, State.mk.injEq]
      constructor
      · rintro ⟨hstart, hrest⟩
        exact ⟨by omega, hrest⟩
      · rintro ⟨hstart, hrest⟩
        exact ⟨by omega, hrest⟩

theorem whole_nil : Whole [] := rfl

/-! ## The unfinished end -/

/-- The start of one sequence, not yet whole. -/
def Unfinished (bytes : List UInt8) : Prop :=
  ∃ want, want ≠ [] ∧ read (between 0) bytes = .ok ⟨0, bytes.length, want⟩

theorem Unfinished.not_whole {bytes : List UInt8} (h : Unfinished bytes) : ¬Whole bytes := by
  obtain ⟨want, hwant, hread⟩ := h
  intro hwhole
  unfold Whole at hwhole
  rw [hread, between, Except.ok.injEq, State.mk.injEq] at hwhole
  exact hwant hwhole.2.2

/-- What was read is whole sequences up to the start of the current one. -/
theorem read_split {bytes : List UInt8} {s : State} (h : read (between 0) bytes = .ok s) :
    Whole (bytes.take s.start) ∧ read (between s.start) (bytes.drop s.start) = .ok s := by
  induction bytes using List.reverseRecOn generalizing s with
  | nil =>
      cases h
      exact ⟨whole_nil, rfl⟩
  | append_singleton bytes b ih =>
      rw [read_append] at h
      cases hread : read (between 0) bytes with
      | error e =>
          rw [hread] at h
          cases h
      | ok prior =>
          rw [hread] at h
          have hend := read_end hread
          have hstep : advance prior b = .ok s := by
            simp only [read] at h
            split at h
            · rename_i next hnext
              cases h
              exact hnext
            · cases h
          obtain ⟨want, rfl⟩ := advance_ok (read_ok (reached_between 0) hread).1 hstep
          cases want with
          | nil =>
              -- The byte ends a sequence: everything so far is whole.
              have hall : prior.start + (prior.seen + 1) = (bytes ++ [b]).length := by
                simp only [List.length_append, List.length_singleton]
                omega
              have hwhole : Whole (bytes ++ [b]) := by
                unfold Whole
                rw [read_append_of_ok hread, ← hall]
                simp only [read, hstep]
                rfl
              simp only [settle, between, hall, List.take_length, List.drop_length]
              exact ⟨hwhole, rfl⟩
          | cons r want =>
              obtain ⟨hwhole, hrest⟩ := ih hread
              have hle : prior.start ≤ bytes.length := by omega
              simp only [settle]
              rw [List.take_append_of_le_length hle, List.drop_append_of_le_length hle,
                read_append_of_ok hrest]
              refine ⟨hwhole, ?_⟩
              simp only [read, hstep]
              rfl

/-- Only a byte can be wrong while there are bytes. -/
theorem read_error {s : State} {bytes : List UInt8} {e : Utf8Error}
    (h : read s bytes = .error e) : e.errorLen ≠ none := by
  induction bytes generalizing s with
  | nil => cases h
  | cons b rest ih =>
      rw [read] at h
      split at h
      · exact ih h
      · rename_i hstep
        cases h
        unfold advance at hstep
        split at hstep
        · split at hstep
          · cases hstep
          · cases hstep
            simp
        · split at hstep
          · cases hstep
          · cases hstep
            simp

/-- Bytes that end inside a sequence are whole sequences and the start of one. -/
theorem fromUtf8_unfinished {bytes : List UInt8} {n : ℕ} (h : fromUtf8 bytes = .error ⟨n, none⟩) :
    Whole (bytes.take n) ∧ Unfinished (bytes.drop n) := by
  unfold fromUtf8 at h
  cases hread : read (between 0) bytes with
  | error e =>
      rw [hread] at h
      exact absurd (congrArg Utf8Error.errorLen (Except.error.inj h)) (read_error hread)
  | ok s =>
      rw [hread] at h
      simp only at h
      split at h
      · cases h
      · rename_i hwant
        have hn : s.start = n := by simpa using h
        subst hn
        obtain ⟨hwhole, hrest⟩ := read_split hread
        refine ⟨hwhole, s.want, hwant, ?_⟩
        have hend := read_end hread
        rw [read_between] at hrest
        split at hrest
        · rename_i s' hs'
          have hs := Except.ok.inj hrest
          have hstart : s'.start + s.start = s.start := congrArg State.start hs
          have hseen : s'.seen = s.seen := congrArg (fun s => s.seen) hs
          have hwanted : s'.want = s.want := congrArg (fun s => s.want) hs
          rw [hs', Except.ok.injEq, ← hwanted, List.length_drop]
          cases s'
          simp only [State.mk.injEq, and_true] at hstart hseen ⊢
          omega
        · cases hrest

/-- A wrong byte is found whatever follows it. -/
theorem fromUtf8_wrong {bytes : List UInt8} {n k : ℕ} (h : fromUtf8 bytes = .error ⟨n, some k⟩)
    (more : List UInt8) : ¬Whole (bytes ++ more) := by
  unfold fromUtf8 at h
  cases hread : read (between 0) bytes with
  | error e =>
      unfold Whole
      rw [read_append_of_error hread]
      simp
  | ok s =>
      rw [hread] at h
      simp only at h
      split at h
      · cases h
      · simp at h

/-! ## Whole sequences are characters -/

/-- One sequence: a first byte and what must follow it. -/
def Sequence (bytes : List UInt8) : Prop :=
  ∃ lead rest want, bytes = lead :: rest ∧ expected lead = some want ∧
    List.Forall₂ Range.Holds want rest

/-- The places to come, read to their end. -/
theorem read_wanted {start seen : ℕ} {want : List Range} {rest : List UInt8}
    (h : List.Forall₂ Range.Holds want rest) (more : List UInt8) :
    read (settle start seen want) (rest ++ more) =
      read (between (start + seen + rest.length)) more := by
  induction h generalizing seen with
  | nil => rfl
  | cons hr _ ih =>
      rename_i r b want rest
      simp only [settle_cons, List.cons_append, read, advance, hr, if_true]
      rw [ih, List.length_cons]
      congr 2
      omega

theorem read_wanted_inv {start seen n : ℕ} {want : List Range} {bytes : List UInt8}
    (h : read (settle start seen want) bytes = .ok (between n)) :
    ∃ rest more, bytes = rest ++ more ∧ List.Forall₂ Range.Holds want rest := by
  induction want generalizing seen bytes with
  | nil => exact ⟨[], bytes, rfl, .nil⟩
  | cons r want ih =>
      cases bytes with
      | nil =>
          simp only [settle, read, between, Except.ok.injEq, State.mk.injEq] at h
          exact absurd h.2.2 (by simp)
      | cons b bytes =>
          simp only [settle_cons, read, advance] at h
          by_cases hb : r.Holds b
          · simp only [hb, if_true] at h
            obtain ⟨rest, more, rfl, hrest⟩ := ih h
            exact ⟨b :: rest, more, rfl, .cons hb hrest⟩
          · simp [hb] at h

theorem Sequence.whole {bytes : List UInt8} (h : Sequence bytes) : Whole bytes := by
  obtain ⟨lead, rest, want, rfl, hlead, hrest⟩ := h
  have hread := @read_wanted 0 1 _ _ hrest []
  unfold Whole
  simp only [read, advance, between, hlead]
  rw [List.append_nil] at hread
  rw [hread]
  simp only [read, between, List.length_cons]
  congr 2
  omega

theorem Whole.exists_sequence {bytes : List UInt8} (h : Whole bytes) (hne : bytes ≠ []) :
    ∃ front more, bytes = front ++ more ∧ Sequence front := by
  cases bytes with
  | nil => exact absurd rfl hne
  | cons lead bytes =>
      unfold Whole at h
      simp only [read, advance, between] at h
      cases hlead : expected lead with
      | none => simp [hlead] at h
      | some want =>
          simp only [hlead] at h
          obtain ⟨rest, more, rfl, hrest⟩ := read_wanted_inv h
          exact ⟨lead :: rest, more, rfl, lead, rest, want, rfl, hlead, hrest⟩

section Encoding

theorem toNat_ofNat {n : ℕ} (h : n < 256) : (UInt8.ofNat n).toNat = n := by
  rw [UInt8.toNat_ofNat']
  exact Nat.mod_eq_of_lt h

theorem eq_ofNat {b : UInt8} {n : ℕ} (h : b.toNat = n) : b = UInt8.ofNat n := by
  rw [← h, UInt8.ofNat_toNat]

/-- The holes of `Char` are those of the ranges. -/
theorem sequence_utf8EncodeChar (c : Char) : Sequence (String.utf8EncodeChar c) := by
  have hvalid : c.val.toNat < 0xD800 ∨ 0xDFFF < c.val.toNat ∧ c.val.toNat < 0x110000 := c.valid
  generalize hv : c.val.toNat = v at hvalid
  unfold String.utf8EncodeChar
  simp only [hv]
  split
  · refine ⟨_, [], [], rfl, ?_, .nil⟩
    simp (disch := omega) only [expected, toNat_ofNat]
    rw [if_pos (by omega)]
  · split
    · refine ⟨_, _, [continuation], rfl, ?_, .cons ?_ .nil⟩
      · simp (disch := omega) only [expected, toNat_ofNat]
        rw [if_neg (by omega), if_neg (by omega), if_pos (by omega)]
      · simp (disch := omega) only [Range.Holds, continuation, toNat_ofNat]
        omega
    · split
      · refine ⟨_, _, [second3 (v / 4096 % 0x10 + 0xe0), continuation], rfl, ?_,
          .cons ?_ (.cons ?_ .nil)⟩
        · simp (disch := omega) only [expected, toNat_ofNat]
          rw [if_neg (by omega), if_neg (by omega), if_neg (by omega), if_pos (by omega)]
        · simp (disch := omega) only [Range.Holds, second3, toNat_ofNat]
          split <;> split <;> omega
        · simp (disch := omega) only [Range.Holds, continuation, toNat_ofNat]
          omega
      · refine ⟨_, _, [second4 (v / 262144 % 0x08 + 0xf0), continuation, continuation], rfl, ?_,
          .cons ?_ (.cons ?_ (.cons ?_ .nil))⟩
        · simp (disch := omega) only [expected, toNat_ofNat]
          rw [if_neg (by omega), if_neg (by omega), if_neg (by omega), if_neg (by omega),
            if_pos (by omega)]
        · simp (disch := omega) only [Range.Holds, second4, toNat_ofNat]
          split <;> split <;> omega
        · simp (disch := omega) only [Range.Holds, continuation, toNat_ofNat]
          omega
        · simp (disch := omega) only [Range.Holds, continuation, toNat_ofNat]
          omega

/-- A scalar value as a character. -/
theorem exists_char {v : ℕ} (h : v < 0xD800 ∨ 0xDFFF < v ∧ v < 0x110000) :
    ∃ c : Char, c.val.toNat = v := by
  refine ⟨Char.ofNat v, ?_⟩
  have hvalid : v.isValidChar := h
  rw [Char.ofNat, dif_pos hvalid]
  rfl

theorem Sequence.exists_char {bytes : List UInt8} (h : Sequence bytes) :
    ∃ c : Char, String.utf8EncodeChar c = bytes := by
  obtain ⟨a, rest, want, rfl, hlead, hrest⟩ := h
  unfold expected at hlead
  split at hlead
  · cases hlead
    cases hrest
    obtain ⟨c, hc⟩ := Utf8.exists_char (v := a.toNat) (by omega)
    refine ⟨c, ?_⟩
    unfold String.utf8EncodeChar
    simp only [hc]
    rw [if_pos (by omega), ← eq_ofNat rfl]
  · split at hlead
    · cases hlead
    · split at hlead
      · cases hlead
        cases hrest with | cons hb hrest =>
        rename_i b _
        cases hrest
        simp only [Range.Holds, continuation] at hb
        obtain ⟨c, hc⟩ := Utf8.exists_char (v := (a.toNat - 0xC0) * 64 + (b.toNat - 0x80)) (by omega)
        refine ⟨c, ?_⟩
        unfold String.utf8EncodeChar
        simp only [hc]
        rw [if_neg (by omega), if_pos (by omega), ← eq_ofNat (b := a) (by omega),
          ← eq_ofNat (b := b) (by omega)]
      · split at hlead
        · cases hlead
          cases hrest with | cons hb hrest =>
          rename_i b _
          cases hrest with | cons hc hrest =>
          rename_i c _
          cases hrest
          simp only [Range.Holds, second3, continuation] at hb hc
          obtain ⟨ch, hch⟩ := Utf8.exists_char
            (v := (a.toNat - 0xE0) * 4096 + (b.toNat - 0x80) * 64 + (c.toNat - 0x80))
            (by split at hb <;> split at hb <;> omega)
          refine ⟨ch, ?_⟩
          unfold String.utf8EncodeChar
          simp only [hch]
          have hlow : 0x7ff < (a.toNat - 0xE0) * 4096 + (b.toNat - 0x80) * 64 + (c.toNat - 0x80) := by
            split at hb <;> omega
          have hb' : 0x80 ≤ b.toNat ∧ b.toNat ≤ 0xBF := by
            split at hb <;> split at hb <;> omega
          rw [if_neg (by omega), if_neg (by omega), if_pos (by omega),
            ← eq_ofNat (b := a) (by omega), ← eq_ofNat (b := b) (by omega),
            ← eq_ofNat (b := c) (by omega)]
        · split at hlead
          · cases hlead
            cases hrest with | cons hb hrest =>
            rename_i b _
            cases hrest with | cons hc hrest =>
            rename_i c _
            cases hrest with | cons hd hrest =>
            rename_i d _
            cases hrest
            simp only [Range.Holds, second4, continuation] at hb hc hd
            obtain ⟨ch, hch⟩ := Utf8.exists_char
              (v := (a.toNat - 0xF0) * 262144 + (b.toNat - 0x80) * 4096 + (c.toNat - 0x80) * 64 +
                (d.toNat - 0x80))
              (by split at hb <;> split at hb <;> omega)
            refine ⟨ch, ?_⟩
            unfold String.utf8EncodeChar
            simp only [hch]
            have hlow : 0xffff < (a.toNat - 0xF0) * 262144 + (b.toNat - 0x80) * 4096 +
                (c.toNat - 0x80) * 64 + (d.toNat - 0x80) := by
              split at hb <;> omega
            have hb' : 0x80 ≤ b.toNat ∧ b.toNat ≤ 0xBF := by
              split at hb <;> split at hb <;> omega
            rw [if_neg (by omega), if_neg (by omega), if_neg (by omega),
              ← eq_ofNat (b := a) (by omega), ← eq_ofNat (b := b) (by omega),
              ← eq_ofNat (b := c) (by omega), ← eq_ofNat (b := d) (by omega)]
          · cases hlead

end Encoding

theorem whole_iff {bytes : List UInt8} :
    Whole bytes ↔ ∃ chars : List Char, chars.flatMap String.utf8EncodeChar = bytes := by
  constructor
  · intro h
    induction hn : bytes.length using Nat.strongRecOn generalizing bytes with
    | ind n ih =>
        by_cases hne : bytes = []
        · exact ⟨[], hne.symm⟩
        · obtain ⟨front, more, rfl, hfront⟩ := h.exists_sequence hne
          have hmore := hfront.whole.append_iff.mp h
          obtain ⟨c, hc⟩ := hfront.exists_char
          obtain ⟨lead, rest, -, rfl, -⟩ := hfront
          obtain ⟨chars, hchars⟩ := ih more.length (by simp at hn; omega) hmore rfl
          exact ⟨c :: chars, by rw [List.flatMap_cons, hc, hchars]⟩
  · rintro ⟨chars, rfl⟩
    induction chars with
    | nil => exact whole_nil
    | cons c chars ih =>
        rw [List.flatMap_cons]
        exact (sequence_utf8EncodeChar c).whole.append_iff.mpr ih

/-- The automaton accepts the bytes of texts and no others. -/
theorem fromUtf8_iff_isValidUTF8 {bytes : List UInt8} :
    fromUtf8 bytes = .ok () ↔ bytes.toByteArray.IsValidUTF8 := by
  rw [fromUtf8_eq_ok, whole_iff]
  constructor
  · rintro ⟨chars, rfl⟩
    exact ⟨chars, rfl⟩
  · rintro ⟨chars, h⟩
    exact ⟨chars, (List.toByteArray_inj.mp h).symm⟩

end Utf8
