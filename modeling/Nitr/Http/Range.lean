import Nitr.Http.Handle

/-! # Byte ranges

`range.rs`: what a `Range` header asks for, once resolved against a known length. Times are
nanoseconds since the epoch, and a date of the `httpdate` package whole seconds since it. -/

namespace Nitr.Range

open Nitr.Http (Text Headers toStr parseU64 visible isOws isWhitespace_of_isOws)
open Unicode (trim)

/-- What a `Range` header asks for. -/
inductive Resolved where
  | full
  | part (start last : ℕ)
  | unsatisfiable
deriving DecidableEq

/-- Seconds since the epoch, an earlier time as 0. -/
def secs (time : ℤ) : ℕ := (time / 1000000000).toNat

/-- Whether the value is read as an entity tag. -/
def isTag (value : Text) : Bool := ['"'] <+: value || "W/".toList <+: value

section

variable (parseHttpDate : Text → Option ℕ)

/-- Whether a present `If-Range` validator still matches. -/
def ifRangeMatches (headers : Headers) (etag : Text) (modified : Option ℤ) : Bool :=
  match (headers.get "if-range").bind toStr with
  | none => true
  | some value =>
      let value := trim value
      if isTag value then value = etag
      else
        match parseHttpDate value, modified with
        | some since, some modified => secs modified = since
        | _, _ => false

end

/-- The two sides of the dash of a single byte range. -/
def byteRange (value : Text) : Option (Text × Text) :=
  match (trim value).stripPrefix "bytes=".toList with
  | none => none
  | some spec =>
      match spec.splitOn ',' with
      | [first] => ((trim first).splitOnce '-').map fun sides => (trim sides.1, trim sides.2)
      | _ => none

/-- The range the two sides stand for. -/
def resolveSides (start last : Text) (len : ℕ) : Resolved :=
  if len = 0 then .unsatisfiable
  else
    match start.isEmpty, last.isEmpty with
    | true, false =>
        match parseU64 last with
        | some 0 => .unsatisfiable
        | some suffix => .part (len - suffix) (len - 1)
        | none => .full
    | false, true =>
        match parseU64 start with
        | some start => if start ≤ len - 1 then .part start (len - 1) else .unsatisfiable
        | none => .full
    | false, false =>
        match parseU64 start, parseU64 last with
        | some start, some last =>
            if start ≤ last ∧ start ≤ len - 1 then .part start (Min.min last (len - 1))
            else .unsatisfiable
        | _, _ => .full
    | true, true => .full

/-- Parses a `Range` value against the length of a representation. -/
def parse (value : Text) (len : ℕ) : Resolved :=
  match byteRange value with
  | none => .full
  | some (start, last) => resolveSides start last len

/-- Resolves the `Range` of a request. -/
def resolve (parseHttpDate : Text → Option ℕ) (headers : Headers) (len : ℕ) (etag : Text)
    (modified : Option ℤ) : Resolved :=
  match (headers.get "range").bind toStr with
  | none => .full
  | some range =>
      if ifRangeMatches parseHttpDate headers etag modified then parse range len else .full

/-- The span `serve_file` reads, as a start and a count in 64 bits. -/
def servedSpan (resolved : Resolved) (len : ℕ) : ℕ × ℕ :=
  match resolved with
  | .part start last => (start, (2 ^ 64 + last - start + 1) % 2 ^ 64)
  | _ => (0, len)

/-! ## The grammar -/

/-- A single byte range with these sides of its dash, blanks around each. -/
def Spelled (value start last : Text) : Prop :=
  ∃ pre a b c d : Text,
    value = pre ++ "bytes=".toList ++ (a ++ start ++ b) ++ '-' :: (c ++ last ++ d) ∧
      ∀ blanks ∈ [pre, a, b, c, d], ∀ x ∈ blanks, isOws x = true

/-- ASCII digits and their value. -/
structure Numeral (text : Text) (n : ℕ) : Prop where
  ne_nil : text ≠ []
  digits : text.all Char.isDigit = true
  value : text.foldl (fun n c => 10 * n + (c.toNat - '0'.toNat)) 0 = n

/-- A byte range. -/
inductive RangeSpec where
  | span (first last : ℕ)
  | tail (first : ℕ)
  | suffix (count : ℕ)

/-- How a byte range is written. -/
inductive Written (value : Text) : RangeSpec → Prop
  | span {start last : Text} {n m : ℕ} (spelled : Spelled value start last)
      (first : Numeral start n) (second : Numeral last m) : Written value (.span n m)
  | tail {start : Text} {n : ℕ} (spelled : Spelled value start []) (first : Numeral start n) :
      Written value (.tail n)
  | suffix {last : Text} {n : ℕ} (spelled : Spelled value [] last) (second : Numeral last n) :
      Written value (.suffix n)

/-- The first and the last byte a byte range stands for, of a representation of `len` bytes. -/
def RangeSpec.Assigns (len : ℕ) (start last : ℕ) : RangeSpec → Prop
  | .span n m => n ≤ m ∧ n < len ∧ start = n ∧ last = Min.min m (len - 1)
  | .tail n => n < len ∧ start = n ∧ last = len - 1
  | .suffix n => 0 < n ∧ 0 < len ∧ start = len - n ∧ last = len - 1

/-! ## The two sides -/

theorem isOws_of_isWhitespace {c : Char} (h : visible c = true)
    (hblank : Unicode.isWhitespace c = true) : isOws c = true := by
  have hrange : (32 ≤ c.toNat ∧ c.toNat < 127) ∨ c = '\t' := by
    simpa [visible] using h
  rcases hrange with hrange | rfl
  · have hspace : c.toNat = 32 := by
      simp only [Unicode.isWhitespace, Bool.or_eq_true, Bool.and_eq_true, decide_eq_true_eq,
        List.contains_eq_mem, List.mem_cons, List.not_mem_nil, or_false] at hblank
      omega
    have hc : c = ' ' := Char.toNat_inj.mp hspace
    rw [hc]
    rfl
  · rfl

theorem isWhitespace_of_isDigit {c : Char} (h : c.isDigit = true) :
    Unicode.isWhitespace c = false := by
  have hrange : 48 ≤ c.toNat ∧ c.toNat ≤ 57 := Char.isDigit_iff_toNat.mp h
  by_contra hblank
  simp only [Bool.not_eq_false, Unicode.isWhitespace, Bool.or_eq_true, Bool.and_eq_true,
    decide_eq_true_eq, List.contains_eq_mem, List.mem_cons, List.not_mem_nil, or_false] at hblank
  omega

theorem trim_of_digits {text : Text} (h : text.all Char.isDigit = true) : trim text = text :=
  List.trimBy_eq_self fun c hc => isWhitespace_of_isDigit (List.all_eq_true.mp h c hc)

theorem not_mem_of_digits {text : Text} {c : Char} (h : text.all Char.isDigit = true)
    (hc : c.isDigit = false) : c ∉ text := by
  intro hmem
  rw [List.all_eq_true.mp h c hmem] at hc
  cases hc

/-- Sides of digits are read as they are spelled. -/
theorem Spelled.byteRange_eq {value start last : Text} (h : Spelled value start last)
    (hstart : start.all Char.isDigit = true) (hlast : last.all Char.isDigit = true) :
    byteRange value = some (start, last) := by
  obtain ⟨pre, a, b, c, d, rfl, hblanks⟩ := h
  have hblank : ∀ blanks ∈ [pre, a, b, c, d], ∀ x ∈ blanks, Unicode.isWhitespace x = true :=
    fun blanks hmem x hx => isWhitespace_of_isOws (hblanks blanks hmem x hx)
  simp only [List.forall_mem_cons] at hblank
  obtain ⟨hpre, ha, hb, hc, hd, -⟩ := hblank
  have hno : ∀ sep : Char, sep.isDigit = false → Unicode.isWhitespace sep = false →
      sep ∉ a ++ start ++ b ∧ sep ∉ c ++ last ++ d := by
    intro sep hsep hvisible
    have hblanks' : ∀ {l : Text}, (∀ x ∈ l, Unicode.isWhitespace x = true) → sep ∉ l := by
      intro l hl hmem
      rw [hl sep hmem] at hvisible
      cases hvisible
    simp only [List.mem_append, not_or]
    exact ⟨⟨⟨hblanks' ha, not_mem_of_digits hstart hsep⟩, hblanks' hb⟩,
      ⟨⟨hblanks' hc, not_mem_of_digits hlast hsep⟩, hblanks' hd⟩⟩
  have hx : trim (a ++ start ++ b) = start := by
    rw [trim, List.trimBy_blanks ha hb]
    exact trim_of_digits hstart
  have hy : trim (c ++ last ++ d) = last := by
    rw [trim, List.trimBy_blanks hc hd]
    exact trim_of_digits hlast
  obtain ⟨hdashX, -⟩ := hno '-' (by decide) (by decide)
  obtain ⟨hcommaX, hcommaY⟩ := hno ',' (by decide) (by decide)
  generalize a ++ start ++ b = x at *
  generalize c ++ last ++ d = y at *
  have hdash : Unicode.isWhitespace '-' = false := by decide
  have hbytes : ("bytes=".toList ++ x).dropWhile Unicode.isWhitespace = "bytes=".toList ++ x :=
    List.dropWhile_cons_of_neg (by decide)
  have hvalue : trim (pre ++ "bytes=".toList ++ x ++ '-' :: y) =
      "bytes=".toList ++ (x ++ '-' :: y.rdropWhile Unicode.isWhitespace) := by
    rw [trim, List.trimBy_append_cons hdash, List.append_assoc pre,
      List.dropWhile_append_of_all hpre, hbytes, List.append_assoc]
  have hcomma : ',' ∉ x ++ '-' :: y.rdropWhile Unicode.isWhitespace := by
    simp only [List.mem_append, List.mem_cons, not_or]
    exact ⟨hcommaX, by decide, fun h => hcommaY (( List.rdropWhile_prefix _ _).subset h)⟩
  have hspec : trim (x ++ '-' :: y.rdropWhile Unicode.isWhitespace) =
      x.dropWhile Unicode.isWhitespace ++ '-' ::
        (y.rdropWhile Unicode.isWhitespace).rdropWhile Unicode.isWhitespace := by
    rw [trim, List.trimBy_append_cons hdash]
  have hdashDrop : '-' ∉ x.dropWhile Unicode.isWhitespace :=
    fun h => hdashX ((List.dropWhile_suffix _).subset h)
  unfold byteRange
  rw [hvalue, List.stripPrefix_eq_some.mpr rfl]
  simp only [List.splitOn_eq_singleton hcomma, hspec, List.splitOnce_append hdashDrop,
    Option.map_some]
  rw [trim, List.trimBy_dropWhile, ← trim, hx, trim, List.trimBy_rdropWhile,
    List.trimBy_rdropWhile, ← trim, hy]

/-- What is read as a byte range is spelled as one. -/
theorem spelled_of_byteRange {value start last : Text} (hvisible : value.all visible = true)
    (h : byteRange value = some (start, last)) : Spelled value start last := by
  unfold byteRange at h
  split at h
  · cases h
  · rename_i spec hspec
    rw [List.stripPrefix_eq_some] at hspec
    split at h
    · rename_i first hfirst
      have hwhole : first = spec := by
        have hjoin : [','].intercalate (spec.splitOn ',') = spec := List.intercalate_splitOn ','
        rw [hfirst] at hjoin
        simpa [List.intercalate] using hjoin
      subst hwhole
      obtain ⟨⟨x, y⟩, hsides, hpair⟩ := Option.map_eq_some_iff.mp h
      obtain ⟨rfl, rfl⟩ := Prod.mk.inj hpair
      obtain ⟨hdash, -⟩ := List.splitOnce_eq_some.mp hsides
      obtain ⟨pre, post, hvalue, hpre, hpost⟩ :=
        @List.exists_trimBy Char Unicode.isWhitespace value
      obtain ⟨pre', post', hfirst', hpre', hpost'⟩ :=
        @List.exists_trimBy Char Unicode.isWhitespace first
      obtain ⟨a, b, hx, ha, hb⟩ := @List.exists_trimBy Char Unicode.isWhitespace x
      obtain ⟨c, d, hy, hc, hd⟩ := @List.exists_trimBy Char Unicode.isWhitespace y
      have htext : value = pre ++ "bytes=".toList ++ ((pre' ++ a) ++ trim x ++ b) ++
          '-' :: (c ++ trim y ++ (d ++ post' ++ post)) := by
        rw [← trim, hspec, hfirst', ← trim, hdash, hx, hy, ← trim, ← trim] at hvalue
        rw [hvalue]
        simp only [List.append_assoc, List.cons_append]
      refine ⟨pre, pre' ++ a, b, c, d ++ post' ++ post, htext, ?_⟩
      have hows : ∀ {l : Text}, (∀ z ∈ l, z ∈ value) → (∀ z ∈ l, Unicode.isWhitespace z = true) →
          ∀ z ∈ l, isOws z = true := fun hsub hl z hz =>
        isOws_of_isWhitespace (List.all_eq_true.mp hvisible z (hsub z hz)) (hl z hz)
      simp only [List.forall_mem_cons]
      refine ⟨hows ?_ hpre, hows ?_ (List.forall_mem_append.mpr ⟨hpre', ha⟩), hows ?_ hb,
        hows ?_ hc, hows ?_ (List.forall_mem_append.mpr
          ⟨List.forall_mem_append.mpr ⟨hd, hpost'⟩, hpost⟩), by simp⟩
      all_goals
        intro z hz
        rw [htext]
        simp only [List.mem_append, List.mem_cons] at hz ⊢
        tauto
    · cases h

/-! ## Numbers -/

theorem parseU64_of_numeral {text : Text} {n : ℕ} (h : Numeral text n) :
    parseU64 text = if n < 2 ^ 64 then some n else none := by
  have hplus : text.stripPrefix ['+'] = none := by
    refine List.stripPrefix_eq_none.mpr ?_
    rintro ⟨rest, rfl⟩
    exact absurd (List.all_eq_true.mp h.digits '+' (List.mem_cons_self ..)) (by decide)
  unfold parseU64
  rw [hplus, Option.getD_none]
  simp only [if_pos (And.intro h.ne_nil h.digits), h.value]

/-- A number that is parsed has digits, but for a sign in front. -/
theorem numeral_of_parseU64 {text : Text} {n : ℕ} (h : parseU64 text = some n)
    (hsign : text.all Char.isDigit = true) : Numeral text n := by
  have hne : text ≠ [] := by
    rintro rfl
    cases h
  have hnumeral : Numeral text (text.foldl (fun n c => 10 * n + (c.toNat - '0'.toNat)) 0) :=
    ⟨hne, hsign, rfl⟩
  rw [parseU64_of_numeral hnumeral] at h
  split at h
  · rw [Option.some.injEq] at h
    rw [← h]
    exact hnumeral
  · cases h

/-- The sides for which the whole representation is not sent: any, of an empty representation,
else those where what is there is a number. -/
def Numbered (len : ℕ) (start last : Text) : Prop :=
  len = 0 ∨ ((start ≠ [] ∨ last ≠ []) ∧ (start ≠ [] → (parseU64 start).isSome = true) ∧
    (last ≠ [] → (parseU64 last).isSome = true))

/-- The sides of a range with a byte in the representation. -/
inductive Satisfiable (len : ℕ) (start last : Text) : ℕ → ℕ → Prop
  | suffix {n : ℕ} (pos : 0 < len) (first : start = []) (second : parseU64 last = some n)
      (some : 0 < n) : Satisfiable len start last (len - n) (len - 1)
  | tail {n : ℕ} (first : parseU64 start = some n) (second : last = []) (inside : n < len) :
      Satisfiable len start last n (len - 1)
  | span {n m : ℕ} (first : parseU64 start = some n) (second : parseU64 last = some m)
      (ordered : n ≤ m) (inside : n < len) : Satisfiable len start last n (Min.min m (len - 1))

theorem resolveSides_eq_full {len : ℕ} {start last : Text} :
    resolveSides start last len = .full ↔ ¬Numbered len start last := by
  unfold resolveSides Numbered
  by_cases hlen : len = 0
  · simp [hlen]
  · rw [if_neg hlen]
    cases start with
    | nil =>
        cases last with
        | nil => simp [hlen]
        | cons c last =>
            cases hlast : parseU64 (c :: last) with
            | none => simp [hlen]
            | some n => cases n <;> simp [hlen]
    | cons c start =>
        cases hstart : parseU64 (c :: start) with
        | none => cases last <;> simp [hlen]
        | some n =>
            cases last with
            | nil =>
                by_cases hn : n ≤ len - 1 <;> simp [hlen, hn]
            | cons d last =>
                cases hlast : parseU64 (d :: last) with
                | none => simp [hlen]
                | some m =>
                    by_cases hn : n ≤ m ∧ n ≤ len - 1 <;> simp [hlen, hn]

theorem satisfiable_of_part {len a b : ℕ} {start last : Text}
    (h : resolveSides start last len = .part a b) : Satisfiable len start last a b := by
  unfold resolveSides at h
  split at h
  · cases h
  · rename_i hlen
    have hpos := Nat.pos_of_ne_zero hlen
    cases start with
    | nil =>
        cases last with
        | nil => cases h
        | cons c last =>
            cases hlast : parseU64 (c :: last) with
            | none => simp [hlast] at h
            | some n =>
                cases n with
                | zero => simp [hlast] at h
                | succ n =>
                    simp only [List.isEmpty_nil, List.isEmpty_cons, hlast, Resolved.part.injEq] at h
                    rw [← h.1, ← h.2]
                    exact .suffix hpos rfl hlast (Nat.succ_pos n)
    | cons c start =>
        cases hstart : parseU64 (c :: start) with
        | none => cases last <;> simp [hstart] at h
        | some n =>
            cases last with
            | nil =>
                simp only [List.isEmpty_nil, List.isEmpty_cons, hstart] at h
                split at h
                · rename_i hn
                  rw [Resolved.part.injEq] at h
                  rw [← h.1, ← h.2]
                  exact .tail hstart rfl (by omega)
                · cases h
            | cons d last =>
                cases hlast : parseU64 (d :: last) with
                | none => simp [hstart, hlast] at h
                | some m =>
                    simp only [List.isEmpty_cons, hstart, hlast] at h
                    split at h
                    · rename_i hn
                      rw [Resolved.part.injEq] at h
                      rw [← h.1, ← h.2]
                      exact .span hstart hlast hn.1 (by omega)
                    · cases h

theorem ne_nil_of_parseU64 {text : Text} {n : ℕ} (h : parseU64 text = some n) :
    text.isEmpty = false := by
  cases text with
  | nil => cases h
  | cons c text => rfl

theorem Satisfiable.resolveSides_eq {len a b : ℕ} {start last : Text}
    (h : Satisfiable len start last a b) : resolveSides start last len = .part a b := by
  unfold resolveSides
  cases h with
  | @suffix n pos first second some =>
      rw [if_neg (Nat.pos_iff_ne_zero.mp pos)]
      cases n with
      | zero => cases some
      | succ n => simp only [first, List.isEmpty_nil, ne_nil_of_parseU64 second, second]
  | tail first second inside =>
      rw [if_neg (by omega)]
      have hn : a ≤ len - 1 := by omega
      simp only [second, List.isEmpty_nil, ne_nil_of_parseU64 first, first, if_pos hn]
  | @span _ m first second ordered inside =>
      rw [if_neg (by omega)]
      have hn : a ≤ m ∧ a ≤ len - 1 := ⟨ordered, by omega⟩
      simp only [ne_nil_of_parseU64 first, ne_nil_of_parseU64 second, first, second, if_pos hn]

theorem Satisfiable.numbered {len a b : ℕ} {start last : Text}
    (h : Satisfiable len start last a b) : Numbered len start last := by
  by_contra hnot
  have hfull := resolveSides_eq_full.mpr hnot
  rw [h.resolveSides_eq] at hfull
  cases hfull

/-- What is served lies in the representation. -/
theorem Satisfiable.inside {len a b : ℕ} {start last : Text}
    (h : Satisfiable len start last a b) : a ≤ b ∧ b < len := by
  cases h with
  | suffix => omega
  | tail => omega
  | span => omega

/-! ## The contract -/

/-- A validator that still holds: the current tag, or the date of the modification. -/
inductive Honoured (parseHttpDate : Text → Option ℕ) (etag : Text) (modified : Option ℤ)
    (value : Text) : Prop
  | tag {text : Text} (read : toStr value = some text) (same : trim text = etag)
  | date {text : Text} {since : ℕ} {time : ℤ} (read : toStr value = some text)
      (parsed : parseHttpDate (trim text) = some since) (known : modified = some time)
      (same : time / 1000000000 = since)

/-- What resolving the range of a request owes. -/
structure RangeSound (parseHttpDate : Text → Option ℕ) (headers : Headers) (len : ℕ) (etag : Text)
    (modified : Option ℤ) : Prop where
  inside : ∀ start last, resolve parseHttpDate headers len etag modified = .part start last →
    start ≤ last ∧ last < len
  written : ∀ start last, resolve parseHttpDate headers len etag modified = .part start last →
    ∃ value spec, headers.getAll "range" = [value] ∧ Written value spec ∧
      spec.Assigns len start last
  honoured : ∀ start last, resolve parseHttpDate headers len etag modified = .part start last →
    ∀ value ∈ headers.getAll "if-range", Honoured parseHttpDate etag modified value
  full : (∀ value spec, headers.getAll "range" = [value] → ¬Written value spec) →
    resolve parseHttpDate headers len etag modified = .full
  served : ∀ start last, resolve parseHttpDate headers len etag modified = .part start last →
    servedSpan (.part start last) len = (start, last - start + 1) ∧
      start + (last - start + 1) ≤ len

/-- Every side is digits, and one is there. -/
def Unsigned (start last : Text) : Prop :=
  start.all Char.isDigit = true ∧ last.all Char.isDigit = true ∧ (start ≠ [] ∨ last ≠ [])

/-- The first `If-Range` line can be read and is a tag or compared with a time not before the
epoch, and the lines after it hold too. -/
def Readable (parseHttpDate : Text → Option ℕ) (etag : Text) (modified : Option ℤ) :
    List Text → Prop
  | [] => True
  | value :: rest =>
      (∃ text, toStr value = some text ∧
        (isTag (trim text) = true ∨ trim text = etag ∨ ∀ time, modified = some time → 0 ≤ time)) ∧
      ∀ other ∈ rest, Honoured parseHttpDate etag modified other

/-- A request whose range is read and let through by `If-Range` has a single `Range` line without
signs in its sides, if they are numbered, and `If-Range` lines that are readable, if a byte of the
range is there. -/
def RangeClear (parseHttpDate : Text → Option ℕ) (headers : Headers) (len : ℕ) (etag : Text)
    (modified : Option ℤ) : Prop :=
  ∀ value start last, (headers.get "range").bind toStr = some value →
    ifRangeMatches parseHttpDate headers etag modified = true →
    byteRange value = some (start, last) →
    (Numbered len start last → headers.getAll "range" = [value] ∧ Unsigned start last) ∧
      ∀ a b, Satisfiable len start last a b →
        Readable parseHttpDate etag modified (headers.getAll "if-range")

section

variable {parseHttpDate : Text → Option ℕ} {headers : Headers} {len : ℕ} {etag : Text}
  {modified : Option ℤ}

/-- A range that is not sent whole was read and let through. -/
theorem resolve_cases {resolved : Resolved}
    (h : resolve parseHttpDate headers len etag modified = resolved) (hne : resolved ≠ .full) :
    ∃ value start last, (headers.get "range").bind toStr = some value ∧
      ifRangeMatches parseHttpDate headers etag modified = true ∧
      byteRange value = some (start, last) ∧ resolveSides start last len = resolved := by
  unfold resolve at h
  cases hvalue : (headers.get "range").bind toStr with
  | none =>
      rw [hvalue] at h
      exact absurd h.symm hne
  | some value =>
      rw [hvalue] at h
      simp only at h
      split at h
      · rename_i hmatches
        unfold parse at h
        split at h
        · exact absurd h.symm hne
        · rename_i start last hsides
          exact ⟨value, start, last, rfl, hmatches, hsides, h⟩
      · exact absurd h.symm hne

theorem resolve_eq {value start last : Text} (hvalue : (headers.get "range").bind toStr = some value)
    (hmatches : ifRangeMatches parseHttpDate headers etag modified = true)
    (hsides : byteRange value = some (start, last)) :
    resolve parseHttpDate headers len etag modified = resolveSides start last len := by
  unfold resolve parse
  rw [hvalue]
  simp only [hmatches, if_true, hsides]

theorem visible_of_get {name : String} {value : Text}
    (h : (headers.get name).bind toStr = some value) :
    value.all visible = true ∧ (headers.getAll name).head? = some value := by
  obtain ⟨raw, hraw, htext⟩ := Option.bind_eq_some_iff.mp h
  unfold toStr at htext
  split at htext
  · rename_i hvisible
    cases htext
    exact ⟨hvisible, hraw⟩
  · cases htext

/-- Sides of digits are those of a range of the grammar. -/
theorem exists_written {value start last : Text} (hspelled : Spelled value start last)
    (h : Unsigned start last) : ∃ spec, Written value spec := by
  obtain ⟨hstart, hlast, hne⟩ := h
  cases start with
  | nil =>
      have hnumeral : Numeral last _ := ⟨by simpa using hne, hlast, rfl⟩
      exact ⟨_, .suffix hspelled hnumeral⟩
  | cons c start =>
      have hfirst : Numeral (c :: start) _ := ⟨List.cons_ne_nil c start, hstart, rfl⟩
      cases last with
      | nil => exact ⟨_, .tail hspelled hfirst⟩
      | cons d last =>
          have hsecond : Numeral (d :: last) _ := ⟨List.cons_ne_nil d last, hlast, rfl⟩
          exact ⟨_, .span hspelled hfirst hsecond⟩

theorem unsigned_of_written {value start last : Text} {spec : RangeSpec}
    (hwritten : Written value spec) (hsides : byteRange value = some (start, last)) :
    Unsigned start last := by
  cases hwritten with
  | span spelled first second =>
      rw [spelled.byteRange_eq first.digits second.digits] at hsides
      cases hsides
      exact ⟨first.digits, second.digits, .inl first.ne_nil⟩
  | tail spelled first =>
      rw [spelled.byteRange_eq first.digits rfl] at hsides
      cases hsides
      exact ⟨first.digits, rfl, .inl first.ne_nil⟩
  | suffix spelled second =>
      rw [spelled.byteRange_eq rfl second.digits] at hsides
      cases hsides
      exact ⟨rfl, second.digits, .inr second.ne_nil⟩

/-- The bytes served are those of the range as it is written. -/
theorem Satisfiable.written {value start last : Text} {a b : ℕ}
    (h : Satisfiable len start last a b) (hspelled : Spelled value start last)
    (hdigits : Unsigned start last) : ∃ spec, Written value spec ∧ spec.Assigns len a b := by
  obtain ⟨hstart, hlast, -⟩ := hdigits
  cases h with
  | @suffix n pos first second some =>
      subst first
      exact ⟨_, .suffix hspelled (numeral_of_parseU64 second hlast), some, pos, rfl, rfl⟩
  | tail first second inside =>
      subst second
      exact ⟨_, .tail hspelled (numeral_of_parseU64 first hstart), inside, rfl, rfl⟩
  | span first second ordered inside =>
      exact ⟨_, .span hspelled (numeral_of_parseU64 first hstart)
        (numeral_of_parseU64 second hlast), ordered, inside, rfl, rfl⟩

/-- What matched holds, if it was read as it should be. -/
theorem honoured_of_readable (hmatches : ifRangeMatches parseHttpDate headers etag modified = true)
    (h : Readable parseHttpDate etag modified (headers.getAll "if-range")) :
    ∀ value ∈ headers.getAll "if-range", Honoured parseHttpDate etag modified value := by
  unfold ifRangeMatches MultiMap.get at hmatches
  cases hlines : headers.getAll "if-range" with
  | nil => simp
  | cons value rest =>
      rw [hlines] at h hmatches
      obtain ⟨⟨text, hread, htime⟩, hrest⟩ := h
      refine List.forall_mem_cons.mpr ⟨?_, hrest⟩
      simp only [List.head?_cons, Option.bind_some, hread] at hmatches
      by_cases hsame : trim text = etag
      · exact .tag hread hsame
      split at hmatches
      · exact absurd (of_decide_eq_true hmatches) hsame
      · rename_i htag
        cases hsince : parseHttpDate (trim text) with
        | none => simp [hsince] at hmatches
        | some since =>
            cases modified with
            | none => simp [hsince] at hmatches
            | some time =>
                have hpos := ((htime.resolve_left htag).resolve_left hsame) time rfl
                simp only [hsince, decide_eq_true_eq] at hmatches
                refine .date hread hsince rfl ?_
                rw [← hmatches, secs, Int.toNat_of_nonneg (Int.ediv_nonneg hpos (by decide))]

theorem readable_of_honoured
    (h : ∀ value ∈ headers.getAll "if-range", Honoured parseHttpDate etag modified value) :
    Readable parseHttpDate etag modified (headers.getAll "if-range") := by
  cases hlines : headers.getAll "if-range" with
  | nil => trivial
  | cons value rest =>
      rw [hlines] at h
      obtain ⟨hvalue, hrest⟩ := List.forall_mem_cons.mp h
      refine ⟨?_, hrest⟩
      cases hvalue with
      | @tag text read same => exact ⟨text, read, .inr (.inl same)⟩
      | @date text since time read parsed known same =>
          refine ⟨text, read, .inr (.inr ?_)⟩
          intro time' htime'
          rw [known, Option.some.injEq] at htime'
          omega

/-- The range of a request is resolved as it should be exactly if what is read as one is written
as one, on a single line, and its validators are readable. -/
theorem rangeSound_iff (parseHttpDate : Text → Option ℕ) (headers : Headers) (len : UInt64)
    (etag : Text) (modified : Option ℤ) :
    RangeSound parseHttpDate headers len.toNat etag modified ↔
      RangeClear parseHttpDate headers len.toNat etag modified := by
  constructor
  · intro h value start last hvalue hmatches hsides
    obtain ⟨hvisible, hfirst⟩ := visible_of_get hvalue
    have heq := @resolve_eq parseHttpDate headers len.toNat etag modified _ _ _ hvalue hmatches
      hsides
    constructor
    · intro hnumbered
      have hne : resolve parseHttpDate headers len.toNat etag modified ≠ .full := by
        rw [heq]
        exact fun hfull => resolveSides_eq_full.mp hfull hnumbered
      have hex := mt h.full hne
      simp only [not_forall, not_not] at hex
      obtain ⟨value', spec, hline, hwritten⟩ := hex
      rw [hline, List.head?_cons, Option.some.injEq] at hfirst
      subst hfirst
      exact ⟨hline, unsigned_of_written hwritten hsides⟩
    · intro a b hsat
      rw [hsat.resolveSides_eq] at heq
      exact readable_of_honoured (h.honoured a b heq)
  · intro h
    have hpart : ∀ a b, resolve parseHttpDate headers len.toNat etag modified = .part a b →
        ∃ value start last, headers.getAll "range" = [value] ∧ Unsigned start last ∧
          Spelled value start last ∧ Satisfiable len.toNat start last a b ∧
          ∀ line ∈ headers.getAll "if-range", Honoured parseHttpDate etag modified line := by
      intro a b hab
      obtain ⟨value, start, last, hvalue, hmatches, hsides, hsat⟩ := resolve_cases hab (by simp)
      replace hsat := satisfiable_of_part hsat
      obtain ⟨hnumbered, hreadable⟩ := h value start last hvalue hmatches hsides
      obtain ⟨hline, hunsigned⟩ := hnumbered hsat.numbered
      exact ⟨value, start, last, hline, hunsigned,
        spelled_of_byteRange (visible_of_get hvalue).1 hsides, hsat,
        honoured_of_readable hmatches (hreadable a b hsat)⟩
    refine ⟨?_, ?_, ?_, ?_, ?_⟩
    · intro a b hab
      obtain ⟨_, _, _, _, _, _, hsat, _⟩ := hpart a b hab
      exact hsat.inside
    · intro a b hab
      obtain ⟨value, start, last, hline, hunsigned, hspelled, hsat, -⟩ := hpart a b hab
      obtain ⟨spec, hwritten, hassigns⟩ := hsat.written hspelled hunsigned
      exact ⟨value, spec, hline, hwritten, hassigns⟩
    · intro a b hab
      obtain ⟨_, _, _, _, _, _, _, hhonoured⟩ := hpart a b hab
      exact hhonoured
    · intro hnone
      by_contra hne
      obtain ⟨value, start, last, hvalue, hmatches, hsides, heq⟩ := resolve_cases rfl hne
      have hnumbered : Numbered len.toNat start last := by
        by_contra hnot
        rw [resolveSides_eq_full.mpr hnot] at heq
        exact hne heq.symm
      obtain ⟨hline, hunsigned⟩ := (h value start last hvalue hmatches hsides).1 hnumbered
      obtain ⟨spec, hwritten⟩ :=
        exists_written (spelled_of_byteRange (visible_of_get hvalue).1 hsides) hunsigned
      exact hnone value spec hline hwritten
    · intro a b hab
      obtain ⟨_, _, _, _, _, _, hsat, _⟩ := hpart a b hab
      obtain ⟨hle, hlt⟩ := hsat.inside
      have hlen := len.toNat_lt
      refine ⟨?_, by omega⟩
      simp only [servedSpan, Prod.mk.injEq, true_and]
      omega

end

/-- A validator with a byte outside ASCII is not compared, and a signed number is taken. -/
theorem unclear_ranges :
    ¬RangeSound (fun _ => none)
        ⟨[("range", "bytes=0-1".toList), ("if-range", ['"', '\u00E9', '"'])]⟩
        10 "\"new\"".toList none ∧
      ¬RangeSound (fun _ => none) ⟨[("range", "bytes=+1-2".toList)]⟩ 10 "\"new\"".toList none := by
  constructor
  · intro h
    have hpart := h.honoured 0 1 (by decide) _ (List.mem_singleton.mpr rfl)
    have hread : toStr ['"', '\u00E9', '"'] = none := by decide
    cases hpart with
    | tag read => rw [hread] at read; cases read
    | date read => rw [hread] at read; cases read
  · intro h
    obtain ⟨value, spec, hline, hwritten, -⟩ := h.written 1 2 (by decide)
    have hvalue : value = "bytes=+1-2".toList := (List.cons.inj hline).1.symm
    have hunsigned := unsigned_of_written (hvalue ▸ hwritten)
      (show byteRange "bytes=+1-2".toList = some ("+1".toList, "2".toList) by decide)
    exact absurd hunsigned.1 (by decide)

end Nitr.Range
