import Nitr.Lib.Text

/-! # Conditional requests

`is_fresh` from `request/fresh.rs` and the entity tag the compression layer of
`compress.rs` sends. A header value is a list of characters; from 0x80 on a character
stands for a byte outside ASCII. -/

namespace Nitr.Http

/-- The text of a header value or an entity tag. -/
abbrev Text := List Char

/-- A character `HeaderValue::to_str` accepts. -/
def visible (c : Char) : Bool := (decide (32 ≤ c.toNat) && decide (c.toNat < 127)) || c == '\t'

/-- `HeaderValue::to_str`: the text of a value of visible ASCII. -/
def toStr (value : Text) : Option Text := if value.all visible then some value else none

/-- `HeaderValue::from_str`: no control characters but the tab. -/
def fromStr (text : Text) : Option Text :=
  if text.all fun c => (decide (32 ≤ c.toNat) && c.toNat != 127) || c == '\t' then some text
  else none

/-- The headers `is_fresh` reads: each field's lines in order. -/
structure HeaderMap where
  ifNoneMatch : List Text
  ifModifiedSince : List Text

/-- `str::trim`. Space and tab are the only blanks of a visible text. -/
def trim (text : Text) : Text := text.trimBy Char.isWhitespace

def stripWeak (etag : Text) : Text := (etag.stripPrefix ['W', '/']).getD etag

/-- The tag without the suffix of one coding, if the text inside ends in it. -/
def stripToken (inner token : Text) : Option Text :=
  ((inner.stripSuffix token).bind (·.stripSuffix ['-'])).map fun base => '"' :: (base ++ ['"'])

/-- The tag without the suffix of a coding. -/
def stripEncodingSuffix (tag : Text) : Option Text :=
  ((tag.stripPrefix ['"']).bind (·.stripSuffix ['"'])).bind fun inner =>
    [['g', 'z', 'i', 'p'], ['b', 'r']].findSome? (stripToken inner)

/-- Whether one member of the list names the current tag, given without its weak prefix. -/
def candidateMatches (etag piece : Text) : Bool :=
  let candidate := trim piece
  if candidate = ['*'] then true
  else
    let candidate := stripWeak candidate
    decide (candidate = etag) || (stripEncodingSuffix candidate).any (· = etag)

/-- The comparison of dates: seconds since the epoch, an earlier date as 0. -/
def notModified (parseHttpDate : Text → Option ℤ) (headers : HeaderMap)
    (lastModified : Option ℤ) : Bool :=
  match headers.ifModifiedSince.head?.bind toStr |>.bind parseHttpDate, lastModified with
  | some since, some modified => decide (modified ≤ Max.max since 0)
  | _, _ => false

/-- Whether the client's cached copy is still current. `parseHttpDate` is the date parser
of the `httpdate` package. -/
def isFresh (parseHttpDate : Text → Option ℤ) (headers : HeaderMap) (etag : Option Text)
    (lastModified : Option ℤ) : Bool :=
  match headers.ifNoneMatch.head?.bind toStr with
  | some candidates =>
      match etag with
      | none => false
      | some etag => (candidates.splitOn ',').any (candidateMatches (stripWeak etag))
  | none => notModified parseHttpDate headers lastModified

/-! ## The tag of a compressed response -/

/-- A content coding the server can produce. -/
inductive Encoding where
  | brotli
  | gzip
deriving DecidableEq, Repr

/-- The `Content-Encoding` token. -/
def Encoding.token : Encoding → Text
  | .brotli => ['b', 'r']
  | .gzip => ['g', 'z', 'i', 'p']

/-- `trim_start_matches("W/")`. -/
def trimWeak : Text → Text
  | 'W' :: '/' :: rest => trimWeak rest
  | text => text

/-- The weak validator for an encoded representation. -/
def weakenEtag (etag token : Text) : Text :=
  let strong := trimWeak etag
  let quoted (inner : Text) : Text := ['W', '/', '"'] ++ inner ++ ['-'] ++ token ++ ['"']
  match (strong.stripPrefix ['"']).bind (·.stripSuffix ['"']) with
  | some inner => quoted inner
  | none => quoted (strong.trimBy (· == '"'))

/-- The `ETag` step of `Compression::apply`: a tag that is not visible ASCII stays. -/
def applyEtag (etag : Text) (encoding : Encoding) : Text :=
  match toStr etag with
  | none => etag
  | some etag' =>
      match fromStr (weakenEtag etag' encoding.token) with
      | some value => value
      | none => etag

/-! ## Blanks of a visible text -/

/-- A blank around a member of a list. -/
def isOws (c : Char) : Bool := c == ' ' || c == '\t'

theorem isWhitespace_of_isOws {c : Char} (h : isOws c = true) : Unicode.isWhitespace c = true := by
  simp only [isOws, Bool.or_eq_true, beq_iff_eq] at h
  rcases h with rfl | rfl <;> decide

theorem isOws_eq_isWhitespace {c : Char} (h : visible c = true) : isOws c = c.isWhitespace := by
  have hcr : c ≠ '\r' := by
    rintro rfl
    exact absurd h (by decide)
  have hlf : c ≠ '\n' := by
    rintro rfl
    exact absurd h (by decide)
  simp only [isOws, Char.isWhitespace, hcr, hlf, decide_false, Bool.or_false]
  rfl

theorem trim_eq_trimBy_isOws {text : Text} (h : text.all visible = true) :
    trim text = text.trimBy isOws :=
  List.trimBy_congr fun c hc => (isOws_eq_isWhitespace (List.all_eq_true.mp h c hc)).symm

theorem visible_of_isOws {c : Char} (h : isOws c = true) : visible c = true := by
  simp only [isOws, Bool.or_eq_true, beq_iff_eq] at h
  rcases h with rfl | rfl
  · decide
  · decide

/-- A member of a visible list is visible. -/
theorem all_visible_of_mem_splitOn {line piece : Text} (h : line.all visible = true)
    (hpiece : piece ∈ line.splitOn ',') : piece.all visible = true := by
  rw [List.all_eq_true] at h ⊢
  intro c hc
  have hne : c ≠ ',' := by
    rintro rfl
    exact List.not_mem_of_mem_splitOn hpiece hc
  exact h c ((List.mem_iff_splitOn hne).mpr ⟨piece, hpiece, hc⟩)

end Nitr.Http
