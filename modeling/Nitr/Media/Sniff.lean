import Mathlib.Data.List.Infix
import Nitr.Lib.Utf8
import Nitr.Lib.Text
import Nitr.Media.Types
import Nitr.Validate.Scalar

/-! # Detection

`media/sniff.rs`: signatures, the text sniffer and the ZIP-container reader, over the first
bytes of an upload. -/

namespace Nitr.Media

/-- A byte string, each character one byte. -/
def bytes (text : String) : List UInt8 := text.toList.map fun c => UInt8.ofNat c.toNat

def starts (head magic : List UInt8) : Bool := magic.isPrefixOf head

def occursAt (head : List UInt8) (offset : ℕ) (magic : List UInt8) : Bool :=
  starts (head.drop offset) magic

/-! ## Numbers in headers -/

def be16 (head : List UInt8) (i : ℕ) : Option ℕ :=
  match head.drop i with
  | a :: b :: _ => some (a.toNat * 256 + b.toNat)
  | _ => none

def be32 (head : List UInt8) (i : ℕ) : Option ℕ :=
  match head.drop i with
  | a :: b :: c :: d :: _ =>
      some (((a.toNat * 256 + b.toNat) * 256 + c.toNat) * 256 + d.toNat)
  | _ => none

def le16 (head : List UInt8) (i : ℕ) : Option ℕ :=
  match head.drop i with
  | a :: b :: _ => some (a.toNat + b.toNat * 256)
  | _ => none

def le32 (head : List UInt8) (i : ℕ) : Option ℕ :=
  match head.drop i with
  | a :: b :: c :: d :: _ =>
      some (a.toNat + (b.toNat + (c.toNat + d.toNat * 256) * 256) * 256)
  | _ => none

/-! ## ZIP containers -/

/-- The names in the local headers, from a position on and at most as many as the first
argument says. -/
def zipNamesFrom (head : List UInt8) : ℕ → ℕ → List (List UInt8)
  | 0, _ => []
  | more + 1, pos =>
      if pos + 30 ≤ head.length && occursAt head pos (bytes "PK\x03\x04") then
        let field := fun i => (le16 head (pos + i)).getD 0
        let csize := (le32 head (pos + 18)).getD 0
        let nameEnd := pos + 30 + field 26
        if head.length < nameEnd then []
        else
          let name := (head.drop (pos + 30)).take (field 26)
          -- Sizes deferred to a data descriptor cannot be skipped.
          if field 6 / 8 % 2 = 1 then [name]
          else name :: zipNamesFrom head more (nameEnd + field 28 + csize)
      else []

def zipEntryNames (head : List UInt8) : List (List UInt8) := zipNamesFrom head 8 0

/-- The types an uncompressed `mimetype` entry may name. -/
def mimetypeEntries : List String :=
  ["application/vnd.oasis.opendocument.text", "application/vnd.oasis.opendocument.spreadsheet",
    "application/vnd.oasis.opendocument.presentation", "application/epub+zip"]

/-- Which ZIP-based type the bytes are, by name. -/
def zipKind (head : List UInt8) : String :=
  let names := zipEntryNames head
  let body := head.drop 38
  let has := fun needle => names.any fun n => starts n (bytes needle)
  let declared :=
    if names.head? = some (bytes "mimetype") then
      mimetypeEntries.find? fun candidate => starts body (bytes candidate)
    else none
  match declared with
  | some name => name
  | none =>
      if names.contains (bytes "[Content_Types].xml") || has "_rels/" then
        if has "word/" then
          "application/vnd.openxmlformats-officedocument.wordprocessingml.document"
        else if has "xl/" then "application/vnd.openxmlformats-officedocument.spreadsheetml.sheet"
        else if has "ppt/" then
          "application/vnd.openxmlformats-officedocument.presentationml.presentation"
        else "application/zip"
      else "application/zip"

/-! ## Text -/

def byteOrderMark : List UInt8 := bytes "\xEF\xBB\xBF"

/-- The bytes after a byte-order mark, if there is one. -/
def unmarked (head : List UInt8) : List UInt8 := (head.stripPrefix byteOrderMark).getD head

/-- A control character that text does not have. -/
def strayControl (c : Char) : Bool :=
  Unicode.isControl c && c != '\t' && c != '\n' && c != '\r'

/-- Whether the bytes are UTF-8 text without stray control characters; a sequence cut at the
end is passed over. -/
def isText (head : List UInt8) : Bool :=
  let body := unmarked head
  let plain := fun part => !(Validate.LuaString.lossyChars part).any strayControl
  head.isEmpty ||
    match Utf8.fromUtf8 body with
    | .ok () => plain body
    | .error ⟨validUpTo, none⟩ => decide (0 < validUpTo) && plain (body.take validUpTo)
    | .error ⟨_, some _⟩ => false

/-! ## Signatures -/

def isExecutable (head : List UInt8) : Bool :=
  starts head (bytes "MZ") || starts head (bytes "\x7fELF") || starts head (bytes "#!") ||
    starts head (bytes "\xCA\xFE\xBA\xBE") ||
    (be32 head 0).any [0xFEEDFACE, 0xFEEDFACF, 0xCEFAEDFE, 0xCFFAEDFE].contains

def signatures : List (List UInt8 × String) :=
  [(bytes "\x89PNG\r\n\x1a\n", "image/png"),
    (bytes "\xFF\xD8\xFF", "image/jpeg"),
    (bytes "GIF87a", "image/gif"),
    (bytes "GIF89a", "image/gif"),
    (bytes "II*\x00", "image/tiff"),
    (bytes "MM\x00*", "image/tiff"),
    (bytes "\x00\x00\x01\x00", "image/x-icon"),
    (bytes "%PDF-", "application/pdf"),
    (bytes "\xD0\xCF\x11\xE0\xA1\xB1\x1A\xE1", "application/msword"),
    (bytes "\x7b\\rtf", "application/rtf"),
    (bytes "\x1F\x8B", "application/gzip"),
    (bytes "BZh", "application/x-bzip2"),
    (bytes "\xFD7zXZ\x00", "application/x-xz"),
    (bytes "\x28\xB5\x2F\xFD", "application/zstd"),
    (bytes "7z\xBC\xAF\x27\x1C", "application/x-7z-compressed"),
    (bytes "Rar!\x1A\x07", "application/vnd.rar"),
    (bytes "ID3", "audio/mpeg"),
    (bytes "OggS", "audio/ogg"),
    (bytes "fLaC", "audio/flac"),
    (bytes "wOFF", "font/woff"),
    (bytes "wOF2", "font/woff2"),
    (bytes "\x00\x01\x00\x00", "font/ttf"),
    (bytes "true", "font/ttf"),
    (bytes "OTTO", "font/otf"),
    (bytes "\x00asm", "application/wasm"),
    (bytes "SQLite format 3\x00", "application/vnd.sqlite3"),
    (bytes "PAR1", "application/x-parquet")]

/-- The type an ISO media brand stands for. -/
def brandType (brand : List UInt8) : String :=
  if ["avif", "avis"].any fun name => brand = bytes name then "image/avif"
  else if ["heic", "heix", "hevc", "mif1", "msf1"].any fun name => brand = bytes name then
    "image/heic"
  else if brand = bytes "M4A " then "audio/mp4"
  else if brand = bytes "qt  " then "video/quicktime"
  else "video/mp4"

/-- MPEG audio frame sync and ADTS AAC. -/
def audioFrame (head : List UInt8) : Option String :=
  match head with
  | 0xFF :: b :: _ =>
      if b &&& 0xF6 = 0xF0 then some "audio/aac"
      -- `FF FE` and `FF FF` are byte-order marks and padding, not frames.
      else if b &&& 0xE0 = 0xE0 ∧ b < 0xFE then some "audio/mpeg"
      else none
  | _ => none

/-- The four bytes at each of the first places, as `windows(4).take(64)`. -/
def windows (head : List UInt8) : List (List UInt8) :=
  ((List.range (head.length - 3)).take 64).map fun i => (head.drop i).take 4

def hit (name : String) : Detection :=
  match lookup name with
  | some media => .detected media
  | none => .unknown

/-- Sniffs the first bytes. -/
def detect (head : List UInt8) : Detection :=
  -- A polyglot that is also an executable is an executable.
  if isExecutable head then .executable
  else
    match signatures.find? fun s => starts head s.1 with
    | some (_, name) => hit name
    | none =>
        let riff := starts head (bytes "RIFF")
        if riff && occursAt head 8 (bytes "WEBP") then hit "image/webp"
        else if riff && occursAt head 8 (bytes "WAVE") then hit "audio/wav"
        else if riff && occursAt head 8 (bytes "AVI ") then hit "video/x-msvideo"
        else if occursAt head 4 (bytes "ftyp") then
          -- An ISO media file shorter than its brand says nothing yet.
          if head.length < 12 then .unknown else hit (brandType ((head.drop 8).take 4))
        else if starts head (bytes "BM") && (le32 head 14).any [12, 40, 52, 56, 108, 124].contains
        then hit "image/bmp"
        else if starts head (bytes "PK\x03\x04") then hit (zipKind head)
        else if occursAt head 257 (bytes "ustar") then hit "application/x-tar"
        else
          match audioFrame head with
          | some name => hit name
          | none =>
              if starts head (bytes "\x1A\x45\xDF\xA3") then
                hit (if (windows head).contains (bytes "webm") then "video/webm"
                  else "video/x-matroska")
              else if isText head then .text
              else .unknown

/-! ## Declared subtypes -/

def isAsciiWhitespace (b : UInt8) : Bool := b ∈ [0x20, 0x09, 0x0A, 0x0C, 0x0D]

/-- Whether a text has the start of an SVG, a declaration before it allowed. -/
def svgText (body : List UInt8) : Bool :=
  let text := (Validate.LuaString.lossyChars (body.take 4096)).map Char.toLower
  let trimmed := text.dropWhile Unicode.isWhitespace
  "<svg".toList.isPrefixOf trimmed ||
    ("<?xml".toList.isPrefixOf trimmed && decide ("<svg".toList <:+: text))

/-- Whether the bytes have the structure a declared text type implies. -/
def textSubtypeMatches (declared : String) (head : List UInt8) : Bool :=
  let body := unmarked head
  let first := body.find? fun b => !isAsciiWhitespace b
  if declared = "application/json" then first = some 0x7B || first = some 0x5B
  else if declared ∈ ["application/xml", "text/xml", "text/html"] then first = some 0x3C
  else if declared = "image/svg+xml" then svgText body
  else true

end Nitr.Media
