import Mathlib.Data.Nat.Notation

/-! # Media types

`media/types.rs` and the lookups of `media/mod.rs`. Families and the names in messages are
left out: no modelled function reads them. -/

namespace Nitr.Media

/-- How a type is established for a part. -/
inductive Tier where
  /-- A signature in the first bytes; the declared header is ignored. -/
  | detected
  /-- The first bytes pass the text sniffer; the declared subtype is trusted. -/
  | text
  /-- Header only. -/
  | header
deriving DecidableEq, Repr

structure MediaType where
  name : String
  /-- Lowercase, without the dot. -/
  extensions : List String
  tier : Tier
  /-- Whether the header carries readable image dimensions. -/
  hasDimensions : Bool
deriving DecidableEq, Repr

def mediaTypes : List MediaType :=
  [
    ⟨"image/png", ["png"], .detected, true⟩,
    ⟨"image/jpeg", ["jpg", "jpeg"], .detected, true⟩,
    ⟨"image/gif", ["gif"], .detected, true⟩,
    ⟨"image/webp", ["webp"], .detected, true⟩,
    ⟨"image/bmp", ["bmp"], .detected, true⟩,
    ⟨"image/tiff", ["tif", "tiff"], .detected, true⟩,
    ⟨"image/x-icon", ["ico"], .detected, false⟩,
    ⟨"image/avif", ["avif"], .detected, false⟩,
    ⟨"image/heic", ["heic", "heif"], .detected, false⟩,
    ⟨"image/svg+xml", ["svg"], .text, false⟩,
    ⟨"application/pdf", ["pdf"], .detected, false⟩,
    ⟨"application/vnd.openxmlformats-officedocument.wordprocessingml.document", ["docx"], .detected,
      false⟩,
    ⟨"application/vnd.openxmlformats-officedocument.spreadsheetml.sheet", ["xlsx"], .detected,
      false⟩,
    ⟨"application/vnd.openxmlformats-officedocument.presentationml.presentation", ["pptx"],
      .detected, false⟩,
    ⟨"application/vnd.oasis.opendocument.text", ["odt"], .detected, false⟩,
    ⟨"application/vnd.oasis.opendocument.spreadsheet", ["ods"], .detected, false⟩,
    ⟨"application/vnd.oasis.opendocument.presentation", ["odp"], .detected, false⟩,
    ⟨"application/epub+zip", ["epub"], .detected, false⟩,
    ⟨"application/msword", ["doc"], .detected, false⟩,
    ⟨"application/vnd.ms-excel", ["xls"], .detected, false⟩,
    ⟨"application/vnd.ms-powerpoint", ["ppt"], .detected, false⟩,
    ⟨"application/rtf", ["rtf"], .detected, false⟩,
    ⟨"text/plain", ["txt"], .text, false⟩,
    ⟨"text/csv", ["csv"], .text, false⟩,
    ⟨"text/markdown", ["md"], .text, false⟩,
    ⟨"text/html", ["html", "htm"], .text, false⟩,
    ⟨"text/css", ["css"], .text, false⟩,
    ⟨"application/json", ["json"], .text, false⟩,
    ⟨"application/xml", ["xml"], .text, false⟩,
    ⟨"text/xml", ["xml"], .text, false⟩,
    ⟨"application/yaml", ["yaml", "yml"], .text, false⟩,
    ⟨"text/calendar", ["ics"], .text, false⟩,
    ⟨"text/vcard", ["vcf"], .text, false⟩,
    ⟨"application/x-ndjson", ["ndjson", "jsonl"], .text, false⟩,
    ⟨"application/zip", ["zip"], .detected, false⟩,
    ⟨"application/gzip", ["gz", "tgz", "tar.gz"], .detected, false⟩,
    ⟨"application/x-tar", ["tar"], .detected, false⟩,
    ⟨"application/x-bzip2", ["bz2"], .detected, false⟩,
    ⟨"application/x-xz", ["xz"], .detected, false⟩,
    ⟨"application/zstd", ["zst"], .detected, false⟩,
    ⟨"application/x-7z-compressed", ["7z"], .detected, false⟩,
    ⟨"application/vnd.rar", ["rar"], .detected, false⟩,
    ⟨"audio/mpeg", ["mp3"], .detected, false⟩,
    ⟨"audio/wav", ["wav"], .detected, false⟩,
    ⟨"audio/ogg", ["ogg", "oga", "opus"], .detected, false⟩,
    ⟨"audio/flac", ["flac"], .detected, false⟩,
    ⟨"audio/mp4", ["m4a"], .detected, false⟩,
    ⟨"audio/aac", ["aac"], .detected, false⟩,
    ⟨"video/mp4", ["mp4", "m4v"], .detected, false⟩,
    ⟨"video/quicktime", ["mov"], .detected, false⟩,
    ⟨"video/webm", ["webm"], .detected, false⟩,
    ⟨"video/x-matroska", ["mkv"], .detected, false⟩,
    ⟨"video/x-msvideo", ["avi"], .detected, false⟩,
    ⟨"font/woff", ["woff"], .detected, false⟩,
    ⟨"font/woff2", ["woff2"], .detected, false⟩,
    ⟨"font/ttf", ["ttf"], .detected, false⟩,
    ⟨"font/otf", ["otf"], .detected, false⟩,
    ⟨"application/wasm", ["wasm"], .detected, false⟩,
    ⟨"application/vnd.sqlite3", ["sqlite", "db"], .detected, false⟩,
    ⟨"application/x-parquet", ["parquet"], .detected, false⟩,
    ⟨"application/octet-stream", [], .header, false⟩]

def lookup (name : String) : Option MediaType := mediaTypes.find? fun m => m.name = name

def unknownType : String := "application/octet-stream"

def executableType : String := "application/x-executable"

/-- Extensions that name scripts and shortcuts Windows executes on open. -/
def scriptExtensions : List String :=
  ["exe", "dll", "lnk", "bat", "cmd", "ps1", "vbs", "js", "jse", "wsf", "scr", "com", "msi"]

def executableExtension (ext : String) : Bool := scriptExtensions.contains ext

/-- What the first bytes of an upload say about it. -/
inductive Detection where
  | detected (media : MediaType)
  | text
  | executable
  | unknown
deriving DecidableEq, Repr

/-- How many bytes detection reads. -/
def sniffBytes : ℕ := 64 * 1024

/-! ## Entries -/

theorem name_of_lookup {name : String} {media : MediaType} (h : lookup name = some media) :
    media.name = name := by
  simpa using List.find?_some h

theorem mem_of_lookup {name : String} {media : MediaType} (h : lookup name = some media) :
    media ∈ mediaTypes :=
  List.mem_of_find?_eq_some h

/-- The one type established by its header is the one reported for unknown bytes. -/
theorem name_of_header {media : MediaType} (h : media ∈ mediaTypes) (htier : media.tier = .header) :
    media.name = unknownType := by
  have hall : ∀ m ∈ mediaTypes, m.tier = .header → m.name = unknownType := by decide
  exact hall media h htier

end Nitr.Media
