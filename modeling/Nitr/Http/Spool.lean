import Nitr.Http.Upload
import Nitr.Media.Dimensions
import Nitr.Validate.Value

/-! # Spooling an upload

`validation/spool.rs` and the `FileInfo` of `validate/file.rs`: chunks are written to a
temporary file, counted, sniffed and checked for UTF-8 as they arrive. -/

namespace Nitr.Spool

open Nitr.Media

/-! ## UTF-8 across chunks -/

structure Utf8Tracker where
  valid : Bool
  /-- The start of a sequence that the chunks so far do not end. -/
  carry : List UInt8
deriving DecidableEq, Repr

namespace Utf8Tracker

def new : Utf8Tracker := ⟨true, []⟩

def push (t : Utf8Tracker) (chunk : List UInt8) : Utf8Tracker :=
  if t.valid then
    let buf := t.carry ++ chunk
    match Utf8.fromUtf8 buf with
    | .ok () => ⟨true, []⟩
    | .error ⟨validUpTo, none⟩ => ⟨true, buf.drop validUpTo⟩
    | .error ⟨_, some _⟩ => ⟨false, []⟩
  else t

def finish (t : Utf8Tracker) : Bool := t.valid && t.carry.isEmpty

end Utf8Tracker

/-! ## What an upload is described by -/

structure FileInfo where
  filename : Option String
  safeFilename : Option String
  extension : Option String
  declaredType : Option String
  detected : Detection
  textSubtypeOk : Bool
  size : ℕ
  cap : ℕ
  width : Option ℕ
  height : Option ℕ
  utf8 : Option Bool
deriving DecidableEq, Repr

namespace FileInfo

/-- The declared type where the table establishes it by the given tier. -/
def declaredIn (tier : Tier) (declared : Option String) : Option String :=
  declared.filter fun d => (lookup d).any fun m => m.tier = tier

/-- The media type this file is treated as. -/
def effectiveType (info : FileInfo) : String :=
  match info.detected with
  | .detected media => media.name
  | .executable => executableType
  | .text =>
      match declaredIn .text info.declaredType with
      | some declared => if info.textSubtypeOk then declared else "text/plain"
      | none => "text/plain"
  | .unknown => (declaredIn .header info.declaredType).getD unknownType

/-- Whether the file is an executable by bytes or by extension. -/
def isExecutable (info : FileInfo) : Bool :=
  info.detected = .executable || info.extension.any executableExtension

/-- What a `file` rule reads of it. -/
def read (info : FileInfo) : Validate.FileInfo where
  size := info.size
  cap := info.cap
  effectiveType := info.effectiveType
  isExecutable := info.isExecutable
  safeFilename := info.safeFilename
  extension := info.extension
  width := info.width
  height := info.height
  utf8 := info.utf8

end FileInfo

/-! ## The spooler -/

/-- What a file system stores of a chunk appended to a file. A file ends below the largest
signed 64-bit offset. -/
structure Disk where
  stores : List UInt8 → List UInt8 → ℕ
  bounded : ∀ file chunk : List UInt8, file.length < 2 ^ 63 →
    (file ++ chunk.take (stores file chunk)).length < 2 ^ 63

/-- `u64::saturating_add`. -/
def saturatingAdd (a b : ℕ) : ℕ := min (a + b) (2 ^ 64 - 1)

structure Spooler where
  file : List UInt8
  cap : ℕ
  size : ℕ
  head : List UInt8
  utf8 : Utf8Tracker
deriving DecidableEq, Repr

namespace Spooler

def create (cap : ℕ) : Spooler := ⟨[], cap, 0, [], .new⟩

/-- The counters and the sniffed bytes after a chunk. -/
def observe (s : Spooler) (chunk : List UInt8) : Spooler :=
  { s with
    head := if s.head.length < sniffBytes then
      s.head ++ chunk.take (min (sniffBytes - s.head.length) chunk.length) else s.head
    utf8 := s.utf8.push chunk
    size := saturatingAdd s.size chunk.length }

/-- One chunk; an error leaves what the failed write stored. -/
def push (disk : Disk) (s : Spooler) (chunk : List UInt8) : Except Spooler Spooler :=
  let next := s.observe chunk
  if next.size ≤ next.cap then
    let stored := { next with file := s.file ++ chunk.take (disk.stores s.file chunk) }
    if chunk.length ≤ disk.stores s.file chunk then .ok stored else .error stored
  else .ok next

def pushAll (disk : Disk) (s : Spooler) : List (List UInt8) → Except Spooler Spooler
  | [] => .ok s
  | chunk :: rest =>
      match s.push disk chunk with
      | .ok next => next.pushAll disk rest
      | .error torn => .error torn

/-- The lowercase last suffix of a name. -/
def extension (name : String) : Option String :=
  match name.toList.rsplitOnce '.' with
  | some (_, ext) => if ext = [] then none else some (.ofList (ext.map Char.toLower))
  | none => none

/-- Width and height where the detected type has them. -/
def measured (detected : Detection) (head : List UInt8) : Option (ℕ × ℕ) :=
  match detected with
  | .detected media => if media.hasDimensions then dimensions media head else none
  | _ => none

/-- Describes what arrived. -/
def finish (s : Spooler) (filename declaredType : Option String) : FileInfo :=
  let detected := detect s.head
  let safe := filename.map fun name => String.ofList (Upload.safeFilename name.toList)
  { filename := filename
    safeFilename := safe
    extension := safe.bind extension
    declaredType := declaredType
    detected := detected
    textSubtypeOk := declaredType.any fun d => textSubtypeMatches d s.head
    size := s.size
    cap := s.cap
    width := (measured detected s.head).map (·.1)
    height := (measured detected s.head).map (·.2)
    utf8 := some s.utf8.finish }

end Spooler

end Nitr.Spool
