import Nitr.Lib.FileTree
import Nitr.Lib.Text

/-! # Static files

`static_files.rs` and `safe_path.rs`: a request path is taken relative to a mount, joined
under the mount's directory and resolved in the file tree. Percent-decoding is a
parameter; what the request's conditions and range ask of a file is one too. -/

namespace Nitr.Static

open FileTree

/-- What the response takes from a file's metadata; times are nanoseconds since the epoch. -/
structure Stat where
  len : ℕ
  modified : Option ℤ
deriving DecidableEq, Repr

inductive Encoding where
  | brotli
  | gzip
deriving DecidableEq, Repr

def Encoding.extension : Encoding → List Char
  | .brotli => "br".toList
  | .gzip => "gz".toList

structure StaticMount where
  mount : List Char
  dir : Path
  spa : Bool
  cacheControl : Option (List Char)
  dotfiles : Bool
deriving DecidableEq

/-- `StaticMount::new`. -/
def StaticMount.new (mount : List Char) (dir : Path) (spa : Bool)
    (cacheControl : Option (List Char)) : StaticMount :=
  let rest := if mount.head? = some '/' then mount.tail else mount
  ⟨'/' :: rest.rdropWhile (· = '/'), dir, spa, cacheControl, false⟩

/-- The request path relative to a mount, when it applies. -/
def StaticMount.relative (m : StaticMount) (path : List Char) : Option (List Char) :=
  if m.mount = ['/'] then some (path.dropWhile (· = '/'))
  else
    match path.stripPrefix m.mount with
    | none => none
    | some [] => some []
    | some ('/' :: rest) => some rest
    | some _ => none

/-! ## The lexical rules -/

inductive Rejected where
  | traversal
  | absolute
  | nul
deriving DecidableEq, Repr

/-- `PathBuf::push` of one plain name. -/
def push (path : Path) (name : List Char) : Path :=
  { path with segments := path.segments ++ [name] }

/-- The loop of `safe_join`. A part without separators is one plain component, or `..`. -/
def joinParts (path : Path) : List (List Char) → Except Rejected Path
  | [] => .ok path
  | part :: rest =>
      if part = [] ∨ part = ['.'] then joinParts path rest
      else if part = ['.', '.'] then .error .traversal
      else joinParts (push path part) rest

def safeJoin (root : Path) (rel : List Char) : Except Rejected Path :=
  if '\x00' ∈ rel then .error .nul
  else if rel.head? = some '/' then .error .absolute
  else joinParts root (rel.splitOn '/')

def isSeparator (c : Char) : Bool := c = '/' || c = '\\'

def startsWithDot (segment : List Char) : Bool := segment.head? = some '.'

def wellKnown : List Char := ".well-known".toList

/-- Whether the path is `.well-known` or inside it, with nothing else in it hidden. -/
def isWellKnown (rel : List Char) : Bool :=
  match rel.splitOnP isSeparator with
  | [] => false
  | first :: rest => first = wellKnown && rest.all fun s => !startsWithDot s

def refusedAsDotfile (m : StaticMount) (rel : List Char) : Bool :=
  let relPath := rel.dropWhile (· = '/')
  let hidden := (relPath.splitOnP isSeparator).any fun s => s != ['.'] && startsWithDot s
  hidden && !m.dotfiles && !isWellKnown relPath

/-! ## Resolution -/

section Locate

variable (fs : FileSystem Stat)

/-- The regular file at a path, or at its `index.html` if it is a directory. -/
def regularAt (path : Path) : Option (Path × Stat) :=
  match fs.metadata path with
  | some (.dir _) =>
      match fs.metadata (push path "index.html".toList) with
      | some (.file stat) => some (push path "index.html".toList, stat)
      | _ => none
  | some (.file stat) => some (path, stat)
  | _ => none

/-- A regular file inside the directory: its canonical path and its metadata. -/
def locate (dir : Path) (rel : List Char) : Option (List (List Char) × Stat) :=
  match safeJoin dir (rel.dropWhile (· = '/')) with
  | .error _ => none
  | .ok path => do
      let (path, stat) ← regularAt fs path
      let canonical ← fs.canonicalize path
      let root ← fs.canonicalize dir
      if root <+: canonical then some (canonical, stat) else none

/-- `locate` under a mount's dotfile policy. -/
def locateIn (m : StaticMount) (rel : List Char) : Option (List (List Char) × Stat) :=
  if refusedAsDotfile m rel then none else locate fs m.dir rel

/-- The text of a canonical path with an extension added. -/
def sidecarPath (file : List (List Char)) (extension : List Char) : List (List Char) :=
  match file.getLast? with
  | none => ['.' :: extension]
  | some name => file.dropLast ++ [name ++ '.' :: extension]

/-- The precompressed sidecar of a file, when it is there. -/
def sidecarFor (file : List (List Char)) (encoding : Encoding) :
    Option (List (List Char) × Stat × Encoding) :=
  let sidecar := sidecarPath file encoding.extension
  match fs.metadata ⟨true, sidecar⟩ with
  | some (.file stat) => some (sidecar, stat, encoding)
  | _ => none

structure Located where
  file : List (List Char)
  sidecar : Option (List (List Char) × Encoding)
  stat : Stat
deriving DecidableEq

def locateFor (m : StaticMount) (rel : List Char) (encoding : Option Encoding)
    (spaFallback : Bool) : Option Located := do
  let (file, stat) ←
    match locateIn fs m rel with
    | some found => some found
    | none => if m.spa && spaFallback then locate fs m.dir "index.html".toList else none
  match encoding.bind (sidecarFor fs file) with
  | some (sidecar, stat, encoding) => some ⟨file, some (sidecar, encoding), stat⟩
  | none => some ⟨file, none, stat⟩

end Locate

/-! ## Serving -/

inductive Method where
  | get
  | head
  | other
deriving DecidableEq, Repr

/-- What the request's conditions and range ask of a representation. -/
inductive Asked where
  | notModified
  | unsatisfiable
  | span (start count : ℕ)

/-- The path bytes are read from. -/
def Located.source (located : Located) : List (List Char) :=
  match located.sidecar with
  | some (sidecar, _) => sidecar
  | none => located.file

structure Response where
  mount : StaticMount
  located : Located
  /-- The path opened for the body, with the span read. -/
  body : Option (List (List Char) × ℕ × ℕ)
deriving DecidableEq

/-- `serve_file`: only a `GET` whose span is asked for reads the file. -/
def serveFile (method : Method) (asked : Stat → Asked) (m : StaticMount) (located : Located) :
    Response :=
  match asked located.stat, method with
  | .span start count, .get => ⟨m, located, some (located.source, start, count)⟩
  | _, _ => ⟨m, located, none⟩

/-- The first mount that has the file. -/
def serveFirst (fs : FileSystem Stat) (method : Method) (decoded : List Char)
    (encoding : Option Encoding) (spaFallback : Bool) (asked : Stat → Asked) :
    List StaticMount → Option Response
  | [] => none
  | m :: rest =>
      match (m.relative decoded).bind fun rel => locateFor fs m rel encoding spaFallback with
      | some located => some (serveFile method asked m located)
      | none => serveFirst fs method decoded encoding spaFallback asked rest

def tryServe (fs : FileSystem Stat) (decode : List Char → Option (List Char))
    (mounts : List StaticMount) (method : Method) (path : List Char) (encoding : Option Encoding)
    (spaFallback : Bool) (asked : Stat → Asked) : Option Response :=
  if mounts.isEmpty || method = .other then none
  else
    match decode path with
    | none => none
    | some decoded => serveFirst fs method decoded encoding spaFallback asked mounts

end Nitr.Static
