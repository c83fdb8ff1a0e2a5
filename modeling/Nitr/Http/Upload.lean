import Nitr.Http.Confinement

/-! # Where an upload may land

`multipart/upload.rs`: the containment rule for `part:save` paths and the client-filename
sanitizer. Paths are Unix paths. -/

namespace Nitr.Upload

open FileTree Nitr.Static

/-! ## The path of a save -/

inductive SaveError where
  | rejected (why : Rejected)
  | rootItself
  | notAName
  | rootUnresolved (cause : String)
  | parentUnresolved (cause : String)
  | outside
  | symlink
  | notRegular
  | uninspected (cause : String)
deriving DecidableEq, Repr

def rejectedDetail : Rejected → String
  | .traversal => "it climbs out of the upload directory"
  | .absolute => "it is an absolute path, and paths are relative to the upload directory"
  | .nul => "it contains a NUL byte"

def SaveError.message (root rel : String) : SaveError → String
  | .rejected why =>
      "part:save() refused `" ++ rel ++ "`: " ++ rejectedDetail why ++ " (" ++ root ++ ")"
  | .rootItself =>
      "part:save() refused `" ++ rel ++
        "`: it names the upload directory itself, not a file inside it"
  | .notAName => "part:save() refused `" ++ rel ++ "`: it is not a file name"
  | .rootUnresolved cause =>
      "part:save() cannot resolve the upload directory " ++ root ++ ": " ++ cause
  | .parentUnresolved cause =>
      "part:save() cannot write `" ++ rel ++ "`: its directory is not usable: " ++ cause
  | .outside =>
      "part:save() refused `" ++ rel ++
        "`: its directory resolves outside the upload directory " ++ root
  | .symlink =>
      "part:save() refused `" ++ rel ++
        "`: it is a symlink, and following one would write through the upload directory"
  | .notRegular =>
      "part:save() refused `" ++ rel ++ "`: it already exists and is not a regular file"
  | .uninspected cause => "part:save() cannot inspect `" ++ rel ++ "`: " ++ cause

section Resolve

variable {α : Type} (fs : FileSystem α)
  -- What the system refuses for a reason outside the tree: permissions, a name too long.
  (refuses : Path → Option String)

def resolve (path : Path) : Except String (List (List Char)) :=
  match refuses path, fs.canonicalize path with
  | some cause, _ => .error cause
  | none, none => .error "No such file or directory"
  | none, some names => .ok names

/-- The last check: nothing or a regular file under the name, no link. -/
def inspect (place : List (List Char)) (name : List Char) :
    Except SaveError (List (List Char)) :=
  match refuses ⟨true, place ++ [name]⟩, fs.symlinkMetadata place name with
  | some cause, _ => .error (.uninspected cause)
  | none, .ok (.link _) => .error .symlink
  | none, .ok (.file _) => .ok (place ++ [name])
  | none, .ok _ => .error .notRegular
  | none, .error .notFound => .ok (place ++ [name])
  | none, .error .notADirectory => .error (.uninspected "Not a directory")

def resolveUploadPath (root : Path) (rel : List Char) : Except SaveError (List (List Char)) :=
  match safeJoin root rel with
  | .error why => .error (.rejected why)
  | .ok joined =>
      if joined = root then .error .rootItself
      else
        match joined.parent, joined.fileName with
        | some parent, some name =>
            match resolve fs refuses root with
            | .error cause => .error (.rootUnresolved cause)
            | .ok canonicalRoot =>
                -- The file need not exist yet, so its parent is what is canonicalized.
                match resolve fs refuses parent with
                | .error cause => .error (.parentUnresolved cause)
                | .ok canonicalParent =>
                    if canonicalRoot <+: canonicalParent then
                      inspect fs refuses canonicalParent name
                    else .error .outside
        | _, _ => .error .notAName

end Resolve

/-! ## The name of a file -/

/-- The longest a single path component may be. -/
def nameMax : ℕ := 255

/-- The name when nothing survives. -/
def fallbackName : List Char := "upload".toList

/-- A character that renders as nothing or reorders what follows it. -/
def isInvisible (c : Char) : Bool :=
  Unicode.isControl c || (0x200B ≤ c.toNat && c.toNat ≤ 0x200F) ||
    (0x2028 ≤ c.toNat && c.toNat ≤ 0x202E) || (0x2060 ≤ c.toNat && c.toNat ≤ 0x2064) ||
    (0x2066 ≤ c.toNat && c.toNat ≤ 0x2069) || c.toNat = 0xFEFF

def byteLen : List Char → ℕ
  | [] => 0
  | c :: rest => c.utf8Size + byteLen rest

/-- Where the extension of an overlong name starts: the first of the dots whose suffix is
at most 16 bytes and a dot. -/
def extAt (name : List Char) : Option ℕ :=
  let dots := ((List.range name.length).filter fun i => name[i]? = some '.').reverse
  ((dots.takeWhile fun i => byteLen (name.drop i) ≤ 17).filter fun i => 0 < i).getLast?

/-- The characters that fit in so many bytes. -/
def fit (budget : ℕ) : List Char → List Char
  | [] => []
  | c :: rest => if c.utf8Size ≤ budget then c :: fit (budget - c.utf8Size) rest else []

/-- The stem and the extension; only an overlong name is split. -/
def stemAndExt (name : List Char) : List Char × List Char :=
  match extAt name with
  | some i => if nameMax < byteLen name then (name.take i, name.drop i) else (name, [])
  | none => (name, [])

/-- The last segment, without what is not seen and without dots and spaces around it. -/
def trimmedName (raw : List Char) : List Char :=
  let last := raw.rtakeWhile fun c => !isSeparator c
  (last.filter fun c => !isInvisible c).trimBy fun c => c = '.' || Unicode.isWhitespace c

def safeFilename (raw : List Char) : List Char :=
  let (stem, ext) := stemAndExt (trimmedName raw)
  let out := fit (nameMax - byteLen ext) stem ++ ext
  if out = [] ∨ out = ['.'] ∨ out = ['.', '.'] then fallbackName else out

end Nitr.Upload
