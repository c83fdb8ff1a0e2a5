import Nitr.Lib.Text
import Mathlib.Data.List.Infix

/-! # Lexical paths

`path/mod.rs`: paths of either separator style as text. A path is taken apart into a root and
its components over a form with one separator, and put together again in its own style. -/

namespace Nitr.Path

/-- A path, or a piece of one. -/
abbrev Text := List Char

/-- Whether a drive prefix leads the text, which is then two characters long. -/
def drive : Text → Bool
  | c :: ':' :: _ => c.isAlpha
  | _ => false

def isWindowsStyle (path : Text) : Bool :=
  path.contains '\\' || (!path.contains '/' && drive path)

def restyle (canonical : Text) (windows : Bool) : Text :=
  if windows then canonical.map fun c => if c = '/' then '\\' else c else canonical

/-- The path with `/` for both separators. -/
def canonical (path : Text) : Text := path.map fun c => if c = '\\' then '/' else c

/-- The length of the root: two for the mark of a UNC path, a drive with or without its
separator, or one separator. -/
def rootLen (canonical : Text) : ℕ :=
  if ['/', '/'] <+: canonical then 2
  else if drive canonical then if ['/'] <+: canonical.drop 2 then 3 else 2
  else if ['/'] <+: canonical then 1
  else 0

/-- The root and the rest, both with `/` for separators. -/
def splitRoot (path : Text) : Text × Text := (canonical path).splitAt (rootLen (canonical path))

def dot : Text := ['.']

def dotDot : Text := ['.', '.']

/-- One step of `components`: empty segments and dots after the first component are dropped. -/
def pushComponent (parts : List Text) (segment : Text) : List Text :=
  if segment = [] ∨ (segment = dot ∧ parts ≠ []) then parts else parts ++ [segment]

/-- The components of a path without its root. -/
def components (rest : Text) : List Text := (rest.splitOn '/').foldl pushComponent []

/-- Whether a root anchors the path. A bare drive does not. -/
def rootIsAnchor (root : Text) : Bool :=
  root ≠ [] && !(root.length = 2 && root.getLast? = some ':')

def isAbsolute (path : Text) : Bool := rootIsAnchor (splitRoot path).1

/-- One step of `normalize`. -/
def pushPart (anchored : Bool) (parts : List Text) (segment : Text) : List Text :=
  if segment = dot then parts
  else if segment = dotDot then
    if parts.getLast?.any (· ≠ dotDot) then parts.dropLast
    else if !anchored then parts ++ [dotDot]
    else parts
  else parts ++ [segment]

/-- What is left of the components. -/
def resolve (anchored : Bool) (segments : List Text) : List Text :=
  segments.foldl (pushPart anchored) []

/-- The root and the parts put together. A first part that looks like a drive is kept apart
from the start. -/
def assemble (root : Text) (parts : List Text) : Text :=
  let joined := ['/'].intercalate parts
  if root ≠ [] then root ++ joined
  else if joined = [] then dot
  else if (splitRoot joined).1 ≠ [] then ['.', '/'] ++ joined
  else joined

def normalize (path : Text) : Text :=
  let (root, rest) := splitRoot path
  restyle (assemble root (resolve (rootIsAnchor root) (components rest))) (isWindowsStyle path)

/-- One step of `join`: a separator at the joint, but after a bare drive. -/
def joinStep (out segment : Text) : Text :=
  if segment = [] then out
  else if out = [] then canonical segment
  else
    let bareDrive := out.length = 2 && drive out
    let out := if out.getLast? ≠ some '/' && !bareDrive then out ++ ['/'] else out
    out ++ (canonical segment).dropWhile (· = '/')

/-- Joins segments in the style of the first that is not empty. -/
def join (segments : List Text) : Text :=
  restyle (segments.foldl joinStep []) ((segments.find? (· ≠ [])).any isWindowsStyle)

end Nitr.Path
