import Nitr.Lib.Text

/-! # Route paths

The three translators of the route syntax: `to_matchit` of `app/compile.rs` for the
router, `param_names` of `validation/mod.rs` and `to_openapi_path` of `openapi/mod.rs`.
Then the pattern language the router documents. -/

namespace Nitr.Route

abbrev Segment := List Char

/-- `path.split('/')`. -/
def split (path : List Char) : List Segment := path.splitOn '/'

/-- `join("/")`. -/
def join (segments : List Segment) : List Char := List.intercalate ['/'] segments

inductive RouteError where
  | invalidSegment (seg : Segment) (path : List Char)
  | namedTwice (path : List Char) (name : Segment)
deriving DecidableEq, Repr

/-- `s.starts_with(c)`. -/
def startsWith (c : Char) (seg : Segment) : Bool := seg.head? == some c

/-! ## The router's pattern -/

/-- One segment in the router's syntax; `isLast` is `i == last`. -/
def toMatchitSegment (path : List Char) (seg : Segment) (isLast : Bool) :
    Except RouteError Segment :=
  if seg = ['*'] ∧ isLast = true then .ok (['{', '*'] ++ ['s', 'p', 'l', 'a', 't'] ++ ['}'])
  else if startsWith ':' seg ∧ seg.length > 1 then .ok (['{'] ++ seg.tail ++ ['}'])
  else if startsWith '*' seg ∧ seg.length > 1 ∧ isLast = true then
    .ok (['{', '*'] ++ seg.tail ++ ['}'])
  else if startsWith ':' seg ∨ startsWith '*' seg then .error (.invalidSegment seg path)
  else .ok seg

def toMatchitLoop (path : List Char) : List Segment → Except RouteError (List Segment)
  | [] => .ok []
  | seg :: rest => do
      let out ← toMatchitSegment path seg rest.isEmpty
      let outs ← toMatchitLoop path rest
      return out :: outs

def toMatchit (path : List Char) : Except RouteError (List Char) := do
  let out ← toMatchitLoop path (split path)
  return join out

/-! ## The names input validation knows -/

def paramName (seg : Segment) (isLast : Bool) : Option Segment :=
  if seg = ['*'] ∧ isLast = true then some ['s', 'p', 'l', 'a', 't']
  else if startsWith ':' seg ∧ seg.length > 1 then some seg.tail
  else if startsWith '*' seg ∧ seg.length > 1 ∧ isLast = true then some seg.tail
  else none

def paramNamesLoop : List Segment → List Segment
  | [] => []
  | seg :: rest => (paramName seg rest.isEmpty).toList ++ paramNamesLoop rest

/-- The parameter names a route pattern captures. -/
def paramNames (path : List Char) : List Segment := paramNamesLoop (split path)

/-! ## The OpenAPI template -/

/-- A parameter a route pattern declares. -/
structure PathParam where
  name : Segment
  catchAll : Bool
deriving DecidableEq, Repr

def openapiParam (seg : Segment) (isLast : Bool) : Option PathParam :=
  if seg = ['*'] ∧ isLast = true then some ⟨['s', 'p', 'l', 'a', 't'], true⟩
  else if startsWith ':' seg ∧ seg.length > 1 then some ⟨seg.tail, false⟩
  else if startsWith '*' seg ∧ seg.length > 1 ∧ isLast = true then some ⟨seg.tail, true⟩
  else none

def toOpenapiLoop (path : List Char) :
    List Segment → List Segment → List PathParam → Except RouteError (List Segment × List PathParam)
  | [], out, params => .ok (out, params)
  | seg :: rest, out, params =>
      match openapiParam seg rest.isEmpty with
      | none => toOpenapiLoop path rest (out ++ [seg]) params
      | some param =>
          if params.any (·.name = param.name) then .error (.namedTwice path param.name)
          else toOpenapiLoop path rest (out ++ [['{'] ++ param.name ++ ['}']]) (params ++ [param])

/-- The path template and its parameters. A name used twice is refused. -/
def toOpenapiPath (path : List Char) : Except RouteError (List Char × List PathParam) := do
  let (out, params) ← toOpenapiLoop path (split path) [] []
  return (join out, params)

/-! ## The router's pattern language

As `matchit` documents it: `{name}` is one parameter of a segment, possibly between
literal texts, `{*name}` a catch-all at the end, and a doubled brace a literal one. -/

inductive Token where
  | plain (c : Char)
  | left
  | right
deriving DecidableEq, Repr

def tokens : List Char → List Token
  | '{' :: '{' :: rest => .plain '{' :: tokens rest
  | '}' :: '}' :: rest => .plain '}' :: tokens rest
  | '{' :: rest => .left :: tokens rest
  | '}' :: rest => .right :: tokens rest
  | c :: rest => .plain c :: tokens rest
  | [] => []

/-- What one segment of a pattern stands for. -/
inductive Piece where
  | literal (text : Segment)
  | param (before name after : Segment)
  | catchAll (name : Segment)
deriving DecidableEq, Repr

/-- A name of a parameter: not empty, without braces and stars. -/
def validName (name : Segment) : Bool :=
  !name.isEmpty && name.all fun c => c != '{' && c != '}' && c != '*'

/-- The literal characters in front. -/
def plainRun : List Token → Segment × List Token
  | .plain c :: rest => (c :: (plainRun rest).1, (plainRun rest).2)
  | ts => ([], ts)

def namedPiece (isLast : Bool) (before name after : Segment) : Option Piece :=
  match name with
  | '*' :: rest =>
      if isLast ∧ before = [] ∧ after = [] ∧ validName rest then some (.catchAll rest) else none
  | name => if validName name then some (.param before name after) else none

def parseSegment (seg : Segment) (isLast : Bool) : Option Piece :=
  match plainRun (tokens seg) with
  | (text, []) => some (.literal text)
  | (before, .left :: rest) =>
      match plainRun rest with
      | (name, .right :: rest) =>
          match plainRun rest with
          | (after, []) => namedPiece isLast before name after
          | _ => none
      | _ => none
  | _ => none

def parseLoop : List Segment → Option (List Piece)
  | [] => some []
  | seg :: rest => do
      let piece ← parseSegment seg rest.isEmpty
      let pieces ← parseLoop rest
      return piece :: pieces

/-- The pieces of a pattern of the documented language. -/
def parsePattern (pattern : List Char) : Option (List Piece) := parseLoop (split pattern)

/-- Whether a piece matches one segment of a request path. -/
def Piece.Fits : Piece → Segment → Prop
  | .literal text, seg => seg = text
  | .param before _ after, seg => ∃ value, value ≠ [] ∧ seg = before ++ value ++ after
  | .catchAll _, seg => seg ≠ []

/-- Whether the pieces match the segments of a request path. -/
def PiecesMatch : List Piece → List Segment → Prop
  | [], request => request = []
  | [.catchAll _], request => join request ≠ []
  | _ :: _, [] => False
  | piece :: pieces, seg :: request => piece.Fits seg ∧ PiecesMatch pieces request

def Piece.name : Piece → Option Segment
  | .literal _ => none
  | .param _ name _ => some name
  | .catchAll name => some name

/-- The names captured by a match. -/
def capturedNames (pieces : List Piece) : List Segment := pieces.filterMap Piece.name

/-- The router package: whether a pattern may be inserted, and whether a router that
holds it alone matches a path, with the names it captures. -/
structure Matchit where
  insert : List Char → Bool
  matchAt : List Char → List Char → Option (List Segment)

/-- The documented meaning of an inserted pattern. -/
structure Matchit.Documented (m : Matchit) : Prop where
  isSome_matchAt : ∀ {pattern pieces}, m.insert pattern = true →
    parsePattern pattern = some pieces →
    ∀ path, (m.matchAt pattern path).isSome = true ↔ PiecesMatch pieces (split path)
  names_matchAt : ∀ {pattern pieces}, m.insert pattern = true →
    parsePattern pattern = some pieces →
    ∀ path names, m.matchAt pattern path = some names → names = capturedNames pieces

/-! ## What a route path means -/

/-- Whether a segment of a route path matches one of a request path. -/
def SegmentFits (seg request : Segment) : Prop :=
  if startsWith ':' seg then request ≠ [] else request = seg

/-- Whether a route path matches a request path, segment by segment. -/
def RouteMatches : List Segment → List Segment → Prop
  | [], request => request = []
  | seg :: rest, request =>
      if startsWith '*' seg ∧ rest = [] then join request ≠ []
      else
        match request with
        | [] => False
        | first :: request => SegmentFits seg first ∧ RouteMatches rest request

/-- The router's pattern, the names validation knows and the document's parameters all
say what the route path says. -/
def Agrees (m : Matchit) (path pattern : List Char) (params : List PathParam) : Prop :=
  (∀ request, (m.matchAt pattern request).isSome = true ↔
    RouteMatches (split path) (split request)) ∧
  ∀ request names, m.matchAt pattern request = some names →
    names = paramNames path ∧ names = params.map (·.name)

/-- A path without braces, whose parameters' names have no star. -/
def Plain (path : List Char) : Prop :=
  ∀ seg ∈ split path, '{' ∉ seg ∧ '}' ∉ seg ∧
    ((startsWith ':' seg = true ∨ startsWith '*' seg = true) → '*' ∉ seg.tail)

end Nitr.Route
