import Nitr.Http.Budget
import Nitr.Http.CompressionPolicy
import Nitr.Http.Confinement
import Nitr.Http.Range

/-! # Responses from the mounts

`serve_file` and `try_serve` of `static_files.rs` with the headers of their responses, and the part
of `handle_inner` in `handler/mod.rs` that answers before a Lua state is checked out. The document,
the routes' own chains, percent-decoding, the tables of content types, the `httpdate` package
and the bytes behind a path are parameters. -/

namespace Nitr.Mounts

open FileTree (FileSystem)
open Nitr.Budget (Router lookup)
open Nitr.Http (Compression Headers Method Protection Request Response Served Text fromStr insertSome
  rejection toStr wantsJson)
open Nitr.Static (Located Stat StaticMount answering locateFor withSidecar)

/-- A coding as the sidecar lookup names it. -/
def sidecarEncoding : Http.Encoding → Static.Encoding
  | .brotli => .brotli
  | .gzip => .gzip

def encodingToken : Static.Encoding → Text
  | .brotli => Http.Encoding.brotli.token
  | .gzip => Http.Encoding.gzip.token

/-- The coding a sidecar is looked for in. -/
def encodingOf (compression : Compression) (headers : Headers) : Option Static.Encoding :=
  (compression.negotiate (headers.get "accept-encoding")).map sidecarEncoding

/-- What serving reads besides the request. -/
structure Files where
  fs : FileSystem Stat
  /-- The bytes behind an absolute path, if it can be opened and read. -/
  contents : List (List Char) → Option Text
  decode : Text → Option Text
  mimeOf : List (List Char) → Text
  /-- The date of a time; the package panics outside its years. -/
  fmtHttpDate : ℤ → Option Text
  parseHttpDate : Text → Option ℕ

/-- How serving a file fails. -/
inductive Failure where
  | open (path : List (List Char))

/-- Files up to this size are served in one piece instead of streamed. -/
def inlineLimit : ℕ := 256 * 1024

def etagFor (len : ℕ) (modified : Option ℤ) : Text :=
  ['"'] ++ Nat.toDigits 16 len ++ ['-'] ++ Nat.toDigits 16 ((modified.map Range.secs).getD 0) ++ ['"']

/-- The headers `is_fresh` reads. -/
def conditions (headers : Headers) : Http.HeaderMap where
  ifNoneMatch := headers.getAll "if-none-match"
  ifModifiedSince := headers.getAll "if-modified-since"

def plainResponse (status : ℕ) (text : Text) : Response where
  status
  headers := MultiMap.empty.append "content-type" "text/plain; charset=utf-8".toList
  body := some text

namespace Files

variable (files : Files)

/-- The `Last-Modified` of a file; none where formatting it panics. -/
def lastModified (modified : Option ℤ) : Option (Option Text) :=
  match modified with
  | none => some none
  | some modified => (files.fmtHttpDate modified).map some

/-- The headers every response for a file starts from. -/
def fileHeaders (m : StaticMount) (located : Located) (date : Option Text) : Headers :=
  let headers := MultiMap.empty.append "content-type" (files.mimeOf located.file)
  let headers := headers.append "etag" (etagFor located.stat.len located.stat.modified)
  let headers :=
    match date with
    | some date => headers.append "last-modified" date
    | none => headers
  let headers :=
    match m.cacheControl.bind fromStr with
    | some value => headers.append "cache-control" value
    | none => headers
  let headers := headers.append "vary" "accept-encoding".toList
  match located.sidecar with
  | some (_, encoding) => headers.append "content-encoding" (encodingToken encoding)
  | none => headers

/-- Whether the client's copy of a located file is current. -/
def fresh (headers : Headers) (located : Located) : Bool :=
  Http.isFresh (fun text => (files.parseHttpDate text).map Int.ofNat) (conditions headers)
    (some (etagFor located.stat.len located.stat.modified))
    (located.stat.modified.map fun modified => (Range.secs modified : ℤ))

/-- `count` bytes from `start`. -/
def readSpan (path : List (List Char)) (start count : ℕ) : Option Text :=
  (files.contents path).map fun data => (data.drop start).take count

/-- The body of a `GET`: read in one piece, or streamed. -/
def fileBody (status : ℕ) (headers : Headers) (path : List (List Char)) (start count : ℕ) :
    Served Failure :=
  if count ≤ inlineLimit then
    match files.readSpan path start count with
    | some data => .returned (.ok ⟨status, headers, some data⟩)
    | none => .returned (.ok (plainResponse 404 "Not Found".toList))
  else
    match files.contents path with
    | some _ => .returned (.ok ⟨status, headers, none⟩)
    | none => .returned (.error (.open path))

/-- The answer with a span of a file. -/
def serveSpan (req : Request) (located : Located) (headers : Headers) (status : ℕ)
    (span : ℕ × ℕ) : Served Failure :=
  let headers := headers.append "content-length" (Nat.repr span.2).toList
  if req.method = .head then .returned (.ok ⟨status, headers, some []⟩)
  else files.fileBody status headers located.source span.1 span.2

/-- Serves one located file. -/
def serveFile (req : Request) (m : StaticMount) (located : Located) : Served Failure :=
  let len := located.stat.len
  match files.lastModified located.stat.modified with
  | none => .panicked
  | some date =>
      let headers := files.fileHeaders m located date
      if files.fresh req.headers located then .returned (.ok ⟨304, headers, some []⟩)
      else
        let headers := headers.append "accept-ranges" "bytes".toList
        let resolved := Range.resolve files.parseHttpDate req.headers len
          (etagFor len located.stat.modified) located.stat.modified
        match resolved with
        | .unsatisfiable =>
            .returned (.ok ⟨416, headers.append "content-range"
              ("bytes */".toList ++ (Nat.repr len).toList), some []⟩)
        | .part start last =>
            files.serveSpan req located (headers.append "content-range"
              ("bytes ".toList ++ (Nat.repr start).toList ++ ['-'] ++ (Nat.repr last).toList ++
                ['/'] ++ (Nat.repr len).toList)) 206 (Range.servedSpan resolved len)
        | .full => files.serveSpan req located headers 200 (Range.servedSpan resolved len)

/-- The answer of the first mount that has the file. -/
def serveFirst (req : Request) (decoded : Text) (encoding : Option Static.Encoding)
    (spaFallback : Bool) : List StaticMount → Option (Served Failure)
  | [] => none
  | m :: rest =>
      match (m.relative decoded).bind fun rel => locateFor files.fs m rel encoding spaFallback with
      | some located => some (files.serveFile req m located)
      | none => serveFirst req decoded encoding spaFallback rest

/-- Tries to answer from the mounts. -/
def tryServe (mounts : List StaticMount) (req : Request) (compression : Compression)
    (spaFallback : Bool) : Option (Served Failure) :=
  if mounts.isEmpty || (req.method ≠ .get && req.method ≠ .head) then none
  else
    match files.decode req.path with
    | none => none
    | some decoded =>
        files.serveFirst req decoded (encodingOf compression req.headers) spaFallback mounts

end Files

/-! ## Routing -/

/-- The name of a method. -/
def methodName : Method → Text
  | .get => "GET".toList
  | .head => "HEAD".toList
  | .options => "OPTIONS".toList
  | .other name => name

/-- The `Allow` value for the methods of a path. -/
def allowHeader (methods : List Method) : Text :=
  let names := methods.map methodName
  let names :=
    if names.contains "GET".toList && !names.contains "HEAD".toList then names ++ ["HEAD".toList]
    else names
  let names := if names.contains "OPTIONS".toList then names else names ++ ["OPTIONS".toList]
  Http.joinHeader (names.mergeSort fun a b => String.ofList a ≤ String.ofList b)

def notFound (json : Bool) : Response := rejection 404 "NOT_FOUND" none json

def methodNotAllowed (allowed : List Method) (json : Bool) : Response :=
  let resp := rejection 405 "METHOD_NOT_ALLOWED" none json
  { resp with headers := resp.headers.insert "allow" (allowHeader allowed) }

def optionsResponse (allowed : List Method) : Response :=
  let resp := Http.emptyResponse 204
  { resp with headers := resp.headers.insert "allow" (allowHeader allowed) }

def acceptsHtml (headers : Headers) : Bool :=
  match (headers.get "accept").bind toStr with
  | some accept => decide ("text/html".toList <:+: accept)
  | none => false

/-- What answers a request: the OpenAPI document, the routes with their chains, and the mounts. -/
structure Site where
  docs : Request → Option Response
  router : Router
  chain : Request → Served Failure
  mounts : List StaticMount

/-- The stages after the checks and the preflight. -/
def Site.answer (site : Site) (files : Files) (compression : Compression) (req : Request) :
    Served Failure :=
  let json := wantsJson req.headers
  match site.docs req with
  | some resp => .returned (.ok resp)
  | none =>
      match lookup site.router req.method req.path with
      | .route _ _ => site.chain req
      | .options allowed => .returned (.ok (optionsResponse allowed))
      | .methodNotAllowed allowed =>
          (files.tryServe site.mounts req compression false).getD
            (.returned (.ok (methodNotAllowed allowed json)))
      | .notFound =>
          (files.tryServe site.mounts req compression (acceptsHtml req.headers)).getD
            (.returned (.ok (notFound json)))

end Nitr.Mounts
