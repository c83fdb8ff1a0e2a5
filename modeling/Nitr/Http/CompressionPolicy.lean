import Nitr.Http.AcceptEncoding
import Nitr.Http.Handle

/-! # The compression policy

The compiled `[compression]` section and `should_compress` of `compress.rs`. Content types are
visible text, so their bytes are their characters. -/

namespace Nitr.Compress

open Nitr.Http (Compression Encoding Headers Response Text eqIgnoreAsciiCase parseU64
  toAsciiLowercase toStr trim)

/-- The `[compression]` section. -/
structure CompressionConfig where
  enabled : Bool
  minSize : ℕ
  types : List Text
  algorithms : List Text

def fromToken (token : Text) : Option Encoding :=
  if token = "br".toList then some .brotli
  else if token = "gzip".toList then some .gzip
  else none

/-- Content types that are already compressed. -/
def incompressible : List Text :=
  ["image/", "video/", "audio/", "font/woff", "application/zip", "application/gzip",
    "application/x-brotli", "application/wasm"].map String.toList

/-- The statuses whose responses are left alone. -/
def keepsBody (status : ℕ) : Bool :=
  status = 204 || status = 304 || status = 206 || (100 ≤ status && status < 200)

def noTransform (headers : Headers) : Bool :=
  ((headers.getAll "cache-control").filterMap toStr).any fun value =>
    (value.splitOn ',').any fun directive => eqIgnoreAsciiCase (trim directive) "no-transform".toList

/-- The length the headers declare. -/
def declared (headers : Headers) : Option ℕ :=
  ((headers.get "content-length").bind toStr).bind parseU64

/-- The length a response is known to have; the declared one is asked first. -/
def knownLength (resp : Response) : Option ℕ :=
  (declared resp.headers).or (resp.body.map List.length)

/-- The content type without its parameters. -/
def contentType (headers : Headers) : Text :=
  trim (((((headers.get "content-type").bind toStr).getD []).splitOn ';').headD [])

def startsWithIgnoreAsciiCase (haystack pre : Text) : Bool :=
  eqIgnoreAsciiCase (haystack.take pre.length) pre

/-- A type named in full is compressed whatever family it is in. -/
def typeCompresses (types : List Text) (contentType : Text) : Bool :=
  if contentType.isEmpty then false
  else if types.any fun pattern =>
      pattern.getLast? ≠ some '*' && eqIgnoreAsciiCase pattern contentType then true
  else if incompressible.any (startsWithIgnoreAsciiCase contentType) then false
  else types.any fun pattern =>
    (pattern.stripSuffix ['*']).any (startsWithIgnoreAsciiCase contentType)

def shouldCompress (minSize : ℕ) (types : List Text) (resp : Response) : Bool :=
  if keepsBody resp.status then false
  else if resp.headers.getAll "content-encoding" ≠ [] then false
  else if noTransform resp.headers then false
  else if (knownLength resp).any (decide <| · < minSize) then false
  else typeCompresses types (contentType resp.headers)

/-- `Compression::new`. -/
def compression (cfg : CompressionConfig) : Compression where
  negotiates := cfg.enabled
  negotiate := Accept.negotiate (cfg.algorithms.filterMap fromToken)
  shouldCompress := shouldCompress cfg.minSize (cfg.types.map toAsciiLowercase)

/-! ## What the decision reads -/

section

variable {skipped : String} {headers headers' : Headers}

theorem noTransform_congr (h : headers.AgreeOff skipped headers')
    (hskipped : "cache-control" ≠ skipped) : noTransform headers = noTransform headers' := by
  rw [noTransform, noTransform, h _ hskipped]

theorem declared_congr (h : headers.AgreeOff skipped headers')
    (hskipped : "content-length" ≠ skipped) : declared headers = declared headers' := by
  rw [declared, declared, h.get hskipped]

theorem contentType_congr (h : headers.AgreeOff skipped headers')
    (hskipped : "content-type" ≠ skipped) : contentType headers = contentType headers' := by
  rw [contentType, contentType, h.get hskipped]

end

/-- The decision reads no request id, and of the body only the length. -/
theorem shouldCompress_congr {minSize : ℕ} {types : List Text} {resp resp' : Response}
    (hstatus : resp.status = resp'.status)
    (hheaders : resp.headers.AgreeOff "x-request-id" resp'.headers)
    (hlength : knownLength resp = knownLength resp') :
    shouldCompress minSize types resp = shouldCompress minSize types resp' := by
  unfold shouldCompress
  rw [hstatus, hlength, hheaders "content-encoding" (by decide),
    noTransform_congr hheaders (by decide), contentType_congr hheaders (by decide)]

theorem shouldCompress_notModified {minSize : ℕ} {types : List Text} {resp : Response}
    (h : resp.status = 304) : shouldCompress minSize types resp = false := by
  have hkeeps : keepsBody resp.status = true := by
    rw [h]
    rfl
  rw [shouldCompress, if_pos hkeeps]

end Nitr.Compress
