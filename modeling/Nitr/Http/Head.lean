import Nitr.Http.Grants
import Nitr.Http.Mounts

/-! # `HEAD` and `GET` of a static path

What the response phase makes of two responses that differ at most in their bodies, and from it
when the response to a `HEAD` describes the one to a `GET`. -/

namespace Nitr.Mounts

open FileTree (FileSystem)
open Nitr.Budget (lookup)
open Nitr.Compress (compression CompressionConfig declared declared_congr knownLength shouldCompress
  shouldCompress_congr shouldCompress_notModified)
open Nitr.Http (Compression Cors Encoding Headers Method Protection Request Response Served Text
  appendVary fromStr getAll_appendVary getAll_insertSome_of_ne handle handleInner insertSome parseU64 rejection respond stripBody toStr)
open Nitr.Static (Located Stat StaticMount answering withSidecar)

/-! ## What is compared -/

/-- The statuses for which no length is derived from a body. -/
def lengthless (status : ℕ) : Bool := status = 204 || status = 304 || (100 ≤ status && status < 200)

/-- The headers of a response as it is sent: a length that is known but not declared is derived
from the body. -/
def sentHeaders (resp : Response) : Headers :=
  match resp.headers.getAll "content-length", resp.body with
  | [], some body =>
      if lengthless resp.status then resp.headers
      else resp.headers.insert "content-length" (Nat.repr body.length).toList
  | _, _ => resp.headers

/-- The response to a `HEAD` describes the response to a `GET`, the request id aside. -/
structure Describes (head get : Response) : Prop where
  status : head.status = get.status
  headers : head.headers.AgreeOff "x-request-id" (sentHeaders get)
  empty : head.body = some []

/-- Two responses that differ at most in the request id and the body; where the lengths of the
bodies differ, the headers declare one. -/
structure Alike (resp resp' : Response) : Prop where
  status : resp.status = resp'.status
  headers : resp.headers.AgreeOff "x-request-id" resp'.headers
  length : resp.body.map List.length = resp'.body.map List.length ∨
    (declared resp.headers).isSome = true

theorem Alike.refl (resp : Response) : Alike resp resp := ⟨rfl, .refl _ _, .inl rfl⟩

/-! ## Stamping the headers -/

section Agree

variable {skipped : String} {headers headers' : Headers}

theorem agreeOff_insertSome (h : headers.AgreeOff skipped headers') (name : String)
    (value : Option Text) :
    (insertSome headers name value).AgreeOff skipped (insertSome headers' name value) := by
  cases value with
  | none => exact h
  | some value => exact h.insert name value

theorem agreeOff_appendVary (h : headers.AgreeOff skipped headers') (hskipped : "vary" ≠ skipped)
    (name : Text) : (appendVary headers name).AgreeOff skipped (appendVary headers' name) := by
  simp only [appendVary, h _ hskipped]
  split
  · exact h
  · exact h.append "vary" name

theorem agreeOff_cors (h : headers.AgreeOff skipped headers') (hskipped : "vary" ≠ skipped)
    (cors : Cors) (origin : Option Text) :
    (cors.apply origin headers).AgreeOff skipped (cors.apply origin headers') := by
  cases origin with
  | none => exact h
  | some origin =>
      have hvary := agreeOff_appendVary h hskipped "origin".toList
      simp only [Cors.apply]
      cases cors.allowOrigin origin with
      | none => exact hvary
      | some allow =>
          exact agreeOff_insertSome (agreeOff_insertSome (hvary.insert _ allow) _ _) _ _

theorem agreeOff_applyHeaders (h : headers.AgreeOff skipped headers') (protection : Protection) :
    (protection.applyHeaders headers).AgreeOff skipped (protection.applyHeaders headers') := by
  unfold Protection.applyHeaders
  induction protection.responseHeaders generalizing headers headers' with
  | nil => exact h
  | cons e es ih => exact ih (h.orInsert e.1 e.2)

end Agree

section Length

variable {name : String}

/-- CORS writes no length. -/
theorem getAll_cors (cors : Cors) (origin : Option Text) (headers : Headers) :
    (cors.apply origin headers).getAll "content-length" = headers.getAll "content-length" := by
  cases origin with
  | none => rfl
  | some origin =>
      simp only [Cors.apply]
      cases cors.allowOrigin origin with
      | none => exact getAll_appendVary (by decide)
      | some allow =>
          dsimp only
          rw [getAll_insertSome_of_ne (by decide), getAll_insertSome_of_ne (by decide),
            MultiMap.getAll_insert_of_ne (by decide), getAll_appendVary (by decide)]

/-- Configured headers do not replace what is there. -/
theorem getAll_applyHeaders_of_ne_nil (protection : Protection) {headers : Headers}
    (h : headers.getAll name ≠ []) :
    (protection.applyHeaders headers).getAll name = headers.getAll name := by
  unfold Protection.applyHeaders
  induction protection.responseHeaders generalizing headers with
  | nil => rfl
  | cons e es ih =>
      have hkeep := @MultiMap.getAll_orInsert_of_ne_nil _ _ _ headers e.1 name e.2 h
      refine (ih ?_).trans hkeep
      rw [hkeep]
      exact h

theorem getAll_orInsert_self_ne_nil (headers : Headers) (value : Text) :
    (headers.orInsert name value).getAll name ≠ [] := by
  unfold MultiMap.orInsert
  split
  · rw [MultiMap.getAll_append, if_pos rfl]
    exact List.append_ne_nil_of_right_ne_nil _ (List.cons_ne_nil _ _)
  · assumption

theorem getAll_applyHeaders_eq_nil_iff (protection : Protection) {headers : Headers} :
    (protection.applyHeaders headers).getAll name = [] ↔
      headers.getAll name = [] ∧ ∀ e ∈ protection.responseHeaders, e.1 ≠ name := by
  unfold Protection.applyHeaders
  induction protection.responseHeaders generalizing headers with
  | nil => simp
  | cons e es ih =>
      rw [List.foldl_cons, ih, List.forall_mem_cons]
      by_cases he : e.1 = name
      · subst he
        have hne := @getAll_orInsert_self_ne_nil e.1 headers e.2
        simp [hne]
      · rw [MultiMap.getAll_orInsert_of_ne (Ne.symm he)]
        tauto

end Length

/-- The headers of a response once the request id, CORS and the configured headers are in. -/
def stamp (protection : Protection) (id : Text) (req : Request) (headers : Headers) : Headers :=
  let headers := insertSome headers "x-request-id" (fromStr id)
  protection.applyHeaders
    (match protection.cors with
    | some cors => cors.apply (req.headers.get "origin") headers
    | none => headers)

section Stamp

variable (protection : Protection) (req : Request) {headers headers' : Headers}

theorem agreeOff_stamp (h : headers.AgreeOff "x-request-id" headers') (method : Method)
    (id id' : Text) :
    (stamp protection id req headers).AgreeOff "x-request-id"
      (stamp protection id' { req with method } headers') := by
  have hid : (insertSome headers "x-request-id" (fromStr id)).AgreeOff "x-request-id"
      (insertSome headers' "x-request-id" (fromStr id')) := by
    intro name hname
    rw [getAll_insertSome_of_ne hname, getAll_insertSome_of_ne hname, h name hname]
  refine agreeOff_applyHeaders ?_ protection
  cases protection.cors with
  | none => exact hid
  | some cors => exact agreeOff_cors hid (by decide) cors _

/-- What the stages before the configured headers make of the length: nothing. -/
theorem stamp_eq (id : Text) (headers : Headers) : ∃ before,
    stamp protection id req headers = protection.applyHeaders before ∧
      before.getAll "content-length" = headers.getAll "content-length" := by
  refine ⟨_, rfl, ?_⟩
  cases protection.cors with
  | none => exact getAll_insertSome_of_ne (by decide)
  | some cors => exact (getAll_cors _ _ _).trans (getAll_insertSome_of_ne (by decide))

theorem declared_stamp (id : Text) (h : (declared headers).isSome = true) :
    (declared (stamp protection id req headers)).isSome = true := by
  obtain ⟨before, hstamp, hlength⟩ := stamp_eq protection req id headers
  have hne : before.getAll "content-length" ≠ [] := by
    intro hnil
    rw [hlength] at hnil
    rw [declared, MultiMap.get, hnil] at h
    cases h
  rw [hstamp, declared, MultiMap.get, getAll_applyHeaders_of_ne_nil protection hne, hlength]
  exact h

theorem getAll_stamp_eq_nil_iff (id : Text) :
    (stamp protection id req headers).getAll "content-length" = [] ↔
      headers.getAll "content-length" = [] ∧
        ∀ e ∈ protection.responseHeaders, e.1 ≠ "content-length" := by
  obtain ⟨before, hstamp, hlength⟩ := stamp_eq protection req id headers
  rw [hstamp, getAll_applyHeaders_eq_nil_iff, hlength]

end Stamp

/-! ## The response phase -/

/-- The response phase up to its last step. -/
def dressed (protection : Protection) (id : Text) (req : Request) (resp : Response) : Response :=
  let resp := { resp with headers := stamp protection id req resp.headers }
  if protection.compression.negotiates then
    protection.compression.apply resp
      (protection.compression.negotiate (req.headers.get "accept-encoding"))
  else resp

theorem respond_eq (protection : Protection) (id : Text) (req : Request) (resp : Response) :
    respond protection id req resp =
      if req.method = .head then stripBody (dressed protection id req resp)
      else dressed protection id req resp := rfl

namespace Alike

variable {resp resp' : Response}

theorem knownLength_eq (h : Alike resp resp') : knownLength resp = knownLength resp' := by
  have hdeclared := declared_congr h.headers (by decide)
  unfold knownLength
  rcases h.length with hlength | hsome
  · rw [hdeclared, hlength]
  · obtain ⟨n, hn⟩ := Option.isSome_iff_exists.mp hsome
    rw [← hdeclared, hn, Option.some_or, Option.some_or]

/-- Both are compressed or neither is. -/
theorem compress (h : Alike resp resp') (cfg : CompressionConfig) (encoding : Option Encoding) :
    Alike ((compression cfg).apply resp encoding) ((compression cfg).apply resp' encoding) := by
  cases encoding with
  | none => exact h
  | some encoding =>
      have hsame : (compression cfg).shouldCompress resp = (compression cfg).shouldCompress resp' :=
        shouldCompress_congr h.status h.headers h.knownLength_eq
      simp only [Compression.apply, hsame]
      split
      · have hheaders := agreeOff_appendVary
          (((h.headers.remove "content-length").remove "accept-ranges").insert "content-encoding"
            encoding.token) (by decide) "accept-encoding".toList
        refine ⟨h.status, ?_, .inl rfl⟩
        dsimp only
        rw [hheaders.get (show "etag" ≠ "x-request-id" by decide)]
        exact agreeOff_insertSome hheaders _ _
      · exact h

theorem dress (h : Alike resp resp') {protection : Protection} {cfg : CompressionConfig}
    (hcfg : protection.compression = compression cfg) (req : Request) (method : Method)
    (id id' : Text) :
    Alike (dressed protection id req resp) (dressed protection id' { req with method } resp') := by
  have hstamp : Alike { resp with headers := stamp protection id req resp.headers }
      { resp' with headers := stamp protection id' { req with method } resp'.headers } := by
    refine ⟨h.status, agreeOff_stamp protection req h.headers method id id', ?_⟩
    exact h.length.imp_right (declared_stamp protection req id)
  simp only [dressed, hcfg]
  split
  · exact hstamp.compress cfg _
  · exact hstamp

end Alike

theorem status_dressed (protection : Protection) (id : Text) (req : Request) (resp : Response) :
    (dressed protection id req resp).status = resp.status := by
  simp only [dressed]
  split
  · unfold Compression.apply
    split
    · rfl
    · dsimp only
      split <;> rfl
  · rfl

/-- Dropping the body tells the length the other response is sent with, but where none is derived
from a body. -/
theorem describes_stripBody_iff {get head : Response} (h : Alike get head) :
    Describes (stripBody head) get ↔
      ¬(lengthless get.status = true ∧ get.headers.getAll "content-length" = [] ∧
        get.body.isSome = true) := by
  have hsame := h.headers "content-length" (by decide)
  have hhead : ∀ {headers : Headers}, headers.AgreeOff "x-request-id" (sentHeaders get) →
      (stripBody head).headers = headers → Describes (stripBody head) get :=
    fun hagree heq => ⟨h.status.symm, heq ▸ hagree, rfl⟩
  have hsymm : head.headers.AgreeOff "x-request-id" get.headers :=
    fun name hname => (h.headers name hname).symm
  cases hall : get.headers.getAll "content-length" with
  | cons value values =>
      refine iff_of_true (@hhead head.headers ?_ ?_) (by simp)
      · simp only [sentHeaders, hall]
        exact hsymm
      · simp only [stripBody, ← hsame, hall]
  | nil =>
      have hlength : get.body.map List.length = head.body.map List.length := by
        refine h.length.resolve_right ?_
        simp [declared, MultiMap.get, hall]
      cases hbody : get.body with
      | none =>
          have hbody' : head.body = none := by
            simpa [hbody] using hlength.symm
          refine iff_of_true (@hhead head.headers ?_ ?_) (by simp)
          · simp only [sentHeaders, hall, hbody]
            exact hsymm
          · simp only [stripBody, ← hsame, hall, hbody']
      | some body =>
          obtain ⟨body', hbody', hlen⟩ : ∃ body', head.body = some body' ∧
              body'.length = body.length := by
            simpa [hbody, eq_comm] using hlength
          have hstrip : (stripBody head).headers =
              head.headers.insert "content-length" (Nat.repr body.length).toList := by
            simp only [stripBody, ← hsame, hall, hbody', hlen]
          cases hstatus : lengthless get.status with
          | false =>
              refine iff_of_true (hhead ?_ hstrip) (by simp)
              simp only [sentHeaders, hall, hbody, hstatus, Bool.false_eq_true, if_false]
              exact hsymm.insert _ _
          | true =>
              refine iff_of_false ?_ (by simp)
              intro hdescribes
              have hagree := hdescribes.headers "content-length" (by decide)
              simp only [hstrip, sentHeaders, hall, hbody, hstatus, if_true] at hagree
              rw [MultiMap.getAll_insert_self] at hagree
              cases hagree

section Respond

variable {protection : Protection} {cfg : CompressionConfig} {req : Request} {id id' : Text}

/-- Responses to two requests that differ only in the method. -/
theorem respond_describes_iff {get head : Response} (h : Alike get head)
    (hcfg : protection.compression = compression cfg) :
    Describes (respond protection id' { req with method := .head } head)
        (respond protection id { req with method := .get } get) ↔
      ¬(lengthless get.status = true ∧
        (dressed protection id { req with method := .get } get).headers.getAll "content-length" = [] ∧
        (dressed protection id { req with method := .get } get).body.isSome = true) := by
  have hdress := h.dress hcfg { req with method := .get } .head id id'
  rw [respond_eq, respond_eq, if_pos rfl, if_neg (fun h => by cases h),
    describes_stripBody_iff hdress, status_dressed]

/-- A status with a length of its own. -/
theorem respond_describes {get head : Response} (h : Alike get head)
    (hcfg : protection.compression = compression cfg) (hstatus : lengthless get.status = false) :
    Describes (respond protection id' { req with method := .head } head)
      (respond protection id { req with method := .get } get) := by
  rw [respond_describes_iff h hcfg, hstatus]
  simp

/-- A response without a length to a request whose copy is current. -/
theorem respond_describes_notModified_iff {resp : Response}
    (hcfg : protection.compression = compression cfg) (hstatus : resp.status = 304)
    (hlength : resp.headers.getAll "content-length" = []) (hbody : resp.body.isSome = true) :
    Describes (respond protection id' { req with method := .head } resp)
        (respond protection id { req with method := .get } resp) ↔
      ∃ e ∈ protection.responseHeaders, e.1 = "content-length" := by
  have hdressed : dressed protection id { req with method := .get } resp =
      { resp with headers := stamp protection id { req with method := .get } resp.headers } := by
    simp only [dressed, hcfg]
    split
    · unfold Compression.apply
      split
      · rfl
      · exact if_neg (by
          rw [Bool.not_eq_true]
          exact shouldCompress_notModified hstatus)
    · rfl
  have h304 : lengthless resp.status = true := by
    rw [hstatus]
    rfl
  rw [respond_describes_iff (.refl resp) hcfg, hdressed]
  simp only [h304, getAll_stamp_eq_nil_iff, hlength, hbody, true_and, and_true, not_forall,
    not_not, exists_prop]

end Respond

/-! ## Files -/

/-- Every regular file can be read, and its length is a 64-bit one. -/
structure Files.Readable (files : Files) : Prop where
  contents : ∀ {names stat}, files.fs.metadata ⟨true, names⟩ = some (.file stat) →
    (files.contents names).isSome = true
  len_lt : ∀ {names stat}, files.fs.metadata ⟨true, names⟩ = some (.file stat) → stat.len < 2 ^ 64

/-- What is located is the metadata of the bytes that are served. -/
theorem metadata_source {fs : FileSystem Stat} {m : StaticMount} {rel : Text} {spaFallback : Bool}
    {file : List (List Char)} {stat : Stat} (h : Static.found fs m rel spaFallback = some (file, stat))
    (encoding : Option Static.Encoding) :
    fs.metadata ⟨true, (withSidecar fs file stat encoding).source⟩ =
      some (.file (withSidecar fs file stat encoding).stat) := by
  obtain ⟨root, -, hinside⟩ := Static.found_inside h
  have hfile : fs.metadata ⟨true, file⟩ = some (.file stat) := by
    rw [FileSystem.metadata, FileSystem.canonicalize_of_isReal hinside.real, Option.bind_some,
      hinside.isFile]
  unfold withSidecar
  cases hsidecar : encoding.bind (Static.sidecarFor fs file) with
  | none => exact hfile
  | some s =>
      obtain ⟨enc, -, hs⟩ := Option.bind_eq_some_iff.mp hsidecar
      simp only [Static.sidecarFor] at hs
      split at hs
      · rename_i stat' hmeta
        cases hs
        exact hmeta
      · cases hs

/-- Digits are read back as the number they spell. -/
theorem parseU64_repr {n : ℕ} (h : n < 2 ^ 64) : parseU64 (Nat.repr n).toList = some n := by
  have hdigits : (Nat.toDigits 10 n).all Char.isDigit = true :=
    List.all_eq_true.mpr fun c hc => Nat.isDigit_of_mem_toDigits (by decide) (by decide) hc
  have hvalue : (Nat.toDigits 10 n).foldl (fun n c => 10 * n + (c.toNat - '0'.toNat)) 0 = n := by
    rw [← Nat.ofDigitChars_eq_foldl, Nat.ofDigitChars_ten_toDigits]
  rw [Nat.toList_repr, Range.parseU64_of_numeral ⟨Nat.toDigits_ne_nil, hdigits, hvalue⟩, if_pos h]

theorem visible_of_isDigit {c : Char} (h : c.isDigit = true) : Http.visible c = true := by
  have hrange : 48 ≤ c.toNat ∧ c.toNat ≤ 57 := Char.isDigit_iff_toNat.mp h
  simp only [Http.visible, Bool.or_eq_true, Bool.and_eq_true, decide_eq_true_eq]
  omega

theorem declared_append {headers : Headers} (h : headers.getAll "content-length" = []) {n : ℕ}
    (hn : n < 2 ^ 64) :
    declared (headers.append "content-length" (Nat.repr n).toList) = some n := by
  have htoStr : toStr (Nat.repr n).toList = some (Nat.repr n).toList := by
    refine if_pos (List.all_eq_true.mpr fun c hc => ?_)
    rw [Nat.toList_repr] at hc
    exact visible_of_isDigit (Nat.isDigit_of_mem_toDigits (by decide) (by decide) hc)
  rw [declared, MultiMap.get, MultiMap.getAll_append, h, if_pos rfl, List.nil_append,
    List.head?_cons, Option.bind_some, htoStr, Option.bind_some, parseU64_repr hn]

/-! ## Serving -/

/-- What the stages before the response phase give a `GET` and a `HEAD`: where the client's copy
is current one response without a length, else two responses that are alike. -/
inductive Paired (current : Prop) : Served Failure → Served Failure → Prop
  | panicked (h : ¬current) : Paired current .panicked .panicked
  | alike {get head : Response} (h : ¬current) (alike : Alike get head)
      (status : lengthless get.status = false) :
      Paired current (.returned (.ok get)) (.returned (.ok head))
  | notModified {resp : Response} (h : current) (status : resp.status = 304)
      (length : resp.headers.getAll "content-length" = []) (body : resp.body.isSome = true) :
      Paired current (.returned (.ok resp)) (.returned (.ok resp))

theorem Paired.congr {p q : Prop} {get head : Served Failure} (h : Paired p get head)
    (hpq : p ↔ q) : Paired q get head := by
  rwa [← propext hpq]

/-- One response for both. -/
theorem Paired.same {current : Prop} {resp : Response} (h : ¬current)
    (hstatus : lengthless resp.status = false) :
    Paired current (.returned (.ok resp)) (.returned (.ok resp)) :=
  .alike h (.refl resp) hstatus

namespace Files

variable (files : Files) (req : Request)

theorem getAll_fileHeaders (m : StaticMount) (located : Located) (date : Option Text) :
    (files.fileHeaders m located date).getAll "content-length" = [] := by
  simp only [fileHeaders]
  cases located.sidecar <;> cases m.cacheControl.bind fromStr <;> cases date <;> simp

/-- The client's copy of a located file is current. -/
def Current (headers : Headers) (located : Located) : Prop :=
  (files.lastModified located.stat.modified).isSome = true ∧ files.fresh headers located = true

variable {files}

theorem serveSpan_paired {located : Located} {headers : Headers} {status : ℕ} {span : ℕ × ℕ}
    {current : Prop} (hcurrent : ¬current) (hstatus : lengthless status = false)
    (hlength : headers.getAll "content-length" = []) (hspan : span.2 < 2 ^ 64)
    (hcontents : (files.contents located.source).isSome = true) :
    Paired current (files.serveSpan { req with method := .get } located headers status span)
      (files.serveSpan { req with method := .head } located headers status span) := by
  obtain ⟨data, hdata⟩ := Option.isSome_iff_exists.mp hcontents
  have halike : ∀ body, Alike
      ⟨status, headers.append "content-length" (Nat.repr span.2).toList, body⟩
      ⟨status, headers.append "content-length" (Nat.repr span.2).toList, some []⟩ := by
    intro body
    refine ⟨rfl, .refl _ _, .inr ?_⟩
    rw [declared_append hlength hspan]
    rfl
  simp only [serveSpan, fileBody, readSpan, hdata, Option.map_some, reduceCtorEq, if_false, if_true]
  split
  · exact .alike hcurrent (halike _) hstatus
  · exact .alike hcurrent (halike _) hstatus

theorem serveFile_paired (m : StaticMount) {located : Located}
    (hcontents : (files.contents located.source).isSome = true) (hlen : located.stat.len < 2 ^ 64) :
    Paired (files.Current req.headers located)
      (files.serveFile { req with method := .get } m located)
      (files.serveFile { req with method := .head } m located) := by
  unfold serveFile Current
  cases hdate : files.lastModified located.stat.modified with
  | none => exact .panicked (by simp)
  | some date =>
      cases hfresh : files.fresh req.headers located with
      | true =>
          simp only [if_true]
          exact .notModified (by simp) rfl (getAll_fileHeaders files m located date) rfl
      | false =>
          have hnot : ¬((some date).isSome = true ∧ false = true) := by simp
          have hheaders : ((files.fileHeaders m located date).append "accept-ranges"
              "bytes".toList).getAll "content-length" = [] := by
            rw [MultiMap.getAll_append_of_ne (by decide), getAll_fileHeaders]
          simp only [Bool.false_eq_true, if_false] at hnot ⊢
          cases Range.resolve files.parseHttpDate req.headers located.stat.len
              (etagFor located.stat.len located.stat.modified) located.stat.modified with
          | unsatisfiable => exact .same hnot rfl
          | part start last =>
              refine serveSpan_paired req hnot rfl ?_ (Nat.mod_lt _ (by decide)) hcontents
              rw [MultiMap.getAll_append_of_ne (by decide), hheaders]
          | full => exact serveSpan_paired req hnot rfl hheaders hlen hcontents

/-- The first mount that has the file answers. -/
theorem serveFirst_eq_map (decoded : Text) (encoding : Option Static.Encoding) (spaFallback : Bool)
    (mounts : List StaticMount) :
    files.serveFirst req decoded encoding spaFallback mounts =
      (answering files.fs decoded spaFallback mounts).map fun answer =>
        files.serveFile req answer.1 (withSidecar files.fs answer.2.2.1 answer.2.2.2 encoding) := by
  induction mounts with
  | nil => rfl
  | cons m rest ih =>
      simp only [serveFirst, answering, Static.locateFor_eq_map]
      cases m.relative decoded with
      | none => exact ih
      | some rel =>
          simp only [Option.bind_some]
          cases Static.found files.fs m rel spaFallback with
          | none => exact ih
          | some f => rfl

end Files

/-! ## Static paths -/

/-- Whether the page of an application may answer a path without a file. -/
def Site.spaFallback (site : Site) (req : Request) : Bool :=
  match lookup site.router .get req.path with
  | .notFound => acceptsHtml req.headers
  | _ => false

/-- Neither the document nor a route answers a `GET` or a `HEAD` of the path. -/
structure Site.StaticPath (site : Site) (req : Request) : Prop where
  get_docs : site.docs { req with method := .get } = none
  head_docs : site.docs { req with method := .head } = none
  unrouted : ∀ index params, lookup site.router .head req.path ≠ .route index params

/-- A mount has a file for the request, and the client's copy of it is current. -/
def Site.Current (site : Site) (files : Files) (compression : Compression) (req : Request) : Prop :=
  ∃ decoded m rel file stat, files.decode req.path = some decoded ∧
    answering files.fs decoded (site.spaFallback req) site.mounts = some (m, rel, file, stat) ∧
    files.Current req.headers
      (withSidecar files.fs file stat (encodingOf compression req.headers))

section Site

variable {site : Site} {files : Files} {req : Request} {compression : Compression}

/-- The mounts answer both requests or neither. -/
theorem tryServe_paired (hfiles : files.Readable) :
    (files.tryServe site.mounts { req with method := .get } compression (site.spaFallback req) = none ∧
      files.tryServe site.mounts { req with method := .head } compression (site.spaFallback req) = none ∧
      ¬site.Current files compression req) ∨
    ∃ get head,
      files.tryServe site.mounts { req with method := .get } compression (site.spaFallback req) =
        some get ∧
      files.tryServe site.mounts { req with method := .head } compression (site.spaFallback req) =
        some head ∧
      Paired (site.Current files compression req) get head := by
  have htry : ∀ method : Method, method = .get ∨ method = .head →
      files.tryServe site.mounts { req with method } compression (site.spaFallback req) =
        (files.decode req.path).bind fun decoded =>
          (answering files.fs decoded (site.spaFallback req) site.mounts).map fun answer =>
            files.serveFile { req with method } answer.1 (withSidecar files.fs answer.2.2.1
              answer.2.2.2 (encodingOf compression req.headers)) := by
    intro method hmethod
    have hreads : (method ≠ .get && method ≠ .head) = false := by
      rcases hmethod with rfl | rfl <;> rfl
    unfold Files.tryServe
    cases hmounts : site.mounts with
    | nil =>
        cases files.decode req.path <;> rfl
    | cons m rest =>
        rw [if_neg (by simpa using hreads)]
        cases files.decode req.path with
        | none => rfl
        | some decoded => exact Files.serveFirst_eq_map _ decoded _ _ _
  rw [htry .get (.inl rfl), htry .head (.inr rfl)]
  cases hdecode : files.decode req.path with
  | none =>
      refine .inl ⟨rfl, rfl, ?_⟩
      rintro ⟨decoded, m, rel, file, stat, h, -⟩
      cases hdecode.symm.trans h
  | some decoded =>
      simp only [Option.bind_some]
      cases hanswer : answering files.fs decoded (site.spaFallback req) site.mounts with
      | none =>
          refine .inl ⟨rfl, rfl, ?_⟩
          rintro ⟨decoded', m, rel, file, stat, h, h', -⟩
          cases hdecode.symm.trans h
          cases hanswer.symm.trans h'
      | some answer =>
          obtain ⟨m, rel, file, stat⟩ := answer
          refine .inr ⟨_, _, rfl, rfl, ?_⟩
          have hmeta := metadata_source (Static.answering_eq_some files.fs hanswer).2
            (encodingOf compression req.headers)
          refine (Files.serveFile_paired req m (hfiles.contents hmeta) (hfiles.len_lt hmeta)).congr ?_
          constructor
          · intro h
            exact ⟨decoded, m, rel, file, stat, hdecode, hanswer, h⟩
          · rintro ⟨decoded', m', rel', file', stat', h, h', hcurrent⟩
            cases hdecode.symm.trans h
            cases hanswer.symm.trans h'
            exact hcurrent

theorem answer_paired (hfiles : files.Readable) (hstatic : site.StaticPath req) :
    Paired (site.Current files compression req)
      (site.answer files compression { req with method := .get })
      (site.answer files compression { req with method := .head }) := by
  have hserve := @tryServe_paired site files req compression hfiles
  have hfallback : ∀ resp : Response, lengthless resp.status = false →
      Paired (site.Current files compression req)
        ((files.tryServe site.mounts { req with method := .get } compression
          (site.spaFallback req)).getD (.returned (.ok resp)))
        ((files.tryServe site.mounts { req with method := .head } compression
          (site.spaFallback req)).getD (.returned (.ok resp))) := by
    intro resp hstatus
    rcases hserve with ⟨hget, hhead, hcurrent⟩ | ⟨get, head, hget, hhead, hpaired⟩
    · rw [hget, hhead]
      exact .same hcurrent hstatus
    · rw [hget, hhead]
      exact hpaired
  have hunrouted := hstatic.unrouted
  simp only [Site.answer, hstatic.get_docs, hstatic.head_docs]
  unfold Site.spaFallback at hfallback
  unfold lookup at hfallback hunrouted ⊢
  cases hrouter : site.router req.path with
  | none =>
      simp only [hrouter] at hfallback ⊢
      exact hfallback _ rfl
  | some entry =>
      obtain ⟨entries, params⟩ := entry
      simp only [hrouter, if_true, reduceCtorEq, if_false, Option.or_none] at hfallback hunrouted ⊢
      cases hhead : entries.lookup .head with
      | some index => exact absurd (by rw [hhead]; rfl) (hunrouted index params)
      | none =>
          rw [hhead, Option.none_or] at hunrouted
          cases hget : entries.lookup .get with
          | some index => exact absurd (by rw [hget]) (hunrouted index params)
          | none =>
              simp only [hget, Option.none_or] at hfallback ⊢
              exact hfallback _ rfl

/-- The checks read no method. -/
theorem check_eq {protection : Protection}
    (hrate : protection.rate { req with method := .head } =
      protection.rate { req with method := .get }) :
    protection.check { req with method := .head } = protection.check { req with method := .get } := by
  simp only [Protection.check, hrate]
  rfl

theorem status_check {protection : Protection} {resp : Response}
    (h : protection.check req = some resp) : lengthless resp.status = false := by
  unfold Protection.check at h
  dsimp only at h
  split at h
  · cases h
    rfl
  · split at h
    · cases h
      rfl
    · split at h
      · cases h
        rfl
      · split at h
        · cases h
          rfl
        · cases h

/-- The client's copy is current, and the requests are not turned away. -/
def Site.Revalidates (site : Site) (files : Files) (protection : Protection) (req : Request) : Prop :=
  protection.check { req with method := .get } = none ∧
    site.Current files protection.compression req

theorem handleInner_paired {protection : Protection} (hfiles : files.Readable)
    (hstatic : site.StaticPath req)
    (hrate : protection.rate { req with method := .head } =
      protection.rate { req with method := .get }) :
    Paired (site.Revalidates files protection req)
      (handleInner protection (site.answer files protection.compression)
        { req with method := .get })
      (handleInner protection (site.answer files protection.compression)
        { req with method := .head }) := by
  have hpreflight : ∀ method : Method, method ≠ .options →
      (protection.cors.bind (·.preflight { req with method })) = none := by
    intro method hmethod
    cases protection.cors with
    | none => rfl
    | some cors => exact if_pos hmethod
  unfold handleInner
  rw [check_eq hrate, hpreflight .get (fun h => by cases h), hpreflight .head (fun h => by cases h)]
  cases hcheck : protection.check { req with method := .get } with
  | some rejected =>
      refine .same ?_ (status_check hcheck)
      rintro ⟨h, -⟩
      cases hcheck.symm.trans h
  | none =>
      refine (answer_paired hfiles hstatic).congr ?_
      exact (and_iff_right hcheck).symm

/-- The response to a `HEAD` of a static path describes the one to a `GET` exactly if the
client's copy is not found current, or the configuration adds a length. -/
theorem head_describes_get_iff {protection : Protection} {cfg : CompressionConfig}
    (hcfg : protection.compression = Compress.compression cfg) (hfiles : files.Readable)
    (hstatic : site.StaticPath req)
    (hrate : protection.rate { req with method := .head } =
      protection.rate { req with method := .get })
    (panicText id id' : Text) :
    ∃ get head,
      handle protection (site.answer files protection.compression) panicText id
        { req with method := .get } = .ok get ∧
      handle protection (site.answer files protection.compression) panicText id'
        { req with method := .head } = .ok head ∧
      (Describes head get ↔
        ¬(site.Revalidates files protection req ∧
          ∀ e ∈ protection.responseHeaders, e.1 ≠ "content-length")) := by
  have hpaired := handleInner_paired hfiles hstatic hrate
  unfold handle
  generalize handleInner protection (site.answer files protection.compression)
    { req with method := .get } = inner at hpaired ⊢
  generalize handleInner protection (site.answer files protection.compression)
    { req with method := .head } = inner' at hpaired ⊢
  cases hpaired with
  | panicked h =>
      refine ⟨_, _, rfl, rfl, iff_of_true ?_ fun hboth => h hboth.1⟩
      exact respond_describes (.refl _) hcfg rfl
  | alike h halike hstatus =>
      refine ⟨_, _, rfl, rfl, iff_of_true ?_ fun hboth => h hboth.1⟩
      exact respond_describes halike hcfg hstatus
  | notModified h hstatus hlength hbody =>
      refine ⟨_, _, rfl, rfl, ?_⟩
      rw [respond_describes_notModified_iff hcfg hstatus hlength hbody]
      simp only [h, true_and, not_forall, not_not, exists_prop]

end Site

/-! ## A file that is current -/

/-- A tree with one file of three bytes. -/
def oneFile : Files where
  fs :=
    { entries := [("a.txt".toList, .file ⟨3, some 0⟩)]
      cwd := []
      limit := 40
      cwd_dir := FileTree.isDirAt_nil _ }
  contents _ := some "abc".toList
  decode := some
  mimeOf _ := "text/plain".toList
  fmtHttpDate _ := some "Thu, 01 Jan 1970 00:00:00 GMT".toList
  parseHttpDate _ := none

/-- A mount of the whole tree and nothing else. -/
def oneMount : Site where
  docs _ := none
  router _ := none
  chain _ := .panicked
  mounts := [.new ['/'] ⟨true, []⟩ false none]

def uncompressed : CompressionConfig := ⟨false, 0, [], []⟩

/-- No limits, policies or headers. -/
def plain : Protection := ⟨1024, 1024, fun _ => none, none, Compress.compression uncompressed, []⟩

/-- A request for the file from a client that has some copy of it. -/
def anyCopy : Request :=
  ⟨.get, "/a.txt".toList, none, MultiMap.empty.append "if-none-match" ['*']⟩

theorem oneFile_readable : oneFile.Readable := by
  refine ⟨fun _ => rfl, ?_⟩
  intro names stat h
  obtain ⟨place, -, hlookup⟩ := Option.bind_eq_some_iff.mp h
  cases place with
  | nil => cases hlookup
  | cons name rest =>
      obtain ⟨child, hchild, hrest⟩ := Option.bind_eq_some_iff.mp hlookup
      change List.lookup name [("a.txt".toList, .file ⟨3, some 0⟩)] = some child at hchild
      rw [List.lookup_cons] at hchild
      split at hchild
      · cases hchild
        cases rest with
        | nil =>
            cases hrest
            decide
        | cons name rest => cases hrest
      · cases hchild

/-- A request for the file from a client without a copy of it. -/
def noCopy : Request := ⟨.get, "/a.txt".toList, none, .empty⟩

theorem oneMount_staticPath (req : Request) : oneMount.StaticPath req :=
  ⟨rfl, rfl, fun _ _ h => by cases h⟩

/-- The first request for a file. -/
theorem head_describes_get_noCopy : ∃ get head,
    handle plain (oneMount.answer oneFile plain.compression) [] [] { noCopy with method := .get } =
      .ok get ∧
    handle plain (oneMount.answer oneFile plain.compression) [] [] { noCopy with method := .head } =
      .ok head ∧
    (Describes head get ↔ ¬(oneMount.Revalidates oneFile plain noCopy ∧
      ∀ e ∈ plain.responseHeaders, e.1 ≠ "content-length")) :=
  head_describes_get_iff rfl oneFile_readable (oneMount_staticPath noCopy) rfl [] [] []

theorem revalidates_anyCopy : oneMount.Revalidates oneFile plain anyCopy := by
  refine ⟨by rfl, "/a.txt".toList, .new ['/'] ⟨true, []⟩ false none, "a.txt".toList,
    ["a.txt".toList], ⟨3, some 0⟩, rfl, ?_, rfl, ?_⟩
  · decide +kernel
  · decide +kernel

/-- A `HEAD` of a current file says its body is empty, which the `GET` does not. -/
theorem current_head_declares_length :
    ¬∀ (site : Site) (files : Files) (protection : Protection) (cfg : CompressionConfig)
      (req : Request) (panicText id id' : Text) (get head : Response),
      protection.compression = Compress.compression cfg → files.Readable → site.StaticPath req →
      protection.rate { req with method := .head } = protection.rate { req with method := .get } →
      handle protection (site.answer files protection.compression) panicText id
        { req with method := .get } = .ok get →
      handle protection (site.answer files protection.compression) panicText id'
        { req with method := .head } = .ok head →
      Describes head get := by
  intro hall
  have hpaired := @handleInner_paired oneMount oneFile anyCopy plain oneFile_readable
    (oneMount_staticPath anyCopy) rfl
  have hdescribes := hall oneMount oneFile plain uncompressed anyCopy [] [] []
  unfold handle at hdescribes
  generalize handleInner plain (oneMount.answer oneFile plain.compression)
    { anyCopy with method := .get } = inner at hpaired hdescribes
  generalize handleInner plain (oneMount.answer oneFile plain.compression)
    { anyCopy with method := .head } = inner' at hpaired hdescribes
  cases hpaired with
  | panicked h => exact h revalidates_anyCopy
  | alike h => exact h revalidates_anyCopy
  | notModified h hstatus hlength hbody =>
      have hall := hdescribes _ _ rfl oneFile_readable (oneMount_staticPath anyCopy) rfl rfl rfl
      rw [@respond_describes_notModified_iff plain uncompressed anyCopy [] [] _ rfl hstatus hlength
        hbody] at hall
      obtain ⟨e, he, -⟩ := hall
      cases he

end Nitr.Mounts
