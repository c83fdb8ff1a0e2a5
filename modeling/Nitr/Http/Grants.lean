import Nitr.Http.Handle

/-! # What a response grants

The `Access-Control-*` headers of the response `handle` sends. The answer to a preflight
passes through `Cors.apply` as every response does, which looks at the origin only. -/

namespace Nitr.Http

/-! ## Headers the other steps do not touch -/

/-- A name `Access-Control-Allow-*`. -/
def isAllowName (name : String) : Bool := "access-control-allow-".toList.isPrefixOf name.toList

/-- A name `Access-Control-*`. -/
def isCorsName (name : String) : Bool := "access-control-".toList.isPrefixOf name.toList

theorem isCorsName_of_isAllowName {name : String} (h : isAllowName name = true) :
    isCorsName name = true := by
  unfold isAllowName at h
  unfold isCorsName
  rw [List.isPrefixOf_iff_prefix] at h ⊢
  exact List.IsPrefix.trans (by decide +kernel) h

/-- The headers a policy sets. -/
@[simp]
theorem isAllowName_allow : isAllowName "access-control-allow-origin" = true ∧
    isAllowName "access-control-allow-methods" = true ∧
    isAllowName "access-control-allow-headers" = true ∧
    isAllowName "access-control-allow-credentials" = true := by
  decide +kernel

@[simp]
theorem isCorsName_cors : isCorsName "access-control-allow-origin" = true ∧
    isCorsName "access-control-allow-methods" = true ∧
    isCorsName "access-control-allow-headers" = true ∧
    isCorsName "access-control-allow-credentials" = true ∧
    isCorsName "access-control-max-age" = true := by
  decide +kernel

/-- The headers the other steps set. -/
@[simp]
theorem isCorsName_other : isCorsName "vary" = false ∧ isCorsName "x-request-id" = false ∧
    isCorsName "content-type" = false ∧ isCorsName "content-length" = false ∧
    isCorsName "content-encoding" = false ∧ isCorsName "accept-ranges" = false ∧
    isCorsName "etag" = false ∧ isCorsName "retry-after" = false := by
  decide +kernel

theorem ne_of_isCorsName {name other : String} (h : isCorsName name = true)
    (hother : isCorsName other = false) : name ≠ other := by
  rintro rfl
  rw [h] at hother
  cases hother

section

variable {headers : Headers} {name : String}

@[simp]
theorem getAll_insertSome_of_ne {k : String} {value : Option Text} (h : name ≠ k) :
    (insertSome headers k value).getAll name = headers.getAll name := by
  cases value with
  | none => rfl
  | some v => exact MultiMap.getAll_insert_of_ne h

theorem getAll_insertSome_self {value : Option Text}
    (h : headers.getAll name = [] ∨ headers.getAll name = value.toList) :
    (insertSome headers name value).getAll name = value.toList := by
  cases value with
  | none => exact h.elim id id
  | some v => exact MultiMap.getAll_insert_self

@[simp]
theorem getAll_appendVary {field : Text} (h : name ≠ "vary") :
    (appendVary headers field).getAll name = headers.getAll name := by
  unfold appendVary
  dsimp only
  split
  · rfl
  · exact MultiMap.getAll_append_of_ne h

theorem getAll_varyPreflight (h : name ≠ "vary") :
    (varyPreflight headers).getAll name = headers.getAll name := by
  simp [varyPreflight, h]

theorem getAll_applyHeaders {protection : Protection}
    (h : ∀ e ∈ protection.responseHeaders, name ≠ e.1) :
    (protection.applyHeaders headers).getAll name = headers.getAll name := by
  unfold Protection.applyHeaders
  generalize protection.responseHeaders = entries at h ⊢
  induction entries generalizing headers with
  | nil => rfl
  | cons e es ih =>
      rw [List.foldl_cons, ih fun e' he' => h e' (List.mem_cons_of_mem _ he'),
        MultiMap.getAll_orInsert_of_ne (h e (List.mem_cons_self ..))]

theorem getAll_compress {compression : Compression} {resp : Response} {encoding : Option Encoding}
    (h : isCorsName name = true) :
    (compression.apply resp encoding).headers.getAll name = resp.headers.getAll name := by
  cases encoding with
  | none => rfl
  | some encoding =>
      simp only [Compression.apply]
      split
      · rw [getAll_insertSome_of_ne (ne_of_isCorsName h (by simp)),
          getAll_appendVary (ne_of_isCorsName h (by simp)),
          MultiMap.getAll_insert_of_ne (ne_of_isCorsName h (by simp)),
          MultiMap.getAll_remove_of_ne (ne_of_isCorsName h (by simp)),
          MultiMap.getAll_remove_of_ne (ne_of_isCorsName h (by simp))]
      · rfl

theorem getAll_stripBody {resp : Response} (h : isCorsName name = true) :
    (stripBody resp).headers.getAll name = resp.headers.getAll name := by
  simp only [stripBody]
  split
  · exact MultiMap.getAll_insert_of_ne (ne_of_isCorsName h (by simp))
  · rfl

theorem getAll_rejection {status : ℕ} {code : String} {retryAfter : Option ℕ} {json : Bool}
    (h : isCorsName name = true) :
    (rejection status code retryAfter json).headers.getAll name = [] := by
  simp only [rejection]
  rw [getAll_insertSome_of_ne (ne_of_isCorsName h (by simp)),
    MultiMap.getAll_append_of_ne (ne_of_isCorsName h (by simp)), MultiMap.getAll_empty]

theorem getAll_check {protection : Protection} {req : Request} {resp : Response}
    (hcheck : protection.check req = some resp) (h : isCorsName name = true) :
    resp.headers.getAll name = [] := by
  unfold Protection.check at hcheck
  dsimp only at hcheck
  split at hcheck
  · cases hcheck
    exact getAll_rejection h
  · split at hcheck
    · cases hcheck
      exact getAll_rejection h
    · split at hcheck
      · cases hcheck
        exact getAll_rejection h
      · split at hcheck
        · cases hcheck
          exact getAll_rejection h
        · cases hcheck

end

/-! ## The second stage -/

/-- No `[headers]` entry is a CORS header. -/
def Protection.CorsAside (protection : Protection) : Prop :=
  ∀ e ∈ protection.responseHeaders, isCorsName e.1 = false

/-- The response phase leaves a CORS header as `Cors.apply` made it. -/
theorem getAll_respond {protection : Protection} {cors : Cors} {id : Text} {req : Request}
    {resp : Response} {name : String} (hcors : protection.cors = some cors)
    (haside : protection.CorsAside) (h : isCorsName name = true) :
    (respond protection id req resp).headers.getAll name =
      (cors.apply (req.headers.get "origin")
        (insertSome resp.headers "x-request-id" (fromStr id))).getAll name := by
  have hne : ∀ e ∈ protection.responseHeaders, name ≠ e.1 := fun e he =>
    ne_of_isCorsName h (haside e he)
  unfold respond
  rw [hcors]
  dsimp only
  split <;> split <;>
    simp only [getAll_stripBody h, getAll_compress h, getAll_applyHeaders hne]

namespace Cors

variable {cors : Cors} {headers : Headers} {name : String}

theorem getAll_apply_refused {origin : Option Text} (horigin : origin.bind cors.allowOrigin = none)
    (h : isCorsName name = true) : (cors.apply origin headers).getAll name = headers.getAll name := by
  cases origin with
  | none => rfl
  | some origin =>
      rw [Option.bind_some] at horigin
      simp only [Cors.apply, horigin]
      exact getAll_appendVary (ne_of_isCorsName h (by simp))

theorem getAll_apply_origin {origin allow : Text} (horigin : cors.allowOrigin origin = some allow) :
    (cors.apply (some origin) headers).getAll "access-control-allow-origin" = [allow] := by
  simp only [Cors.apply, horigin]
  rw [getAll_insertSome_of_ne (by decide), getAll_insertSome_of_ne (by decide),
    MultiMap.getAll_insert_self]

theorem getAll_apply_credentials {origin allow : Text}
    (horigin : cors.allowOrigin origin = some allow)
    (h : headers.getAll "access-control-allow-credentials" = [] ∨
      headers.getAll "access-control-allow-credentials" = cors.credentialsValue.toList) :
    (cors.apply (some origin) headers).getAll "access-control-allow-credentials" =
      cors.credentialsValue.toList := by
  simp only [Cors.apply, horigin]
  rw [getAll_insertSome_of_ne (by decide)]
  apply getAll_insertSome_self
  rwa [MultiMap.getAll_insert_of_ne (by decide), getAll_appendVary (by decide)]

theorem getAll_apply_of_ne {origin : Option Text} (h : isCorsName name = true)
    (horigin : name ≠ "access-control-allow-origin")
    (hcredentials : name ≠ "access-control-allow-credentials")
    (hexpose : name ≠ "access-control-expose-headers") :
    (cors.apply origin headers).getAll name = headers.getAll name := by
  cases horig : origin.bind cors.allowOrigin with
  | none => exact getAll_apply_refused horig h
  | some allow =>
      obtain ⟨o, rfl, ho⟩ := Option.bind_eq_some_iff.mp horig
      simp only [Cors.apply, ho]
      rw [getAll_insertSome_of_ne hexpose, getAll_insertSome_of_ne hcredentials,
        MultiMap.getAll_insert_of_ne horigin,
        getAll_appendVary (ne_of_isCorsName h (by simp))]

end Cors

/-! ## What a preflight asks for -/

/-- The header names a preflight asks for, over all lines. -/
def Request.requestedNames (req : Request) : List Text :=
  (((req.headers.getAll "access-control-request-headers").flatMap (List.splitOn ',')).map
    (List.trimBy isOws)).filter (· ≠ [])

/-- Whether the policy lists a requested header name. -/
def Cors.nameAllowed (cors : Cors) (name : Text) : Bool :=
  (toStr name).any fun text => cors.headerListed (toAsciiLowercase text)

/-- An `OPTIONS` request with an origin and a requested method. -/
structure Request.Preflight (req : Request) (origin requested : Text) : Prop where
  method : req.method = .options
  origin : req.headers.get "origin" = some origin
  requested : req.headers.get "access-control-request-method" = some requested

/-- The policy allows the origin, the method and every header name of a preflight. -/
structure Cors.Allows (cors : Cors) (req : Request) (origin requested : Text) : Prop where
  origin : (cors.allowOrigin origin).isSome = true
  method : cors.methodAllowed requested = true
  names : ∀ name ∈ req.requestedNames, cors.nameAllowed name = true

/-- An empty member of the first line of the requested headers is in the policy's list. -/
def Cors.BlankListed (cors : Cors) (req : Request) : Prop :=
  ∀ line, req.headers.get "access-control-request-headers" = some line →
    ∀ piece ∈ line.splitOn ',', piece.trimBy isOws = [] → [] ∈ cors.allowedHeaders

theorem mem_requestedNames_of_get {req : Request} {line piece : Text}
    (hline : req.headers.get "access-control-request-headers" = some line)
    (hpiece : piece ∈ line.splitOn ',') (hne : piece.trimBy isOws ≠ []) :
    piece.trimBy isOws ∈ req.requestedNames := by
  unfold Request.requestedNames
  rw [List.mem_filter, List.mem_map]
  refine ⟨⟨piece, List.mem_flatMap.mpr ⟨line, List.mem_of_head? hline, hpiece⟩, rfl⟩, ?_⟩
  exact decide_eq_true hne

/-- A line is visible when what its members leave after trimming is. -/
theorem all_visible_iff_pieces {line : Text} :
    line.all visible = true ↔
      ∀ piece ∈ line.splitOn ',', (piece.trimBy isOws).all visible = true := by
  constructor
  · intro h piece hpiece
    have hvis := all_visible_of_mem_splitOn h hpiece
    rw [List.all_eq_true] at hvis ⊢
    exact fun c hc => hvis c ((List.trimBy_sublist piece).subset hc)
  · intro h
    rw [List.all_eq_true]
    intro c hc
    by_cases hne : c = ','
    · subst hne
      decide
    · obtain ⟨piece, hpiece, hc⟩ := (List.mem_iff_splitOn hne).mp hc
      by_cases hows : isOws c = true
      · exact visible_of_isOws hows
      · have hmem := List.mem_trimBy hc (by simpa using hows)
        exact List.all_eq_true.mp (h piece hpiece) c hmem

namespace Cors

variable {cors : Cors} {req : Request} {origin requested : Text}

theorem nameAllowed_eq {name : Text} (h : name.all visible = true) :
    cors.nameAllowed name = cors.headerListed (toAsciiLowercase name) := by
  simp [nameAllowed, toStr, h]

theorem visible_of_nameAllowed {name : Text} (h : cors.nameAllowed name = true) :
    name.all visible = true := by
  unfold nameAllowed toStr at h
  split at h
  · assumption
  · cases h

theorem nameAllowed_nil : cors.nameAllowed [] = true ↔ [] ∈ cors.allowedHeaders := by
  have halways : alwaysAllowedHeaders.contains [] = false := by decide +kernel
  rw [nameAllowed_eq rfl, headerListed, toAsciiLowercase, List.map_nil, halways, Bool.false_or,
    List.contains_iff_mem]

/-- The code's verdict on the requested headers: the members of the first line. -/
theorem headersAllowed_iff :
    cors.headersAllowed req.headers = true ↔
      ∀ line, req.headers.get "access-control-request-headers" = some line →
        ∀ piece ∈ line.splitOn ',', cors.nameAllowed (piece.trimBy isOws) = true := by
  unfold headersAllowed
  cases hline : req.headers.get "access-control-request-headers" with
  | none => simp
  | some line =>
      simp only [Option.some.injEq, forall_eq']
      by_cases hvis : line.all visible = true
      · have hpieces := all_visible_iff_pieces.mp hvis
        simp only [toStr, hvis, if_true, List.all_eq_true]
        refine forall₂_congr fun piece hpiece => ?_
        rw [trim_eq_trimBy_isOws (all_visible_of_mem_splitOn hvis hpiece),
          nameAllowed_eq (hpieces piece hpiece)]
      · simp only [toStr, hvis, if_false, Bool.false_eq_true, false_iff]
        intro h
        exact hvis (all_visible_iff_pieces.mpr fun piece hpiece =>
          visible_of_nameAllowed (h piece hpiece))

theorem headersAllowed_of_names (hnames : ∀ name ∈ req.requestedNames, cors.nameAllowed name = true)
    (hblank : cors.BlankListed req) : cors.headersAllowed req.headers = true := by
  rw [headersAllowed_iff]
  intro line hline piece hpiece
  by_cases hne : piece.trimBy isOws = []
  · rw [hne, nameAllowed_nil]
    exact hblank line hline piece hpiece hne
  · exact hnames _ (mem_requestedNames_of_get hline hpiece hne)

theorem blankListed_of_headersAllowed (h : cors.headersAllowed req.headers = true) :
    cors.BlankListed req := by
  intro line hline piece hpiece hnil
  have := headersAllowed_iff.mp h line hline piece hpiece
  rwa [hnil, nameAllowed_nil] at this

end Cors

/-! ## The answer to a preflight -/

/-- The headers of an approved preflight are the policy's. -/
structure Cors.GrantsPolicy (cors : Cors) (origin : Text) (headers : Headers) : Prop where
  origin : headers.getAll "access-control-allow-origin" = (cors.allowOrigin origin).toList
  methods : headers.getAll "access-control-allow-methods" = [cors.methods]
  names : headers.getAll "access-control-allow-headers" = cors.allowedHeadersValue.toList
  credentials : headers.getAll "access-control-allow-credentials" = cors.credentialsValue.toList
  maxAge : headers.getAll "access-control-max-age" = cors.maxAge.toList

/-- There is no `Access-Control-Allow-*` header. -/
def GrantsNothing (headers : Headers) : Prop :=
  ∀ name, isAllowName name = true → headers.getAll name = []

namespace Cors

variable {cors : Cors} {req : Request} {origin requested : Text}

theorem preflight_eq_none (h : ¬∃ origin requested, req.Preflight origin requested) :
    cors.preflight req = none := by
  unfold preflight
  split
  · rfl
  · rename_i hmethod
    split
    · rename_i origin requested horigin hrequested
      exact absurd ⟨origin, requested, not_not.mp hmethod, horigin, hrequested⟩ h
    · rfl

/-- The headers of the answer before the response phase. -/
theorem preflight_eq (h : req.Preflight origin requested) :
    cors.preflight req = some { emptyResponse 204 with
      headers :=
        match cors.allowOrigin origin with
        | some allow =>
            if cors.methodAllowed requested && cors.headersAllowed req.headers then
              cors.approve allow (varyPreflight .empty)
            else varyPreflight .empty
        | none => varyPreflight .empty } := by
  unfold preflight
  rw [h.method, h.origin, h.requested]
  rfl

theorem approve_grantsPolicy {allow : Text} (horigin : cors.allowOrigin origin = some allow)
    {headers : Headers} (h : ∀ name, isCorsName name = true → headers.getAll name = []) :
    cors.GrantsPolicy origin (cors.approve allow headers) := by
  have hname : headers.getAll "access-control-allow-headers" = [] := h _ (by simp)
  have hcred : headers.getAll "access-control-allow-credentials" = [] := h _ (by simp)
  have hage : headers.getAll "access-control-max-age" = [] := h _ (by simp)
  constructor
  · rw [horigin, approve]
    simp
  · simp [approve]
  · simp only [approve]
    rw [getAll_insertSome_of_ne (by decide), getAll_insertSome_of_ne (by decide)]
    exact getAll_insertSome_self (.inl (by simp [hname]))
  · simp only [approve]
    rw [getAll_insertSome_of_ne (by decide)]
    exact getAll_insertSome_self (.inl (by simp [hcred]))
  · simp only [approve]
    exact getAll_insertSome_self (.inl (by simp [hage]))

/-- The response phase keeps what an approved preflight grants. -/
theorem GrantsPolicy.apply {headers : Headers} (h : cors.GrantsPolicy origin headers)
    (horigin : (cors.allowOrigin origin).isSome = true) :
    cors.GrantsPolicy origin (cors.apply (some origin) headers) := by
  obtain ⟨allow, hallow⟩ := Option.isSome_iff_exists.mp horigin
  constructor
  · rw [hallow]
    exact getAll_apply_origin hallow
  · rw [getAll_apply_of_ne (by simp) (by decide) (by decide) (by decide)]
    exact h.methods
  · rw [getAll_apply_of_ne (by simp) (by decide) (by decide) (by decide)]
    exact h.names
  · exact getAll_apply_credentials hallow (.inr h.credentials)
  · rw [getAll_apply_of_ne (by simp) (by decide) (by decide) (by decide)]
    exact h.maxAge

end Cors

/-! ## The response that is sent -/

section

variable {ε : Type*}

/-- What a policy promises of a sent response: an admitted preflight is granted all of the
policy or nothing, and any other response carries `Access-Control-Allow-Origin` just when
the request's origin is allowed. -/
structure Cors.Kept (cors : Cors) (protection : Protection) (req : Request) (headers : Headers) :
    Prop where
  granted : ∀ origin requested, req.Preflight origin requested → protection.check req = none →
    cors.Allows req origin requested → cors.GrantsPolicy origin headers
  refused : ∀ origin requested, req.Preflight origin requested → protection.check req = none →
    ¬cors.Allows req origin requested → GrantsNothing headers
  other : ¬(protection.check req = none ∧ ∃ origin requested, req.Preflight origin requested) →
    (headers.getAll "access-control-allow-origin" ≠ [] ↔
      ∃ origin, req.headers.get "origin" = some origin ∧ (cors.allowOrigin origin).isSome = true)

/-- The condition on an admitted preflight: a request whose origin is allowed asks for nothing
that is refused. -/
def Cors.AsksAllowed (cors : Cors) (protection : Protection) (req : Request) : Prop :=
  ∀ origin requested, req.Preflight origin requested → protection.check req = none →
    (cors.allowOrigin origin).isSome = true →
      cors.Allows req origin requested ∧ cors.BlankListed req

variable {cors : Cors} {protection : Protection} {rest : Request → Served ε}
  {panicText id : Text} {req : Request}

/-- A response without `Access-Control-Allow-Origin` gets one for an allowed origin. -/
theorem allowOrigin_respond {resp : Response} (hcors : protection.cors = some cors)
    (haside : protection.CorsAside)
    (hresp : resp.headers.getAll "access-control-allow-origin" = []) :
    (respond protection id req resp).headers.getAll "access-control-allow-origin" ≠ [] ↔
      ∃ origin, req.headers.get "origin" = some origin ∧
        (cors.allowOrigin origin).isSome = true := by
  rw [getAll_respond hcors haside (by simp)]
  cases hallow : (req.headers.get "origin").bind cors.allowOrigin with
  | none =>
      rw [Cors.getAll_apply_refused hallow (by simp),
        getAll_insertSome_of_ne (by decide), hresp]
      simp only [ne_eq, not_true_eq_false, false_iff, not_exists, not_and]
      intro origin horigin
      rw [horigin, Option.bind_some] at hallow
      simp [hallow]
  | some allow =>
      obtain ⟨origin, horigin, hsome⟩ := Option.bind_eq_some_iff.mp hallow
      rw [horigin, Cors.getAll_apply_origin hsome]
      simp [hsome]

/-- The response to an admitted preflight. -/
theorem handle_preflight (rest : Request → Served ε) (panicText id : Text)
    {origin requested : Text} (hcors : protection.cors = some cors)
    (hpre : req.Preflight origin requested) (hcheck : protection.check req = none) :
    ∃ resp, cors.preflight req = some resp ∧
      handle protection rest panicText id req = .ok (respond protection id req resp) := by
  refine ⟨_, Cors.preflight_eq hpre, ?_⟩
  unfold handle handleInner
  rw [hcheck, hcors]
  dsimp only
  rw [Option.bind_some, Cors.preflight_eq hpre]

/-- A request that is no admitted preflight leaves with a response that had no CORS header. -/
theorem handle_other {resp : Response} (hcors : protection.cors = some cors)
    (hrest : ∀ resp, rest req = .returned (.ok resp) →
      resp.headers.getAll "access-control-allow-origin" = [])
    (hother : ¬(protection.check req = none ∧ ∃ origin requested, req.Preflight origin requested))
    (h : handle protection rest panicText id req = .ok resp) :
    ∃ inner, inner.headers.getAll "access-control-allow-origin" = [] ∧
      resp = respond protection id req inner := by
  unfold handle handleInner at h
  cases hcheck : protection.check req with
  | some rejected =>
      rw [hcheck] at h
      exact ⟨rejected, getAll_check hcheck (by simp), (Except.ok.inj h).symm⟩
  | none =>
      have hnone : protection.cors.bind (·.preflight req) = none := by
        rw [hcors, Option.bind_some]
        exact Cors.preflight_eq_none fun hpre => hother ⟨hcheck, hpre⟩
      rw [hcheck, hnone] at h
      dsimp only at h
      cases hserved : rest req with
      | panicked =>
          rw [hserved] at h
          refine ⟨errorResponse panicText, ?_, (Except.ok.inj h).symm⟩
          exact MultiMap.getAll_append_of_ne (by decide)
      | returned result =>
          rw [hserved] at h
          cases result with
          | error e => cases h
          | ok inner => exact ⟨inner, hrest inner hserved, (Except.ok.inj h).symm⟩

theorem Cors.GrantsPolicy.congr {origin : Text} {headers headers' : Headers}
    (h : cors.GrantsPolicy origin headers)
    (heq : ∀ name, isCorsName name = true → headers'.getAll name = headers.getAll name) :
    cors.GrantsPolicy origin headers' := by
  constructor
  · rw [heq _ (by simp), h.origin]
  · rw [heq _ (by simp), h.methods]
  · rw [heq _ (by simp), h.names]
  · rw [heq _ (by simp), h.credentials]
  · rw [heq _ (by simp), h.maxAge]

theorem getAll_varyPreflight_empty {name : String} (h : isCorsName name = true) :
    (varyPreflight .empty).getAll name = [] := by
  rw [getAll_varyPreflight (ne_of_isCorsName h (by simp)), MultiMap.getAll_empty]

/-- A preflight the code approves is granted the policy. -/
theorem respond_approved {origin allow : Text} {resp : Response}
    (hcors : protection.cors = some cors) (haside : protection.CorsAside)
    (horigin : req.headers.get "origin" = some origin)
    (hallow : cors.allowOrigin origin = some allow)
    (hresp : resp.headers = cors.approve allow (varyPreflight .empty)) :
    cors.GrantsPolicy origin (respond protection id req resp).headers := by
  have happroved : cors.GrantsPolicy origin resp.headers := by
    rw [hresp]
    exact Cors.approve_grantsPolicy hallow fun name => getAll_varyPreflight_empty
  have hid : cors.GrantsPolicy origin (insertSome resp.headers "x-request-id" (fromStr id)) :=
    happroved.congr fun name hname =>
      getAll_insertSome_of_ne (ne_of_isCorsName hname (by simp))
  refine (hid.apply (by simp [hallow])).congr fun name hname => ?_
  rw [getAll_respond hcors haside hname, horigin]

/-- A preflight from an origin that is not allowed is granted nothing. -/
theorem respond_foreign {origin : Text} {resp : Response}
    (hcors : protection.cors = some cors) (haside : protection.CorsAside)
    (horigin : req.headers.get "origin" = some origin) (hallow : cors.allowOrigin origin = none)
    (hresp : resp.headers = varyPreflight .empty) :
    GrantsNothing (respond protection id req resp).headers := by
  intro name hname
  have hname := isCorsName_of_isAllowName hname
  rw [getAll_respond hcors haside hname, horigin, Cors.getAll_apply_refused (by rw [Option.bind_some, hallow]) hname,
    getAll_insertSome_of_ne (ne_of_isCorsName hname (by simp)), hresp]
  exact getAll_varyPreflight_empty hname

/-- A preflight that is not approved gets its allowed origin from the response phase, and no
methods. -/
theorem respond_unapproved (id : Text) {origin allow : Text} {resp : Response}
    (hcors : protection.cors = some cors) (haside : protection.CorsAside)
    (horigin : req.headers.get "origin" = some origin)
    (hallow : cors.allowOrigin origin = some allow)
    (hresp : resp.headers = varyPreflight .empty) :
    (respond protection id req resp).headers.getAll "access-control-allow-origin" = [allow] ∧
      (respond protection id req resp).headers.getAll "access-control-allow-methods" = [] := by
  constructor
  · rw [getAll_respond hcors haside (by simp), horigin, Cors.getAll_apply_origin hallow]
  · rw [getAll_respond hcors haside (by simp),
      Cors.getAll_apply_of_ne (by simp) (by decide) (by decide) (by decide),
      getAll_insertSome_of_ne (by decide), hresp]
    exact getAll_varyPreflight_empty (by simp)

/-- An admitted preflight is granted the policy where it is allowed and nothing elsewhere, exactly
if an allowed origin asks only for what is allowed, the empty members of its list included. -/
theorem preflight_kept_iff {origin requested : Text} {resp : Response}
    (hcors : protection.cors = some cors) (haside : protection.CorsAside)
    (hpre : req.Preflight origin requested) (hresp : cors.preflight req = some resp) :
    ((cors.Allows req origin requested →
        cors.GrantsPolicy origin (respond protection id req resp).headers) ∧
      (¬cors.Allows req origin requested →
        GrantsNothing (respond protection id req resp).headers)) ↔
    ((cors.allowOrigin origin).isSome = true →
      cors.Allows req origin requested ∧ cors.BlankListed req) := by
  rw [Cors.preflight_eq hpre, Option.some.injEq] at hresp
  cases hallow : cors.allowOrigin origin with
  | none =>
      rw [hallow] at hresp
      have hnothing : GrantsNothing (respond protection id req resp).headers :=
        respond_foreign hcors haside hpre.origin hallow (by rw [← hresp])
      have hno : ¬cors.Allows req origin requested := fun h => by
        have := h.origin
        rw [hallow] at this
        cases this
      simp [hno, hnothing]
  | some allow =>
      rw [hallow] at hresp
      simp only [Option.isSome_some, forall_const]
      by_cases hverdict : (cors.methodAllowed requested && cors.headersAllowed req.headers) = true
      · have hgrants : cors.GrantsPolicy origin (respond protection id req resp).headers :=
          respond_approved hcors haside hpre.origin hallow (by rw [← hresp]; simp [hverdict])
        have hsome : ¬GrantsNothing (respond protection id req resp).headers := fun h => by
          have := hgrants.origin.symm.trans (h _ (by simp))
          simp [hallow] at this
        have hblank := Cors.blankListed_of_headersAllowed (Bool.and_eq_true_iff.mp hverdict).2
        simp only [hgrants, implies_true, true_and, hsome, imp_false, not_not, hblank, and_true]
      · obtain ⟨horigin, hmethods⟩ := @respond_unapproved cors protection req id origin
          allow resp hcors haside hpre.origin hallow (by rw [← hresp]; simp [hverdict])
        have hsome : ¬GrantsNothing (respond protection id req resp).headers := fun h => by
          have := horigin.symm.trans (h _ (by simp))
          simp at this
        have hpolicy : ¬cors.GrantsPolicy origin (respond protection id req resp).headers :=
          fun h => by
            have := hmethods.symm.trans h.methods
            simp at this
        constructor
        · intro h
          by_cases hallows : cors.Allows req origin requested
          · exact absurd (h.1 hallows) hpolicy
          · exact absurd (h.2 hallows) hsome
        · intro h
          refine absurd ?_ hverdict
          rw [Bool.and_eq_true]
          exact ⟨h.1.method, Cors.headersAllowed_of_names h.1.names h.2⟩

/-- The sent response keeps the policy's promise exactly when an admitted preflight from an
allowed origin asks for nothing that is refused. -/
theorem handle_kept_iff (hcors : protection.cors = some cors) (haside : protection.CorsAside)
    (hrest : ∀ resp, rest req = .returned (.ok resp) →
      resp.headers.getAll "access-control-allow-origin" = []) :
    (∀ resp, handle protection rest panicText id req = .ok resp →
      cors.Kept protection req resp.headers) ↔ cors.AsksAllowed protection req := by
  constructor
  · intro h origin requested hpre hcheck
    obtain ⟨resp, hresp, hhandle⟩ := handle_preflight rest panicText id hcors hpre hcheck
    have hkept := h _ hhandle
    exact (preflight_kept_iff hcors haside hpre hresp).mp
      ⟨hkept.granted origin requested hpre hcheck, hkept.refused origin requested hpre hcheck⟩
  · intro h resp hresp
    have hpreflight : ∀ {origin requested}, req.Preflight origin requested →
        protection.check req = none →
        (cors.Allows req origin requested → cors.GrantsPolicy origin resp.headers) ∧
        (¬cors.Allows req origin requested → GrantsNothing resp.headers) := by
      intro origin requested hpre hcheck
      obtain ⟨answer, hanswer, hhandle⟩ := handle_preflight rest panicText id hcors hpre hcheck
      rw [hresp, Except.ok.injEq] at hhandle
      rw [hhandle]
      exact (preflight_kept_iff hcors haside hpre hanswer).mpr (h origin requested hpre hcheck)
    constructor
    · intro origin requested hpre hcheck
      exact (hpreflight hpre hcheck).1
    · intro origin requested hpre hcheck
      exact (hpreflight hpre hcheck).2
    · intro hother
      obtain ⟨inner, hinner, rfl⟩ := handle_other hcors hrest hother hresp
      exact allowOrigin_respond hcors haside hinner

end

/-! ## One policy -/

/-- One origin may read with `GET` and send `Content-Type`. -/
def readOnlyConfig : CorsConfig where
  origins := some ["https://app.example".toList]
  methods := some ["GET".toList]
  headers := some ["Content-Type".toList]
  exposeHeaders := none
  credentials := false
  maxAge := some 600

def readOnlyCors : Cors where
  origins := some ["https://app.example".toList]
  methods := "GET".toList
  allowedHeaders := ["content-type".toList]
  allowedHeadersValue := some "content-type".toList
  exposeHeaders := none
  credentials := false
  maxAge := some "600".toList

def readOnlyProtection : Protection where
  maxBodyBytes := 1048576
  maxUriBytes := 4096
  rate _ := none
  cors := Cors.new readOnlyConfig
  compression := ⟨false, fun _ => none, fun _ => false⟩
  responseHeaders := [("x-frame-options", "DENY".toList)]

/-- A preflight from the allowed origin for a method, with `Content-Type`. -/
def preflightFor (requested : String) : Request where
  method := .options
  path := "/notes".toList
  query := none
  headers := ⟨[("origin", "https://app.example".toList),
    ("access-control-request-method", requested.toList),
    ("access-control-request-headers", "content-type".toList)]⟩

theorem readOnly_cors : readOnlyProtection.cors = some readOnlyCors := by decide +kernel

theorem readOnly_aside : readOnlyProtection.CorsAside := by
  intro e he
  rw [List.mem_singleton.mp he]
  decide +kernel

theorem preflightFor_preflight (requested : String) :
    (preflightFor requested).Preflight "https://app.example".toList requested.toList :=
  ⟨rfl, rfl, rfl⟩

/-- A preflight for `GET` gets what the policy says. -/
theorem handle_kept_get :
    ∃ resp, handle readOnlyProtection (fun _ => (.panicked : Served Unit)) []
        "7f".toList (preflightFor "GET") = .ok resp ∧
      readOnlyCors.Kept readOnlyProtection (preflightFor "GET") resp.headers := by
  obtain ⟨answer, _, hhandle⟩ := handle_preflight (fun _ => (.panicked : Served Unit)) []
    "7f".toList readOnly_cors (preflightFor_preflight "GET") (by decide +kernel)
  refine ⟨_, hhandle, (handle_kept_iff readOnly_cors readOnly_aside (by simp)).mpr ?_ _ hhandle⟩
  intro origin requested hpre _ _
  cases hpre.origin.symm.trans (preflightFor_preflight "GET").origin
  cases hpre.requested.symm.trans (preflightFor_preflight "GET").requested
  refine ⟨⟨by decide +kernel, by decide +kernel, List.all_eq_true.mp (by decide +kernel)⟩, ?_⟩
  intro line hline piece hpiece hnil
  have hget : (preflightFor "GET").headers.get "access-control-request-headers" =
      some "content-type".toList := rfl
  cases hline.symm.trans hget
  rw [show "content-type".toList.splitOn ',' = ["content-type".toList] by decide +kernel,
    List.mem_singleton] at hpiece
  subst hpiece
  exact absurd hnil (by decide +kernel)

/-- A preflight for `DELETE` is refused, and the response carries the allowed origin. -/
theorem handle_delete_granted_origin :
    readOnlyCors.methodAllowed "DELETE".toList = false ∧
      ∃ resp, handle readOnlyProtection (fun _ => (.panicked : Served Unit)) []
          "7f".toList (preflightFor "DELETE") = .ok resp ∧
        resp.headers.getAll "access-control-allow-origin" = ["https://app.example".toList] ∧
        ¬readOnlyCors.Kept readOnlyProtection (preflightFor "DELETE") resp.headers := by
  have hrefused : readOnlyCors.methodAllowed "DELETE".toList = false := by decide +kernel
  obtain ⟨answer, hanswer, hhandle⟩ := handle_preflight (fun _ => (.panicked : Served Unit)) []
    "7f".toList readOnly_cors (preflightFor_preflight "DELETE") (by decide +kernel)
  have hallow : readOnlyCors.allowOrigin "https://app.example".toList =
      some "https://app.example".toList := by decide +kernel
  rw [Cors.preflight_eq (preflightFor_preflight "DELETE"), Option.some.injEq] at hanswer
  have hheaders : answer.headers = varyPreflight .empty := by
    rw [← hanswer, hallow, hrefused]
    rfl
  have horigin := (respond_unapproved "7f".toList readOnly_cors readOnly_aside
    (preflightFor_preflight "DELETE").origin hallow hheaders).1
  refine ⟨hrefused, _, hhandle, horigin, fun hkept => ?_⟩
  have hno : ¬readOnlyCors.Allows (preflightFor "DELETE") "https://app.example".toList
      "DELETE".toList := fun h => by
    rw [h.method] at hrefused
    cases hrefused
  have hnothing := hkept.refused _ _ (preflightFor_preflight "DELETE") (by decide +kernel) hno
  rw [hnothing _ (by decide +kernel)] at horigin
  cases horigin

end Nitr.Http
