import Nitr.Http.Csrf
import Nitr.Lib.Ensures
import Mathlib.Data.List.Induction
import Mathlib.Data.List.Perm.Basic

/-! # What the CSRF middleware lets through

Requests of any number of states pass through one middleware in any order. The MAC is ideal: at
each time it accepts the signed cookies given out so far and nothing else. Tokens are fresh:
entropy never repeats. -/

namespace Nitr.Csrf

open Nitr.Cookies (Mac verify sign asBytes macInput payloadOf)
open Nitr.Session (getCookie)

/-! ## Runs -/

/-- What `getrandom` fills for each arrival that asks for a token. -/
structure Entropy where
  fill : ℕ → Option (List UInt8)
  fresh : ∀ i j bytes, fill i = some bytes → fill j = some bytes → i = j

/-- `new_token`. -/
def Entropy.token (entropy : Entropy) (k : ℕ) : Option String :=
  (entropy.fill k).map fun bytes => .ofList (Base64Url.encode bytes)

/-- The ideal MAC under the middleware's secret after the cookies of some tokens went out. -/
def idealMac (tag : List UInt8 → List UInt8) (cookie : String) (tokens : List String) : Mac where
  tag _ := tag
  verifySlice _ message t :=
    (Cookies.issued (tokens.map fun token => (cookie, token))).any (· = message) && t = tag message

/-- A request inside `next`, with the tokens given out when it arrived. -/
structure Waiting where
  req : Request
  seen : List String
  started : Started

/-- The tokens given out so far, the number of arrivals, and the requests inside `next`. -/
structure World where
  issued : List String
  arrivals : ℕ
  waiting : List Waiting

def World.init : World := ⟨[], 0, []⟩

inductive Event where
  | arrive (req : Request)
  | returned (k : ℕ) (outcome : Option Value)

/-- What an event shows. -/
inductive Reply where
  | called
  | failed (err : CsrfError)
  | answered (request : Waiting) (value : Value)
  | none

section

variable (tag : List UInt8 → List UInt8) (entropy : Entropy) (config : Config)

/-- The second part of the middleware: a table that goes out carries the token it signed. -/
def World.answer (w : World) (p : Waiting) (value : Value) : World × Reply :=
  match finish (idealMac tag config.cookie w.issued) config p.started value with
  | .error err => (w, .failed err)
  | .ok (.table resp) =>
      ({ w with issued := if p.started.issue then w.issued ++ [p.started.token] else w.issued },
        .answered p (.table resp))
  | .ok .other => (w, .answered p .other)

/-- The first part of the middleware. -/
def World.arrive (w : World) (req : Request) : World × Reply :=
  let w' := { w with arrivals := w.arrivals + 1 }
  match start (idealMac tag config.cookie w.issued) config (entropy.token w.arrivals) req with
  | .error err => (w', .failed err)
  | .ok started =>
      match checked config req started with
      | .error err => (w', .failed err)
      | .ok true => ({ w' with waiting := w.waiting ++ [⟨req, w.issued, started⟩] }, .called)
      | .ok false => w'.answer tag config ⟨req, w.issued, started⟩ (.table (forbidden req))

def World.step (w : World) : Event → World × Reply
  | .arrive req => w.arrive tag entropy config req
  | .returned k outcome =>
      match w.waiting[k]? with
      | .none => (w, .none)
      | some p =>
          let w' := { w with waiting := w.waiting.eraseIdx k }
          match outcome with
          | .none => (w', .failed .next)
          | some value => w'.answer tag config p value

def World.run (events : List Event) : World :=
  events.foldl (fun w event => (w.step tag entropy config event).1) .init

/-! ## The gate -/

/-- The media type of the body, in any letter case and without parameters, is that of a
urlencoded form. -/
def Urlencoded (req : Request) : Prop :=
  ∃ ct, req.header "content-type" = some ct ∧
    Http.toAsciiLowercase (Http.trim (ct.toList.takeWhile (· ≠ ';'))) =
      "application/x-www-form-urlencoded".toList

/-- The token a request supplies: the header if present, else the field of a form. -/
def Supplies (req : Request) (token : String) : Prop :=
  req.header config.header = some token ∨
    req.header config.header = none ∧ Urlencoded req ∧
      ∃ form, req.form = some form ∧ formField form config.field = some token

/-- The request is marked as cross-site and the token cookie is not for such requests. -/
def Foreign (req : Request) : Prop :=
  req.crossSite = true ∧ config.cookieOpts.any CookieOpts.crossSite = false

/-- A form that is consulted can be read. -/
def Readable (req : Request) : Prop :=
  ¬Foreign config req → req.header config.header = none → Urlencoded req → req.form ≠ none

/-- Where the content type is consulted, it starts with the media type of a form exactly if it
has it. -/
def Spelled (req : Request) : Prop :=
  ¬Foreign config req → req.header config.header = none → (req.isForm = true ↔ Urlencoded req)

/-- The request carries the signed cookie of a token given out. -/
def Carries (w : World) (req : Request) (token : String) : Prop :=
  ∃ raw, getCookie req.cookies config.cookie = some raw ∧
    verify (idealMac tag config.cookie w.issued) config.cookie raw config.secret = some token ∧
    token ∈ w.issued

/-- A response carries the signed cookie of a token that was not given out before. -/
def CarriesNew (issued issued' : List String) (resp : ResponseTable) : Prop :=
  ∃ token values cookie, token ∉ issued ∧ issued' = issued ++ [token] ∧
    resp.cookies = .builder values ∧ cookie ∈ values ∧ cookie.name = config.cookie ∧
    cookie.value = sign (idealMac tag config.cookie issued) config.cookie token config.secret

/-- What an event gives out: a table to a request whose cookie did not verify when it arrived
carries a new token. -/
def Issues (w : World) (out : World × Reply) : Prop :=
  ∀ p resp, out.2 = .answered p (.table resp) →
    cookieToken (idealMac tag config.cookie p.seen) config p.req = none →
    CarriesNew tag config w.issued out.1.issued resp

/-- What holds of the requests that arrive in a world, and of what goes out. -/
structure Gated (w : World) : Prop where
  admits : ∀ req, isSafe req.method = false → Readable config req → Spelled config req →
    ((w.arrive tag entropy config req).2 = .called ↔
      ∃ token, Carries tag config w req token ∧ Supplies config req token ∧ ¬Foreign config req)
  drawn : ∀ req, isSafe req.method = false →
    cookieToken (idealMac tag config.cookie w.issued) config req = none →
    (w.arrive tag entropy config req).2 ≠ .called
  issues : ∀ event, Issues tag config w (w.step tag entropy config event)

end

section

variable {tag : List UInt8 → List UInt8} {entropy : Entropy} {config : Config} {w : World}

theorem idealMac_ideal (tokens : List String) (key : List UInt8) :
    (idealMac tag config.cookie tokens).Ideal key
      (Cookies.issued (tokens.map fun token => (config.cookie, token))) := by
  intro message t
  simp [idealMac]

/-- What verifies is a token given out. -/
theorem mem_of_verify {tokens : List String} {raw token : String}
    (h : verify (idealMac tag config.cookie tokens) config.cookie raw config.secret = some token) :
    token ∈ tokens := by
  have hmem := ((Cookies.verify_iff_signed (idealMac_ideal tokens _) _ _ _).mp h).1
  simpa using hmem

theorem cookieToken_eq_some {req : Request} {token : String} :
    cookieToken (idealMac tag config.cookie w.issued) config req = some token ↔
      Carries tag config w req token := by
  unfold cookieToken Carries
  rw [Option.bind_eq_some_iff]
  constructor
  · rintro ⟨raw, hraw, hverify⟩
    exact ⟨raw, hraw, hverify, mem_of_verify hverify⟩
  · rintro ⟨raw, hraw, hverify, _⟩
    exact ⟨raw, hraw, hverify⟩

theorem suppliedToken_eq {req : Request} (hform : req.header config.header = none →
    Urlencoded req → req.form ≠ none)
    (hspelled : req.header config.header = none → (req.isForm = true ↔ Urlencoded req)) :
    ∃ supplied, suppliedToken config req = .ok supplied ∧
      ∀ token, supplied = some token ↔ Supplies config req token := by
  unfold suppliedToken Supplies
  cases hheader : req.header config.header with
  | some token => exact ⟨_, rfl, by simp⟩
  | none =>
      have hiff := hspelled hheader
      by_cases hisForm : req.isForm = true
      · have hurl := hiff.mp hisForm
        obtain ⟨form, hread⟩ := Option.ne_none_iff_exists'.mp (hform hheader hurl)
        exact ⟨formField form config.field, by simp [hisForm, hread], by simp [hurl, hread]⟩
      · exact ⟨none, by simp [hisForm], by simp [← hiff, hisForm]⟩

/-- The decision about an unsafe request. -/
theorem checked_eq {req : Request} (started : Started) (hmethod : isSafe req.method = false)
    (hread : Readable config req) (hspelled : Spelled config req) :
    ∃ called, checked config req started = .ok called ∧
      (called = true ↔ started.issue = false ∧ Supplies config req started.token ∧
        ¬Foreign config req) := by
  have hforeign : (refusesCrossSite config.cookieOpts && req.crossSite) = true ↔
      Foreign config req := by
    unfold refusesCrossSite Foreign
    rw [Bool.and_eq_true, Bool.not_eq_true', and_comm]
  unfold checked consulted
  rw [hmethod, if_neg Bool.false_ne_true]
  by_cases h : Foreign config req
  · rw [if_pos (hforeign.mpr h)]
    exact ⟨false, rfl, by simp [h]⟩
  · obtain ⟨supplied, hsupplied, hspec⟩ := suppliedToken_eq (hread h) (hspelled h)
    rw [if_neg (mt hforeign.mp h), hsupplied]
    refine ⟨_, rfl, ?_⟩
    rw [← hspec, Option.any_eq_true]
    constructor
    · rintro ⟨token, rfl, hmatch⟩
      simp only [Bool.and_eq_true, Bool.not_eq_true', decide_eq_true_eq] at hmatch
      exact ⟨hmatch.1, congrArg some hmatch.2, h⟩
    · rintro ⟨hissue, rfl, _⟩
      exact ⟨_, rfl, by simp [hissue]⟩

theorem answer_ne_called (p : Waiting) (value : Value) :
    (w.answer tag config p value).2 ≠ .called := by
  unfold World.answer
  split <;> simp

theorem checked_of_issue {req : Request} {started : Started} (hmethod : isSafe req.method = false)
    (hissue : started.issue = true) : checked config req started ≠ .ok true := by
  unfold checked
  rw [hmethod, if_neg Bool.false_ne_true]
  cases consulted config req with
  | error err => simp [Except.map]
  | ok supplied => simp [Except.map, hissue]

theorem start_eq_ok {mac : Mac} {fresh : Option String} {req : Request} {started : Started}
    (h : start mac config fresh req = .ok started) :
    (cookieToken mac config req = some started.token ∧ started.issue = false) ∨
      (cookieToken mac config req = none ∧ started.issue = true ∧ fresh = some started.token) := by
  unfold start at h
  cases hcookie : cookieToken mac config req with
  | some token =>
      rw [hcookie] at h
      cases h
      exact .inl ⟨rfl, rfl⟩
  | none =>
      rw [hcookie] at h
      cases fresh with
      | none => cases h
      | some token =>
          cases h
          exact .inr ⟨rfl, rfl, rfl⟩

/-- A token drawn for a request does not let it through. -/
theorem arrive_of_drawn {req : Request} (hmethod : isSafe req.method = false)
    (h : cookieToken (idealMac tag config.cookie w.issued) config req = none) :
    (w.arrive tag entropy config req).2 ≠ .called := by
  unfold World.arrive
  simp only
  split
  · simp
  · rename_i started hstart
    obtain ⟨hcookie, _⟩ | ⟨_, hissue, _⟩ := start_eq_ok hstart
    · simp [h] at hcookie
    · split
      · simp
      · rename_i hadmits
        exact absurd hadmits (checked_of_issue hmethod hissue)
      · exact answer_ne_called _ _

theorem arrive_called_iff {req : Request} (hmethod : isSafe req.method = false)
    (hread : Readable config req) (hspelled : Spelled config req) :
    (w.arrive tag entropy config req).2 = .called ↔
      ∃ token, Carries tag config w req token ∧ Supplies config req token ∧
        ¬Foreign config req := by
  cases hcookie : cookieToken (idealMac tag config.cookie w.issued) config req with
  | none =>
      refine iff_of_false (arrive_of_drawn hmethod hcookie) ?_
      rintro ⟨token, hcarries, _⟩
      rw [← cookieToken_eq_some, hcookie] at hcarries
      cases hcarries
  | some token =>
      have hcarries : ∀ t, Carries tag config w req t ↔ token = t := by
        intro t
        rw [← cookieToken_eq_some, hcookie, Option.some.injEq]
      obtain ⟨called, hadmits, hspec⟩ := checked_eq ⟨token, false⟩ hmethod hread hspelled
      have hspec : called = true ↔ Supplies config req token ∧ ¬Foreign config req := by
        simpa using hspec
      simp only [World.arrive, start, hcookie, hadmits, hcarries, exists_eq_left']
      rw [← hspec]
      cases called with
      | true => simp
      | false => simpa using answer_ne_called _ _

/-! ## Tokens given out -/

/-- The tokens drawn for requests inside `next`. -/
def pending (waiting : List Waiting) : List String :=
  waiting.filterMap fun p => if p.started.issue then some p.started.token else none

/-- Tokens given out and tokens pending were drawn once each. -/
structure Inv (entropy : Entropy) (tag : List UInt8 → List UInt8) (config : Config) (w : World) :
    Prop where
  drawn : ∀ t ∈ w.issued ++ pending w.waiting, ∃ k < w.arrivals, entropy.token k = some t
  nodup : (w.issued ++ pending w.waiting).Nodup
  waits : ∀ p ∈ w.waiting,
    cookieToken (idealMac tag config.cookie p.seen) config p.req = none → p.started.issue = true

theorem Inv.init : Inv entropy tag config .init := ⟨by simp [World.init, pending],
  by simp [World.init, pending], by simp [World.init]⟩

theorem pending_cons {p : Waiting} {rest : List Waiting} (h : p.started.issue = true) :
    pending (p :: rest) = p.started.token :: pending rest := by
  simp [pending, h]

theorem pending_cons_of_kept {p : Waiting} {rest : List Waiting} (h : p.started.issue = false) :
    pending (p :: rest) = pending rest := by
  simp [pending, h]

theorem Inv.perm {issued : List String} {arrivals : ℕ} {waiting waiting' : List Waiting}
    (h : Inv entropy tag config ⟨issued, arrivals, waiting⟩) (hperm : waiting.Perm waiting') :
    Inv entropy tag config ⟨issued, arrivals, waiting'⟩ := by
  have hpending : (issued ++ pending waiting).Perm (issued ++ pending waiting') :=
    (hperm.filterMap _).append_left issued
  refine ⟨?_, hpending.nodup h.nodup, ?_⟩
  · intro t ht
    exact h.drawn t (hpending.mem_iff.mpr ht)
  · intro p hp
    exact h.waits p (hperm.mem_iff.mpr hp)

theorem Inv.tail {issued : List String} {arrivals : ℕ} {p : Waiting} {rest : List Waiting}
    (h : Inv entropy tag config ⟨issued, arrivals, p :: rest⟩) :
    Inv entropy tag config ⟨issued, arrivals, rest⟩ := by
  have hsub : (issued ++ pending rest).Sublist (issued ++ pending (p :: rest)) :=
    ((List.sublist_cons_self p rest).filterMap _).append_left issued
  refine ⟨?_, h.nodup.sublist hsub, ?_⟩
  · intro t ht
    exact h.drawn t (hsub.subset ht)
  · intro p' hp'
    exact h.waits p' (List.mem_cons_of_mem p hp')

theorem Inv.later {issued : List String} {arrivals : ℕ} {waiting : List Waiting}
    (h : Inv entropy tag config ⟨issued, arrivals, waiting⟩) :
    Inv entropy tag config ⟨issued, arrivals + 1, waiting⟩ := by
  refine ⟨?_, h.nodup, h.waits⟩
  intro t ht
  obtain ⟨k, hk, htoken⟩ := h.drawn t ht
  exact ⟨k, Nat.lt_succ_of_lt hk, htoken⟩

theorem Entropy.token_inj {i j : ℕ} {t : String} (hi : entropy.token i = some t)
    (hj : entropy.token j = some t) : i = j := by
  obtain ⟨bytes, hbytes, htoken⟩ := Option.map_eq_some_iff.mp hi
  obtain ⟨bytes', hbytes', htoken'⟩ := Option.map_eq_some_iff.mp hj
  have hencode := String.ofList_injective (htoken.trans htoken'.symm)
  have hsame : some bytes = some bytes' := by
    rw [← Base64Url.decode_encode bytes, hencode, Base64Url.decode_encode]
  rw [← Option.some.inj hsame] at hbytes'
  exact entropy.fresh i j bytes hbytes hbytes'

/-- A request starts with a token of its own. -/
theorem Inv.started {req : Request} {started : Started} {issued : List String} {arrivals : ℕ}
    {waiting : List Waiting} (h : Inv entropy tag config ⟨issued, arrivals, waiting⟩)
    (hstart : start (idealMac tag config.cookie issued) config (entropy.token arrivals) req =
      .ok started) :
    Inv entropy tag config ⟨issued, arrivals + 1, ⟨req, issued, started⟩ :: waiting⟩ := by
  have hlater := h.later
  obtain ⟨hcookie, hissue⟩ | ⟨hcookie, hissue, htoken⟩ := start_eq_ok hstart
  · refine ⟨?_, ?_, ?_⟩
    · rw [pending_cons_of_kept hissue]
      exact hlater.drawn
    · rw [pending_cons_of_kept hissue]
      exact hlater.nodup
    · intro p hp hnone
      rcases List.mem_cons.mp hp with rfl | hp
      · simp [hcookie] at hnone
      · exact h.waits p hp hnone
  · have hperm : (issued ++ pending (⟨req, issued, started⟩ :: waiting)).Perm
        (started.token :: (issued ++ pending waiting)) := by
      rw [pending_cons hissue]
      exact List.perm_middle
    have hnew : started.token ∉ issued ++ pending waiting := by
      intro hmem
      obtain ⟨k, hk, hdrawn⟩ := h.drawn _ hmem
      exact absurd (Entropy.token_inj hdrawn htoken) (Nat.ne_of_lt hk)
    refine ⟨?_, hperm.nodup_iff.mpr (List.nodup_cons.mpr ⟨hnew, h.nodup⟩), ?_⟩
    · intro t ht
      rcases List.mem_cons.mp (hperm.mem_iff.mp ht) with rfl | ht
      · exact ⟨arrivals, Nat.lt_succ_self _, htoken⟩
      · exact hlater.drawn t ht
    · intro p hp hnone
      rcases List.mem_cons.mp hp with rfl | hp
      · exact hissue
      · exact h.waits p hp hnone

theorem buildCookie_eq_ok {name value : String} {opts : CookieOpts} {cookie : SetCookie}
    (h : buildCookie name value opts = .ok cookie) : cookie.name = name ∧ cookie.value = value := by
  unfold buildCookie at h
  simp only [bind, Except.bind, pure, Except.pure, throw, throwThe, MonadExceptOf.throw] at h
  repeat' split at h
  all_goals cases h
  exact ⟨rfl, rfl⟩

theorem attachCookie_eq_ok {resp resp' : ResponseTable} {cookie : SetCookie}
    (h : attachCookie resp cookie = .ok resp') :
    ∃ values, resp'.cookies = .builder values ∧ cookie ∈ values := by
  unfold attachCookie at h
  split at h
  · cases h
    exact ⟨_, rfl, by simp⟩
  · cases h
    exact ⟨_, rfl, by simp⟩
  · cases h

/-- A table that goes out for a drawn token carries its signed cookie. -/
theorem finish_eq_table {mac : Mac} {started : Started} {value : Value} {resp : ResponseTable}
    (h : finish mac config started value = .ok (.table resp)) (hissue : started.issue = true) :
    ∃ values cookie, resp.cookies = .builder values ∧ cookie ∈ values ∧
      cookie.name = config.cookie ∧
      cookie.value = sign mac config.cookie started.token config.secret := by
  cases value with
  | other => cases h
  | table before =>
      simp only [finish, hissue, if_true] at h
      obtain ⟨cookie, hcookie, h⟩ := Except.bind_eq_ok_iff.mp h
      obtain ⟨after, hattach, h⟩ := Except.bind_eq_ok_iff.mp h
      cases h
      obtain ⟨values, hvalues, hmem⟩ := attachCookie_eq_ok hattach
      obtain ⟨hname, hvalue⟩ := buildCookie_eq_ok hcookie
      exact ⟨values, cookie, hvalues, hmem, hname, hvalue⟩

/-- Either nothing is given out, or the drawn token in its signed cookie. -/
theorem answer_cases (w : World) (p : Waiting) (value : Value) :
    ((w.answer tag config p value).1 = w ∧ ∀ p' resp,
      (w.answer tag config p value).2 = .answered p' (.table resp) →
        p' = p ∧ p.started.issue = false) ∨
    (p.started.issue = true ∧
      (w.answer tag config p value).1 = { w with issued := w.issued ++ [p.started.token] } ∧
      ∃ resp values cookie, (w.answer tag config p value).2 = .answered p (.table resp) ∧
        resp.cookies = .builder values ∧ cookie ∈ values ∧ cookie.name = config.cookie ∧
        cookie.value = sign (idealMac tag config.cookie w.issued) config.cookie p.started.token
          config.secret) := by
  unfold World.answer
  split
  · exact .inl ⟨rfl, by simp⟩
  · rename_i resp hfinish
    by_cases hissue : p.started.issue = true
    · obtain ⟨values, cookie, hcookie⟩ := finish_eq_table hfinish hissue
      exact .inr ⟨hissue, by simp [hissue], resp, values, cookie, rfl, hcookie⟩
    · rw [Bool.not_eq_true] at hissue
      refine .inl ⟨by simp [hissue], ?_⟩
      rintro p' resp' ⟨⟩
      exact ⟨rfl, hissue⟩
  · exact .inl ⟨rfl, by simp⟩

/-- A token pending as the first of the waiting can go out. -/
theorem Inv.answer {p : Waiting} {rest : List Waiting} {issued : List String} {arrivals : ℕ}
    (h : Inv entropy tag config ⟨issued, arrivals, p :: rest⟩) (value : Value) :
    Inv entropy tag config (World.answer tag config ⟨issued, arrivals, rest⟩ p value).1 ∧
      Issues tag config ⟨issued, arrivals, rest⟩
        (World.answer tag config ⟨issued, arrivals, rest⟩ p value) := by
  obtain ⟨hsame, hkept⟩ | ⟨hissue, hworld, resp, values, cookie, hreply, hcookie⟩ :=
    @answer_cases tag config ⟨issued, arrivals, rest⟩ p value
  · refine ⟨by rw [hsame]; exact h.tail, ?_⟩
    intro p' resp hreply hnone
    obtain ⟨rfl, hissue⟩ := hkept p' resp hreply
    rw [h.waits p' List.mem_cons_self hnone] at hissue
    cases hissue
  · have hmoved : issued ++ [p.started.token] ++ pending rest = issued ++ pending (p :: rest) := by
      rw [pending_cons hissue, List.append_assoc, List.singleton_append]
    refine ⟨?_, ?_⟩
    · rw [hworld]
      exact ⟨hmoved ▸ h.drawn, hmoved ▸ h.nodup, h.tail.waits⟩
    · intro p' resp' hreply' _
      rw [hreply] at hreply'
      cases hreply'
      refine ⟨p.started.token, values, cookie, ?_, by rw [hworld], hcookie⟩
      intro hmem
      have hnodup := h.nodup
      rw [pending_cons hissue] at hnodup
      exact (List.nodup_append.mp hnodup).2.2 _ hmem _ List.mem_cons_self rfl

theorem Inv.arrive (h : Inv entropy tag config w) (req : Request) :
    Inv entropy tag config (w.arrive tag entropy config req).1 ∧
      Issues tag config w (w.arrive tag entropy config req) := by
  unfold World.arrive
  simp only
  split
  · exact ⟨h.later, by simp [Issues]⟩
  · rename_i started hstart
    have hstarted := h.started hstart
    split
    · exact ⟨hstarted.tail, by simp [Issues]⟩
    · exact ⟨hstarted.perm (List.perm_append_singleton _ _).symm, by simp [Issues]⟩
    · exact hstarted.answer _

theorem Inv.step (h : Inv entropy tag config w) (event : Event) :
    Inv entropy tag config (w.step tag entropy config event).1 ∧
      Issues tag config w (w.step tag entropy config event) := by
  cases event with
  | arrive req => exact h.arrive req
  | returned k outcome =>
      simp only [World.step]
      cases hk : w.waiting[k]? with
      | none => exact ⟨h, by simp [Issues]⟩
      | some p =>
          obtain ⟨hlt, rfl⟩ := List.getElem?_eq_some_iff.mp hk
          have hfront := h.perm (List.getElem_cons_eraseIdx_perm hlt).symm
          cases outcome with
          | none => exact ⟨hfront.tail, by simp [Issues]⟩
          | some value => exact hfront.answer value

theorem Inv.run (events : List Event) :
    Inv entropy tag config (World.run tag entropy config events) := by
  induction events using List.reverseRecOn with
  | nil => exact .init
  | append_singleton events event ih =>
      rw [World.run, List.foldl_append]
      exact (ih.step event).1

/-- At every point of every run, an unsafe request is let through exactly if the first cookie of
the name verifies to a token given out before and the request supplies that token without being
foreign; and whoever comes without a token is sent a new one. Where a form is consulted, its
media type is one the middleware recognises. -/
theorem run_gated (tag : List UInt8 → List UInt8) (entropy : Entropy) (config : Config)
    (events : List Event) : Gated tag entropy config (World.run tag entropy config events) where
  admits _ := arrive_called_iff
  drawn _ := arrive_of_drawn
  issues event := ((Inv.run events).step event).2

end

/-! ## Two cookies of one name -/

def shop : Config where
  secret := "0123456789abcdef"
  cookie := "_csrf"
  header := "x-csrf-token"
  field := "_csrf"
  cookieOpts := none

/-- Entropy for the first visitor. -/
def oneDraw : Entropy where
  fill k := if k = 0 then some (List.replicate 32 7) else none
  fresh i j bytes hi hj := by
    have hzero : ∀ k, (if k = 0 then some (List.replicate 32 (7 : UInt8)) else none) = some bytes →
        k = 0 := by
      intro k hk
      by_contra hne
      rw [if_neg hne] at hk
      cases hk
    rw [hzero i hi, hzero j hj]

/-- The tag `HMAC-SHA256` has for the visitor's cookie. -/
def shopTag (_ : List UInt8) : List UInt8 :=
  [146, 161, 137, 71, 126, 91, 63, 219, 146, 108, 93, 82, 182, 133, 13, 151, 249, 18, 130, 203, 110,
    41, 58, 89, 18, 36, 185, 29, 52, 229, 212, 127]

def visitorToken : String := "BwcHBwcHBwcHBwcHBwcHBwcHBwcHBwcHBwcHBwcHBwc"

def visit : List Event :=
  [.arrive ⟨"1", "GET", .empty, [], none⟩, .returned 0 (some (.table ⟨200, none, "", .absent⟩))]

/-- A planted cookie stands before the one the visitor was sent. -/
def twins : Request where
  id := "2"
  method := "POST"
  headers := ⟨[("x-csrf-token", visitorToken.toList)]⟩
  cookies := [("_csrf", "planted"),
    ("_csrf", sign (idealMac shopTag "_csrf" [visitorToken]) "_csrf" visitorToken shop.secret)]
  form := none

/-- Not every cookie of the name counts: a request that carries a valid one and supplies its token
is refused when another of that name comes first. -/
theorem twins_refused :
    isSafe twins.method = false ∧ Readable shop twins ∧ Spelled shop twins ∧
      ¬(((World.run shopTag oneDraw shop visit).arrive shopTag oneDraw shop twins).2 = .called ↔
        ∃ raw token, (shop.cookie, raw) ∈ twins.cookies ∧
          verify (idealMac shopTag shop.cookie (World.run shopTag oneDraw shop visit).issued)
            shop.cookie raw shop.secret = some token ∧
          token ∈ (World.run shopTag oneDraw shop visit).issued ∧
          Supplies shop twins token ∧ ¬Foreign shop twins) := by
  have hissued : (World.run shopTag oneDraw shop visit).issued = [visitorToken] := by
    decide +kernel
  have hheader : twins.header shop.header = some visitorToken := by decide +kernel
  have hforeign : ¬Foreign shop twins := by
    intro h
    exact absurd h.1 (by decide +kernel)
  refine ⟨rfl, ?_, ?_, ?_⟩
  · intro _ hnone
    rw [hheader] at hnone
    cases hnone
  · intro _ hnone
    rw [hheader] at hnone
    cases hnone
  · intro h
    refine arrive_of_drawn rfl ?_ (h.mpr ⟨_, visitorToken, List.mem_cons_of_mem _ List.mem_cons_self,
      ?_, ?_, .inl hheader, hforeign⟩)
    · rw [hissued]
      rfl
    · rw [hissued]
      exact (Cookies.verify_iff_signed (idealMac_ideal _ _) _ _ _).mpr
        ⟨List.mem_singleton.mpr rfl, rfl⟩
    · rw [hissued]
      exact List.mem_singleton.mpr rfl

end Nitr.Csrf
