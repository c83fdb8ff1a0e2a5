import Nitr.Fetch.Client

/-! # What the exchanges of a call are

The trace of an attempt is a chain of hops, each sent after its own check. From the shape of a
chain follow where its connections go and what its requests carry. -/

namespace Nitr.Fetch

open Nitr.Http (Text eqIgnoreAsciiCase toAsciiLowercase)

section

variable {join : Url → Text → Option Url} {opts : FetchOptions}

/-! ## Chains -/

/-- An exchange of a hop: its URL was checked and its addresses came from the client. -/
structure Sent (opts : FetchOptions) (hop : Hop) (e : Exchange) : Prop where
  hop_eq : e.toHop = hop
  checked : ∃ turn host, Checked opts hop.url turn.checked host ∧
    connect opts host turn = .ok e.addrs

/-- The exchanges of an attempt from a hop on. -/
inductive Chain (join : Url → Text → Option Url) (opts : FetchOptions) :
    Hop → List Exchange → Prop
  | refused (hop : Hop) : Chain join opts hop []
  | last {hop : Hop} {e : Exchange} (sent : Sent opts hop e) : Chain join opts hop [e]
  | redirected {hop : Hop} {e : Exchange} {rest : List Exchange} {resp : Reply} {location : Text}
      {next : Url} (sent : Sent opts hop e) (reply : e.reply = .ok resp)
      (target : resp.target = some location) (joined : join hop.url location = some next)
      (tail : Chain join opts (hop.redirect next resp.status) rest) : Chain join opts hop (e :: rest)

/-- What `send` made of a checked hop. -/
theorem send_cases {hop : Hop} {turn : Turn} (h : checkUrl opts hop.url turn.checked = .ok ()) :
    (∃ err, send opts turn hop = (none, .error err)) ∨
      ∃ e, send opts turn hop = (some e, e.reply) ∧ Sent opts hop e := by
  obtain ⟨host, hchecked⟩ := Checked.of_checkUrl h
  unfold send
  rw [hchecked.host_eq]
  cases hconnect : connect opts host turn with
  | error err => exact .inl ⟨err, by simp only [hconnect]⟩
  | ok addrs =>
      let reply := if addrs = [] then .error .network else turn.reply
      refine .inr ⟨{ toHop := hop, addrs, reply }, ?_, rfl, turn, host, hchecked, hconnect⟩
      simp only [hconnect, reply]

/-- The exchange of a checked hop is a chain by itself. -/
theorem chain_send {hop : Hop} {turn : Turn} (h : checkUrl opts hop.url turn.checked = .ok ()) :
    Chain join opts hop (send opts turn hop).1.toList := by
  obtain ⟨err, hsend⟩ | ⟨e, hsend, hsent⟩ := send_cases h
  · rw [hsend]
    exact .refused hop
  · rw [hsend]
    exact .last hsent

theorem follow_chain (left : ℕ) (turns : ℕ → Turn) (hop : Hop) :
    Chain join opts hop (follow join opts left turns hop).1 := by
  fun_induction follow join opts left turns hop with
  | case1 => exact .refused _
  | case2 _ turns hop hcheck => exact chain_send hcheck
  | case3 _ turns hop hcheck => exact chain_send hcheck
  | case4 turns hop hcheck => exact chain_send hcheck
  | case5 turns hop hcheck => exact chain_send hcheck
  | case6 turns hop hcheck sent resp hreply location htarget left next hjoin rest ih =>
      obtain ⟨err, hsend⟩ | ⟨e, hsend, hsent⟩ := send_cases hcheck
      · simp only [sent, hsend] at hreply
        cases hreply
      · simp only [sent, hsend] at hreply ⊢
        exact .redirected hsent hreply htarget hjoin ih

/-- Every exchange beyond the first has used up a redirect. -/
theorem length_follow (left : ℕ) (turns : ℕ → Turn) (hop : Hop) :
    (follow join opts left turns hop).1.length ≤ left + 1 := by
  have hsend : ∀ turn hop, (send opts turn hop).1.toList.length ≤ 1 := by
    intro turn hop
    cases (send opts turn hop).1 <;> simp
  fun_induction follow join opts left turns hop with
  | case1 => simp
  | case2 => exact (hsend _ _).trans (by omega)
  | case3 => exact (hsend _ _).trans (by omega)
  | case4 => exact hsend _ _
  | case5 => exact (hsend _ _).trans (by omega)
  | case6 turns hop _ sent resp _ _ _ left next _ rest ih =>
      have hone : sent.1.toList.length ≤ 1 := hsend (turns 0) hop
      have hrest : rest.1.length ≤ left + 1 := ih
      rw [List.length_append]
      omega

/-! ## Where connections go -/

/-- What the policy asks of an exchange. -/
structure Permitted (opts : FetchOptions) (e : Exchange) : Prop where
  scheme : e.url.scheme = "http".toList ∨ e.url.scheme = "https".toList
  allowed : ∀ hosts, opts.allowedHosts = some hosts →
    ∃ host, e.url.hostStr = some host ∧ ∃ a ∈ hosts, eqIgnoreAsciiCase a host = true
  address : ∀ ip ∈ e.addrs, isForbiddenIp ip = true →
    opts.allowPrivateNetworks = true ∨
      ∃ host, e.url.hostStr = some host ∧ isPrivateHost opts.privateHosts host = true

theorem Url.hostStr_eq {url : Url} {host : Host} (h : url.host = some host) :
    url.hostStr = some url.hostName := by
  have hsome : url.hostStr.isSome = true := by rw [url.hostStr_isSome, h, Option.isSome_some]
  obtain ⟨name, hname⟩ := Option.isSome_iff_exists.mp hsome
  rw [Url.hostName, hname, Option.getD_some]

/-- The address of a literal host was in the first look, a name's came through the resolver. -/
theorem allowPrivate_of_connect {url : Url} {turn : Turn} {host : Host} {addrs : List IpAddr}
    (hchecked : Checked opts url turn.checked host) (hconnect : connect opts host turn = .ok addrs)
    {ip : IpAddr} (hip : ip ∈ addrs) (hforbidden : isForbiddenIp ip = true) :
    opts.allowPrivate url.hostName = true := by
  cases host with
  | domain name =>
      have hname : url.hostName = name := by
        rw [Url.hostName, url.hostStr_domain name hchecked.host_eq, Option.getD_some]
      simp only [connect] at hconnect
      cases hresolve : resolve opts name turn.resolved with
      | error err =>
          rw [hresolve] at hconnect
          cases hconnect
      | ok allowed =>
          rw [hresolve] at hconnect
          cases hconnect
          obtain ⟨k, _, hk⟩ := List.mem_filterMap.mp hip
          rw [hname]
          exact allowPrivate_of_resolve hresolve (List.mem_of_getElem? hk) hforbidden
  | ipv4 addr =>
      cases hconnect
      by_contra hprivate
      obtain ⟨ips, hips, hfine⟩ := hchecked.looked (Bool.eq_false_iff.mpr hprivate)
      cases hips
      rw [hfine ip hip] at hforbidden
      cases hforbidden
  | ipv6 addr =>
      cases hconnect
      by_contra hprivate
      obtain ⟨ips, hips, hfine⟩ := hchecked.looked (Bool.eq_false_iff.mpr hprivate)
      cases hips
      rw [hfine ip hip] at hforbidden
      cases hforbidden

theorem Sent.permitted {hop : Hop} {e : Exchange} (h : Sent opts hop e) : Permitted opts e := by
  obtain ⟨rfl, turn, host, hchecked, hconnect⟩ := h
  have hhost : e.url.hostStr = some e.url.hostName := Url.hostStr_eq hchecked.host_eq
  refine ⟨hchecked.scheme, ?_, ?_⟩
  · intro hosts hhosts
    exact ⟨_, hhost, hchecked.allowed hosts hhosts⟩
  · intro ip hip hforbidden
    have hprivate := allowPrivate_of_connect hchecked hconnect hip hforbidden
    rw [FetchOptions.allowPrivate, Bool.or_eq_true] at hprivate
    exact hprivate.imp_right fun hnamed => ⟨_, hhost, hnamed⟩

theorem Chain.permitted {hop : Hop} {log : List Exchange} (h : Chain join opts hop log) :
    ∀ e ∈ log, Permitted opts e := by
  induction h with
  | refused => simp
  | last sent => simpa using sent.permitted
  | redirected sent _ _ _ _ ih => simpa using ⟨sent.permitted, ih⟩

/-- The exchanges of all attempts are those of `execute`. -/
theorem mem_attempt {spec : RequestSpec} {left : ℕ} {turns : ℕ → ℕ → Turn}
    {log : List Exchange} (h : log ∈ (attempt join opts spec left turns).1) :
    ∃ k, log = (execute join opts (turns k) spec).1 := by
  induction left generalizing turns with
  | zero => exact ⟨0, List.mem_singleton.mp h⟩
  | succ left ih =>
      simp only [attempt] at h
      split at h
      · exact ⟨0, List.mem_singleton.mp h⟩
      · rcases List.mem_cons.mp h with h | h
        · exact ⟨0, h⟩
        · obtain ⟨k, hk⟩ := ih h
          exact ⟨k + 1, hk⟩

/-- No connection leaves the policy, whatever the lookups and the upstreams answer, and an
attempt makes a bounded number of exchanges. -/
theorem sendWithRetries_permitted (join : Url → Text → Option Url) (opts : FetchOptions)
    (turns : ℕ → ℕ → Turn) (spec : RequestSpec) :
    ∀ log ∈ (sendWithRetries join opts turns spec).1,
      (∀ e ∈ log, Permitted opts e) ∧ log.length ≤ maxRedirects + 1 := by
  intro log hlog
  obtain ⟨k, rfl⟩ := mem_attempt hlog
  exact ⟨(follow_chain _ _ _).permitted, length_follow _ _ _⟩

/-- A call to a name with a public address. -/
def plainSpec : RequestSpec where
  method := .get
  url :=
    { text := "http://a/".toList, scheme := "http".toList, host := some (.domain ['a'])
      hostStr := some ['a'], port := none, hostStr_isSome := rfl
      hostStr_domain := by simp }
  headers := ⟨[]⟩
  body := none
  retry := none

def plainTurn : Turn where
  checked := some [.v4 ⟨93, 184, 216, 34⟩]
  resolved := some [.v4 ⟨93, 184, 216, 34⟩]
  tried := [0]
  reply := .ok ⟨200, ⟨[]⟩⟩

theorem sendWithRetries_permitted_plain :
    ∃ e : Exchange, e.addrs = [.v4 ⟨93, 184, 216, 34⟩] ∧
      [e] ∈ (sendWithRetries (fun _ _ => none) ⟨some [['A']], false, [], 0⟩
        (fun _ _ => plainTurn) plainSpec).1 ∧
      Permitted ⟨some [['A']], false, [], 0⟩ e := by
  have hlog : [(⟨plainSpec.hop, [.v4 ⟨93, 184, 216, 34⟩], .ok ⟨200, ⟨[]⟩⟩⟩ : Exchange)] ∈
      (sendWithRetries (fun _ _ => none) ⟨some [['A']], false, [], 0⟩
        (fun _ _ => plainTurn) plainSpec).1 := by
    have hchecked : checkUrl ⟨some [['A']], false, [], 0⟩ plainSpec.url plainTurn.checked =
        .ok () := by decide
    have hsent : send ⟨some [['A']], false, [], 0⟩ plainTurn plainSpec.hop =
        (some ⟨plainSpec.hop, [.v4 ⟨93, 184, 216, 34⟩], .ok ⟨200, ⟨[]⟩⟩⟩, .ok ⟨200, ⟨[]⟩⟩) := by
      rfl
    refine List.mem_singleton.mpr ?_
    have hurl : plainSpec.hop.url = plainSpec.url := rfl
    unfold execute follow
    simp only [hurl, hchecked, hsent]
    rfl
  exact ⟨_, rfl, hlog, (sendWithRetries_permitted _ _ _ _ _ hlog).1 _ (List.mem_singleton.mpr rfl)⟩

/-! ## What requests carry -/

/-- The same scheme, host up to letter case and effective port. -/
structure SameOrigin (a b : Url) : Prop where
  scheme : a.scheme = b.scheme
  host : a.hostStr.map toAsciiLowercase = b.hostStr.map toAsciiLowercase
  port : a.portOrKnownDefault = b.portOrKnownDefault

theorem SameOrigin.refl (a : Url) : SameOrigin a a := ⟨rfl, rfl, rfl⟩

theorem SameOrigin.trans {a b c : Url} (h : SameOrigin a b) (h' : SameOrigin b c) :
    SameOrigin a c :=
  ⟨h.scheme.trans h'.scheme, h.host.trans h'.host, h.port.trans h'.port⟩

theorem sameOrigin_iff {a b : Url} : sameOrigin a b = true ↔ SameOrigin a b := by
  simp only [sameOrigin, Bool.and_eq_true, decide_eq_true_eq]
  exact ⟨fun h => ⟨h.1.1, h.1.2, h.2⟩, fun h => ⟨⟨h.scheme, h.host⟩, h.port⟩⟩

theorem redirect_url {hop : Hop} {next : Url} {status : ℕ} :
    (hop.redirect next status).url = next := by
  unfold Hop.redirect
  split <;> rfl

theorem redirect_headers {hop : Hop} {next : Url} {status : ℕ} :
    (hop.redirect next status).headers = hop.carried next := by
  unfold Hop.redirect
  split <;> rfl

theorem redirect_body {hop : Hop} {next : Url} {status : ℕ}
    (h : (hop.redirect next status).body ≠ none) :
    hop.body ≠ none ∧ ((status = 301 ∨ status = 302 ∨ status = 303) →
      hop.method = .get ∨ hop.method = .head) := by
  unfold Hop.redirect at h
  split at h
  · exact absurd rfl h
  · rename_i hkept
    refine ⟨h, ?_⟩
    intro hstatus
    by_contra hmethod
    exact hkept ⟨hstatus, not_or.mp hmethod⟩

theorem redirect_of_absent {hop : Hop} {next : Url} {status : ℕ} {name : String}
    (h : hop.headers.getAll name = []) :
    (hop.redirect next status).headers.getAll name = [] := by
  rw [redirect_headers, Hop.carried]
  split
  · exact h
  · exact MultiMap.getAll_foldl_remove_of_absent _ h

theorem redirect_of_foreign {hop : Hop} {next : Url} {status : ℕ} {name : String}
    (h : ¬SameOrigin hop.url next) (hname : name ∈ sensitiveHeaders) :
    (hop.redirect next status).headers.getAll name = [] := by
  rw [redirect_headers, Hop.carried, if_neg (mt sameOrigin_iff.mp h)]
  exact MultiMap.getAll_foldl_remove hname

/-- What a hop does not carry, no later one does. -/
theorem Chain.absent {hop : Hop} {log : List Exchange} (h : Chain join opts hop log)
    {name : String} (hname : hop.headers.getAll name = []) :
    ∀ e ∈ log, e.headers.getAll name = [] := by
  induction h with
  | refused => simp
  | last sent => simpa [sent.hop_eq] using hname
  | redirected sent _ _ _ _ ih =>
      simpa [sent.hop_eq, hname] using ih (redirect_of_absent hname)

theorem Chain.bodiless {hop : Hop} {log : List Exchange} (h : Chain join opts hop log)
    (hbody : hop.body = none) : ∀ e ∈ log, e.body = none := by
  induction h with
  | refused => simp
  | last sent => simpa [sent.hop_eq] using hbody
  | redirected sent _ _ _ _ ih =>
      refine List.forall_mem_cons.mpr ⟨by rw [sent.hop_eq, hbody], ih ?_⟩
      by_contra hkept
      exact (redirect_body hkept).1 hbody

/-- Credentials and bodies of the exchanges of an attempt. -/
structure Discreet (log : List Exchange) : Prop where
  origin : ∀ name ∈ sensitiveHeaders, ∀ (k : ℕ) (e : Exchange), log[k]? = some e →
    e.headers.getAll name ≠ [] →
    ∀ i ≤ k, ∀ f : Exchange, log[i]? = some f → SameOrigin f.url e.url
  stripped : ∀ name ∈ sensitiveHeaders, ∀ (i : ℕ) (e : Exchange), log[i]? = some e →
    e.headers.getAll name = [] →
    ∀ k, i ≤ k → ∀ f : Exchange, log[k]? = some f → f.headers.getAll name = []
  body : ∀ (k : ℕ) (e : Exchange), log[k]? = some e → e.body ≠ none →
    ∀ i < k, ∀ (f : Exchange) (resp : Reply), log[i]? = some f → f.reply = .ok resp →
      (resp.status = 301 ∨ resp.status = 302 ∨ resp.status = 303) →
      f.method = .get ∨ f.method = .head

/-- A credential a later exchange still carries was never away from the hop's origin. -/
theorem Chain.origin {hop : Hop} {log : List Exchange} (h : Chain join opts hop log)
    {name : String} (hname : name ∈ sensitiveHeaders) {e : Exchange} (he : e ∈ log)
    (hcarried : e.headers.getAll name ≠ []) : SameOrigin hop.url e.url := by
  induction h with
  | refused => cases he
  | last sent =>
      obtain rfl := List.mem_singleton.mp he
      rw [sent.hop_eq]
      exact .refl _
  | @redirected hop head rest resp location next sent _ _ _ tail ih =>
      rcases List.mem_cons.mp he with rfl | he
      · rw [sent.hop_eq]
        exact .refl _
      · have hsame : SameOrigin hop.url next := by
          by_contra hforeign
          exact hcarried (tail.absent (redirect_of_foreign hforeign hname) e he)
        have hrest := ih he
        rw [redirect_url] at hrest
        exact hsame.trans hrest

theorem Discreet.nil : Discreet [] := ⟨by simp, by simp, by simp⟩

/-- One more exchange in front. -/
theorem Discreet.cons {head : Exchange} {rest : List Exchange} (h : Discreet rest)
    (horigin : ∀ name ∈ sensitiveHeaders, ∀ e ∈ rest, e.headers.getAll name ≠ [] →
      SameOrigin head.url e.url)
    (hstripped : ∀ name ∈ sensitiveHeaders, head.headers.getAll name = [] →
      ∀ e ∈ rest, e.headers.getAll name = [])
    (hbody : ∀ e ∈ rest, e.body ≠ none → ∀ resp, head.reply = .ok resp →
      (resp.status = 301 ∨ resp.status = 302 ∨ resp.status = 303) →
      head.method = .get ∨ head.method = .head) : Discreet (head :: rest) := by
  refine ⟨?_, ?_, ?_⟩
  · intro name hname k e hk hcarried i hi f hf
    cases k with
    | zero =>
        obtain rfl := Nat.le_zero.mp hi
        cases hk
        cases hf
        exact .refl _
    | succ k =>
        cases i with
        | zero =>
            cases hf
            exact horigin name hname e (List.mem_of_getElem? hk) hcarried
        | succ i => exact h.origin name hname k e hk hcarried i (Nat.le_of_succ_le_succ hi) f hf
  · intro name hname i e hi hnone k hik f hf
    cases k with
    | zero =>
        obtain rfl := Nat.le_zero.mp hik
        cases hi
        cases hf
        exact hnone
    | succ k =>
        cases i with
        | zero =>
            cases hi
            exact hstripped name hname hnone f (List.mem_of_getElem? hf)
        | succ i => exact h.stripped name hname i e hi hnone k (Nat.le_of_succ_le_succ hik) f hf
  · intro k e hk hkept i hik f resp hf
    cases k with
    | zero => exact absurd hik (Nat.not_lt_zero i)
    | succ k =>
        cases i with
        | zero =>
            cases hf
            exact hbody e (List.mem_of_getElem? hk) hkept resp
        | succ i => exact h.body k e hk hkept i (Nat.lt_of_succ_lt_succ hik) f resp hf

theorem Chain.discreet {hop : Hop} {log : List Exchange} (h : Chain join opts hop log) :
    Discreet log := by
  induction h with
  | refused => exact .nil
  | last => exact Discreet.nil.cons (by simp) (by simp) (by simp)
  | @redirected hop head rest resp location next sent hreply htarget hjoin tail ih =>
      have hchain := Chain.redirected sent hreply htarget hjoin tail
      obtain rfl := sent.hop_eq
      refine ih.cons ?_ ?_ ?_
      · intro name hname e he
        exact hchain.origin hname (List.mem_cons_of_mem head he)
      · intro name _ hnone
        exact tail.absent (redirect_of_absent hnone)
      · intro e he hkept resp' hresp
        rw [hreply, Except.ok.injEq] at hresp
        subst hresp
        have hnext : (head.toHop.redirect next resp.status).body ≠ none :=
          fun hnone => hkept (tail.bodiless hnone e he)
        exact (redirect_body hnext).2

/-- Credentials stay with the origin of the first exchange and a body with its method, over every
chain of redirects. -/
theorem execute_discreet (join : Url → Text → Option Url) (opts : FetchOptions)
    (turns : ℕ → Turn) (spec : RequestSpec) : Discreet (execute join opts turns spec).1 :=
  (follow_chain _ _ _).discreet

end

end Nitr.Fetch
