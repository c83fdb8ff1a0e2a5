import Nitr.Http.Cors
import Nitr.Lib.Ensures
import Nitr.Lib.IpAddr

/-! # The fetch policy

`fetch/policy.rs`: which URLs a script may fetch and which addresses the client may connect
to. A URL is what the accessors of the `url` package say of it, a lookup is answered by the
environment. -/

namespace Nitr.Fetch

open Nitr.Http (Text eqIgnoreAsciiCase)

/-! ## URLs and lookups -/

/-- `url::Host`. -/
inductive Host where
  | domain (name : Text)
  | ipv4 (addr : Ipv4Addr)
  | ipv6 (addr : Ipv6Addr)
deriving DecidableEq

/-- A parsed URL. Its host as text is there when the host is, and is a domain's name. -/
structure Url where
  text : Text
  scheme : Text
  host : Option Host
  hostStr : Option Text
  port : Option UInt16
  hostStr_isSome : hostStr.isSome = host.isSome
  hostStr_domain : ∀ name, host = some (.domain name) → hostStr = some name

/-- The port of the URL, or the one of its scheme. -/
def Url.portOrKnownDefault (url : Url) : Option UInt16 :=
  url.port.or
    (if url.scheme = "http".toList ∨ url.scheme = "ws".toList then some 80
    else if url.scheme = "https".toList ∨ url.scheme = "wss".toList then some 443
    else if url.scheme = "ftp".toList then some 21
    else none)

/-- The text of the host, empty without one. -/
def Url.hostName (url : Url) : Text := url.hostStr.getD []

/-- What `tokio::net::lookup_host` answers: the addresses, or `none` for a failed lookup. -/
abbrev Lookup := Option (List IpAddr)

/-- The fields of `FetchOptions` the policy and the retries read. No proxy is configured. -/
structure FetchOptions where
  allowedHosts : Option (List Text)
  allowPrivateNetworks : Bool
  privateHosts : List Text
  maxRetries : ℕ

/-! ## Addresses -/

/-- The IPv4 address an IPv6 address carries, for the forms that carry one. -/
def embeddedIpv4 (v6 : Ipv6Addr) : Option Ipv4Addr :=
  match v6.toIpv4Mapped with
  | some v4 => some v4
  | none =>
      if v6.s0 = 0 ∧ v6.s1 = 0 ∧ v6.s2 = 0 ∧ v6.s3 = 0 ∧ v6.s4 = 0 ∧ v6.s5 = 0 then
        some (.ofSegments v6.s6 v6.s7)
      else if v6.s0 = 0x64 ∧ v6.s1 = 0xff9b ∧ v6.s2 = 0 ∧ v6.s3 = 0 ∧ v6.s4 = 0 ∧ v6.s5 = 0 then
        some (.ofSegments v6.s6 v6.s7)
      else if v6.s0 = 0x2002 then some (.ofSegments v6.s1 v6.s2)
      else none

/-- The special-purpose blocks of IPv4. -/
def isForbiddenIpv4 (v4 : Ipv4Addr) : Bool :=
  -- Loopback, private, link-local, unspecified, broadcast, multicast, documentation.
  v4.o0 = 127
    || (v4.o0 = 10 || (v4.o0 = 172 && 16 ≤ v4.o1 && v4.o1 ≤ 31) || (v4.o0 = 192 && v4.o1 = 168))
    || (v4.o0 = 169 && v4.o1 = 254)
    || v4 = ⟨0, 0, 0, 0⟩
    || v4 = ⟨255, 255, 255, 255⟩
    || (224 ≤ v4.o0 && v4.o0 ≤ 239)
    || ((v4.o0 = 192 && v4.o1 = 0 && v4.o2 = 2) || (v4.o0 = 198 && v4.o1 = 51 && v4.o2 = 100)
      || (v4.o0 = 203 && v4.o1 = 0 && v4.o2 = 113))
    || v4.o0 = 0
    || (v4.o0 = 100 && 64 ≤ v4.o1 && v4.o1 < 128)
    || (v4.o0 = 192 && v4.o1 = 0 && v4.o2 = 0)
    || (v4.o0 = 198 && 18 ≤ v4.o1 && v4.o1 < 20)
    || 240 ≤ v4.o0

/-- The special-purpose blocks of both families; an IPv6 address that carries an IPv4 one is
judged by it too. -/
def isForbiddenIp : IpAddr → Bool
  | .v4 v4 => isForbiddenIpv4 v4
  | .v6 v6 =>
      v6 = ⟨0, 0, 0, 0, 0, 0, 0, 1⟩
        || v6 = ⟨0, 0, 0, 0, 0, 0, 0, 0⟩
        || v6.s0 &&& 0xff00 = 0xff00
        || v6.s0 &&& 0xfe00 = 0xfc00
        || v6.s0 &&& 0xffc0 = 0xfe80
        || (embeddedIpv4 v6).any isForbiddenIpv4

/-- Whether the operator named the host as living on a private address. -/
def isPrivateHost (privateHosts : List Text) (host : Text) : Bool :=
  privateHosts.any (eqIgnoreAsciiCase · host)

/-- Whether the options exempt a host from the address check. -/
def FetchOptions.allowPrivate (opts : FetchOptions) (host : Text) : Bool :=
  opts.allowPrivateNetworks || isPrivateHost opts.privateHosts host

/-! ## The resolver of the client -/

/-- Why `RequestBuilder::send` fails. -/
inductive SendError where
  | builder
  | lookup
  | noAddress (host : Text)
  | refused (host : Text)
  | network
deriving DecidableEq

/-- `GuardedResolver::resolve` on the answer to its lookup. -/
def resolve (opts : FetchOptions) (host : Text) (answer : Lookup) :
    Except SendError (List IpAddr) := do
  match answer with
  | none => throw .lookup
  | some resolved =>
      if resolved = [] then throw (.noAddress host)
      let allowed := resolved.filter fun ip => opts.allowPrivate host || !isForbiddenIp ip
      if allowed = [] then throw (.refused host)
      return allowed

/-- A resolver hands out forbidden addresses of exempt hosts only. -/
theorem allowPrivate_of_resolve {opts : FetchOptions} {host : Text} {answer : Lookup}
    {allowed : List IpAddr} (h : resolve opts host answer = .ok allowed) {ip : IpAddr}
    (hip : ip ∈ allowed) (hforbidden : isForbiddenIp ip = true) :
    opts.allowPrivate host = true := by
  cases answer with
  | none => cases h
  | some resolved =>
      have hallowed : allowed =
          resolved.filter fun ip => opts.allowPrivate host || !isForbiddenIp ip := by
        simp only [resolve] at h
        split at h
        · cases h
        · split at h
          · cases h
          · exact (Except.ok.inj h).symm
      rw [hallowed, List.mem_filter] at hip
      simpa [hforbidden] using hip.2

/-! ## The check of a URL -/

/-- Why a fetch fails: an error of the policy with its message, `check_url`'s failed lookup, a
failed exchange, a location that is no URL. -/
inductive FetchError where
  | runtime (message : Text)
  | io
  | send (err : SendError)
  | parse
deriving DecidableEq

/-- The addresses `check_url` looks at. -/
def firstLook (host : Host) (answer : Lookup) : Except FetchError (List IpAddr) :=
  match host with
  | .ipv4 addr => .ok [.v4 addr]
  | .ipv6 addr => .ok [.v6 addr]
  | .domain _ =>
      match answer with
      | none => .error .io
      | some ips => .ok ips

/-- The list of allowed hosts, when there is one. -/
def checkAllowed (opts : FetchOptions) (url : Url) : Except FetchError Unit :=
  match opts.allowedHosts with
  | none => .ok ()
  | some allowed =>
      if allowed.any (eqIgnoreAsciiCase · url.hostName) then .ok ()
      else .error (.runtime ("fetch host `".toList ++ url.hostName ++
        "` is not in fetch.allowed_hosts".toList))

/-- The addresses of the first look: some, and none forbidden. -/
def checkIps (url : Url) (ips : List IpAddr) : Except FetchError Unit :=
  if ips = [] then
    .error (.runtime ("fetch host `".toList ++ url.hostName ++
      "` did not resolve to any address".toList))
  else if ips.any isForbiddenIp then
    .error (.runtime ("fetch host `".toList ++ url.hostName ++
      ("` resolves to a private or local address: name it in [fetch] private_hosts, " ++
        "or set allow_private_networks = true to permit every one").toList))
  else .ok ()

/-- Validates one request URL; `answer` is what its own lookup says. -/
def checkUrl (opts : FetchOptions) (url : Url) (answer : Lookup) : Except FetchError Unit :=
  if url.scheme = "http".toList ∨ url.scheme = "https".toList then
    match url.host with
    | none => .error (.runtime ("fetch URL `".toList ++ url.text ++ "` has no host".toList))
    | some host => do
        checkAllowed opts url
        if opts.allowPrivate url.hostName then .ok ()
        else (firstLook host answer).bind (checkIps url)
  else .error (.runtime ("fetch only supports http/https URLs, got `".toList ++ url.text ++ ['`']))

/-- What an accepted URL is: of a scheme of the web, to an allowed host that is exempt or
whose first look shows no forbidden address. -/
structure Checked (opts : FetchOptions) (url : Url) (answer : Lookup) (host : Host) : Prop where
  scheme : url.scheme = "http".toList ∨ url.scheme = "https".toList
  host_eq : url.host = some host
  allowed : ∀ hosts, opts.allowedHosts = some hosts →
    ∃ a ∈ hosts, eqIgnoreAsciiCase a url.hostName = true
  looked : opts.allowPrivate url.hostName = false →
    ∃ ips, firstLook host answer = .ok ips ∧ ∀ ip ∈ ips, isForbiddenIp ip = false

theorem checkAllowed_ok {opts : FetchOptions} {url : Url} (h : checkAllowed opts url = .ok ())
    {hosts : List Text} (hhosts : opts.allowedHosts = some hosts) :
    ∃ a ∈ hosts, eqIgnoreAsciiCase a url.hostName = true := by
  simp only [checkAllowed, hhosts] at h
  split at h
  · rename_i hany
    exact List.any_eq_true.mp hany
  · cases h

theorem checkIps_ok {url : Url} {ips : List IpAddr} (h : checkIps url ips = .ok ()) :
    ∀ ip ∈ ips, isForbiddenIp ip = false := by
  unfold checkIps at h
  split at h
  · cases h
  · split at h
    · cases h
    · rename_i hany
      intro ip hip
      by_contra hforbidden
      exact hany (List.any_eq_true.mpr ⟨ip, hip, by simpa using hforbidden⟩)

theorem Checked.of_checkUrl {opts : FetchOptions} {url : Url} {answer : Lookup}
    (h : checkUrl opts url answer = .ok ()) : ∃ host, Checked opts url answer host := by
  unfold checkUrl at h
  split at h
  · rename_i hscheme
    cases hhost : url.host with
    | none =>
        rw [hhost] at h
        cases h
    | some host =>
        rw [hhost] at h
        obtain ⟨⟨⟩, hallowed, h⟩ := Except.bind_eq_ok_iff.mp h
        refine ⟨host, hscheme, hhost, fun hosts => checkAllowed_ok hallowed, ?_⟩
        intro hprivate
        rw [hprivate, if_neg Bool.false_ne_true] at h
        obtain ⟨ips, hips, h⟩ := Except.bind_eq_ok_iff.mp h
        exact ⟨ips, hips, checkIps_ok h⟩
  · cases h

end Nitr.Fetch
