import Nitr.Http.Fresh
import Nitr.Lib.IpAddr

/-! # The key of a budget

`RateLimiter::client_key` and `bucket_key` of `protect.rs`. Behind a trusted proxy the key
is the last entry of the last `X-Forwarded-For` line. The line is decoded as a whole, with
what the client wrote before that entry. -/

namespace Nitr.Protect

open Nitr.Http (Text toStr trim visible isOws)

/-- What the key is computed from: the peer's address and the `X-Forwarded-For` lines. -/
structure ClientRequest where
  peerAddr : IpAddr
  forwardedFor : List Text

/-- Reduces an address to the granularity a budget is tracked at. -/
def bucketKey (ip : IpAddr) : IpAddr :=
  match ip.toCanonical with
  | .v4 addr => .v4 addr
  | .v6 addr => .v6 { addr with s4 := 0, s5 := 0, s6 := 0, s7 := 0 }

/-- The address the header names. -/
def forwardedIp (req : ClientRequest) : Option IpAddr := do
  let line ← req.forwardedFor.getLast?
  let text ← toStr line
  let entry ← (text.splitOn ',').getLast?
  IpAddr.parse (trim entry)

/-- The address the budget is keyed by, reduced to a bucket key. -/
def clientKey (trustForwardedFor : Bool) (req : ClientRequest) : IpAddr :=
  let ip := if trustForwardedFor then (forwardedIp req).getD req.peerAddr else req.peerAddr
  bucketKey ip

/-! ## What the proxy appended -/

/-- The last line, and the address after its last comma. -/
structure Appended (req : ClientRequest) (entry : Text) (ip : IpAddr) : Prop where
  line : ∃ line ∈ req.forwardedFor.getLast?, (line.splitOn ',').getLast? = some entry
  parses : IpAddr.parse (entry.trimBy isOws) = some ip

/-- The last line is visible ASCII. -/
def LastLineVisible (req : ClientRequest) : Prop :=
  ∀ line ∈ req.forwardedFor.getLast?, line.all visible = true

theorem forwardedIp_of_visible {req : ClientRequest} {entry : Text} {ip : IpAddr}
    (h : Appended req entry ip) (hvisible : LastLineVisible req) : forwardedIp req = some ip := by
  obtain ⟨⟨line, hline, hentry⟩, hparses⟩ := h
  have hvis : line.all visible = true := hvisible line hline
  have htrim : trim entry = entry.trimBy isOws :=
    Http.trim_eq_trimBy_isOws (Http.all_visible_of_mem_splitOn hvis (List.mem_of_getLast? hentry))
  have hstr : toStr line = some line := if_pos hvis
  rw [Option.mem_def] at hline
  simp [forwardedIp, hline, hstr, hentry, htrim, hparses]

theorem forwardedIp_of_not_visible {req : ClientRequest} (h : ¬LastLineVisible req) :
    forwardedIp req = none := by
  unfold LastLineVisible at h
  push Not at h
  obtain ⟨line, hline, hvis⟩ := h
  rw [Option.mem_def] at hline
  simp only [forwardedIp, hline, toStr, Option.bind_eq_bind, Option.bind_some]
  rw [if_neg hvis]
  rfl

/-- With trust the key is the entry's exactly when the line before the entry is visible, or
the peer is in the entry's bucket anyway. -/
theorem clientKey_eq_iff {req : ClientRequest} {entry : Text} {ip : IpAddr}
    (h : Appended req entry ip) :
    clientKey true req = bucketKey ip ↔
      LastLineVisible req ∨ bucketKey req.peerAddr = bucketKey ip := by
  by_cases hvisible : LastLineVisible req
  · simp [clientKey, forwardedIp_of_visible h hvisible, hvisible]
  · simp [clientKey, forwardedIp_of_not_visible hvisible, hvisible]

/-! ## Two requests of one peer -/

/-- The keys of two requests of one peer: with trust the same function of the entry the proxy
appended, whatever stands before it; without trust a function of the peer's address. -/
structure KeyedByProxy (trust : Bool) (r₁ r₂ : ClientRequest) : Prop where
  trusted : trust = true → ∀ entry ip, Appended r₁ entry ip → Appended r₂ entry ip →
    clientKey trust r₁ = clientKey trust r₂ ∧ clientKey trust r₁ = bucketKey ip
  untrusted : trust = false →
    clientKey trust r₁ = clientKey trust r₂ ∧ clientKey trust r₁ = bucketKey r₁.peerAddr

/-- The client cannot choose the key exactly as long as the last lines are visible ASCII, or
the peer itself is in the entry's bucket. -/
theorem keyedByProxy_iff {trust : Bool} {r₁ r₂ : ClientRequest}
    (hpeer : r₁.peerAddr = r₂.peerAddr) :
    KeyedByProxy trust r₁ r₂ ↔
      (trust = true → ∀ entry ip, Appended r₁ entry ip → Appended r₂ entry ip →
        (LastLineVisible r₁ ∧ LastLineVisible r₂) ∨ bucketKey r₁.peerAddr = bucketKey ip) := by
  constructor
  · rintro h rfl entry ip h₁ h₂
    obtain ⟨hsame, hkey₁⟩ := h.trusted rfl entry ip h₁ h₂
    have hkey₂ : clientKey true r₂ = bucketKey ip := hsame ▸ hkey₁
    rw [clientKey_eq_iff h₁] at hkey₁
    rw [clientKey_eq_iff h₂, ← hpeer] at hkey₂
    tauto
  · intro h
    constructor
    · rintro rfl entry ip h₁ h₂
      have hcond := h rfl entry ip h₁ h₂
      have hkey₁ : clientKey true r₁ = bucketKey ip := (clientKey_eq_iff h₁).mpr (by tauto)
      have hkey₂ : clientKey true r₂ = bucketKey ip :=
        (clientKey_eq_iff h₂).mpr (by rw [← hpeer]; tauto)
      exact ⟨hkey₁.trans hkey₂.symm, hkey₁⟩
    · rintro rfl
      simp [clientKey, hpeer]

/-- A request through a proxy, which has appended the client's address to what the client
sent. -/
def proxied (sent : Text) : ClientRequest :=
  ⟨.v4 ⟨10, 0, 0, 1⟩, [sent ++ "203.0.113.9".toList]⟩

theorem proxied_appended {sent : Text}
    (h : ((sent ++ "203.0.113.9".toList).splitOn ',').getLast? = some " 203.0.113.9".toList) :
    Appended (proxied sent) " 203.0.113.9".toList (.v4 ⟨203, 0, 113, 9⟩) :=
  ⟨⟨_, rfl, h⟩, by decide +kernel⟩

theorem proxied_visible {sent : Text} (h : sent.all visible = true) :
    LastLineVisible (proxied sent) := by
  intro line hline
  obtain rfl : sent ++ "203.0.113.9".toList = line := Option.mem_some.mp hline
  rw [List.all_append, h]
  decide +kernel

/-- A forged first entry changes nothing. -/
theorem keyedByProxy_forged :
    KeyedByProxy true (proxied " ".toList) (proxied "198.51.100.7, ".toList) := by
  have hpeer : (proxied " ".toList).peerAddr = (proxied "198.51.100.7, ".toList).peerAddr := rfl
  refine (keyedByProxy_iff hpeer).mpr fun _ _ _ _ _ => .inl ⟨?_, ?_⟩
  · exact proxied_visible (by decide +kernel)
  · exact proxied_visible (by decide +kernel)

/-- One byte outside ASCII before the entry moves the client to the proxy's own bucket. -/
theorem clientKey_opaque_byte :
    Appended (proxied " ".toList) " 203.0.113.9".toList (.v4 ⟨203, 0, 113, 9⟩) ∧
      Appended (proxied ("\x80, ".toList)) " 203.0.113.9".toList (.v4 ⟨203, 0, 113, 9⟩) ∧
      clientKey true (proxied " ".toList) = .v4 ⟨203, 0, 113, 9⟩ ∧
      clientKey true (proxied "\x80, ".toList) = .v4 ⟨10, 0, 0, 1⟩ ∧
      ¬KeyedByProxy true (proxied " ".toList) (proxied "\x80, ".toList) := by
  have happ₁ : Appended (proxied " ".toList) " 203.0.113.9".toList (.v4 ⟨203, 0, 113, 9⟩) :=
    proxied_appended (by decide +kernel)
  have happ₂ : Appended (proxied "\x80, ".toList) " 203.0.113.9".toList (.v4 ⟨203, 0, 113, 9⟩) :=
    proxied_appended (by decide +kernel)
  have hkey₁ : clientKey true (proxied " ".toList) = .v4 ⟨203, 0, 113, 9⟩ := by decide +kernel
  have hkey₂ : clientKey true (proxied "\x80, ".toList) = .v4 ⟨10, 0, 0, 1⟩ := by decide +kernel
  refine ⟨happ₁, happ₂, hkey₁, hkey₂, fun h => ?_⟩
  have hsame := (h.trusted rfl _ _ happ₁ happ₂).1
  rw [hkey₁, hkey₂] at hsame
  exact absurd hsame (by decide)

end Nitr.Protect
