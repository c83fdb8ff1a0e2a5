import Nitr.Http.Csrf

/-! # The token slot of a state

`CsrfSlot` and `nitr.csrf.token` of `csrf.rs`, over the requests one pooled state serves, with
the ids `Protection::request_id_for_parts` gives them. -/

namespace Nitr.Csrf

open Nitr.Http (Headers Text toStr)
open Nitr.Session (isGraphic)

/-- The inbound `X-Request-ID`, if it is well formed. -/
def inboundId (headers : Headers) : Option String :=
  (((headers.get "x-request-id").bind toStr).filter fun v =>
    v ≠ [] && v.length ≤ 64 && v.all isGraphic).map String.ofList

/-- The id of a request; `uuid` is what `Uuid::now_v7` draws for it. -/
def requestIdForParts (trustRequestId : Bool) (headers : Headers) (uuid : String) : String :=
  if trustRequestId then (inboundId headers).getD uuid else uuid

/-- What happens in a request: the middleware runs with the token it settled on, or a script asks
for the token of the request. -/
inductive Act where
  | middleware (token : String)
  | token

/-- A request the state serves. -/
structure Inbound where
  headers : Headers
  uuid : String
  acts : List Act

def Inbound.id (trust : Bool) (r : Inbound) : String := requestIdForParts trust r.headers r.uuid

/-- The token kept in a state. -/
structure Slot where
  reqId : String
  token : String

/-- `nitr.csrf.token` on a request of that id. -/
def slotToken (slot : Option Slot) (id : String) : Option String :=
  (slot.filter fun s => s.reqId = id).map Slot.token

/-- A call of `nitr.csrf.token`: the token the middleware last had in that request, and what the
call returned. -/
structure Call where
  own : Option String
  result : Option String

/-- The calls of one request and the slot it leaves. -/
def serve (id : String) : Option Slot → Option String → List Act → List Call × Option Slot
  | slot, _, [] => ([], slot)
  | _, _, .middleware token :: acts => serve id (some ⟨id, token⟩) (some token) acts
  | slot, own, .token :: acts =>
      let rest := serve id slot own acts
      (⟨own, slotToken slot id⟩ :: rest.1, rest.2)

/-- The calls of a sequence of requests. -/
def serveAll (trust : Bool) : Option Slot → List Inbound → List Call
  | _, [] => []
  | slot, r :: requests =>
      let served := serve (r.id trust) slot none r.acts
      served.1 ++ serveAll trust served.2 requests

/-! ## What a call returns -/

/-- A call succeeds only with the token of its own request. -/
def Call.Own (call : Call) : Prop := ∀ token, call.result = some token → call.own = some token

def Act.isMiddleware : Act → Bool
  | .middleware _ => true
  | .token => false

def Inbound.guarded (r : Inbound) : Bool := r.acts.any Act.isMiddleware

/-- The request asks for its token before the middleware has run for it, if it runs at all. -/
def Inbound.asksFirst (r : Inbound) : Prop := r.acts.head? = some .token

/-- The client chose the id of the last request the middleware ran for. -/
def Reuses (trust : Bool) (earlier : List Inbound) (r : Inbound) : Prop :=
  trust = true ∧ ∃ q ∈ (earlier.filter Inbound.guarded).getLast?,
    inboundId r.headers = some (q.id trust)

/-- Drawn ids are new. -/
def Fresh (trust : Bool) (requests : List Inbound) : Prop :=
  requests.Pairwise fun q r => r.uuid ≠ q.id trust

theorem slotToken_self (id token : String) : slotToken (some ⟨id, token⟩) id = some token := by
  simp [slotToken]

/-- After the middleware has run, the slot is the request's. -/
theorem serve_own {id token : String} (acts : List Act) :
    ∀ call ∈ (serve id (some ⟨id, token⟩) (some token) acts).1, call.Own := by
  induction acts generalizing token with
  | nil => simp [serve]
  | cons act acts ih =>
      cases act with
      | middleware token => exact ih
      | token =>
          simp only [serve, List.forall_mem_cons]
          refine ⟨?_, ih⟩
          intro t ht
          rw [← ht, slotToken_self]

/-- The slot a request leaves: its own if the middleware ran, else the one it found. -/
theorem serve_slot {id : String} (slot : Option Slot) (own : Option String) (acts : List Act) :
    ((serve id slot own acts).2.map Slot.reqId) =
      if acts.any Act.isMiddleware then some id else slot.map Slot.reqId := by
  induction acts generalizing slot own with
  | nil => simp [serve]
  | cons act acts ih =>
      cases act with
      | middleware token =>
          simp only [serve, ih, List.any_cons, Act.isMiddleware, Bool.true_or, if_true]
          split <;> rfl
      | token => simp only [serve, ih, List.any_cons, Act.isMiddleware, Bool.false_or]

theorem slotToken_eq_none {slot : Option Slot} {id : String} :
    slotToken slot id = none ↔ slot.map Slot.reqId ≠ some id := by
  cases slot with
  | none => simp [slotToken]
  | some s => simp [slotToken]

theorem serve_foreign {id : String} {slot : Option Slot} (h : slot.map Slot.reqId ≠ some id)
    (acts : List Act) : ∀ call ∈ (serve id slot none acts).1, call.Own := by
  induction acts with
  | nil => simp [serve]
  | cons act acts ih =>
      cases act with
      | middleware token => exact serve_own acts
      | token =>
          simp only [serve, List.forall_mem_cons]
          refine ⟨?_, ih⟩
          intro t ht
          rw [slotToken_eq_none.mpr h] at ht
          cases ht

/-- A request's calls are its own exactly if it does not ask first under the id of the slot. -/
theorem serve_own_iff {id : String} (slot : Option Slot) (acts : List Act) :
    (∀ call ∈ (serve id slot none acts).1, call.Own) ↔
      (acts.head? = some .token → slot.map Slot.reqId ≠ some id) := by
  constructor
  · intro h hhead
    cases acts with
    | nil => cases hhead
    | cons act acts =>
        cases act with
        | middleware token => cases hhead
        | token =>
            rw [← slotToken_eq_none]
            have hfirst : (⟨none, slotToken slot id⟩ : Call).Own := h _ List.mem_cons_self
            cases hresult : slotToken slot id with
            | none => rfl
            | some token => cases hfirst token hresult
  · intro h
    cases acts with
    | nil => simp [serve]
    | cons act acts =>
        cases act with
        | middleware token => exact serve_own acts
        | token => exact serve_foreign (h rfl) _

/-! ## Sequences of requests -/

theorem id_eq_iff {trust : Bool} {r : Inbound} {id : String} (h : r.uuid ≠ id) :
    r.id trust = id ↔ trust = true ∧ inboundId r.headers = some id := by
  cases trust with
  | false => simpa [Inbound.id, requestIdForParts] using h
  | true =>
      cases hid : inboundId r.headers with
      | none => simpa [Inbound.id, requestIdForParts, hid] using h
      | some id' => simp [Inbound.id, requestIdForParts, hid]

/-- The id in the slot after a sequence of requests. -/
def lastId (trust : Bool) (requests : List Inbound) : Option String :=
  ((requests.filter Inbound.guarded).getLast?).map (Inbound.id trust)

theorem lastId_append {trust : Bool} (earlier : List Inbound) (r : Inbound) :
    lastId trust (earlier ++ [r]) =
      if r.guarded then some (r.id trust) else lastId trust earlier := by
  unfold lastId
  rw [List.filter_append]
  by_cases h : r.guarded = true
  · simp [h]
  · simp [h]

theorem lastId_eq_iff {trust : Bool} {earlier later : List Inbound} {r : Inbound}
    (hfresh : Fresh trust (earlier ++ r :: later)) :
    lastId trust earlier = some (r.id trust) ↔ Reuses trust earlier r := by
  have hnew : ∀ q ∈ earlier, r.uuid ≠ q.id trust := fun q hq =>
    (List.pairwise_append.mp hfresh).2.2 q hq r List.mem_cons_self
  unfold lastId Reuses
  rw [Option.map_eq_some_iff]
  constructor
  · rintro ⟨q, hq, hid⟩
    have hmem : q ∈ earlier := List.mem_of_mem_filter (List.mem_of_getLast? hq)
    obtain ⟨htrust, hin⟩ := (id_eq_iff (hnew q hmem)).mp hid.symm
    exact ⟨htrust, q, hq, hin⟩
  · rintro ⟨htrust, q, hq, hin⟩
    have hmem : q ∈ earlier := List.mem_of_mem_filter (List.mem_of_getLast? hq)
    exact ⟨q, hq, ((id_eq_iff (hnew q hmem)).mpr ⟨htrust, hin⟩).symm⟩

/-- No request asks first under the id of the last one the middleware ran for. -/
def NoReuse (trust : Bool) (earlier : List Inbound) : List Inbound → Prop
  | [] => True
  | r :: requests => (r.asksFirst → ¬Reuses trust earlier r) ∧ NoReuse trust (earlier ++ [r]) requests

theorem serveAll_own_iff {trust : Bool} {slot : Option Slot} (earlier requests : List Inbound)
    (hslot : slot.map Slot.reqId = lastId trust earlier) (hfresh : Fresh trust (earlier ++ requests)) :
    (∀ call ∈ serveAll trust slot requests, call.Own) ↔ NoReuse trust earlier requests := by
  induction requests generalizing slot earlier with
  | nil => simp [serveAll, NoReuse]
  | cons r requests ih =>
      have hafter : (serve (r.id trust) slot none r.acts).2.map Slot.reqId =
          lastId trust (earlier ++ [r]) := by
        rw [serve_slot, lastId_append, hslot]
        rfl
      have hrest := ih (earlier ++ [r]) hafter (by simpa using hfresh)
      simp only [serveAll, List.forall_mem_append, NoReuse]
      rw [serve_own_iff, hrest, hslot, Ne, lastId_eq_iff hfresh]
      rfl

/-- The calls of every request a state serves return the request's own token, exactly if no
request asks for it, before the middleware has run, under an id the client took from the last
request the middleware ran for. -/
theorem serveAll_tokens_iff {trust : Bool} {requests : List Inbound}
    (hfresh : Fresh trust requests) :
    (∀ call ∈ serveAll trust none requests, call.Own) ↔ NoReuse trust [] requests :=
  serveAll_own_iff [] requests rfl hfresh

def idHeader (id : String) : Headers := ⟨[("x-request-id", id.toList)]⟩

/-- A guarded request and one that asks without the middleware. -/
def guardedThenBare (id id' : String) : List Inbound :=
  [⟨idHeader id, "018f-1", [.middleware "t0ken", .token]⟩, ⟨idHeader id', "018f-2", [.token]⟩]

theorem serveAll_tokens_two_ids :
    Fresh true (guardedThenBare "a" "b") ∧
      ∀ call ∈ serveAll true none (guardedThenBare "a" "b"), call.Own := by
  have hfresh : Fresh true (guardedThenBare "a" "b") := by
    simp only [Fresh, guardedThenBare, List.pairwise_cons]
    decide
  refine ⟨hfresh, (serveAll_tokens_iff hfresh).mpr ⟨?_, ?_, trivial⟩⟩
  · intro h
    cases h
  · rintro _ ⟨_, q, hq, hid⟩
    have hq : q = ⟨idHeader "a", "018f-1", [.middleware "t0ken", .token]⟩ := by
      simpa [Inbound.guarded, Act.isMiddleware] using hq.symm
    subst hq
    exact absurd hid (by decide)

/-- Under a trusted id of its own choice the second request is given the token of the first. -/
theorem serveAll_leaks :
    Fresh true (guardedThenBare "a" "a") ∧
      ¬∀ call ∈ serveAll true none (guardedThenBare "a" "a"), call.Own := by
  refine ⟨?_, ?_⟩
  · simp only [Fresh, guardedThenBare, List.pairwise_cons]
    decide
  · intro h
    have hcall : (⟨none, some "t0ken"⟩ : Call) ∈ serveAll true none (guardedThenBare "a" "a") := by
      have hid : (⟨idHeader "a", "018f-2", [.token]⟩ : Inbound).id true = "a" := by decide
      have hid' : (⟨idHeader "a", "018f-1", [.middleware "t0ken", .token]⟩ : Inbound).id true = "a" := by
        decide
      simp [serveAll, guardedThenBare, serve, hid, hid', slotToken]
    cases h _ hcall "t0ken" rfl

end Nitr.Csrf
