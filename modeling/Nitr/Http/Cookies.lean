import Nitr.Lib.Base64Url
import Nitr.Lib.Text

/-! # Signed cookies

`sign` and `verify` of `http/cookies.rs`. The MAC is a parameter; an ideal one accepts a tag for
a message exactly if that message was signed and the tag is its own. -/

namespace Nitr.Cookies

open Base64Url (encode decode alphabet)

/-- A keyed MAC: the tag of a message and `verify_slice`. -/
structure Mac where
  tag : (key message : List UInt8) → List UInt8
  verifySlice : (key message tag : List UInt8) → Bool

def asBytes (s : String) : List UInt8 := s.toByteArray.data.toList

/-- `String::from_utf8`. -/
def fromUtf8 (bytes : List UInt8) : Option String :=
  if h : bytes.toByteArray.IsValidUTF8 then some (.ofByteArray bytes.toByteArray h) else none

/-- What `new_mac` has read. -/
def macInput (name payload : String) : List UInt8 := asBytes name ++ asBytes "=" ++ asBytes payload

section

variable (mac : Mac)

def macBytes (name payload secret : String) : List UInt8 :=
  mac.tag (asBytes secret) (macInput name payload)

def payloadOf (value : String) : String := .ofList (encode (asBytes value))

def sign (name value secret : String) : String :=
  .ofList ((payloadOf value).toList ++
    '.' :: encode (macBytes mac name (payloadOf value) secret))

def verify (name signed secret : String) : Option String := do
  let parts ← signed.toList.rsplitOnce '.'
  let sig ← decode parts.2
  if mac.verifySlice (asBytes secret) (macInput name (.ofList parts.1)) sig then
    let bytes ← decode parts.1
    fromUtf8 bytes
  else none

end

/-! ## An ideal MAC -/

/-- The messages that signing a history of names and values gave to the MAC. -/
def issued (history : List (String × String)) : List (List UInt8) :=
  history.map fun e => macInput e.1 (payloadOf e.2)

/-- Nothing but the tags of issued messages is accepted under the key. -/
def Mac.Ideal (mac : Mac) (key : List UInt8) (issued : List (List UInt8)) : Prop :=
  ∀ message tag, mac.verifySlice key message tag = true ↔
    message ∈ issued ∧ tag = mac.tag key message

/-! ## Names and payloads are told apart -/

theorem asBytes_injective : Function.Injective asBytes := by
  intro s t h
  unfold asBytes at h
  refine String.toByteArray_inj.mp ?_
  exact ByteArray.ext (Array.toList_inj.mp h)

theorem fromUtf8_asBytes (s : String) : fromUtf8 (asBytes s) = some s := by
  have hbytes : (asBytes s).toByteArray = s.toByteArray :=
    ByteArray.ext (by rw [List.data_toByteArray, asBytes, Array.toArray_toList])
  have hvalid : (asBytes s).toByteArray.IsValidUTF8 := hbytes ▸ s.isValidUTF8
  unfold fromUtf8
  rw [dif_pos hvalid]
  exact congrArg some (String.toByteArray_inj.mp hbytes)

theorem asBytes_ofList (text : List Char) :
    asBytes (.ofList text) = text.flatMap String.utf8EncodeChar := by
  rw [asBytes, String.toByteArray_ofList, List.utf8Encode, List.toList_data_toByteArray]

theorem equals_not_mem {text : List Char} (h : ∀ c ∈ text, c ∈ alphabet) :
    61 ∉ asBytes (.ofList text) := by
  have hall : ∀ c ∈ alphabet, 61 ∉ String.utf8EncodeChar c := by
    have hcheck : (alphabet.all fun c => !(String.utf8EncodeChar c).contains 61) = true := by decide
    intro c hc
    simpa using List.all_eq_true.mp hcheck c hc
  rw [asBytes_ofList, List.mem_flatMap]
  rintro ⟨c, hc, hmem⟩
  exact hall c (h c hc) hmem

/-- Payloads of the alphabet have no `=`, so the last one ends the name. -/
theorem macInput_inj {name name' : String} {text text' : List Char}
    (h : ∀ c ∈ text, c ∈ alphabet) (h' : ∀ c ∈ text', c ∈ alphabet)
    (heq : macInput name (.ofList text) = macInput name' (.ofList text')) :
    name = name' ∧ text = text' := by
  have hsign : asBytes "=" = [61] := by decide
  simp only [macInput, hsign, List.append_assoc, List.singleton_append] at heq
  have hsplit := @List.rsplitOnce_append _ _ _ (asBytes name) _ (equals_not_mem h)
  rw [heq, List.rsplitOnce_append (equals_not_mem h'), Option.some.injEq, Prod.mk.injEq] at hsplit
  refine ⟨(asBytes_injective hsplit.1).symm, ?_⟩
  exact (String.ofList_injective (asBytes_injective hsplit.2)).symm

/-! ## What verifies was signed -/

section

variable {mac : Mac} {history : List (String × String)} {secret : String}

/-- What `verify` accepts, step by step. -/
theorem verify_eq_some {name signed v : String} :
    verify mac name signed secret = some v ↔
      ∃ payload sig tag bytes, signed.toList = payload ++ '.' :: sig ∧ '.' ∉ sig ∧
        decode sig = some tag ∧
        mac.verifySlice (asBytes secret) (macInput name (.ofList payload)) tag = true ∧
        decode payload = some bytes ∧ fromUtf8 bytes = some v := by
  simp only [verify, Option.bind_eq_bind, Option.bind_eq_some_iff]
  constructor
  · rintro ⟨⟨payload, sig⟩, hsplit, tag, htag, h⟩
    obtain ⟨hsigned, hsig⟩ := List.rsplitOnce_eq_some.mp hsplit
    split at h
    · rename_i hok
      obtain ⟨bytes, hbytes, hv⟩ := Option.bind_eq_some_iff.mp h
      exact ⟨payload, sig, tag, bytes, hsigned, hsig, htag, hok, hbytes, hv⟩
    · cases h
  · rintro ⟨payload, sig, tag, bytes, hsigned, hsig, htag, hok, hbytes, hv⟩
    refine ⟨(payload, sig), List.rsplitOnce_eq_some.mpr ⟨hsigned, hsig⟩, tag, htag, ?_⟩
    rw [if_pos hok, hbytes, Option.bind_some, hv]

theorem dot_not_mem_encode (bytes : List UInt8) : '.' ∉ encode bytes := fun h =>
  absurd (Base64Url.mem_alphabet_of_mem_encode h) (by decide)

theorem verify_iff_signed (h : mac.Ideal (asBytes secret) (issued history))
    (name signed v : String) :
    verify mac name signed secret = some v ↔
      (name, v) ∈ history ∧ signed = sign mac name v secret := by
  rw [verify_eq_some]
  constructor
  · rintro ⟨payload, sig, tag, bytes, hsigned, _, htag, hok, hbytes, hv⟩
    obtain ⟨hissued, rfl⟩ := (h _ _).mp hok
    obtain ⟨⟨name', v'⟩, hmem, hinput⟩ := List.mem_map.mp hissued
    have hpayload := Base64Url.encode_of_decode hbytes
    have halphabet : ∀ c ∈ payload, c ∈ alphabet := fun c hc =>
      Base64Url.mem_alphabet_of_mem_encode (hpayload ▸ hc)
    obtain ⟨rfl, htext⟩ := macInput_inj
      (fun c hc => Base64Url.mem_alphabet_of_mem_encode hc) halphabet hinput
    have hsame : bytes = asBytes v' := by
      rw [← htext, Base64Url.decode_encode, Option.some.injEq] at hbytes
      exact hbytes.symm
    rw [hsame, fromUtf8_asBytes, Option.some.injEq] at hv
    subst hv
    refine ⟨hmem, String.toList_inj.mp ?_⟩
    rw [hsigned, sign, String.toList_ofList, payloadOf, String.toList_ofList, htext,
      ← Base64Url.encode_of_decode htag]
    rfl
  · rintro ⟨hmem, rfl⟩
    refine ⟨encode (asBytes v), encode (macBytes mac name (payloadOf v) secret),
      macBytes mac name (payloadOf v) secret, asBytes v, ?_, dot_not_mem_encode _,
      Base64Url.decode_encode _, (h _ _).mpr ⟨List.mem_map_of_mem hmem, rfl⟩,
      Base64Url.decode_encode _, fromUtf8_asBytes v⟩
    rw [sign, String.toList_ofList, payloadOf, String.toList_ofList]

/-- Under an ideal MAC a cookie verifies to a value exactly if signing that name and value gave
it. -/
theorem verify_eq_some_iff (h : mac.Ideal (asBytes secret) (issued history))
    (name signed v : String) :
    verify mac name signed secret = some v ↔
      (name, v) ∈ history ∧ signed = sign mac name v secret :=
  verify_iff_signed h name signed v

end

/-- The MAC of the one cookie signed below, with the tag `HMAC-SHA256` has for it. -/
def oneCookieMac : Mac where
  tag _ _ := [154, 229, 222, 103, 247, 243, 112, 71, 219, 113, 171, 184, 144, 240, 214, 215, 57, 138,
    178, 178, 156, 212, 71, 59, 16, 185, 1, 242, 120, 15, 85, 80]
  verifySlice _ message tag :=
    message ∈ issued [("session", "a=b.c")] ∧
      tag = [154, 229, 222, 103, 247, 243, 112, 71, 219, 113, 171, 184, 144, 240, 214, 215, 57, 138,
        178, 178, 156, 212, 71, 59, 16, 185, 1, 242, 120, 15, 85, 80]

theorem verify_session_cookie :
    oneCookieMac.Ideal (asBytes "s3cret") (issued [("session", "a=b.c")]) ∧
      verify oneCookieMac "session" "YT1iLmM.muXeZ_fzcEfbcau4kPDW1zmKsrKc1Ec7ELkB8ngPVVA" "s3cret" =
        some "a=b.c" := by
  have hideal : oneCookieMac.Ideal (asBytes "s3cret") (issued [("session", "a=b.c")]) :=
    fun _ _ => decide_eq_true_iff
  exact ⟨hideal, (verify_eq_some_iff hideal _ _ _).mpr ⟨by simp, by decide +kernel⟩⟩

end Nitr.Cookies
