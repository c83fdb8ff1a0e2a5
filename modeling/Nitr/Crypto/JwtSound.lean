import Nitr.Crypto.Jwt
import Nitr.Json.RoundTrip

/-! # What a verified token says

Under ideal MACs a token that verifies carries the header and the payload of a call of `sign`
with that key, and its claims meet everything the caller asked for. A signed document is
returned as it was exactly if the JSON parser reads it so. -/

namespace Nitr.Jwt

open Nitr.Json
open Nitr.Cookies (asBytes asBytes_injective dot_not_mem_encode)
open Nitr.Validate (LuaString F64)
open Base64Url (encode decode decode_encode encode_of_decode)

/-! ## The conditions on claims -/

/-- What the caller asked for, and the times a token carries. -/
structure Meets (doubles : Doubles) (policy : ClaimPolicy) (claims : Doc) (now leeway : F64) :
    Prop where
  exp : ∀ value, get claims "exp" = some value →
    ∃ exp, asF64 value = some exp ∧ (doubles.add exp leeway).lt now = false
  nbf : ∀ value, get claims "nbf" = some value →
    ∃ nbf, asF64 value = some nbf ∧ now.lt (doubles.sub nbf leeway) = false
  issuer : ∀ issuer, policy.issuer = some issuer → get claims "iss" = some (.string issuer)
  audience : ∀ audience, policy.audience = some audience →
    get claims "aud" = some (.string audience) ∨
      ∃ auds, get claims "aud" = some (.array auds) ∧ .string audience ∈ auds
  subject : ∀ subject, policy.subject = some subject → get claims "sub" = some (.string subject)
  require : ∀ name ∈ policy.require, ∃ value, get claims name = some value ∧ value ≠ .null
  maxAge : ∀ maxAge, policy.maxAge = some maxAge →
    ∃ value iat, get claims "iat" = some value ∧ asF64 value = some iat ∧
      (doubles.add (doubles.add iat maxAge) leeway).lt now = false

section Check

variable {doubles : Doubles} {policy : ClaimPolicy} {claims : Doc} {now leeway : F64}

/-- A test that rejects was not met. -/
theorem reject_eq_ok {α : Type} {p : Prop} [Decidable p] {reason : String}
    {rest : Except String α} {a : α} :
    (if p then .error reason else rest) = .ok a ↔ ¬p ∧ rest = .ok a := by
  by_cases hp : p <;> simp [hp]

theorem any_ne_true {α : Type} {o : Option α} {p : α → Bool} :
    ¬o.any p = true ↔ ∀ a, o = some a → p a = false := by
  cases o <;> simp

theorem asStr_eq_some {doc : Doc} {s : String} : asStr doc = some s ↔ doc = .string s := by
  cases doc <;> simp [asStr]

theorem isNull_eq_true {doc : Doc} : isNull doc = true ↔ doc = .null := by
  cases doc <;> simp [isNull]

theorem bind_asStr_eq_some {found : Option Doc} {s : String} :
    found.bind asStr = some s ↔ found = some (.string s) := by
  cases found with
  | none => simp
  | some doc => simp [asStr_eq_some]

theorem audienceListed_iff {audience : String} :
    audienceListed claims audience = true ↔
      get claims "aud" = some (.string audience) ∨
        ∃ auds, get claims "aud" = some (.array auds) ∧ .string audience ∈ auds := by
  unfold audienceListed
  cases hget : get claims "aud" with
  | none => simp
  | some value =>
      cases value with
      | string aud => simp
      | array auds => simp [asStr_eq_some]
      | _ => simp

/-- A numeric date that is absent, or a number that passes a test. -/
theorem numericDate_iff {name : String} {fails : F64 → Bool} :
    (∃ date, numericDate claims name = some date ∧ date.any fails = false) ↔
      ∀ value, get claims name = some value → ∃ t, asF64 value = some t ∧ fails t = false := by
  unfold numericDate
  cases get claims name with
  | none => simp
  | some value => simp

theorem checkAge_iff {maxAge : F64} :
    checkAge doubles claims now leeway maxAge = .ok () ↔
      ∃ value iat, get claims "iat" = some value ∧ asF64 value = some iat ∧
        (doubles.add (doubles.add iat maxAge) leeway).lt now = false := by
  unfold checkAge
  cases get claims "iat" with
  | none => simp
  | some value =>
      cases hiat : asF64 value with
      | none => simp [hiat]
      | some iat => simp [hiat]

theorem check_iff :
    policy.check doubles claims now leeway = .ok () ↔
      (∀ issuer, policy.issuer = some issuer → get claims "iss" = some (.string issuer)) ∧
      (∀ audience, policy.audience = some audience → audienceListed claims audience = true) ∧
      (∀ subject, policy.subject = some subject → get claims "sub" = some (.string subject)) ∧
      (∀ name ∈ policy.require, ∃ value, get claims name = some value ∧ value ≠ .null) ∧
      ∀ maxAge, policy.maxAge = some maxAge →
        checkAge doubles claims now leeway maxAge = .ok () := by
  unfold ClaimPolicy.check
  rw [reject_eq_ok, reject_eq_ok, reject_eq_ok, any_ne_true, any_ne_true, any_ne_true]
  simp only [ne_eq, decide_not, Bool.not_eq_false', decide_eq_true_eq, bind_asStr_eq_some]
  refine and_congr_right fun _ => and_congr_right fun _ => and_congr_right fun _ => ?_
  cases hfind : policy.require.find? fun name => (get claims name).all isNull with
  | some name =>
      obtain ⟨hnull, hmem⟩ := List.find?_eq_some_iff_append.mp hfind
      have hname := List.mem_of_find?_eq_some hfind
      simp only [reduceCtorEq, false_iff, not_and]
      intro hall
      obtain ⟨value, hvalue, hne⟩ := hall name hname
      rw [hvalue] at hnull
      exact absurd (isNull_eq_true.mp hnull) hne
  | none =>
      have hall : ∀ name ∈ policy.require, ∃ value, get claims name = some value ∧
          value ≠ .null := by
        intro name hname
        have hnot := List.find?_eq_none.mp hfind name hname
        cases hvalue : get claims name with
        | none => simp [hvalue] at hnot
        | some value =>
            refine ⟨value, rfl, fun hnull => hnot ?_⟩
            rw [hvalue, hnull]
            rfl
      rw [and_iff_right hall]
      cases policy.maxAge with
      | none => simp
      | some maxAge => simp

/-- What is returned is the claims, and they meet the conditions. -/
theorem checkClaims_eq_ok {found : Doc} :
    checkClaims doubles policy claims now leeway = .ok found ↔
      found = claims ∧ Meets doubles policy claims now leeway := by
  have hcheck : checkClaims doubles policy claims now leeway = .ok found ↔
      (∃ exp, numericDate claims "exp" = some exp ∧
        exp.any (fun exp => (doubles.add exp leeway).lt now) = false) ∧
      (∃ nbf, numericDate claims "nbf" = some nbf ∧
        nbf.any (fun nbf => now.lt (doubles.sub nbf leeway)) = false) ∧
      policy.check doubles claims now leeway = .ok () ∧ found = claims := by
    unfold checkClaims
    cases numericDate claims "exp" with
    | none => simp
    | some exp =>
        cases numericDate claims "nbf" with
        | none => simp
        | some nbf =>
            simp only [reject_eq_ok, Option.some.injEq, exists_eq_left', Bool.not_eq_true]
            refine and_congr_right fun _ => and_congr_right fun _ => ?_
            cases policy.check doubles claims now leeway with
            | error reason => simp [bind, Except.bind]
            | ok u => simp [bind, Except.bind, pure, Except.pure, eq_comm]
  rw [hcheck, numericDate_iff, numericDate_iff, check_iff]
  constructor
  · rintro ⟨hexp, hnbf, ⟨hissuer, haudience, hsubject, hrequire, hage⟩, hfound⟩
    exact ⟨hfound, hexp, hnbf, hissuer, fun a ha => audienceListed_iff.mp (haudience a ha),
      hsubject, hrequire, fun m hm => checkAge_iff.mp (hage m hm)⟩
  · rintro ⟨hfound, h⟩
    exact ⟨h.exp, h.nbf, ⟨h.issuer, fun a ha => audienceListed_iff.mpr (h.audience a ha),
      h.subject, h.require, fun m hm => checkAge_iff.mpr (h.maxAge m hm)⟩, hfound⟩

end Check

/-! ## Documents that are read as they were written -/

section Exact

variable (serde : SerdeJson)

mutual

/-- Every double is read as it was written and no object repeats a key. -/
def Exact : Doc → Prop
  | .number n => serde.reread n = n
  | .array items => exactItems items
  | .object entries => (entries.map Prod.fst).Nodup ∧ exactEntries entries
  | .null | .boolean _ | .integer _ | .string _ => True

def exactItems : List Doc → Prop
  | [] => True
  | doc :: docs => Exact doc ∧ exactItems docs

def exactEntries : List (String × Doc) → Prop
  | [] => True
  | e :: rest => Exact e.2 ∧ exactEntries rest

end

variable {serde}

theorem length_parsedEntries (entries : List (String × Doc)) :
    (parsedEntries serde entries).length ≤ entries.length := by
  induction entries with
  | nil => simp [parsedEntries]
  | cons e rest ih =>
      rw [parsedEntries]
      split
      · simp only [List.length_cons]
        omega
      · simp only [List.length_cons]
        omega

mutual

theorem parsed_eq_self_iff (doc : Doc) : doc.parsed serde = doc ↔ Exact serde doc := by
  cases doc with
  | number n => simp [Doc.parsed, Exact]
  | array items => simp [Doc.parsed, Exact, parsedItems_eq_self_iff items]
  | object entries => simp [Doc.parsed, Exact, parsedEntries_eq_self_iff entries]
  | _ => simp [Doc.parsed, Exact]

theorem parsedItems_eq_self_iff (items : List Doc) :
    parsedItems serde items = items ↔ exactItems serde items := by
  cases items with
  | nil => simp [parsedItems, exactItems]
  | cons doc docs =>
      simp [parsedItems, exactItems, parsed_eq_self_iff doc, parsedItems_eq_self_iff docs]

theorem parsedEntries_eq_self_iff (entries : List (String × Doc)) :
    parsedEntries serde entries = entries ↔
      (entries.map Prod.fst).Nodup ∧ exactEntries serde entries := by
  cases entries with
  | nil => simp [parsedEntries, exactEntries]
  | cons e rest =>
      obtain ⟨key, doc⟩ := e
      rw [parsedEntries]
      by_cases hkey : key ∈ rest.map Prod.fst
      · -- A repeated key is dropped: the members read are fewer.
        have hfewer : parsedEntries serde rest ≠ (key, doc) :: rest := by
          intro heq
          have hlength := @length_parsedEntries serde rest
          rw [heq, List.length_cons] at hlength
          omega
        simp [hkey, hfewer]
      · have hdoc := parsed_eq_self_iff doc
        have hrest := parsedEntries_eq_self_iff rest
        simp only [hkey, if_false, List.cons.injEq, Prod.mk.injEq, true_and, List.map_cons,
          List.nodup_cons, not_false_eq_true, exactEntries, hdoc, hrest]
        exact and_left_comm

end

theorem fromSlice_eq_self_iff {doc : Doc} :
    serde.fromSlice doc = some doc ↔ doc.depth ≤ serde.maxDepth ∧ Exact serde doc := by
  unfold SerdeJson.fromSlice
  by_cases hdepth : doc.depth ≤ serde.maxDepth
  · simp [hdepth, parsed_eq_self_iff]
  · simp [hdepth]

end Exact

/-! ## Tokens -/

/-- Nothing but the tags of issued messages is accepted. -/
def Mac.Ideal (mac : Mac) (issued : List (String × List UInt8 × List UInt8)) : Prop :=
  ∀ alg key data presented, mac.accepts alg key data presented = true ↔
    (alg, key, data) ∈ issued ∧ presented = mac.tag alg key data

/-- What a call of `sign` gives to the MAC. -/
def SignCall.message (json : JsonBytes) (serde : SerdeJson) (call : SignCall) :
    Option (String × List UInt8 × List UInt8) :=
  match call.document serde with
  | .ok doc =>
      some (call.algorithm, keyBytes call.key,
        signingInput (headerOf call.algorithm) (payloadOf json doc))
  | .error _ => none

def issued (json : JsonBytes) (serde : SerdeJson) (history : List SignCall) :
    List (String × List UInt8 × List UInt8) :=
  history.filterMap (·.message json serde)

/-- What the JSON text is relied on for: the signed documents and the three headers are read
as `serde_json` reads them. -/
structure JsonBytes.Reads (json : JsonBytes) (serde : SerdeJson) (history : List SignCall) :
    Prop where
  payload : ∀ call ∈ history, ∀ doc, call.document serde = .ok doc →
    json.fromSlice (json.write doc) = serde.fromSlice doc
  header : ∀ alg ∈ jwtAlgorithms, json.fromSlice (asBytes (headerText alg)) =
    some (.object [("alg", .string alg), ("typ", .string "JWT")])

theorem keyBytes_injective : Function.Injective keyBytes := by
  intro a b h
  exact LuaString.ext (ByteArray.ext (Array.toList_inj.mp h))

/-- The first dot ends the header. -/
theorem signingInput_inj {header header' payload payload' : List Char} (h : '.' ∉ header)
    (h' : '.' ∉ header') (heq : signingInput header payload = signingInput header' payload') :
    header = header' ∧ payload = payload' := by
  have htext := String.ofList_injective (asBytes_injective heq)
  have hfirst := List.splitOn_append_cons_self_of_not_mem h payload
  rw [htext, List.splitOn_append_cons_self_of_not_mem h'] at hfirst
  have hheader := (List.cons.inj hfirst).1.symm
  rw [hheader] at htext
  exact ⟨hheader, (List.cons.inj (List.append_cancel_left htext)).2⟩

theorem message_eq_some {json : JsonBytes} {serde : SerdeJson} {call : SignCall} {alg : String}
    {key data : List UInt8} (h : call.message json serde = some (alg, key, data)) :
    ∃ doc, call.document serde = .ok doc ∧ call.algorithm = alg ∧ keyBytes call.key = key ∧
      signingInput (headerOf call.algorithm) (payloadOf json doc) = data := by
  unfold SignCall.message at h
  split at h
  · rename_i doc hdoc
    rw [Option.some.injEq, Prod.mk.injEq, Prod.mk.injEq] at h
    exact ⟨doc, hdoc, h⟩
  · cases h

theorem splitOn_token {header payload sig : List Char} (hheader : '.' ∉ header)
    (hpayload : '.' ∉ payload) (hsig : '.' ∉ sig) :
    (header ++ '.' :: payload ++ '.' :: sig).splitOn '.' = [header, payload, sig] := by
  rw [List.append_assoc, List.cons_append, List.splitOn_append_cons_self_of_not_mem hheader,
    List.splitOn_append_cons_self_of_not_mem hpayload, List.splitOn_eq_singleton hsig]

section Token

variable {mac : Mac} {json : JsonBytes} {serde : SerdeJson} {doubles : Doubles}
  {history : List SignCall}

theorem sign_eq_ok {call : SignCall} {doc : Doc} {token : LuaString}
    (hdoc : call.document serde = .ok doc) (h : sign mac json serde call = .ok token) :
    token.toStringLossy.toList.splitOn '.' =
      [headerOf call.algorithm, payloadOf json doc,
        encode (mac.tag call.algorithm (keyBytes call.key)
          (signingInput (headerOf call.algorithm) (payloadOf json doc)))] := by
  unfold sign at h
  rw [hdoc] at h
  cases h
  rw [LuaString.toStringLossy_ofString, String.toList_ofList]
  exact splitOn_token (dot_not_mem_encode _) (dot_not_mem_encode _) (dot_not_mem_encode _)

theorem read_eq_ok {opts : VerifyOpts} {allowed : List String} {leeway : F64}
    (h : opts.read = .ok (allowed, leeway)) :
    opts.algorithms = some allowed ∧ opts.leeway.getD (.finite 0) = leeway ∧
      ∀ alg ∈ allowed, alg ∈ jwtAlgorithms := by
  unfold VerifyOpts.read at h
  split at h
  · cases h
  · rename_i listed hlisted
    split at h
    · cases h
    · rename_i hfind
      simp only at h
      split at h
      · cases h
      · split at h
        · cases h
        · cases h
          refine ⟨hlisted, rfl, fun alg halg => ?_⟩
          simpa using List.find?_eq_none.mp hfind alg halg

/-- The parts of a token that verifies: the header names an algorithm of the list under which
the tag is accepted, and the payload is the claims. -/
theorem verifyParts_eq_ok {allowed : List String} {policy : ClaimPolicy} {now leeway : F64}
    {key : LuaString} {header payload sig : List Char} {claims : Doc} :
    verifyParts mac json doubles allowed policy now leeway key header payload sig =
        .ok (.ok claims) ↔
      ∃ alg presented, headerAlg json header = some alg ∧ alg ∈ allowed ∧ alg ∈ jwtAlgorithms ∧
        decode sig = some presented ∧
        mac.accepts alg (keyBytes key) (signingInput header payload) presented = true ∧
        (decode payload).bind json.fromSlice = some claims ∧
        Meets doubles policy claims now leeway := by
  unfold verifyParts
  cases headerAlg json header with
  | none => simp
  | some alg =>
      simp only [Option.some.injEq, exists_and_left, exists_eq_left']
      by_cases hallowed : alg ∈ allowed
      · by_cases halg : alg ∈ jwtAlgorithms
        · simp only [hallowed, halg, not_true_eq_false, if_false, true_and]
          cases hsig : decode sig with
          | none => simp
          | some presented =>
              simp only [Option.any_some, Option.some.injEq, exists_eq_left']
              by_cases hok : mac.accepts alg (keyBytes key) (signingInput header payload) presented
              · simp only [hok, if_true, true_and]
                cases hclaims : (decode payload).bind json.fromSlice with
                | none => simp
                | some read =>
                    simp only [Except.ok.injEq, checkClaims_eq_ok, Option.some.injEq]
                    constructor
                    · rintro ⟨rfl, hmeets⟩
                      exact ⟨rfl, hmeets⟩
                    · rintro ⟨rfl, hmeets⟩
                      exact ⟨rfl, hmeets⟩
              · simp [hok]
        · simp [hallowed, halg]
      · simp [hallowed]

/-- A token that verifies was signed with that key, under an algorithm of the list. -/
theorem verify_sound {now : F64} {token key : LuaString} {opts : VerifyOpts} {claims : Doc}
    (hideal : mac.Ideal (issued json serde history))
    (h : verify mac json doubles now token key opts = .ok (.ok claims)) :
    ∃ allowed, opts.algorithms = some allowed ∧
      (∃ call ∈ history, ∃ doc sig, call.document serde = .ok doc ∧ call.key = key ∧
        call.algorithm ∈ allowed ∧
        token.toStringLossy.toList.splitOn '.' =
          [headerOf call.algorithm, payloadOf json doc, sig] ∧
        json.fromSlice (json.write doc) = some claims) ∧
      Meets doubles opts.toClaimPolicy claims now (opts.leeway.getD (.finite 0)) := by
  unfold verify at h
  split at h
  · cases h
  · rename_i allowed leeway hopts
    obtain ⟨hlist, rfl, -⟩ := read_eq_ok hopts
    split at h
    · rename_i header payload sig hparts
      obtain ⟨alg, presented, -, hallowed, -, -, haccepts, hclaims, hmeets⟩ :=
        verifyParts_eq_ok.mp h
      obtain ⟨hissued, -⟩ := (hideal _ _ _ _).mp haccepts
      obtain ⟨call, hcall, hmessage⟩ := List.mem_filterMap.mp hissued
      obtain ⟨doc, hdoc, rfl, hkey, hinput⟩ := message_eq_some hmessage
      have hdot : '.' ∉ header := List.not_mem_of_mem_splitOn (by rw [hparts]; simp)
      obtain ⟨rfl, rfl⟩ := signingInput_inj (dot_not_mem_encode _) hdot hinput
      rw [payloadOf, decode_encode, Option.bind_some] at hclaims
      exact ⟨allowed, hlist, ⟨call, hcall, doc, sig, hdoc, keyBytes_injective hkey, hallowed,
        hparts, hclaims⟩, hmeets⟩
    · cases h

/-- A token that was signed is judged by what the parser reads of its document. -/
theorem verify_token {now leeway : F64} {opts : VerifyOpts} {allowed : List String}
    {call : SignCall} {doc : Doc} {token : LuaString}
    (hideal : mac.Ideal (issued json serde history)) (hjson : json.Reads serde history)
    (hcall : call ∈ history) (hdoc : call.document serde = .ok doc)
    (hsign : sign mac json serde call = .ok token) (hopts : opts.read = .ok (allowed, leeway))
    (hallowed : call.algorithm ∈ allowed) :
    verify mac json doubles now token call.key opts =
      .ok ((serde.fromSlice doc).elim (.error "malformed claims") fun claims =>
        checkClaims doubles opts.toClaimPolicy claims now leeway) := by
  have halg := (read_eq_ok hopts).2.2 _ hallowed
  have hread : (decode (payloadOf json doc)).bind json.fromSlice = serde.fromSlice doc := by
    rw [payloadOf, decode_encode, Option.bind_some, hjson.payload call hcall doc hdoc]
  have hheader : headerAlg json (headerOf call.algorithm) = some call.algorithm := by
    simp [headerAlg, headerOf, decode_encode, hjson.header _ halg, get, asStr]
  have hissued : (call.algorithm, keyBytes call.key,
      signingInput (headerOf call.algorithm) (payloadOf json doc)) ∈ issued json serde history :=
    List.mem_filterMap.mpr ⟨call, hcall, by simp [SignCall.message, hdoc]⟩
  have haccepts := (hideal _ _ _ _).mpr ⟨hissued, rfl⟩
  unfold verify
  simp only [hopts, sign_eq_ok hdoc hsign, verifyParts, hheader, hallowed, halg, hread,
    decode_encode, Option.any_some, haccepts, not_true_eq_false, if_false, if_true]
  cases serde.fromSlice doc <;> rfl

/-- A signed document that meets the conditions comes back as it was exactly if the parser
reads it so. -/
theorem verify_sign_iff {now leeway : F64} {opts : VerifyOpts} {allowed : List String}
    {call : SignCall} {doc : Doc} {token : LuaString}
    (hideal : mac.Ideal (issued json serde history)) (hjson : json.Reads serde history)
    (hcall : call ∈ history) (hdoc : call.document serde = .ok doc)
    (hsign : sign mac json serde call = .ok token) (hopts : opts.read = .ok (allowed, leeway))
    (hallowed : call.algorithm ∈ allowed)
    (hmeets : Meets doubles opts.toClaimPolicy doc now leeway) :
    verify mac json doubles now token call.key opts = .ok (.ok doc) ↔
      doc.depth ≤ serde.maxDepth ∧ Exact serde doc := by
  rw [verify_token hideal hjson hcall hdoc hsign hopts hallowed, ← fromSlice_eq_self_iff]
  cases serde.fromSlice doc with
  | none => simp
  | some claims =>
      simp only [Except.ok.injEq, Option.elim_some, checkClaims_eq_ok, Option.some.injEq]
      constructor
      · rintro ⟨hsame, -⟩
        exact hsame.symm
      · rintro rfl
        exact ⟨rfl, hmeets⟩

/-- Verification is sound, and gives a signed document back exactly if the JSON parser reads
it as it was written. -/
theorem verify_signed_iff (hideal : mac.Ideal (issued json serde history))
    (hjson : json.Reads serde history) (now : F64) (opts : VerifyOpts) :
    (∀ (token key : LuaString) (claims : Doc),
      verify mac json doubles now token key opts = .ok (.ok claims) →
      ∃ allowed, opts.algorithms = some allowed ∧
        (∃ call ∈ history, ∃ doc sig, call.document serde = .ok doc ∧ call.key = key ∧
          call.algorithm ∈ allowed ∧
          token.toStringLossy.toList.splitOn '.' =
            [headerOf call.algorithm, payloadOf json doc, sig] ∧
          json.fromSlice (json.write doc) = some claims) ∧
        Meets doubles opts.toClaimPolicy claims now (opts.leeway.getD (.finite 0))) ∧
    ∀ call ∈ history, ∀ (doc : Doc) (token : LuaString) (allowed : List String) (leeway : F64),
      call.document serde = .ok doc → sign mac json serde call = .ok token →
      opts.read = .ok (allowed, leeway) → call.algorithm ∈ allowed →
      Meets doubles opts.toClaimPolicy doc now leeway →
      (verify mac json doubles now token call.key opts = .ok (.ok doc) ↔
        doc.depth ≤ serde.maxDepth ∧ Exact serde doc) := by
  refine ⟨fun token key claims h => verify_sound hideal h, ?_⟩
  intro call hcall doc token allowed leeway hdoc hsign hopts hallowed hmeets
  exact verify_sign_iff hideal hjson hcall hdoc hsign hopts hallowed hmeets

end Token

/-! ## Two tokens -/

mutual

/-- The compact text of a document whose strings need no escapes. -/
def compact : Doc → String
  | .null => "null"
  | .boolean b => if b then "true" else "false"
  | .integer i => toString i
  | .number n => halves.decimal n
  | .string s => "\"" ++ s ++ "\""
  | .array items => "[" ++ ",".intercalate (compactItems items) ++ "]"
  | .object entries => "\x7b" ++ ",".intercalate (compactEntries entries) ++ "\x7d"

def compactItems : List Doc → List String
  | [] => []
  | doc :: docs => compact doc :: compactItems docs

def compactEntries : List (String × Doc) → List String
  | [] => []
  | e :: rest => ("\"" ++ e.1 ++ "\":" ++ compact e.2) :: compactEntries rest

end

def headerDoc (alg : String) : Doc := .object [("alg", .string alg), ("typ", .string "JWT")]

/-- The text of one document and of the headers. -/
def jsonOf (doc : Doc) : JsonBytes where
  write d := asBytes (compact d)
  fromSlice bytes :=
    if bytes = asBytes (compact doc) then halves.fromSlice doc
    else (jwtAlgorithms.find? fun alg => bytes = asBytes (headerText alg)).map headerDoc

/-- The MAC of one signed message, with its tag. -/
def oneTokenMac (json : JsonBytes) (call : SignCall) (tag : List UInt8) : Mac where
  tag _ _ _ := tag
  accepts alg key data presented :=
    (alg, key, data) ∈ issued json halves [call] ∧ presented = tag

theorem oneTokenMac_ideal (json : JsonBytes) (call : SignCall) (tag : List UInt8) :
    (oneTokenMac json call tag).Ideal (issued json halves [call]) :=
  fun _ _ _ _ => decide_eq_true_iff

/-- Doubles small enough for exact sums. -/
def exactly : Doubles where
  add a b := .finite (a.exact.getD 0 + b.exact.getD 0)
  sub a b := .finite (a.exact.getD 0 - b.exact.getD 0)

/-- The headers are read if the document's text is none of theirs. -/
theorem reads_jsonOf {doc : Doc} {history : List SignCall}
    (hdoc : ∀ call ∈ history, ∀ d, call.document halves = .ok d → d = doc)
    (hother : ∀ alg ∈ jwtAlgorithms, headerText alg ≠ compact doc) :
    (jsonOf doc).Reads halves history := by
  constructor
  · intro call hcall d hd
    rw [hdoc call hcall d hd]
    simp [jsonOf]
  · intro alg halg
    have hne : asBytes (headerText alg) ≠ asBytes (compact doc) :=
      fun heq => hother alg halg (asBytes_injective heq)
    have hfind : ∀ a ∈ jwtAlgorithms,
        (jwtAlgorithms.find? fun b => asBytes (headerText a) = asBytes (headerText b)) = some a := by
      decide
    simp only [jsonOf, hne, if_false, hfind alg halg, Option.map_some, headerDoc]

/-- Claims nested so deep below the first table. -/
def nest : ℕ → Data
  | 0 => .table 0 false []
  | n + 1 => .table 0 false [(.string (.ofString "n"), nest n)]

def nestDoc : ℕ → Doc
  | 0 => .object []
  | n + 1 => .object [("n", nestDoc n)]

theorem guarded_nest (decimal : F64 → String) (n depth budget : ℕ)
    (hdepth : depth + n < maxJsonDepth) (hbudget : 2 * n + 1 ≤ budget) :
    (nest n).calls.guarded decimal depth budget = .ok (nestDoc n, budget - (2 * n + 1)) := by
  have hvisit : visit budget = .ok (budget - 1) := visit_of_pos (by omega)
  have henter : enter depth = .ok (depth + 1) := enter_of_lt (by omega)
  induction n generalizing depth budget with
  | zero =>
      simp [nest, nestDoc, Data.calls, entryCalls, tableCalls, Calls.guarded, guardedEntries,
        hvisit, henter, bind, Except.bind, pure, Except.pure]
  | succ n ih =>
      have hinner := ih (depth + 1) (budget - 1 - 1) (by omega) (by omega)
        (visit_of_pos (by omega)) (enter_of_lt (by omega))
      have hkey : visit (budget - 1) = .ok (budget - 1 - 1) := visit_of_pos (by omega)
      simp only [nest, nestDoc, Data.calls, entryCalls, tableCalls, mapCalls, Calls.guarded,
        guardedEntries, Scalar.guard, Key.call, stringCall, toStr_ofString, Scalar.key, hvisit,
        henter, hkey, hinner, bind, Except.bind, pure, Except.pure, if_true, List.map_cons,
        List.map_nil, reduceCtorEq, if_false]
      simp only [Except.ok.injEq, Prod.mk.injEq, true_and]
      omega

theorem depth_nestDoc (n : ℕ) : (nestDoc n).depth = n + 1 := by
  induction n with
  | zero => rfl
  | succ n ih =>
      simp only [nestDoc, Doc.depth, membersDepth, ih]
      omega

/-- `jwt.sign({ sub = "ada", exp = 2000000000 }, "s3cret")`. -/
def adaCall : SignCall where
  len := 0
  array := false
  entries := [(.string (.ofString "sub"), .string (.ofString "ada")),
    (.string (.ofString "exp"), .integer 2000000000)]
  key := .ofString "s3cret"
  alg := none

def adaDoc : Doc := .object [("sub", .string "ada"), ("exp", .integer 2000000000)]

theorem document_adaCall : adaCall.document halves = .ok adaDoc := by
  have hdoc : toJson halves.decimal adaCall.claims = .ok adaDoc := by
    simp [toJson, adaCall, SignCall.claims, Data.calls, entryCalls, tableCalls, mapCalls, Key.call,
      stringCall, Calls.guarded, guardedEntries, visit, enter, Scalar.guard, Scalar.key,
      Scalar.doc, maxJsonNodes, maxJsonDepth, bind, Except.bind, pure, Except.pure, adaDoc]
  have halg : adaCall.algorithm ∈ jwtAlgorithms := by decide
  rw [SignCall.document, if_pos halg, hdoc]

/-- With the tag `HMAC-SHA256` has for it. -/
def adaMac : Mac :=
  oneTokenMac (jsonOf adaDoc) adaCall
    [235, 114, 116, 86, 222, 241, 68, 6, 243, 141, 57, 162, 84, 73, 42, 39, 126, 14, 146, 103, 169,
      245, 194, 52, 253, 246, 39, 214, 97, 26, 226, 116]

def adaOpts : VerifyOpts where
  algorithms := some ["HS256"]
  subject := some "ada"
  require := ["exp"]

theorem verify_signed_ada :
    ∃ token, sign adaMac (jsonOf adaDoc) halves adaCall = .ok token ∧
      verify adaMac (jsonOf adaDoc) exactly (.finite 1700000000) token adaCall.key adaOpts =
        .ok (.ok adaDoc) := by
  have hdoc : ∀ call ∈ [adaCall], ∀ d, call.document halves = .ok d → d = adaDoc := by
    intro call hcall d hd
    rw [List.mem_singleton.mp hcall, document_adaCall] at hd
    exact (Except.ok.inj hd).symm
  have hreads : (jsonOf adaDoc).Reads halves [adaCall] := reads_jsonOf hdoc (by decide +kernel)
  have hfuture : (exactly.add (F64.ofInt 2000000000) (.finite 0)).lt (.finite 1700000000) =
      false := by decide +kernel
  have hmeets : Meets exactly adaOpts.toClaimPolicy adaDoc (.finite 1700000000) (.finite 0) :=
    ⟨by simp [get, adaDoc, asF64, hfuture], by simp [get, adaDoc], by simp [adaOpts],
      by simp [adaOpts], by simp [adaOpts, get, adaDoc], by simp [adaOpts, get, adaDoc],
      by simp [adaOpts]⟩
  have hsign : ∃ token, sign adaMac (jsonOf adaDoc) halves adaCall = .ok token := by
    unfold sign
    rw [document_adaCall]
    exact ⟨_, rfl⟩
  obtain ⟨token, htoken⟩ := hsign
  have hsigned := (@verify_signed_iff _ _ _ exactly _ (oneTokenMac_ideal _ adaCall _) hreads
    (.finite 1700000000) adaOpts).2 adaCall (by simp) adaDoc token ["HS256"] (.finite 0)
    document_adaCall htoken rfl (by decide) hmeets
  exact ⟨token, htoken, hsigned.mpr ⟨by decide, by simp [Exact, exactEntries, adaDoc]⟩⟩

/-- `jwt.sign` of a table in a table, 128 deep. -/
def deepCall : SignCall where
  len := 0
  array := false
  entries := [(.string (.ofString "n"), nest 126)]
  key := .ofString "s3cret"
  alg := none

theorem document_deepCall : deepCall.document halves = .ok (nestDoc 127) := by
  have hclaims : deepCall.claims = nest 127 := rfl
  have hdoc : toJson halves.decimal deepCall.claims = .ok (nestDoc 127) := by
    rw [hclaims, toJson, guarded_nest halves.decimal 127 0 maxJsonNodes (by decide) (by decide)]
    rfl
  have halg : deepCall.algorithm ∈ jwtAlgorithms := by decide
  rw [SignCall.document, if_pos halg, hdoc]

def deepMac : Mac :=
  oneTokenMac (jsonOf (nestDoc 127)) deepCall
    [126, 18, 80, 27, 234, 220, 168, 52, 248, 177, 150, 204, 45, 73, 142, 44, 15, 239, 211, 61, 104,
      32, 235, 79, 22, 168, 9, 182, 58, 231, 12, 193]

/-- What `sign` accepts at the depth bound `verify` refuses. -/
theorem verify_refuses_deep :
    deepMac.Ideal (issued (jsonOf (nestDoc 127)) halves [deepCall]) ∧
      (jsonOf (nestDoc 127)).Reads halves [deepCall] ∧
      ∃ token, sign deepMac (jsonOf (nestDoc 127)) halves deepCall = .ok token ∧
        Meets exactly {} (nestDoc 127) (.finite 1700000000) (.finite 0) ∧
        verify deepMac (jsonOf (nestDoc 127)) exactly (.finite 1700000000) token deepCall.key
          { algorithms := some ["HS256"] } = .ok (.error "malformed claims") := by
  have hdoc : ∀ call ∈ [deepCall], ∀ d, call.document halves = .ok d → d = nestDoc 127 := by
    intro call hcall d hd
    rw [List.mem_singleton.mp hcall, document_deepCall] at hd
    exact (Except.ok.inj hd).symm
  have hreads : (jsonOf (nestDoc 127)).Reads halves [deepCall] :=
    reads_jsonOf hdoc (by decide +kernel)
  have hideal : deepMac.Ideal (issued (jsonOf (nestDoc 127)) halves [deepCall]) :=
    oneTokenMac_ideal _ deepCall _
  have hchecked : checkClaims exactly {} (nestDoc 127) (.finite 1700000000) (.finite 0) =
      .ok (nestDoc 127) := by rfl
  have hsign : ∃ token, sign deepMac (jsonOf (nestDoc 127)) halves deepCall = .ok token := by
    unfold sign
    rw [document_deepCall]
    exact ⟨_, rfl⟩
  obtain ⟨token, htoken⟩ := hsign
  refine ⟨hideal, hreads, token, htoken, (checkClaims_eq_ok.mp hchecked).2, ?_⟩
  have hopts : VerifyOpts.read { algorithms := some ["HS256"] } = .ok (["HS256"], .finite 0) := by
    rfl
  have hunread : halves.fromSlice (nestDoc 127) = none := by
    rw [SerdeJson.fromSlice, depth_nestDoc, if_neg (by decide)]
  rw [verify_token hideal hreads (by simp) document_deepCall htoken hopts (by decide), hunread]
  rfl

end Nitr.Jwt
