import Nitr.Http.Session
import Nitr.Json.Restore

/-! # What a session keeps

A saved session is loaded as it was exactly if it is an object with string keys whose values
are durable and which the parser reads. A list is saved and loads empty. -/

namespace Nitr.Session

open Nitr.Json Nitr.Cookies
open Nitr.Validate (LuaString F64)

/-! ## What travels in the cookie -/

section

variable {mac : Mac} {text : JsonText} {serde : SerdeJson} {opts : SessionOpts} {t t' : I64}
  {len : ℕ} {array : Bool} {entries : List (Key × Data)} {cookie : String × String}

/-- What the text of a document is relied on for. -/
structure JsonText.Faithful (text : JsonText) (serde : SerdeJson) (json : Doc) : Prop where
  fromStr_write : text.fromStr (text.write json) = serde.fromSlice json
  write_object : text.write json = "\x7b\x7d" ↔ json = .object []
  write_array : text.write json = "[]" ↔ json = .array []

theorem buildCookie_eq_ok {name value : String} (h : buildCookie name value = .ok cookie) :
    cookie = (name, value) := by
  unfold buildCookie at h
  split at h
  · split at h
    · cases h
      rfl
    · cases h
  · cases h

theorem verify_sign {name value secret : String}
    (hmac : ∀ key message, mac.verifySlice key message (mac.tag key message) = true) :
    verify mac name (sign mac name value secret) secret = some value := by
  rw [verify_eq_some]
  refine ⟨Base64Url.encode (asBytes value),
    Base64Url.encode (macBytes mac name (payloadOf value) secret),
    macBytes mac name (payloadOf value) secret, asBytes value, ?_, dot_not_mem_encode _,
    Base64Url.decode_encode _, hmac _ _, Base64Url.decode_encode _, fromUtf8_asBytes value⟩
  rw [sign, String.toList_ofList, payloadOf, String.toList_ofList]

/-- A signed value is a cookie value. -/
theorem checkCookieValue_sign (name value secret : String) :
    checkCookieValue (sign mac name value secret) = true := by
  have hall : ∀ c ∈ '.' :: Base64Url.alphabet,
      (isGraphic c && !valueSeparators.contains c) = true :=
    List.all_eq_true.mp (by decide)
  unfold checkCookieValue
  rw [sign, payloadOf, String.toList_ofList, String.toList_ofList, List.all_eq_true]
  intro c hc
  rcases List.mem_append.mp hc with hc | hc
  · exact hall c (List.mem_cons_of_mem _ (Base64Url.mem_alphabet_of_mem_encode hc))
  · rcases List.mem_cons.mp hc with rfl | hc
    · exact hall _ (List.mem_cons_self ..)
    · exact hall c (List.mem_cons_of_mem _ (Base64Url.mem_alphabet_of_mem_encode hc))

/-- A session with data that fits is saved under its signature. -/
theorem save_of_value {json : Doc}
    (hvalue : sessionValue serde opts.maxAge t len array entries = .ok json)
    (hsize : (text.write json).utf8ByteSize ≤ maxSessionJson)
    (hobject : text.write json ≠ "\x7b\x7d") (harray : text.write json ≠ "[]")
    (hname : checkCookieName opts.name = true) :
    save mac text serde opts t len array entries =
      .ok (opts.name, sign mac opts.name (text.write json) opts.secret) := by
  have hserialize : serialize text serde opts.maxAge t len array entries =
      .ok (text.write json) := by
    unfold serialize
    rw [hvalue]
    exact if_neg (by omega)
  unfold save
  rw [hserialize]
  refine (if_neg (by simp [hobject, harray])).trans ?_
  rw [buildCookie, if_pos hname, if_pos (checkCookieValue_sign _ _ _)]

theorem verify_empty {name secret : String} : verify mac name "" secret = none := rfl

theorem loadInto_empty (now : I64) : loadInto (serde.fromSlice (.object [])) now = [] := by
  unfold SerdeJson.fromSlice
  split <;> rfl

theorem loadInto_array (items : List Doc) (now : I64) :
    loadInto (serde.fromSlice (.array items)) now = [] := by
  unfold SerdeJson.fromSlice
  split <;> rfl

/-- What is loaded is read from the document that was saved. -/
theorem load_of_save {cookies : List (String × String)}
    (hmac : ∀ key message, mac.verifySlice key message (mac.tag key message) = true)
    (hsave : save mac text serde opts t len array entries = .ok cookie)
    (hfaithful : ∀ json, sessionValue serde opts.maxAge t len array entries = .ok json →
      text.Faithful serde json)
    (hcarries : getCookie cookies opts.name = some cookie.2) :
    ∃ json, sessionValue serde opts.maxAge t len array entries = .ok json ∧
      load mac text opts cookies t' = loadInto (serde.fromSlice json) t' := by
  obtain ⟨written, hwritten, hcookie⟩ := Except.bind_eq_ok_iff.mp hsave
  obtain ⟨json, hjson, hwrite⟩ := Except.bind_eq_ok_iff.mp hwritten
  have hf := hfaithful json hjson
  have htext : written = text.write json := by
    split at hwrite
    · cases hwrite
    · cases hwrite
      rfl
  subst htext
  refine ⟨json, hjson, ?_⟩
  unfold load
  rw [hcarries, Option.bind_some]
  split at hcookie
  · rename_i hempty
    rw [buildCookie_eq_ok hcookie, verify_empty]
    rcases hempty with hempty | hempty
    · rw [hf.write_object.mp hempty, loadInto_empty]
    · rw [hf.write_array.mp hempty, loadInto_array]
  · rw [buildCookie_eq_ok hcookie, verify_sign hmac, ← hf.fromStr_write]

theorem sessionValue_eq_ok {maxAge : Option I64} {json : Doc}
    (h : sessionValue serde maxAge t len array entries = .ok json) :
    Key.string (.ofString expiresKey) ∉ entries.map Prod.fst ∧
      ∃ doc, toJson serde.decimal (.table len array entries) = .ok doc ∧
        json = withExpiry maxAge t (doc.parsed (inMemory serde)) := by
  unfold sessionValue at h
  split at h
  · cases h
  · split at h
    · cases h
    · rename_i hexp
      split at h
      · cases h
      · rename_i doc hdoc
        cases h
        refine ⟨fun hmem => hexp ?_, doc, hdoc, rfl⟩
        obtain ⟨e, he, hkey⟩ := List.mem_map.mp hmem
        unfold rawGet
        rw [Option.isSome_map, List.find?_isSome]
        exact ⟨e, he, by simpa using hkey⟩

/-! ## The expiry inside the payload -/

theorem parsedEntries_append {map : List (String × Doc)} {key : String} {value : Doc}
    (h : key ∉ map.map Prod.fst) :
    parsedEntries serde (map ++ [(key, value)]) =
      parsedEntries serde map ++ [(key, value.parsed serde)] := by
  induction map with
  | nil => rfl
  | cons e rest ih =>
      rw [List.map_cons, List.mem_cons, not_or] at h
      have hkeys : e.1 ∈ (rest ++ [(key, value)]).map Prod.fst ↔ e.1 ∈ rest.map Prod.fst := by
        simp [Ne.symm h.1]
      rw [List.cons_append, parsedEntries, parsedEntries, ih h.2]
      by_cases hmem : e.1 ∈ rest.map Prod.fst
      · rw [if_pos (hkeys.mpr hmem), if_pos hmem]
      · rw [if_neg (fun h => hmem (hkeys.mp h)), if_neg hmem, List.cons_append]

theorem not_mem_filter (map : List (String × Doc)) (key : String) :
    key ∉ (map.filter fun e => e.1 ≠ key).map Prod.fst := by
  intro h
  obtain ⟨e, he, rfl⟩ := List.mem_map.mp h
  simpa using (List.mem_filter.mp he).2

theorem filter_of_not_mem {map : List (String × Doc)} {key : String}
    (h : key ∉ map.map Prod.fst) : (map.filter fun e => e.1 ≠ key) = map := by
  rw [List.filter_eq_self]
  intro e he
  refine decide_eq_true fun heq => h ?_
  rw [← heq]
  exact List.mem_map_of_mem he

theorem expired_of_not_mem {map : List (String × Doc)} {now : I64}
    (h : expiresKey ∉ map.map Prod.fst) : expired map now = false := by
  unfold expired
  rw [List.find?_eq_none.mpr]
  intro e he heq
  exact h (of_decide_eq_true heq ▸ List.mem_map_of_mem he)

theorem expired_append {map : List (String × Doc)} {exp : ℤ} {now : I64}
    (h : expiresKey ∉ map.map Prod.fst) :
    expired (map ++ [(expiresKey, .integer exp)]) now = decide (exp ≤ now.val) := by
  have hnone : (map.find? fun e => e.1 = expiresKey) = none := by
    rw [List.find?_eq_none]
    intro e he heq
    exact h (of_decide_eq_true heq ▸ List.mem_map_of_mem he)
  unfold expired
  rw [List.find?_append, hnone]
  simp

/-- An expiry that has passed. -/
def Passed (maxAge : Option I64) (t t' : I64) : Prop :=
  ∃ age, maxAge = some age ∧ 0 < age.val ∧ (saturatingAdd t age).val ≤ t'.val

theorem loadInto_object (map : List (String × Doc)) (now : I64) :
    loadInto (serde.fromSlice (.object map)) now =
      if (Doc.object map).depth ≤ serde.maxDepth ∧ expired (parsedEntries serde map) now = false then
        entryValues ((parsedEntries serde map).filter fun e => e.1 ≠ expiresKey)
      else [] := by
  unfold SerdeJson.fromSlice
  by_cases hdepth : (Doc.object map).depth ≤ serde.maxDepth
  · rw [if_pos hdepth]
    by_cases hexp : expired (parsedEntries serde map) now = true
    · simp [Doc.parsed, loadInto, hexp]
    · rw [Bool.not_eq_true] at hexp
      simp [Doc.parsed, loadInto, hexp, hdepth]
  · simp [hdepth, loadInto]

theorem withExpiry_of_pos {age : I64} {map : List (String × Doc)} (hage : 0 < age.val)
    (hne : map ≠ []) : withExpiry (some age) t (.object map) =
      .object (insertMember map expiresKey (.integer (saturatingAdd t age).val)) :=
  if_pos ⟨hage, hne⟩

theorem parsedEntries_insertMember (map : List (String × Doc)) (exp : ℤ) :
    parsedEntries serde (insertMember map expiresKey (.integer exp)) =
      parsedEntries serde (map.filter fun e => e.1 ≠ expiresKey) ++
        [(expiresKey, .integer exp)] := by
  rw [insertMember, parsedEntries_append (not_mem_filter _ _), Doc.parsed]

/-- A session with data whose expiry has passed loads empty. -/
theorem loadInto_passed {maxAge : Option I64} {map : List (String × Doc)} (hne : map ≠ [])
    (h : Passed maxAge t t') :
    loadInto (serde.fromSlice (withExpiry maxAge t (.object map))) t' = [] := by
  obtain ⟨age, rfl, hage, hpassed⟩ := h
  rw [withExpiry_of_pos hage hne, loadInto_object, if_neg]
  rintro ⟨_, hexp⟩
  rw [parsedEntries_insertMember, expired_append
    (fun h => not_mem_filter map expiresKey (mem_keys_parsedEntries.mp h))] at hexp
  exact of_decide_eq_false hexp hpassed

theorem membersDepth_append (map : List (String × Doc)) (exp : ℤ) :
    membersDepth (map ++ [(expiresKey, .integer exp)]) = membersDepth map := by
  induction map with
  | nil => rfl
  | cons e rest ih => rw [List.cons_append, membersDepth, membersDepth, ih]

/-- A session with data is loaded from its members, if the parser reads them and the expiry has
not passed. -/
theorem loadInto_members {maxAge : Option I64} {map : List (String × Doc)} (hne : map ≠ [])
    (hexp : expiresKey ∉ map.map Prod.fst) (h : ¬Passed maxAge t t') :
    loadInto (serde.fromSlice (withExpiry maxAge t (.object map))) t' =
      if (Doc.object map).depth ≤ serde.maxDepth then entryValues (parsedEntries serde map)
      else [] := by
  have hparsed : expiresKey ∉ (parsedEntries serde map).map Prod.fst := fun h =>
    hexp (mem_keys_parsedEntries.mp h)
  by_cases hage : ∃ age, maxAge = some age ∧ 0 < age.val
  · obtain ⟨age, rfl, hage⟩ := hage
    have hopen : ¬(saturatingAdd t age).val ≤ t'.val := fun hle => h ⟨age, rfl, hage, hle⟩
    have hdepth : (Doc.object (insertMember map expiresKey
        (.integer (saturatingAdd t age).val))).depth = (Doc.object map).depth := by
      rw [insertMember, filter_of_not_mem hexp, Doc.depth, Doc.depth, membersDepth_append]
    rw [withExpiry_of_pos hage hne, loadInto_object, hdepth, parsedEntries_insertMember,
      filter_of_not_mem hexp, expired_append hparsed, decide_eq_false hopen, List.filter_append,
      filter_of_not_mem hparsed]
    simp
  · have hkept : withExpiry maxAge t (.object map) = .object map := by
      cases maxAge with
      | none => rfl
      | some age => exact if_neg fun h => hage ⟨age, rfl, h.1⟩
    rw [hkept, loadInto_object, expired_of_not_mem hparsed, filter_of_not_mem hparsed]
    simp

/-! ## The round trip -/

/-- The cookie's age is not over. -/
def InTime (maxAge : Option I64) (t t' : I64) : Prop :=
  ∀ age, maxAge = some age → t'.val < t.val + age.val

def AgedOut (maxAge : Option I64) (t t' : I64) : Prop :=
  ∃ age, maxAge = some age ∧ 0 < age.val ∧ t.val + age.val ≤ t'.val

theorem AgedOut.passed {maxAge : Option I64} (h : AgedOut maxAge t t') : Passed maxAge t t' := by
  obtain ⟨age, rfl, hage, hle⟩ := h
  have hlow := t'.low
  refine ⟨age, rfl, hage, ?_⟩
  simp only [saturatingAdd]
  omega

/-- In time, only the last second an `i64` can show is past the expiry. -/
theorem InTime.passed_iff {maxAge : Option I64} (h : InTime maxAge t t')
    (hlater : t.val ≤ t'.val) :
    ¬Passed maxAge t t' ↔ (maxAge.isSome = true → t'.val < i64Max.val) := by
  have hhigh := t'.high
  cases maxAge with
  | none => simp [Passed]
  | some age =>
      have hlt := h age rfl
      simp only [Passed, Option.some.injEq, exists_eq_left', saturatingAdd, i64Max,
        Option.isSome_some, forall_const]
      omega

/-- An object with string keys and durable values that the parser reads, at a time the clock can
tell from its last. -/
def Storable (serde : SerdeJson) (maxAge : Option I64) (t' : I64) (len : ℕ) (array : Bool)
    (entries : List (Key × Data)) : Prop :=
  entries = [] ∨
    isListed len entries = false ∧ (∀ e ∈ entries, e.1.isString = true) ∧
      (∀ e ∈ entries, e.2.Durable serde) ∧
      (Data.table len array entries).depth ≤ serde.maxDepth ∧
      (maxAge.isSome = true → t'.val < i64Max.val)

theorem same_nil_iff : Same (.table len array entries) (.table 0 false []) ↔ entries = [] := by
  constructor
  · rintro ⟨_, _, _, heq, _, hfind, _⟩
    cases heq
    cases entries with
    | nil => rfl
    | cons e rest =>
        obtain ⟨value, hvalue, _⟩ := hfind.1
        cases hvalue
  · rintro rfl
    exact ⟨_, _, _, rfl, List.nodup_nil, trivial, by simp⟩

theorem isString_loadInto {payload : Option Doc} {now : I64} {key : Key}
    (h : key ∈ (loadInto payload now).map Prod.fst) : key.isString = true := by
  unfold loadInto at h
  split at h
  · split at h
    · cases h
    · exact isString_of_mem_entryValues h
  · cases h

theorem map_ne_nil {docs : List (String × Doc)} (hdocs : Members serde.decimal entries docs)
    (hne : entries ≠ []) : parsedEntries (inMemory serde) docs ≠ [] := by
  intro hnil
  cases hdocs with
  | nil => exact hne rfl
  | @cons e doc entries docs _ _ =>
      have hmem : doc.1 ∈ (parsedEntries (inMemory serde) (doc :: docs)).map Prod.fst :=
        mem_keys_parsedEntries.mpr (List.mem_map_of_mem (List.mem_cons_self ..))
      rw [hnil] at hmem
      cases hmem

/-- What a saved table with data loads as, written as an object. -/
theorem same_loaded_iff {maxAge : Option I64} {docs : List (String × Doc)}
    (hdocs : Members serde.decimal entries docs) (hne : entries ≠ [])
    (hproper : (Data.table len array entries).Proper)
    (hutf8 : ∀ e ∈ entries, e.2.calls.utf8 = true)
    (hexp : Key.string (.ofString expiresKey) ∉ entries.map Prod.fst)
    (htime : InTime maxAge t t') (hlater : t.val ≤ t'.val) :
    Same (.table len array entries) (.table 0 false
        (loadInto (serde.fromSlice (withExpiry maxAge t
          ((Doc.object docs).parsed (inMemory serde)))) t')) ↔
      (∀ e ∈ entries, e.1.isString = true) ∧ (∀ e ∈ entries, e.2.Durable serde) ∧
        (Data.table len array entries).depth ≤ serde.maxDepth ∧
        (maxAge.isSome = true → t'.val < i64Max.val) := by
  rw [← htime.passed_iff hlater, Doc.parsed]
  by_cases hstring : ∀ e ∈ entries, e.1.isString = true
  · rw [and_iff_right hstring]
    by_cases hpassed : Passed maxAge t t'
    · rw [loadInto_passed (map_ne_nil hdocs hne) hpassed, same_nil_iff]
      exact iff_of_false hne fun h => h.2.2 hpassed
    · have hkey : expiresKey ∉ (parsedEntries (inMemory serde) docs).map Prod.fst := by
        rw [mem_keys_parsedEntries]
        intro hmem
        rw [hdocs.map_fst hstring] at hexp
        exact hexp (List.mem_map_of_mem hmem)
      have hparsed : parsedEntries serde (parsedEntries (inMemory serde) docs) =
          parsedEntries serde docs := by
        simpa only [Doc.parsed, Doc.object.injEq] using
          @parsed_parsed (inMemory serde) serde rfl (.object docs)
      have hdepth : (Doc.object (parsedEntries (inMemory serde) docs)).depth =
          ((Doc.object docs).parsed serde).toValue.depth := by
        rw [depth_toValue]
        exact depth_parsed (.object docs)
      have hsame : Same (.table len array entries) ((Doc.object docs).parsed serde).toValue ↔
          ∀ e ∈ entries, e.2.Durable serde :=
        hdocs.same_iff hproper.1 hstring (properEntries_iff.mp hproper.2) hutf8
          fun e _ => e.2.restores
      rw [loadInto_members (map_ne_nil hdocs hne) hkey hpassed, hparsed, hdepth]
      split_ifs with hfits
      · rw [and_iff_left hpassed]
        refine hsame.trans ⟨fun h => ⟨h, ?_⟩, And.left⟩
        exact ((hsame.mpr h).depth_le _).mpr hfits
      · rw [same_nil_iff]
        refine iff_of_false hne fun h => hfits ?_
        exact ((hsame.mpr h.1).depth_le _).mp h.2.1
  · refine iff_of_false (fun hsame => hstring fun e he => ?_) fun h => hstring h.1
    exact isString_of_same hsame (fun key hkey => isString_loadInto hkey) he

/-- A saved session is loaded as it was while the cookie's age lasts, and empty after it, exactly
if it is storable. -/
theorem load_same_iff {cookies : List (String × String)}
    (hmac : ∀ key message, mac.verifySlice key message (mac.tag key message) = true)
    (hfaithful : ∀ json, sessionValue serde opts.maxAge t len array entries = .ok json →
      text.Faithful serde json)
    (hproper : (Data.table len array entries).Proper)
    (hsave : save mac text serde opts t len array entries = .ok cookie) (hlater : t.val ≤ t'.val)
    (hcarries : getCookie cookies opts.name = some cookie.2) :
    ((InTime opts.maxAge t t' → Same (.table len array entries)
        (.table 0 false (load mac text opts cookies t'))) ∧
      (AgedOut opts.maxAge t t' → load mac text opts cookies t' = [])) ↔
    (InTime opts.maxAge t t' → Storable serde opts.maxAge t' len array entries) := by
  obtain ⟨json, hjson, hload⟩ := load_of_save hmac hsave hfaithful hcarries
  obtain ⟨hexp, doc, hdoc, rfl⟩ := sessionValue_eq_ok hjson
  obtain ⟨hplain, hutf8⟩ := plain_of_toJson hdoc
  rw [hload]
  rcases @calls_table entries len array hproper.1 with
    hmixed | ⟨hmap, hlisted⟩ | ⟨hseq, hpos, hlisted⟩
  · rw [hmixed] at hplain
    cases hplain
  · rw [hmap, mapCalls, Calls.plain, Except.bind_eq_ok_iff] at hplain
    obtain ⟨docs, hdocs, hdoc⟩ := hplain
    cases hdoc
    rw [plainEntries_eq_ok, entryCalls_eq_map, List.map_map, List.forall₂_map_left_iff] at hdocs
    rw [hmap, mapCalls, Calls.utf8, entriesUtf8_iff, entryCalls_eq_map, List.map_map,
      List.forall_mem_map] at hutf8
    by_cases hne : entries = []
    · subst hne
      cases hdocs
      have hempty : loadInto (serde.fromSlice (withExpiry opts.maxAge t
          ((Doc.object []).parsed (inMemory serde)))) t' = [] := by
        have hkept : withExpiry opts.maxAge t ((Doc.object []).parsed (inMemory serde)) =
            .object [] := by
          cases opts.maxAge with
          | none => rfl
          | some age => exact if_neg fun h => h.2 rfl
        rw [hkept, loadInto_empty]
      rw [hempty]
      exact iff_of_true ⟨fun _ => same_nil_iff.mpr rfl, fun _ => rfl⟩ fun _ => .inl rfl
    · have haged : AgedOut opts.maxAge t t' → loadInto (serde.fromSlice (withExpiry opts.maxAge t
          ((Doc.object docs).parsed (inMemory serde)))) t' = [] := fun h =>
        loadInto_passed (map_ne_nil hdocs hne) h.passed
      rw [and_iff_left haged]
      refine forall_congr' fun htime => ?_
      rw [same_loaded_iff hdocs hne hproper (fun e he => (hutf8 e he).2) hexp htime hlater]
      exact ⟨fun h => .inr ⟨hlisted, h⟩, fun h => (h.resolve_left hne).2⟩
  · rw [hseq, Calls.plain, Except.bind_eq_ok_iff] at hplain
    obtain ⟨docs, _, hdoc⟩ := hplain
    cases hdoc
    have hempty : loadInto (serde.fromSlice (withExpiry opts.maxAge t
        ((Doc.array docs).parsed (inMemory serde)))) t' = [] := by
      have hkept : withExpiry opts.maxAge t ((Doc.array docs).parsed (inMemory serde)) =
          .array (parsedItems (inMemory serde) docs) := by
        cases opts.maxAge <;> rfl
      rw [hkept, loadInto_array]
    rw [hempty, and_iff_left fun _ => rfl, same_nil_iff]
    refine forall_congr' fun _ => ⟨.inl, fun h => ?_⟩
    rcases h with h | ⟨hnot, _⟩
    · exact h
    · exact hlisted.resolve_left (by rw [hnot]; exact Bool.false_ne_true)

end

/-! ## Two sessions -/

/-- A MAC that has one tag. -/
def tagMac (tag : List UInt8) : Mac where
  tag _ _ := tag
  verifySlice _ _ other := other = tag

/-- The text of one document. -/
def oneText (serde : SerdeJson) (written : String) (json : Doc) : JsonText where
  write _ := written
  fromStr s := if s = written then serde.fromSlice json else none

def plainOpts (maxAge : Option I64) : SessionOpts where
  name := "session"
  secret := "0123456789abcdef"
  maxAge := maxAge
  secret_long := by decide

def visitor : List (Key × Data) :=
  [(.string (.ofString "user"), .string (.ofString "ann")),
    (.string (.ofString "visits"), .integer 3)]

def visitorJson : Doc :=
  .object [("user", .string "ann"), ("visits", .integer 3), ("_exp", .integer 1003600)]

def visitorText : JsonText :=
  oneText halves "\x7b\"_exp\":1003600,\"user\":\"ann\",\"visits\":3\x7d" visitorJson

/-- The tag `HMAC-SHA256` has for the visitor's payload. -/
def visitorMac : Mac :=
  tagMac [130, 251, 199, 135, 165, 151, 246, 83, 34, 197, 36, 178, 154, 32, 56, 169, 80, 55, 61, 4, 60, 9, 78, 96, 238, 93, 182, 219, 103, 248, 171, 225]

theorem tagMac_accepts (tag key message : List UInt8) :
    (tagMac tag).verifySlice key message ((tagMac tag).tag key message) = true :=
  decide_eq_true rfl

theorem load_visitor :
    ∃ cookie, save visitorMac visitorText halves (plainOpts (some ⟨3600, by decide, by decide⟩))
        ⟨1000000, by decide, by decide⟩ 0 false visitor = .ok cookie ∧
      Same (.table 0 false visitor) (.table 0 false (load visitorMac visitorText
        (plainOpts (some ⟨3600, by decide, by decide⟩)) [cookie]
        ⟨1000060, by decide, by decide⟩)) := by
  have hvalue : sessionValue halves (some ⟨3600, by decide, by decide⟩)
      ⟨1000000, by decide, by decide⟩ 0 false visitor = .ok visitorJson := by
    simp [sessionValue, visitor, reserved, rawGet, expiresKey, toJson, Data.calls, entryCalls,
      tableCalls, mapCalls, Key.call, stringCall, Calls.guarded, guardedEntries, visit, enter,
      Scalar.guard, Scalar.key, Scalar.doc, maxJsonNodes, maxJsonDepth, bind, Except.bind, pure,
      Except.pure, withExpiry, Doc.parsed, parsedEntries, insertMember, saturatingAdd, visitorJson]
  have hsave := @save_of_value visitorMac visitorText halves
    (plainOpts (some ⟨3600, by decide, by decide⟩)) _ _ _ _ _ hvalue (by decide) (by decide)
    (by decide) (by decide +kernel)
  refine ⟨_, hsave, ((load_same_iff (tagMac_accepts _) ?_ ?_ hsave (by decide)
    (by simp [getCookie, plainOpts])).mpr fun _ => .inr ?_).1 ?_⟩
  · intro json hjson
    cases hvalue.symm.trans hjson
    exact ⟨by simp [visitorText, oneText], by simp [visitorText, oneText, visitorJson],
      by simp [visitorText, oneText, visitorJson]⟩
  · simp [visitor, Data.Proper, properEntries]
  · simp [visitor, isListed, Key.isString, Data.Durable, Data.depth, dataDepth, halves, i64Max]
  · intro age hage
    cases hage
    decide

/-- One positional entry. -/
def positional : List (Key × Data) := [(.integer 1, .string (.ofString "a"))]

def positionalText : JsonText := oneText halves "[\"a\"]" (.array [.string "a"])

def positionalMac : Mac :=
  tagMac [121, 85, 2, 116, 234, 112, 150, 181, 19, 39, 104, 39, 241, 236, 78, 225, 252, 6, 23, 83,
    116, 201, 148, 54, 71, 206, 180, 110, 81, 57, 28, 83]

/-- The session is saved as a list and the next request starts empty. -/
theorem load_discards_positional :
    ∃ cookie, save positionalMac positionalText halves (plainOpts none)
        ⟨1000000, by decide, by decide⟩ 1 false positional = .ok cookie ∧
      load positionalMac positionalText (plainOpts none) [cookie]
        ⟨1000060, by decide, by decide⟩ = [] ∧
      ¬Same (.table 1 false positional) (.table 0 false (load positionalMac positionalText
        (plainOpts none) [cookie] ⟨1000060, by decide, by decide⟩)) := by
  have hvalue : sessionValue halves none ⟨1000000, by decide, by decide⟩ 1 false positional =
      .ok (.array [.string "a"]) := by
    simp [sessionValue, positional, reserved, rawGet, expiresKey, toJson, Data.calls, entryCalls,
      tableCalls, listCalls, highest, Key.position, sequenceFrom, stringCall, Calls.guarded,
      guardedItems, visit, enter, Scalar.guard, Scalar.doc, maxJsonNodes, maxJsonDepth, bind,
      Except.bind, pure, Except.pure, withExpiry, Doc.parsed, parsedItems]
  have hsave := @save_of_value positionalMac positionalText halves (plainOpts none) _ _ _ _ _
    hvalue (by decide) (by decide) (by decide) (by decide +kernel)
  have hfaithful : ∀ json, sessionValue halves none ⟨1000000, by decide, by decide⟩ 1 false
      positional = .ok json → positionalText.Faithful halves json := by
    intro json hjson
    cases hvalue.symm.trans hjson
    exact ⟨by simp [positionalText, oneText], by simp [positionalText, oneText],
      by simp [positionalText, oneText]⟩
  obtain ⟨json, hjson, hload⟩ := @load_of_save positionalMac _ _ _ _ ⟨1000060, by decide, by decide⟩
    _ _ _ _ [((plainOpts none).name, sign positionalMac (plainOpts none).name
      (positionalText.write (.array [.string "a"])) (plainOpts none).secret)]
    (tagMac_accepts _) hsave hfaithful (by simp [getCookie])
  cases hvalue.symm.trans hjson
  rw [loadInto_array] at hload
  refine ⟨_, hsave, hload, ?_⟩
  rw [hload, same_nil_iff]
  exact List.cons_ne_nil _ _

end Nitr.Session
