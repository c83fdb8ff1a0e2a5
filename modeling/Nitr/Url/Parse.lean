import Mathlib.Data.List.Basic
import Nitr.Lib.Text

/-! # Splitting URLs

`parse` of `url.rs` splits a URL at its delimiters. Every text is written in one way as a
sequence of components, each without the delimiters that end it, and `parse` reads off that
one. -/

namespace Nitr.Url.Parse

abbrev Text := List Char

/-! ## The function -/

/-- `"+-.".contains(c)` or an ASCII letter or digit. -/
def isSchemeChar (c : Char) : Bool := c.isAlphanum || ['+', '-', '.'].contains c

/-- A letter followed by letters, digits and `+-.`. -/
def isScheme (scheme : Text) : Bool := scheme.head?.any Char.isAlpha && scheme.all isSchemeChar

/-- What ends the authority. -/
def endsAuthority (c : Char) : Bool := c = '/' || c = '?' || c = '#'

def isDigits (text : Text) : Bool := text.all Char.isDigit

/-- The host and the port text of what stands behind the userinfo. -/
def splitHostPort (hostPort : Text) : Text × Option Text :=
  match hostPort.stripPrefix ['['] with
  | some rest =>
    match rest.splitOnce ']' with
    | some (host, []) => (host, none)
    | some (host, port) =>
      match port.stripPrefix [':'] with
      | some port => if isDigits port then (host, some port) else (hostPort, none)
      | none => (hostPort, none)
    | none => (hostPort, none)
  | none =>
    match hostPort.rsplitOnce ':' with
    | some (host, port) => if isDigits port then (host, some port) else (hostPort, none)
    | none => (hostPort, none)

/-- `split_authority`. -/
def splitAuthority (authority : Text) : Option Text × Text × Option Text :=
  let (userinfo, hostPort) :=
    match authority.rsplitOnce '@' with
    | some (user, rest) => (some user, rest)
    | none => (none, authority)
  let (host, port) := splitHostPort hostPort
  (userinfo, host, port.filter (· ≠ []))

/-- The table that is returned. -/
structure Parts where
  scheme : Option Text
  userinfo : Option Text
  host : Option Text
  port : Option ℕ
  path : Text
  query : Option Text
  fragment : Option Text
deriving DecidableEq

inductive ParseError where
  /-- `empty URL` -/
  | empty
  /-- `port out of range` -/
  | port
deriving DecidableEq

/-- `parse::<u16>` of digits. -/
def parsePort (digits : Text) : Option ℕ :=
  let value := digits.foldl (fun n c => 10 * n + (c.toNat - '0'.toNat)) 0
  if value < 65536 then some value else none

/-- The fragment, the query and the path of what is left. -/
def splitTail (rest : Text) : Text × Option Text × Option Text :=
  let (rest, fragment) :=
    match rest.splitOnce '#' with
    | some (before, fragment) => (before, some fragment)
    | none => (rest, none)
  match rest.splitOnce '?' with
  | some (path, query) => (path, some query, fragment)
  | none => (rest, none, fragment)

/-- The scheme, if there is one, and what is left. -/
def splitScheme (value : Text) : Option Text × Text :=
  match value.splitOnce ':' with
  | some (scheme, after) => if isScheme scheme then (some scheme, after) else (none, value)
  | none => (none, value)

def parse (value : Text) : Except ParseError Parts :=
  if value = [] then .error .empty
  else
    let (scheme, rest) := splitScheme value
    let scheme := scheme.map (·.map Char.toLower)
    match rest.stripPrefix ['/', '/'] with
    | some after =>
      let (userinfo, host, port) := splitAuthority (after.takeWhile fun c => !endsAuthority c)
      let (path, query, fragment) := splitTail (after.dropWhile fun c => !endsAuthority c)
      match port with
      | some digits =>
        match parsePort digits with
        | some port => .ok ⟨scheme, userinfo, some host, some port, path, query, fragment⟩
        | none => .error .port
      | none => .ok ⟨scheme, userinfo, some host, none, path, query, fragment⟩
    | none =>
      let (path, query, fragment) := splitTail rest
      .ok ⟨scheme, none, none, none, path, query, fragment⟩

/-! ## Written URLs -/

/-- A host and a port as they are written. The port may be written without a digit. -/
inductive HostPort where
  | named (host : Text) (port : Option Text)
  /-- In brackets. -/
  | literal (host : Text) (port : Option Text)
deriving DecidableEq

namespace HostPort

def portText : Option Text → Text
  | some port => ':' :: port
  | none => []

def text : HostPort → Text
  | named host port => host ++ portText port
  | literal host port => '[' :: host ++ ']' :: portText port

def host : HostPort → Text
  | named host _ => host
  | literal host _ => host

def port : HostPort → Option Text
  | named _ port => port
  | literal _ port => port

/-- A port is digits; brackets hold no bracket; and a name has neither a port nor brackets that
could be read off. -/
def Valid : HostPort → Prop
  | named host (some port) => host.head? ≠ some '[' ∧ isDigits port = true
  | named host none =>
    (host.head? = some '[' → ∀ inner port, ']' ∉ inner →
      (∀ p, port = some p → isDigits p = true) → host ≠ (literal inner port).text) ∧
    (host.head? ≠ some '[' → ∀ name port, isDigits port = true →
      host ≠ (named name (some port)).text)
  | literal host port => ']' ∉ host ∧ ∀ p, port = some p → isDigits p = true

/-- The written form of a text. -/
def of (text : Text) : HostPort :=
  match text.stripPrefix ['['] with
  | some rest =>
    match rest.splitOnce ']' with
    | some (host, []) => literal host none
    | some (host, port) =>
      match port.stripPrefix [':'] with
      | some port => if isDigits port then literal host (some port) else named text none
      | none => named text none
    | none => named text none
  | none =>
    match text.rsplitOnce ':' with
    | some (host, port) => if isDigits port then named host (some port) else named text none
    | none => named text none

theorem splitHostPort_eq (text : Text) : splitHostPort text = ((of text).host, (of text).port) := by
  unfold splitHostPort of
  split
  · split
    · rfl
    · split
      · split <;> rfl
      · rfl
    · rfl
  · split
    · split <;> rfl
    · rfl

/-- Without a bracket in front, the port is what follows the last colon. -/
theorem of_named {host port : Text} (hhost : host.head? ≠ some '[') (hport : isDigits port = true) :
    of (named host (some port)).text = named host (some port) := by
  have hcolon : ':' ∉ port := fun hmem =>
    absurd (List.all_eq_true.mp hport _ hmem) (by decide)
  have hstart : (host ++ ':' :: port).stripPrefix ['['] = none := by
    rw [List.stripPrefix_eq_none]
    rintro ⟨rest, hrest⟩
    cases host with
    | nil => cases hrest
    | cons c host =>
        cases hrest
        exact hhost rfl
  have hsplit : (host ++ ':' :: port).rsplitOnce ':' = some (host, port) :=
    List.rsplitOnce_append hcolon
  unfold of text portText
  simp only [hstart, hsplit, hport, if_true]

theorem of_literal {host : Text} {port : Option Text} (hhost : ']' ∉ host)
    (hport : ∀ p, port = some p → isDigits p = true) :
    of (literal host port).text = literal host port := by
  have hstart : ('[' :: host ++ ']' :: portText port).stripPrefix ['['] =
      some (host ++ ']' :: portText port) := List.stripPrefix_eq_some.mpr rfl
  have hsplit : (host ++ ']' :: portText port).splitOnce ']' = some (host, portText port) :=
    List.splitOnce_append hhost
  unfold of text
  simp only [hstart, hsplit]
  cases port with
  | none => rfl
  | some port =>
      have hstrip : (':' :: port).stripPrefix [':'] = some port := List.stripPrefix_eq_some.mpr rfl
      simp only [portText, hstrip, hport port rfl, if_true]

/-- A text that nothing is read off is a name. -/
theorem valid_of_named {text : Text} (h : of text = named text none) :
    (named text none).Valid := by
  refine ⟨fun _ => ?_, fun hhead => ?_⟩
  · intro inner port hinner hport heq
    have hof := of_literal hinner hport
    rw [← heq, h] at hof
    cases hof
  · intro name port hport heq
    have hof := @of_named name port ?_ hport
    · rw [← heq, h] at hof
      cases hof
    · rw [heq] at hhead
      cases name with
      | nil => simp
      | cons c name => simpa [HostPort.text] using hhead

theorem of_spec (text : Text) : (of text).text = text ∧ (of text).Valid := by
  have hnamed : of text = named text none → (of text).text = text ∧ (of text).Valid := by
    intro h
    rw [h]
    exact ⟨List.append_nil _, valid_of_named h⟩
  cases hstart : text.stripPrefix ['['] with
  | some rest =>
      obtain rfl := List.stripPrefix_eq_some.mp hstart
      cases hsplit : rest.splitOnce ']' with
      | none => exact hnamed (by simp only [of, hstart, hsplit])
      | some parts =>
          obtain ⟨host, after⟩ := parts
          obtain ⟨rfl, hhost⟩ := List.splitOnce_eq_some.mp hsplit
          cases after with
          | nil =>
              have hof : of (['['] ++ (host ++ [']'])) = literal host none := by
                simp only [of, hstart, hsplit]
              rw [hof]
              exact ⟨rfl, hhost, by simp⟩
          | cons c after =>
              cases hport : (c :: after).stripPrefix [':'] with
              | none => exact hnamed (by simp only [of, hstart, hsplit, hport])
              | some port =>
                  by_cases hdigits : isDigits port = true
                  · have hof : of (['['] ++ (host ++ ']' :: c :: after)) =
                        literal host (some port) := by
                      simp only [of, hstart, hsplit, hport, hdigits, if_true]
                    rw [hof]
                    rw [List.stripPrefix_eq_some.mp hport]
                    exact ⟨rfl, hhost, by simpa using hdigits⟩
                  · exact hnamed (by simp only [of, hstart, hsplit, hport, if_neg hdigits])
  | none =>
      cases hsplit : text.rsplitOnce ':' with
      | none => exact hnamed (by simp only [of, hstart, hsplit])
      | some parts =>
          obtain ⟨host, port⟩ := parts
          by_cases hdigits : isDigits port = true
          · have hof : of text = named host (some port) := by
              simp only [of, hstart, hsplit, hdigits, if_true]
            rw [hof]
            obtain ⟨rfl, -⟩ := List.rsplitOnce_eq_some.mp hsplit
            refine ⟨rfl, fun hhead => ?_, hdigits⟩
            rw [List.stripPrefix_eq_none] at hstart
            refine hstart ⟨host.tail ++ ':' :: port, ?_⟩
            obtain ⟨tail, rfl⟩ := List.head?_eq_some_iff.mp hhead
            rfl
          · exact hnamed (by simp only [of, hstart, hsplit, if_neg hdigits])

/-- What is written is read off. -/
theorem of_text {hp : HostPort} (h : hp.Valid) : of hp.text = hp := by
  cases hp with
  | literal host port => exact of_literal h.1 h.2
  | named host port =>
      cases port with
      | some port => exact of_named h.1 h.2
      | none =>
          have hspec := of_spec host
          have htext : (named host none).text = host := List.append_nil _
          rw [htext]
          cases hof : of host with
          | literal inner port =>
              rw [hof] at hspec
              obtain ⟨rfl, hinner, hport⟩ := hspec
              exact absurd rfl (h.1 rfl inner port hinner hport)
          | named name port =>
              rw [hof] at hspec
              cases port with
              | none =>
                  rw [← hspec.1]
                  exact congrArg (named · none) (List.append_nil name).symm
              | some port =>
                  obtain ⟨rfl, hhead, hport⟩ := hspec
                  have hhead' : ((named name (some port)).text).head? ≠ some '[' := by
                    cases name with
                    | nil => simp [HostPort.text, portText]
                    | cons c name => simpa [HostPort.text] using hhead
                  exact absurd rfl (h.2 hhead' name port hport)

end HostPort

/-- An authority as it is written. -/
structure Authority where
  userinfo : Option Text
  hostPort : HostPort
deriving DecidableEq

namespace Authority

def text (authority : Authority) : Text :=
  match authority.userinfo with
  | some user => user ++ '@' :: authority.hostPort.text
  | none => authority.hostPort.text

/-- The host holds no `@`, and nothing in the authority ends it. -/
structure Valid (authority : Authority) : Prop where
  hostPort : authority.hostPort.Valid
  at_ : '@' ∉ authority.hostPort.text
  ends : ∀ c ∈ authority.text, endsAuthority c = false

def of (text : Text) : Authority :=
  match text.rsplitOnce '@' with
  | some (user, rest) => ⟨some user, .of rest⟩
  | none => ⟨none, .of text⟩

theorem splitAuthority_eq (text : Text) :
    splitAuthority text =
      ((of text).userinfo, (of text).hostPort.host, (of text).hostPort.port.filter (· ≠ [])) := by
  unfold splitAuthority of
  cases text.rsplitOnce '@' with
  | none => simp only [HostPort.splitHostPort_eq]
  | some parts => simp only [HostPort.splitHostPort_eq]

theorem of_spec {text : Text} (h : ∀ c ∈ text, endsAuthority c = false) :
    (of text).text = text ∧ (of text).Valid := by
  have htext : (of text).text = text ∧ (of text).hostPort.Valid ∧ '@' ∉ (of text).hostPort.text := by
    unfold of
    cases hsplit : text.rsplitOnce '@' with
    | none =>
        obtain ⟨htext, hvalid⟩ := HostPort.of_spec text
        refine ⟨htext, hvalid, ?_⟩
        rw [htext]
        exact List.rsplitOnce_eq_none.mp hsplit
    | some parts =>
        obtain ⟨user, rest⟩ := parts
        obtain ⟨rfl, hat⟩ := List.rsplitOnce_eq_some.mp hsplit
        obtain ⟨htext, hvalid⟩ := HostPort.of_spec rest
        refine ⟨?_, hvalid, ?_⟩
        · simp only [Authority.text, htext]
        · rw [htext]
          exact hat
  exact ⟨htext.1, htext.2.1, htext.2.2, by rw [htext.1]; exact h⟩

theorem of_text {authority : Authority} (h : authority.Valid) : of authority.text = authority := by
  obtain ⟨userinfo, hostPort⟩ := authority
  cases userinfo with
  | none =>
      have hsplit : hostPort.text.rsplitOnce '@' = none := List.rsplitOnce_eq_none.mpr h.at_
      simp only [of, text, hsplit, HostPort.of_text h.hostPort]
  | some user =>
      have hsplit : (user ++ '@' :: hostPort.text).rsplitOnce '@' = some (user, hostPort.text) :=
        List.rsplitOnce_append h.at_
      simp only [of, text, hsplit, HostPort.of_text h.hostPort]

end Authority

/-- What follows the authority. -/
structure Tail where
  path : Text
  query : Option Text
  fragment : Option Text
deriving DecidableEq

namespace Tail

/-- A component behind its delimiter, if it is there. -/
def after (c : Char) : Option Text → Text
  | some component => c :: component
  | none => []

theorem splitOnce_after {c : Char} {before : Text} (h : c ∉ before) (component : Option Text) :
    (before ++ after c component).splitOnce c = component.map (before, ·) := by
  cases component with
  | none =>
      rw [after, List.append_nil]
      exact List.splitOnce_eq_none.mpr h
  | some component => exact List.splitOnce_append h

/-- What follows the path. -/
def suffix (tail : Tail) : Text := after '?' tail.query ++ after '#' tail.fragment

def text (tail : Tail) : Text := tail.path ++ tail.suffix

structure Valid (tail : Tail) : Prop where
  path : '?' ∉ tail.path ∧ '#' ∉ tail.path
  query : ∀ query, tail.query = some query → '#' ∉ query

def of (text : Text) : Tail := ⟨(splitTail text).1, (splitTail text).2.1, (splitTail text).2.2⟩

theorem of_spec (text : Text) : (of text).text = text ∧ (of text).Valid := by
  have hquery : ∀ (rest : Text) (fragment : Option Text), '#' ∉ rest →
      (splitTail text = match rest.splitOnce '?' with
        | some (path, query) => (path, some query, fragment)
        | none => (rest, none, fragment)) → rest ++ after '#' fragment = text →
      (of text).text = text ∧ (of text).Valid := by
    intro rest fragment hrest hsplit htext
    unfold of
    rw [hsplit]
    cases hquery : rest.splitOnce '?' with
    | none =>
        refine ⟨?_, ⟨List.splitOnce_eq_none.mp hquery, hrest⟩, by simp⟩
        rw [← htext]
        rfl
    | some parts =>
        obtain ⟨path, query⟩ := parts
        obtain ⟨rfl, hpath⟩ := List.splitOnce_eq_some.mp hquery
        simp only [List.mem_append, List.mem_cons, not_or] at hrest
        refine ⟨?_, ⟨hpath, hrest.1⟩, ?_⟩
        · rw [← htext, List.append_assoc]
          rfl
        · intro query' hquery'
          cases hquery'
          exact hrest.2.2
  cases hfragment : text.splitOnce '#' with
  | none =>
      refine hquery text none (List.splitOnce_eq_none.mp hfragment) ?_ (List.append_nil _)
      unfold splitTail
      rw [hfragment]
  | some parts =>
      obtain ⟨before, fragment⟩ := parts
      obtain ⟨htext, hbefore⟩ := List.splitOnce_eq_some.mp hfragment
      refine hquery before (some fragment) hbefore ?_ htext.symm
      unfold splitTail
      rw [hfragment]

theorem of_text {tail : Tail} (h : tail.Valid) : of tail.text = tail := by
  obtain ⟨path, query, fragment⟩ := tail
  have hhash : '#' ∉ path ++ after '?' query := by
    intro hmem
    obtain hmem | hmem := List.mem_append.mp hmem
    · exact h.path.2 hmem
    · cases query with
      | none => cases hmem
      | some query =>
          obtain heq | hmem := List.mem_cons.mp hmem
          · simp at heq
          · exact h.query query rfl hmem
  unfold of text suffix splitTail
  simp only [← List.append_assoc, splitOnce_after hhash]
  cases fragment with
  | none =>
      have hrest : path ++ after '?' query ++ after '#' none = path ++ after '?' query :=
        List.append_nil _
      simp only [Option.map_none, hrest, splitOnce_after h.path.1]
      cases query with
      | none => simp [after]
      | some query => rfl
  | some fragment =>
      simp only [Option.map_some, splitOnce_after h.path.1]
      cases query with
      | none => simp [after]
      | some query => rfl

theorem head_suffix {tail : Tail} {c : Char} (h : tail.suffix.head? = some c) :
    c = '?' ∨ c = '#' := by
  obtain ⟨path, query, fragment⟩ := tail
  cases query with
  | some query => exact .inl (Option.some.inj h).symm
  | none =>
      cases fragment with
      | some fragment => exact .inr (Option.some.inj h).symm
      | none => cases h

end Tail

/-- A URL as it is written. -/
structure Written where
  scheme : Option Text
  authority : Option Authority
  tail : Tail
deriving DecidableEq

namespace Written

def schemeText : Option Text → Text
  | some scheme => scheme ++ [':']
  | none => []

def authorityText : Option Authority → Text
  | some authority => '/' :: '/' :: authority.text
  | none => []

def text (written : Written) : Text :=
  schemeText written.scheme ++ (authorityText written.authority ++ written.tail.text)

/-- Each component is of its kind, and what a component before it could take is not left to the
path. -/
structure Valid (written : Written) : Prop where
  scheme : ∀ scheme, written.scheme = some scheme → isScheme scheme = true
  authority : ∀ authority, written.authority = some authority → authority.Valid ∧
    (written.tail.path = [] ∨ written.tail.path.head? = some '/')
  tail : written.tail.Valid
  bare : written.authority = none → ¬['/', '/'] <+: written.tail.path
  relative : written.scheme = none → written.authority = none → ∀ scheme rest,
    isScheme scheme = true → written.tail.path ≠ scheme ++ ':' :: rest

def of (value : Text) : Written :=
  match (splitScheme value).2.stripPrefix ['/', '/'] with
  | some after =>
    ⟨(splitScheme value).1, some (.of (after.takeWhile fun c => !endsAuthority c)),
      .of (after.dropWhile fun c => !endsAuthority c)⟩
  | none => ⟨(splitScheme value).1, none, .of (splitScheme value).2⟩

/-- The table for a written URL: the scheme in lower case, the port as a number, and no port for
one without a digit. -/
def read (written : Written) : Except ParseError Parts :=
  let scheme := written.scheme.map (·.map Char.toLower)
  let tail := written.tail
  match written.authority with
  | none => .ok ⟨scheme, none, none, none, tail.path, tail.query, tail.fragment⟩
  | some authority =>
    match authority.hostPort.port.filter (· ≠ []) with
    | none =>
      .ok ⟨scheme, authority.userinfo, some authority.hostPort.host, none, tail.path, tail.query,
        tail.fragment⟩
    | some digits =>
      match parsePort digits with
      | none => .error .port
      | some port =>
        .ok ⟨scheme, authority.userinfo, some authority.hostPort.host, some port, tail.path,
          tail.query, tail.fragment⟩

theorem parse_eq {value : Text} (h : value ≠ []) : parse value = (of value).read := by
  unfold parse of
  rw [if_neg h]
  cases hstart : (splitScheme value).2.stripPrefix ['/', '/'] with
  | none => simp only [hstart, read, Tail.of]
  | some after =>
      simp only [hstart, Authority.splitAuthority_eq, read, Tail.of]
      generalize (Authority.of _).hostPort.port.filter (· ≠ []) = port
      cases port with
      | none => rfl
      | some digits =>
          cases hport : parsePort digits with
          | none => simp only [hport]
          | some port => simp only [hport]

theorem isSchemeChar_of_mem {scheme : Text} (h : isScheme scheme = true) {c : Char}
    (hc : c ∈ scheme) : isSchemeChar c = true := by
  unfold isScheme at h
  rw [Bool.and_eq_true] at h
  exact List.all_eq_true.mp h.2 c hc

theorem splitScheme_some {scheme rest : Text} (h : isScheme scheme = true) :
    splitScheme (scheme ++ ':' :: rest) = (some scheme, rest) := by
  have hcolon : ':' ∉ scheme := fun hmem => absurd (isSchemeChar_of_mem h hmem) (by decide)
  unfold splitScheme
  rw [List.splitOnce_append hcolon]
  exact if_pos h

/-- A text has no scheme if nothing before a colon is one. -/
theorem splitScheme_none {value : Text}
    (h : ∀ scheme rest, isScheme scheme = true → value ≠ scheme ++ ':' :: rest) :
    splitScheme value = (none, value) := by
  unfold splitScheme
  split
  · rename_i scheme after hsplit
    refine if_neg fun hscheme => ?_
    exact h scheme after hscheme (List.splitOnce_eq_some.mp hsplit).1
  · rfl

theorem splitScheme_spec (value : Text) :
    schemeText (splitScheme value).1 ++ (splitScheme value).2 = value ∧
      (∀ scheme, (splitScheme value).1 = some scheme → isScheme scheme = true) ∧
      ((splitScheme value).1 = none → ∀ scheme rest, isScheme scheme = true →
        value ≠ scheme ++ ':' :: rest) := by
  by_cases h : ∃ scheme rest, isScheme scheme = true ∧ value = scheme ++ ':' :: rest
  · obtain ⟨scheme, rest, hscheme, rfl⟩ := h
    rw [splitScheme_some hscheme]
    refine ⟨?_, ?_, ?_⟩
    · simp [schemeText]
    · intro scheme' heq
      cases heq
      exact hscheme
    · intro hnone
      cases hnone
  · have hnone : ∀ scheme rest, isScheme scheme = true → value ≠ scheme ++ ':' :: rest :=
      fun scheme rest hscheme heq => h ⟨scheme, rest, hscheme, heq⟩
    rw [splitScheme_none hnone]
    exact ⟨rfl, by simp, fun _ => hnone⟩

/-- The authority goes up to the first character that ends it. -/
theorem takeWhile_authority {authority rest : Text}
    (hends : ∀ c ∈ authority, endsAuthority c = false)
    (hrest : ∀ c, rest.head? = some c → endsAuthority c = true) :
    (authority ++ rest).takeWhile (fun c => !endsAuthority c) = authority ∧
      (authority ++ rest).dropWhile (fun c => !endsAuthority c) = rest := by
  induction authority with
  | nil =>
      cases rest with
      | nil => exact ⟨rfl, rfl⟩
      | cons c rest => simp [hrest c rfl]
  | cons c authority ih =>
      obtain ⟨htake, hdrop⟩ := ih fun c hc => hends c (List.mem_cons_of_mem _ hc)
      have hc := hends c List.mem_cons_self
      simp [hc, htake, hdrop]

/-- What the authority leaves starts with a character that ends it, or is empty. -/
theorem head_dropWhile_authority (text : Text) {c : Char}
    (h : (text.dropWhile fun c => !endsAuthority c).head? = some c) : endsAuthority c = true := by
  have := List.head?_dropWhile_not (fun c => !endsAuthority c) text
  rw [h] at this
  simpa using this

/-- The written form of a text writes it. -/
theorem of_spec (value : Text) : (of value).text = value ∧ (of value).Valid := by
  obtain ⟨hvalue, hscheme, hnone⟩ := splitScheme_spec value
  cases hstart : (splitScheme value).2.stripPrefix ['/', '/'] with
  | some after =>
      have hof : of value = ⟨(splitScheme value).1,
          some (.of (after.takeWhile fun c => !endsAuthority c)),
          .of (after.dropWhile fun c => !endsAuthority c)⟩ := by
        unfold of
        rw [hstart]
      have htake : ∀ c ∈ after.takeWhile fun c => !endsAuthority c, endsAuthority c = false := by
        intro c hc
        simpa using List.mem_takeWhile_imp hc
      obtain ⟨hauthority, hvalid⟩ := Authority.of_spec htake
      obtain ⟨htail, htailValid⟩ := Tail.of_spec (after.dropWhile fun c => !endsAuthority c)
      rw [hof]
      refine ⟨?_, hscheme, ?_, htailValid, by simp, by simp⟩
      · have hrest := List.stripPrefix_eq_some.mp hstart
        simp only [text, authorityText, hauthority, htail, List.cons_append,
          List.takeWhile_append_dropWhile]
        rw [hrest] at hvalue
        exact hvalue
      · intro authority heq
        cases heq
        refine ⟨hvalid, ?_⟩
        -- The path's first character ends the authority, and it is no `?` or `#`.
        generalize Tail.of _ = tail at htail htailValid
        cases hpath : tail.path with
        | nil => exact .inl rfl
        | cons c path =>
            have hends : endsAuthority c = true := by
              refine head_dropWhile_authority after ?_
              rw [← htail, Tail.text, hpath]
              rfl
            obtain ⟨hquery, hfragment⟩ := htailValid.path
            rw [hpath, List.mem_cons, not_or] at hquery hfragment
            simp only [endsAuthority, Bool.or_eq_true, decide_eq_true_eq, Ne.symm hquery.1,
              Ne.symm hfragment.1, or_false] at hends
            exact .inr (congrArg some hends)
  | none =>
      have hof : of value = ⟨(splitScheme value).1, none, .of (splitScheme value).2⟩ := by
        unfold of
        rw [hstart]
      obtain ⟨htail, htailValid⟩ := Tail.of_spec (splitScheme value).2
      rw [hof]
      refine ⟨?_, hscheme, by simp, htailValid, fun _ hbare => ?_, fun hscheme' _ => ?_⟩
      · simp only [text, authorityText, htail, List.nil_append]
        exact hvalue
      · rw [List.stripPrefix_eq_none] at hstart
        refine hstart (hbare.trans ?_)
        exact ⟨_, htail⟩
      · intro scheme rest hscheme hpath
        refine hnone hscheme' scheme (rest ++ (Tail.of (splitScheme value).2).suffix) hscheme ?_
        change (splitScheme value).1 = none at hscheme'
        have hvalue' : value = (splitScheme value).2 := by
          rw [hscheme'] at hvalue
          exact hvalue.symm
        calc value = (splitScheme value).2 := hvalue'
          _ = (Tail.of (splitScheme value).2).text := htail.symm
          _ = _ := by rw [Tail.text, hpath, List.append_assoc, List.cons_append]

/-- A relative reference without a scheme is not read as having one. -/
theorem no_scheme {written : Written} (h : written.Valid) (hscheme : written.scheme = none)
    {scheme rest : Text} (hs : isScheme scheme = true) :
    authorityText written.authority ++ written.tail.text ≠ scheme ++ ':' :: rest := by
  intro heq
  cases hauthority : written.authority with
  | some authority =>
      rw [hauthority] at heq
      cases scheme with
      | nil => cases hs
      | cons c scheme =>
          have hc := isSchemeChar_of_mem hs List.mem_cons_self
          obtain rfl : '/' = c := (List.cons.inj heq).1
          cases hc
  | none =>
      rw [hauthority] at heq
      have hbare : written.tail.path ++ written.tail.suffix = scheme ++ ':' :: rest := heq
      -- The colon stands in the path, since what follows the path starts with a delimiter.
      obtain ⟨front, hscheme', hsuffix⟩ | ⟨front, hpath, hsuffix⟩ :=
        List.append_eq_append_iff.mp hbare
      · cases front with
        | nil =>
            obtain hc | hc := Tail.head_suffix (congrArg List.head? hsuffix) <;> cases hc
        | cons c front =>
            have hc := isSchemeChar_of_mem hs
              (hscheme' ▸ List.mem_append_right _ List.mem_cons_self : c ∈ scheme)
            obtain rfl | rfl := Tail.head_suffix (congrArg List.head? hsuffix) <;> cases hc
      · cases front with
        | nil =>
            obtain hc | hc := Tail.head_suffix (congrArg List.head? hsuffix.symm) <;> cases hc
        | cons c front =>
            obtain rfl : ':' = c := (List.cons.inj hsuffix).1
            exact h.relative hscheme hauthority scheme front hs hpath

theorem splitScheme_text {written : Written} (h : written.Valid) : splitScheme written.text =
    (written.scheme, authorityText written.authority ++ written.tail.text) := by
  cases hscheme : written.scheme with
  | some scheme =>
      have htext : written.text =
          scheme ++ ':' :: (authorityText written.authority ++ written.tail.text) := by
        rw [text, hscheme, schemeText, List.append_assoc]
        rfl
      rw [htext]
      exact splitScheme_some (h.scheme scheme hscheme)
  | none =>
      rw [text, hscheme]
      exact splitScheme_none fun scheme rest hs => no_scheme h hscheme hs

/-- Without an authority, no two slashes stand in front. -/
theorem no_slashes {tail : Tail} (h : ¬['/', '/'] <+: tail.path) : ¬['/', '/'] <+: tail.text := by
  rintro ⟨rest, hrest⟩
  have hslash : ∀ rest, tail.suffix ≠ '/' :: rest := fun rest heq => by
    obtain hc | hc := Tail.head_suffix (congrArg List.head? heq) <;> cases hc
  unfold Tail.text at hrest
  cases hpath : tail.path with
  | nil =>
      rw [hpath] at hrest
      exact hslash _ hrest.symm
  | cons c path =>
      rw [hpath] at hrest h
      cases path with
      | nil => exact hslash _ (List.cons.inj hrest).2.symm
      | cons d path =>
          simp only [List.cons_append, List.nil_append, List.cons.injEq] at hrest
          obtain ⟨rfl, rfl, -⟩ := hrest
          exact h ⟨path, rfl⟩

theorem of_text {written : Written} (h : written.Valid) : of written.text = written := by
  unfold of
  rw [splitScheme_text h]
  obtain ⟨scheme, authority, tail⟩ := written
  cases authority with
  | none =>
      have hstart : tail.text.stripPrefix ['/', '/'] = none :=
        List.stripPrefix_eq_none.mpr (no_slashes (h.bare rfl))
      simp only [authorityText, List.nil_append, hstart, Tail.of_text h.tail]
  | some authority =>
      obtain ⟨hauthority, hpath⟩ := h.authority authority rfl
      have hstart : ('/' :: '/' :: authority.text ++ tail.text).stripPrefix ['/', '/'] =
          some (authority.text ++ tail.text) := List.stripPrefix_eq_some.mpr rfl
      have hends : ∀ c, tail.text.head? = some c → endsAuthority c = true := by
        intro c hc
        cases hcase : tail.path with
        | nil =>
            rw [Tail.text, hcase] at hc
            obtain rfl | rfl := Tail.head_suffix hc <;> rfl
        | cons d path =>
            rw [Tail.text, hcase] at hc
            simp only [hcase, List.head?_cons, Option.some.injEq, reduceCtorEq, false_or] at hpath
            cases hc
            rw [hpath]
            rfl
      obtain ⟨htake, hdrop⟩ := takeWhile_authority hauthority.ends hends
      simp only [authorityText, hstart, htake, hdrop, Authority.of_text hauthority,
        Tail.of_text h.tail]

end Written

/-! ## What `parse` reads -/

/-- Every text is written in exactly one way, and `parse` reads that one: no component takes a
delimiter of another, and none is lost. -/
theorem parse_written (value : Text) :
    (∃! written : Written, written.Valid ∧ written.text = value) ∧
      ∀ written : Written, written.Valid → written.text = value →
        parse value = if value = [] then .error .empty else written.read := by
  have hunique : ∀ written : Written, written.Valid → written.text = value →
      written = .of value := by
    intro written hvalid htext
    rw [← htext]
    exact (Written.of_text hvalid).symm
  obtain ⟨htext, hvalid⟩ := Written.of_spec value
  refine ⟨⟨.of value, ⟨hvalid, htext⟩, fun written h => hunique written h.1 h.2⟩, ?_⟩
  intro written hvalid' htext'
  rw [hunique written hvalid' htext']
  by_cases hempty : value = []
  · rw [if_pos hempty, hempty]
    rfl
  · rw [if_neg hempty]
    exact Written.parse_eq hempty

/-- The colons of a literal address are no port, and the port has a leading zero. -/
theorem parse_written_literal :
    parse "HTTP://u:p@[::1]:080/a:b?c?d#e".toList =
      .ok ⟨some "http".toList, some "u:p".toList, some "::1".toList, some 80, "/a:b".toList,
        some "c?d".toList, some "e".toList⟩ := by
  have h := (parse_written "HTTP://u:p@[::1]:080/a:b?c?d#e".toList).2 (.of _)
    (Written.of_spec _).2 (Written.of_spec _).1
  rw [h]
  decide

end Nitr.Url.Parse
