import Nitr.Http.Handle
import Nitr.Json.Encode

/-! # Server-sent events

`format_event` of `http/mod.rs` writes an event, `parse_sse` of `testing/sse.rs` reads a
collected stream. The two are written apart, and what one writes the other reads. -/

namespace Nitr.Sse

open Nitr.Http (Text parseU64)
open Nitr.Validate (LuaString F64)
open Nitr.Json (Data Doc JsonError)

/-! ## Writing -/

def isBreak (c : Char) : Bool := c = '\r' || c = '\n'

/-- Why an event is not written. -/
inductive FormatError where
  | lineBreak
  | json (err : JsonError)

/-- `replace("\r\n", "\n")`. -/
def replaceCrlf : Text → Text
  | '\r' :: '\n' :: rest => '\n' :: replaceCrlf rest
  | c :: rest => c :: replaceCrlf rest
  | [] => []

/-- The text of the data: a string as it is, anything else as JSON, which `print` spells. -/
def dataText (decimal : F64 → String) (print : Doc → Text) : Data → Except FormatError Text
  | .string s => .ok s.toStringLossy.toList
  | other =>
      match Json.toJson decimal other with
      | .ok doc => .ok (print doc)
      | .error err => .error (.json err)

/-- The lines of an event. -/
def eventText (event text : Text) : Text :=
  "event: ".toList ++ event ++ ['\n'] ++
    ((replaceCrlf text).splitOnP isBreak).flatMap (fun line => "data: ".toList ++ line ++ ['\n']) ++
    ['\n']

def formatEvent (decimal : F64 → String) (print : Doc → Text) (event : Text) (data : Data) :
    Except FormatError Text :=
  if event.any isBreak then .error .lineBreak
  else (dataText decimal print data).map (eventText event)

/-! ## Reading -/

/-- One dispatched event. -/
structure SseEvent where
  event : Option Text
  data : Text
  id : Option Text
  retry : Option ℕ
deriving DecidableEq

def SseEvent.default : SseEvent := ⟨none, [], none, none⟩

/-- The variables of the loop. -/
structure Parse where
  events : List SseEvent
  current : SseEvent
  hasData : Bool

def Parse.start : Parse := ⟨[], .default, false⟩

/-- The field and the value of a line. -/
def splitField (line : Text) : Text × Text :=
  match line.span (· ≠ ':') with
  | (field, ':' :: value) => (field, (value.stripPrefix [' ']).getD value)
  | (field, _) => (field, [])

/-- A field joins the event being built. -/
def Parse.field (p : Parse) (name value : Text) : Parse :=
  if name = "event".toList then { p with current := { p.current with event := some value } }
  else if name = "data".toList then
    let data := if p.hasData then p.current.data ++ ['\n'] else p.current.data
    { p with current := { p.current with data := data ++ value }, hasData := true }
  else if name = "id".toList then
    if '\x00' ∈ value then p else { p with current := { p.current with id := some value } }
  else if name = "retry".toList then
    if value ≠ [] ∧ value.all Char.isDigit then
      { p with current := { p.current with retry := parseU64 value } }
    else p
  else p

/-- One line. A blank one dispatches the event, if it has data. -/
def Parse.line (p : Parse) (line : Text) : Parse :=
  if line = [] then
    { events := if p.hasData then p.events ++ [p.current] else p.events
      current := .default
      hasData := false }
  else if line.head? = some ':' then p
  else p.field (splitField line).1 (splitField line).2

/-- What follows the end of a line. -/
def afterBreak : Text → Text
  | '\r' :: '\n' :: rest => rest
  | _ :: rest => rest
  | [] => []

theorem length_afterBreak_le (text : Text) : (afterBreak text).length ≤ text.length - 1 := by
  unfold afterBreak
  split <;> simp

/-- The loop over what is left of the text. -/
def Parse.run (p : Parse) (rest : Text) : List SseEvent :=
  if rest = [] then p.events
  else
    (p.line (rest.takeWhile fun c => !isBreak c)).run
      (afterBreak (rest.dropWhile fun c => !isBreak c))
termination_by rest.length
decreasing_by
  rename_i hne
  have hdrop := (List.dropWhile_suffix (l := rest) fun c => !isBreak c).length_le
  have hafter := length_afterBreak_le (rest.dropWhile fun c => !isBreak c)
  have hpos := List.length_pos_iff.mpr hne
  omega

/-- Parses a whole body, without a byte-order mark in front. -/
def parseSse (body : LuaString) : List SseEvent :=
  let text := body.toStringLossy.toList
  Parse.start.run ((text.stripPrefix ['\uFEFF']).getD text)

/-! ## Line breaks -/

/-- Every line break as a line feed. -/
def unifyBreaks : Text → Text
  | '\r' :: '\n' :: rest => '\n' :: unifyBreaks rest
  | '\r' :: rest => '\n' :: unifyBreaks rest
  | c :: rest => c :: unifyBreaks rest
  | [] => []

theorem isBreak_of_mem_splitOnP {line text : Text} (h : line ∈ text.splitOnP isBreak) :
    ∀ c ∈ line, isBreak c = false := by
  induction text generalizing line with
  | nil =>
      rw [List.splitOnP_nil, List.mem_singleton] at h
      simp [h]
  | cons c text ih =>
      rw [List.splitOnP_cons_eq_if_modifyHead] at h
      obtain ⟨first, others, hsplit⟩ := List.exists_cons_of_ne_nil (List.splitOnP_ne_nil isBreak text)
      rw [hsplit] at h ih
      by_cases hc : isBreak c = true
      · rw [if_pos hc] at h
        rcases List.mem_cons.mp h with rfl | h
        · simp
        · exact ih h
      · rw [if_neg hc, List.modifyHead_cons] at h
        rcases List.mem_cons.mp h with rfl | h
        · exact List.forall_mem_cons.mpr ⟨by simpa using hc, ih (List.mem_cons_self ..)⟩
        · exact ih (List.mem_cons_of_mem _ h)

/-- The lines of a text, joined again. -/
theorem intercalate_splitOnP (text : Text) :
    ['\n'].intercalate (text.splitOnP isBreak) = text.map fun c => if isBreak c then '\n' else c := by
  induction text with
  | nil => rfl
  | cons c text ih =>
      rw [List.splitOnP_cons_eq_if_modifyHead, List.map_cons, ← ih]
      obtain ⟨first, others, hsplit⟩ := List.exists_cons_of_ne_nil (List.splitOnP_ne_nil isBreak text)
      rw [hsplit]
      by_cases hc : isBreak c = true
      · rw [if_pos hc, if_pos hc]
        simp [List.intercalate]
      · rw [if_neg hc, if_neg hc, List.modifyHead_cons]
        cases others with
        | nil => simp [List.intercalate]
        | cons next others => simp [List.intercalate]

theorem map_replaceCrlf (text : Text) :
    ((replaceCrlf text).map fun c => if isBreak c then '\n' else c) = unifyBreaks text := by
  fun_induction unifyBreaks text with
  | case1 rest ih =>
      rw [replaceCrlf, List.map_cons, ih]
      rfl
  | case2 rest hnext ih =>
      rw [replaceCrlf, List.map_cons, ih]
      · rfl
      · exact fun rest' _ => hnext rest'
  | case3 c rest hnext hc ih =>
      rw [replaceCrlf, List.map_cons, ih]
      · by_cases hlf : c = '\n'
        · simp [hlf, isBreak]
        · have hcr : c ≠ '\r' := hc
          simp [isBreak, hlf, hcr]
      · exact hnext
  | case4 => rfl

/-! ## What is written is read -/

section

variable {p : Parse} {rest : Text}

/-- A line that ends in a line feed is read as it is. -/
theorem run_line {line : Text} (h : ∀ c ∈ line, isBreak c = false) :
    p.run (line ++ '\n' :: rest) = (p.line line).run rest := by
  have htest : ∀ c ∈ line, (!isBreak c) = true := fun c hc => by rw [h c hc]; rfl
  have htake : (line ++ '\n' :: rest).takeWhile (fun c => !isBreak c) = line := by
    rw [List.takeWhile_append_of_pos htest, List.takeWhile_cons_of_neg (by decide),
      List.append_nil]
  have hdrop : (line ++ '\n' :: rest).dropWhile (fun c => !isBreak c) = '\n' :: rest := by
    rw [List.dropWhile_append_of_pos htest, List.dropWhile_cons_of_neg (by decide)]
  rw [Parse.run, if_neg (by simp), htake, hdrop]
  rfl

/-- A field written with a space after its colon. -/
theorem line_field {name value : Text} (hne : name ≠ []) (hcolon : ':' ∉ name) :
    p.line (name ++ ':' :: ' ' :: value) = p.field name value := by
  have hspan : (name ++ ':' :: ' ' :: value).span (· ≠ ':') = (name, ':' :: ' ' :: value) := by
    have htest : ∀ c ∈ name, decide (c ≠ ':') = true := by
      intro c hc
      exact decide_eq_true fun heq => hcolon (heq ▸ hc)
    rw [List.span_eq_takeWhile_dropWhile, List.takeWhile_append_of_pos htest,
      List.dropWhile_append_of_pos htest]
    simp
  have hfield : splitField (name ++ ':' :: ' ' :: value) = (name, value) := by
    unfold splitField
    rw [hspan]
    rfl
  have hhead : (name ++ ':' :: ' ' :: value).head? ≠ some ':' := by
    cases name with
    | nil => exact absurd rfl hne
    | cons c name =>
        intro h
        cases h
        exact hcolon (List.mem_cons_self ..)
  rw [Parse.line, if_neg (by simp), if_neg hhead, hfield]

/-- A written field is read. -/
theorem run_field {name value : Text} (hne : name ≠ []) (hcolon : ':' ∉ name)
    (hname : name.all (fun c => !isBreak c) = true) (h : ∀ c ∈ value, isBreak c = false) :
    p.run (name ++ [':', ' '] ++ value ++ ['\n'] ++ rest) = (p.field name value).run rest := by
  have hline : ∀ c ∈ name ++ ':' :: ' ' :: value, isBreak c = false := by
    refine List.forall_mem_append.mpr ⟨?_, ?_⟩
    · intro c hc
      simpa using List.all_eq_true.mp hname c hc
    · exact List.forall_mem_cons.mpr ⟨rfl, List.forall_mem_cons.mpr ⟨rfl, h⟩⟩
  have htext : name ++ [':', ' '] ++ value ++ ['\n'] ++ rest =
      (name ++ ':' :: ' ' :: value) ++ '\n' :: rest := by simp
  rw [htext, run_line hline, line_field hne hcolon]

theorem run_event {value : Text} (h : ∀ c ∈ value, isBreak c = false) :
    p.run ("event: ".toList ++ value ++ ['\n'] ++ rest) = (p.field "event".toList value).run rest :=
  @run_field p rest "event".toList value (by decide) (by decide) (by decide) h

theorem run_data {value : Text} (h : ∀ c ∈ value, isBreak c = false) :
    p.run ("data: ".toList ++ value ++ ['\n'] ++ rest) = (p.field "data".toList value).run rest :=
  @run_field p rest "data".toList value (by decide) (by decide) (by decide) h

theorem field_event {value : Text} :
    p.field "event".toList value = { p with current := { p.current with event := some value } } :=
  rfl

theorem field_data {value : Text} :
    p.field "data".toList value =
      { p with
        current :=
          { p.current with
            data := (if p.hasData then p.current.data ++ ['\n'] else p.current.data) ++ value }
        hasData := true } := by
  rw [Parse.field, if_neg (by decide), if_pos rfl]

/-- The lines after the first join the data with a line feed each. -/
theorem run_more {lines : List Text} (h : ∀ line ∈ lines, ∀ c ∈ line, isBreak c = false)
    (hdata : p.hasData = true) :
    p.run (lines.flatMap (fun line => "data: ".toList ++ line ++ ['\n']) ++ rest) =
      Parse.run { p with
        current := { p.current with data := p.current.data ++ lines.flatMap ('\n' :: ·) } } rest := by
  induction lines generalizing p with
  | nil => simp
  | cons line lines ih =>
      obtain ⟨hline, hlines⟩ := List.forall_mem_cons.mp h
      rw [List.flatMap_cons, List.append_assoc, run_data hline, field_data, ih hlines rfl]
      simp [hdata]

/-- One written event, read from where no event is being built. -/
theorem run_eventText {events : List SseEvent} {event text : Text}
    (h : ∀ c ∈ event, isBreak c = false) :
    Parse.run ⟨events, .default, false⟩ (eventText event text ++ rest) =
      Parse.run ⟨events ++ [⟨some event, unifyBreaks text, none, none⟩], .default, false⟩ rest := by
  have hlines := fun line => @isBreak_of_mem_splitOnP line (replaceCrlf text)
  have hjoin : ['\n'].intercalate ((replaceCrlf text).splitOnP isBreak) = unifyBreaks text := by
    rw [intercalate_splitOnP, map_replaceCrlf]
  obtain ⟨first, others, hsplit⟩ :=
    List.exists_cons_of_ne_nil (List.splitOnP_ne_nil isBreak (replaceCrlf text))
  rw [hsplit] at hlines hjoin
  obtain ⟨hfirst, hothers⟩ := List.forall_mem_cons.mp hlines
  have hdata : first ++ others.flatMap ('\n' :: ·) = unifyBreaks text := by
    have hcons := List.cons_intercalate_eq_flatMap '\n' (List.cons_ne_nil first others)
    rw [hjoin, List.flatMap_cons, List.cons_append] at hcons
    exact (List.cons.inj hcons).2.symm
  have htext : ∀ e d : Text, e ++ event ++ ['\n'] ++
      (first :: others).flatMap (fun line => d ++ line ++ ['\n']) ++ ['\n'] ++ rest =
      e ++ event ++ ['\n'] ++ (d ++ first ++ ['\n'] ++
        (others.flatMap (fun line => d ++ line ++ ['\n']) ++ ('\n' :: rest))) := by simp
  unfold eventText
  rw [hsplit, htext, run_event h, field_event, run_data hfirst, field_data, run_more hothers rfl]
  have hblank := fun p => @run_line p rest [] (by simp)
  rw [List.nil_append] at hblank
  rw [hblank, ← hdata]
  rfl

end

/-- The events of a list of pairs, written one after another. -/
def formatAll (decimal : F64 → String) (print : Doc → Text) :
    List (Text × Data) → Except FormatError Text
  | [] => .ok []
  | (event, data) :: rest => do
      let text ← formatEvent decimal print event data
      let more ← formatAll decimal print rest
      return text ++ more

section

variable {decimal : F64 → String} {print : Doc → Text}

theorem formatEvent_string_eq_ok {event body : Text} {s : LuaString}
    (h : formatEvent decimal print event (.string s) = .ok body) :
    (∀ c ∈ event, isBreak c = false) ∧ body = eventText event s.toStringLossy.toList := by
  unfold formatEvent at h
  split at h
  · cases h
  · rename_i hname
    cases h
    refine ⟨?_, rfl⟩
    intro c hc
    by_contra hbreak
    exact hname (List.any_eq_true.mpr ⟨c, hc, by simpa using hbreak⟩)

/-- The written pairs, one by one. -/
theorem formatAll_cons_eq_ok {event body : Text} {data : Data} {pairs : List (Text × Data)}
    (h : formatAll decimal print ((event, data) :: pairs) = .ok body) :
    ∃ text more, formatEvent decimal print event data = .ok text ∧
      formatAll decimal print pairs = .ok more ∧ body = text ++ more := by
  rw [formatAll] at h
  cases hevent : formatEvent decimal print event data with
  | error err =>
      rw [hevent] at h
      cases h
  | ok text =>
      rw [hevent] at h
      cases hrest : formatAll decimal print pairs with
      | error err =>
          rw [hrest] at h
          cases h
      | ok more =>
          rw [hrest] at h
          cases h
          exact ⟨text, more, rfl, rfl, rfl⟩

theorem run_formatAll {pairs : List (Text × LuaString)} {body : Text} {events : List SseEvent}
    (h : formatAll decimal print (pairs.map fun p => (p.1, .string p.2)) = .ok body) :
    Parse.run ⟨events, .default, false⟩ body = events ++
      pairs.map fun p => ⟨some p.1, unifyBreaks p.2.toStringLossy.toList, none, none⟩ := by
  induction pairs generalizing body events with
  | nil =>
      cases h
      rw [Parse.run, if_pos rfl, List.map_nil, List.append_nil]
  | cons pair pairs ih =>
      obtain ⟨text, more, hevent, hrest, rfl⟩ := formatAll_cons_eq_ok h
      obtain ⟨hname, rfl⟩ := formatEvent_string_eq_ok hevent
      rw [run_eventText hname, ih hrest, List.map_cons, List.append_assoc, List.singleton_append]

theorem head?_eventText (event text rest : Text) :
    (eventText event text ++ rest).head? = some 'e' := by
  have hhead : ∀ t : Text, ("event: ".toList ++ t).head? = some 'e' := fun _ => rfl
  unfold eventText
  rw [List.append_assoc, List.append_assoc, List.append_assoc, List.append_assoc, hhead]

/-- A stream does not start with a byte-order mark. -/
theorem stripPrefix_formatAll {pairs : List (Text × LuaString)} {body : Text}
    (h : formatAll decimal print (pairs.map fun p => (p.1, .string p.2)) = .ok body) :
    body.stripPrefix ['\uFEFF'] = none := by
  have hbody : body.head? ≠ some '\uFEFF' := by
    cases pairs with
    | nil =>
        cases h
        simp
    | cons pair pairs =>
        obtain ⟨text, more, hevent, hrest, rfl⟩ := formatAll_cons_eq_ok h
        obtain ⟨-, rfl⟩ := formatEvent_string_eq_ok hevent
        rw [head?_eventText]
        simp
  refine List.stripPrefix_eq_none.mpr ?_
  rintro ⟨tail, rfl⟩
  exact hbody rfl

/-- Events written from strings are read as they are, whatever the strings contain: one event a
pair, in order, with its name and with the data's line breaks as line feeds. -/
theorem parseSse_formatAll (decimal : F64 → String) (print : Doc → Text)
    (pairs : List (Text × LuaString)) (body : Text)
    (h : formatAll decimal print (pairs.map fun p => (p.1, .string p.2)) = .ok body) :
    parseSse (.ofString (.ofList body)) =
      pairs.map fun p => ⟨some p.1, unifyBreaks p.2.toStringLossy.toList, none, none⟩ := by
  have hrun := @run_formatAll decimal print pairs body [] h
  unfold parseSse
  simp only [LuaString.toStringLossy_ofString, String.toList_ofList]
  rw [stripPrefix_formatAll h, Option.getD_none]
  exact hrun

theorem parseSse_formatAll_injection :
    ∃ body, formatAll (fun _ => "") (fun _ => [])
        [(" a:b".toList, .string (.ofString "x\r\r\nevent: y\n"))] = .ok body ∧
      parseSse (.ofString (.ofList body)) =
        [⟨some " a:b".toList, "x\n\nevent: y\n".toList, none, none⟩] := by
  refine ⟨_, rfl, ?_⟩
  rw [parseSse_formatAll (fun _ => "") (fun _ => [])
    [(" a:b".toList, .ofString "x\r\r\nevent: y\n")] _ rfl]
  simp [unifyBreaks]

end

end Nitr.Sse
