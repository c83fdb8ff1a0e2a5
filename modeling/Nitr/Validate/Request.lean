import Nitr.Http.Cors
import Nitr.Http.UploadRoutes
import Nitr.Lib.StableSort
import Nitr.OpenApi.Spec
import Nitr.Validate.Revalidate
import Nitr.Validate.Strict

/-! # The parts of a request

`validate` of `validation/run.rs`: the parameters, the query, the headers and the body of a request
against what its route declares. The readers of the body are parameters. -/

namespace Nitr.Validate.Request

open Nitr.OpenApi.Spec (Content BodyRule wrapper)

/-! ## Negotiation -/

/-- A route's compiled input declaration. -/
structure InputSchemas extends OpenApi.Spec.InputSchemas where
  /-- The route-level override. -/
  strict : Option Bool

def accepts (mediaType : Option Http.Text) : Content → Bool
  | .json => mediaType = none || mediaType = some "application/json".toList
  | .form => mediaType = some "application/x-www-form-urlencoded".toList
  | .multipart => mediaType = some "multipart/form-data".toList
  | .raw => true

/-- The media type named in a 415. -/
def label : Content → String
  | .json => "application/json"
  | .form => "application/x-www-form-urlencoded"
  | .multipart => "multipart/form-data"
  | .raw => "*/*"

def mediaType (headers : Http.Headers) : Option Http.Text :=
  ((headers.get "content-type").bind Http.toStr).map fun value =>
    Http.toAsciiLowercase (Http.trim (value.takeWhile (· ≠ ';')))

/-- Which body the request carries, or the list a 415 names. -/
def negotiate (input : InputSchemas) (headers : Http.Headers) : Except String (Option Content) :=
  match input.body with
  | none => .ok none
  | some (_, contents) =>
    match contents.find? (accepts (mediaType headers)) with
    | some content => .ok (some content)
    | none => .error (", ".intercalate (contents.map label))

/-! ## One part -/

inductive Part where
  | params | query | headers | body
deriving DecidableEq

def Part.name : Part → String
  | .params => "params"
  | .query => "query"
  | .headers => "headers"
  | .body => "body"

/-- What validating one part says. -/
abbrev Checked := Except (List ErrorEntry) Value

/-- How bytes are read: JSON and what Lua makes of it, urlencoded pairs, the value of a header. -/
structure Readers where
  json : List UInt8 → Option Value
  form : List UInt8 → List (String × String)
  headerText : Http.Text → String

/-- A request as `validate` finds it. -/
structure Incoming where
  params : List (String × String)
  query : Option (List UInt8)
  headers : Http.Headers
  /-- The whole body, read as bytes. -/
  bytes : Except Fault (List UInt8)
  /-- The body as the multipart parser yields it. -/
  stream : Stream
  /-- The body spooled as one file. -/
  file : Except Fault FileInfo

/-- `trim_start_matches("file")`. -/
def trimFile : List Char → List Char
  | 'f' :: 'i' :: 'l' :: 'e' :: rest => trimFile rest
  | text => text

/-- The one-field schema's `file` path is the body itself. -/
def ofRaw (entry : ErrorEntry) : ErrorEntry :=
  let path := (trimFile entry.path.toList).dropWhile (· = '.')
  { entry with path := if path = [] then "$" else String.ofList path, field := "" }

/-- `data.get("file")`. -/
def fileOf : Value → Value
  | .table _ _ entries => Entries.field entries "file"
  | _ => .nil

section Parts

variable (host : Host) (scripts : Scripts) (parsers : Parsers) (limits : Limits)
  (uploads : Uploads) (readers : Readers) (input : InputSchemas) (req : Incoming)
  (fresh : Part → ℕ)

/-- One text part. -/
def textPart (schema : SchemaDef) (pairs : List (String × String)) (strict : Option Bool)
    (part : Part) : Except Fault Checked :=
  checkText parsers host scripts schema (pairs.map fun p => (p.1, .text p.2)) ⟨strict, fresh part⟩

/-- Every line of a repeated header, in order. -/
def headerPairs (schema : SchemaDef) : List (String × String) :=
  schema.fields.flatMap fun field =>
    (req.headers.getAll field.1).map fun value => (field.1, readers.headerText value)

/-- The body of the negotiated content against its rule. -/
def bodyPart : BodyRule → Content → Except Fault Checked
  | .schema schema, .json => do
    let bytes ← req.bytes
    -- An empty body is an empty object.
    if bytes.all Media.isAsciiWhitespace then
      run host scripts schema (.table (fresh .body) 0 []) ⟨input.strict, fresh .body + 1⟩
    else
      checkBody host scripts parsers limits uploads schema ⟨input.strict, fresh .body⟩
        (.json (readers.json bytes))
  | .schema schema, .form => do
    let bytes ← req.bytes
    textPart host scripts parsers fresh schema (readers.form bytes) input.strict .body
  | .schema schema, .multipart =>
    checkBody host scripts parsers limits uploads schema ⟨input.strict, fresh .body⟩
      (.multipart req.stream)
  | .file rule, .raw => do
    let info ← req.file
    match ← checkText parsers host scripts (wrapper "file" rule) [("file", .file 1 info)]
        ⟨none, fresh .body⟩ with
    | .ok data => return .ok (fileOf data)
    | .error entries => return .error (entries.map ofRaw)
  | _, _ => .error (.raised "unsupported body declaration reached validation")

/-- What a part is checked against, if it is. -/
def check : Part → Option (Except Fault Checked)
  | .params => input.params.map fun schema =>
    textPart host scripts parsers fresh schema req.params input.strict .params
  | .query => input.query.map fun schema =>
    textPart host scripts parsers fresh schema ((req.query.map readers.form).getD []) input.strict
      .query
  | .headers => input.headers.map fun schema =>
    textPart host scripts parsers fresh schema (headerPairs readers req schema) none .headers
  | .body =>
    match negotiate input req.headers, input.body with
    | .ok (some content), some (rule, _) =>
      some (bodyPart host scripts parsers limits uploads readers input req fresh rule content)
    | _, _ => none

end Parts

/-! ## The whole request -/

/-- An entry of a request's report. -/
structure Reported extends ErrorEntry where
  part : Part

def prefixWith (part : Part) (entries : List ErrorEntry) : List Reported :=
  entries.map fun entry =>
    { entry with
      path := if entry.path = "$" then part.name else part.name ++ "." ++ entry.path
      part }

def sortByPath (report : List Reported) : List Reported :=
  report.insertionSort fun a b => a.path ≤ b.path

/-- Appends another part's failures, keeping the list sorted. -/
def merge (all other : List Reported) : List Reported := sortByPath (all ++ other)

/-- Records one part's failures. -/
def record (failures : Option (List Reported)) (part : Part) (entries : List ErrorEntry) :
    List Reported :=
  match failures with
  | some all => merge all (prefixWith part entries)
  | none => prefixWith part entries

structure Progress where
  valid : List (Part × Value)
  failures : Option (List Reported)

def Progress.settle (progress : Progress) (part : Part) : Checked → Progress
  | .ok data => { progress with valid := progress.valid ++ [(part, data)] }
  | .error entries => { progress with failures := some (record progress.failures part entries) }

/-- Checks a part that is declared and stores the outcome. -/
def onPart (check : Part → Option (Except Fault Checked)) (progress : Progress) (part : Part) :
    Except Fault Progress :=
  match check part with
  | none => .ok progress
  | some verdict => verdict.map (progress.settle part)

/-- The parts in the order they are checked. -/
def order : List Part := [.params, .query, .headers, .body]

/-- The parts one after the other: `req.valid`, or the report. -/
def runParts (check : Part → Option (Except Fault Checked)) :
    Except Fault (Except (List Reported) (List (Part × Value))) := do
  let progress ← order.foldlM (onPart check) ⟨[], none⟩
  match progress.failures with
  | some report => return .error report
  | none => return .ok progress.valid

/-- The budgeted validation. -/
def validate (host : Host) (scripts : Scripts) (parsers : Parsers) (limits : Limits)
    (uploads : Uploads) (readers : Readers) (input : InputSchemas) (req : Incoming)
    (fresh : Part → ℕ) : Except Fault (Except (List Reported) (List (Part × Value))) :=
  runParts (check host scripts parsers limits uploads readers input req fresh)

/-! ## The report -/

section Report

variable (own : Part → Option (Except Fault Checked))

def faultOf (part : Part) : Option Fault :=
  match own part with
  | some (.error fault) => some fault
  | _ => none

def passedOf (part : Part) : Option (Part × Value) :=
  match own part with
  | some (.ok (.ok data)) => some (part, data)
  | _ => none

def fails (part : Part) : Bool :=
  match own part with
  | some (.ok (.error _)) => true
  | _ => false

/-- A part's own report. -/
def failuresOf (part : Part) : List ErrorEntry :=
  match own part with
  | some (.ok (.error entries)) => entries
  | _ => []

/-- The parts by name. -/
def byName : List Part := [.body, .headers, .params, .query]

/-- What a request's report holds: the one part's own report where one part fails, else a section
for each part, by name, sorted by path. -/
def reportOf : List Part → List Reported
  | [part] => prefixWith part (failuresOf own part)
  | _ => byName.flatMap fun part => sortByPath (prefixWith part (failuresOf own part))

/-- The outcome of a request by what its parts say on their own. -/
def outcomeOf : Except Fault (Except (List Reported) (List (Part × Value))) :=
  match order.findSome? (faultOf own) with
  | some fault => .error fault
  | none =>
    match order.filter (fails own) with
    | [] => .ok (.ok (order.filterMap (passedOf own)))
    | failing => .ok (.error (reportOf own failing))

end Report

/-! ## Paths -/

def rank : Part → ℕ
  | .body => 0
  | .headers => 1
  | .params => 2
  | .query => 3

/-- The path of an entry starts with its part. -/
def Reported.Named (e : Reported) : Prop := ∃ rest, e.path = e.part.name ++ rest

theorem named_prefixWith {part : Part} {entries : List ErrorEntry} {e : Reported}
    (h : e ∈ prefixWith part entries) : e.Named ∧ e.part = part := by
  obtain ⟨entry, -, rfl⟩ := List.mem_map.mp h
  refine ⟨?_, rfl⟩
  by_cases hroot : entry.path = "$"
  · exact ⟨"", by simp [hroot]⟩
  · exact ⟨"." ++ entry.path, by simp [hroot, String.append_assoc]⟩

/-- The names of the parts differ in their first letters. -/
theorem name_lt {p q : Part} (h : rank p < rank q) (r s : String) : p.name ++ r < q.name ++ s := by
  rw [String.lt_iff_toList_lt, String.toList_append, String.toList_append]
  cases p <;> cases q <;>
    first
      | exact absurd h (by decide)
      | exact List.cons_lt_cons_iff.mpr (.inl (by decide))

theorem rank_le {a b : Reported} (ha : a.Named) (hb : b.Named) (h : a.path ≤ b.path) :
    rank a.part ≤ rank b.part := by
  by_contra hlt
  obtain ⟨r, hr⟩ := ha
  obtain ⟨s, hs⟩ := hb
  have hless := name_lt (Nat.lt_of_not_le hlt) s r
  rw [← hr, ← hs] at hless
  exact absurd h (not_le_of_gt hless)

/-! ## Sorting the report -/

variable {own : Part → Option (Except Fault Checked)}

/-- What is recorded of several failing parts. -/
def recorded (own : Part → Option (Except Fault Checked)) :
    Option (List Reported) → List Part → Option (List Reported)
  | failures, [] => failures
  | failures, part :: parts =>
    recorded own (some (record failures part (failuresOf own part))) parts

theorem recorded_some {all : List Reported}
    {parts : List Part} (hne : parts ≠ []) :
    recorded own (some all) parts =
      some (sortByPath
        (all ++ parts.flatMap fun part => prefixWith part (failuresOf own part))) := by
  induction parts generalizing all with
  | nil => exact absurd rfl hne
  | cons part parts ih =>
      cases parts with
      | nil => simp [recorded, record, merge]
      | cons next parts =>
          rw [recorded, ih (List.cons_ne_nil next parts)]
          simp only [record, merge, sortByPath, List.insertionSort_append_insertionSort,
            List.flatMap_cons, List.append_assoc]

/-- What is left of a fold that met no fault. -/
theorem foldlM_onPart (own : Part → Option (Except Fault Checked)) (parts : List Part)
    (progress : Progress) :
    parts.foldlM (onPart own) progress =
      match parts.findSome? (faultOf own) with
      | some fault => .error fault
      | none => .ok ⟨progress.valid ++ parts.filterMap (passedOf own),
          recorded own progress.failures (parts.filter (fails own))⟩ := by
  induction parts generalizing progress with
  | nil => simp [recorded, pure, Except.pure]
  | cons part parts ih =>
      rw [List.foldlM_cons, List.findSome?_cons, List.filterMap_cons, List.filter_cons]
      cases hown : own part with
      | none =>
          have hstep : onPart own progress part = .ok progress := by simp [onPart, hown]
          rw [hstep]
          simp [faultOf, passedOf, fails, hown, bind, Except.bind, ih]
      | some verdict =>
          cases verdict with
          | error fault => simp [onPart, faultOf, hown, bind, Except.bind, Except.map]
          | ok checked =>
              cases checked with
              | ok data =>
                  simp [onPart, faultOf, passedOf, fails, hown, bind, Except.bind, Except.map, ih,
                    Progress.settle]
              | error entries =>
                  simp [onPart, faultOf, passedOf, fails, hown, bind, Except.bind, Except.map, ih,
                    Progress.settle, recorded, failuresOf]

theorem prefixWith_nil (part : Part) : prefixWith part [] = [] := rfl

theorem failuresOf_eq_nil {part : Part} (h : fails own part = false) :
    failuresOf own part = [] := by
  unfold fails at h
  unfold failuresOf
  split at h
  · cases h
  · rfl

/-- The entries of one part. -/
theorem filter_flatMap_prefixWith {parts : List Part} (hnodup : parts.Nodup) (part : Part) :
    (parts.flatMap fun q => prefixWith q (failuresOf own q)).filter (·.part = part) =
      if part ∈ parts then prefixWith part (failuresOf own part) else [] := by
  induction parts with
  | nil => rfl
  | cons q parts ih =>
      rw [List.nodup_cons] at hnodup
      rw [List.flatMap_cons, List.filter_append, ih hnodup.2]
      by_cases hq : q = part
      · subst hq
        have hall : (prefixWith q (failuresOf own q)).filter (·.part = q) =
            prefixWith q (failuresOf own q) :=
          List.filter_eq_self.mpr fun e he => decide_eq_true (named_prefixWith he).2
        rw [hall, if_neg hnodup.1, if_pos List.mem_cons_self, List.append_nil]
      · have hnone : (prefixWith q (failuresOf own q)).filter (·.part = part) = [] :=
          List.filter_eq_nil_iff.mpr fun e he hpart =>
            hq ((named_prefixWith he).2.symm.trans (of_decide_eq_true hpart))
        rw [hnone, List.nil_append]
        simp [Ne.symm hq]

theorem mem_order (part : Part) : part ∈ order := by
  cases part <;> decide

/-- The entries of one part of a whole report. -/
theorem filter_failing (own : Part → Option (Except Fault Checked)) (part : Part) :
    ((order.filter (fails own)).flatMap fun q => prefixWith q (failuresOf own q)).filter
        (·.part = part) =
      prefixWith part (failuresOf own part) := by
  have hnodup : order.Nodup := by decide
  rw [filter_flatMap_prefixWith (hnodup.filter _)]
  cases hfails : fails own part with
  | true => rw [if_pos (List.mem_filter.mpr ⟨mem_order part, hfails⟩)]
  | false => rw [failuresOf_eq_nil hfails, prefixWith_nil, ite_self]

/-- A sorted report has the parts in the order of their names. -/
theorem sortByPath_failing (own : Part → Option (Except Fault Checked)) :
    sortByPath ((order.filter (fails own)).flatMap fun q => prefixWith q (failuresOf own q)) =
      byName.flatMap fun part => sortByPath (prefixWith part (failuresOf own part)) := by
  generalize hlist : (order.filter (fails own)).flatMap (fun q =>
    prefixWith q (failuresOf own q)) = entries
  have hnamed : ∀ e ∈ sortByPath entries, e.Named := by
    intro e he
    rw [sortByPath, List.mem_insertionSort, ← hlist] at he
    obtain ⟨q, -, he⟩ := List.mem_flatMap.mp he
    exact (named_prefixWith he).1
  have hsorted : (sortByPath entries).Pairwise fun a b => rank a.part ≤ rank b.part :=
    (List.pairwise_insertionSort (fun a b : Reported => a.path ≤ b.path) entries).imp_of_mem
      fun ha hb hle => rank_le (hnamed _ ha) (hnamed _ hb) hle
  have hranks : ∀ e ∈ sortByPath entries, rank e.part ∈ byName.map rank := fun e _ => by
    cases e.part <;> decide
  have hbyName : (byName.map rank).Pairwise (· < ·) := by decide
  rw [← List.flatMap_filter_of_sorted hbyName hsorted hranks, List.flatMap_map]
  refine List.flatMap_congr fun part _ => ?_
  have hpart : ∀ e : Reported, (decide (rank e.part = rank part)) = decide (e.part = part) := by
    intro e
    generalize e.part = q
    cases q <;> cases part <;> decide
  simp only [hpart]
  rw [sortByPath, List.filter_insertionSort, ← hlist, filter_failing]
  rfl

/-- Checking part after part comes to what the parts say on their own. -/
theorem runParts_eq (own : Part → Option (Except Fault Checked)) :
    runParts own = outcomeOf own := by
  unfold runParts outcomeOf
  rw [foldlM_onPart]
  cases order.findSome? (faultOf own) with
  | some fault => rfl
  | none =>
      have hsorted := sortByPath_failing own
      simp only [bind, Except.bind, List.nil_append]
      generalize order.filter (fails own) = failing at hsorted
      match failing with
      | [] => rfl
      | [part] => rfl
      | part :: next :: rest =>
          rw [recorded, recorded_some (List.cons_ne_nil next rest)]
          simp only [record, reportOf, ← hsorted, List.flatMap_cons]
          rfl

/-! ## Reading a report back -/

/-- The entry as its part reported it. -/
def Reported.bare (e : Reported) : ErrorEntry :=
  { e.toErrorEntry with
    path :=
      if e.path = e.part.name then "$"
      else String.ofList (e.path.toList.drop (e.part.name.toList.length + 1)) }

theorem bare_prefixWith (part : Part) (entries : List ErrorEntry) :
    (prefixWith part entries).map Reported.bare = entries := by
  rw [prefixWith, List.map_map]
  refine (List.map_congr_left fun entry _ => ?_).trans (List.map_id _)
  obtain ⟨path, field, rule, message, params, title⟩ := entry
  by_cases hroot : path = "$"
  · simp [Reported.bare, hroot]
  · have hne : part.name ++ "." ++ path ≠ part.name := by
      intro h
      have hlength := congrArg String.length h
      rw [String.length_append, String.length_append] at hlength
      have hdot : ".".length = 1 := rfl
      omega
    simp [Reported.bare, hroot, hne, String.toList_append]

/-- The entries of one part, whatever stands around them. -/
theorem filter_reportOf {failing : List Part} (hfailing : order.filter (fails own) = failing)
    (hne : failing ≠ []) (part : Part) :
    ((reportOf own failing).filter (·.part = part)).Perm
      (prefixWith part (failuresOf own part)) := by
  have hall := filter_failing own part
  rw [hfailing] at hall
  match failing with
  | [] => exact absurd rfl hne
  | [only] =>
      rw [List.flatMap_cons, List.flatMap_nil, List.append_nil] at hall
      rw [reportOf, hall]
  | first :: next :: rest =>
      have hsorted := sortByPath_failing own
      rw [hfailing] at hsorted
      rw [reportOf, ← hsorted, sortByPath, List.filter_insertionSort, hall]
      · exact List.perm_insertionSort _ _
      · simp

theorem named_reportOf {failing : List Part} {e : Reported} (h : e ∈ reportOf own failing) :
    e.Named := by
  unfold reportOf at h
  split at h
  · exact (named_prefixWith h).1
  · obtain ⟨part, -, he⟩ := List.mem_flatMap.mp h
    exact (named_prefixWith ((List.mem_insertionSort _).mp he)).1

/-- Entries of different parts have different paths. -/
theorem part_eq_of_path_eq {a b : Reported} (ha : a.Named) (hb : b.Named) (h : a.path = b.path) :
    a.part = b.part := by
  have hrank := le_antisymm (rank_le ha hb h.le) (rank_le hb ha h.ge)
  generalize a.part = p at hrank
  generalize b.part = q at hrank
  cases p <;> cases q <;> first | rfl | cases hrank

section Validate

variable (host : Host) (scripts : Scripts) (parsers : Parsers) (limits : Limits)
  (uploads : Uploads) (readers : Readers) (input : InputSchemas) (req : Incoming)
  (fresh : Part → ℕ)

/-- A request is what its parts are on their own: the first fault, the valid data of every part,
or a report from which each part's own can be read back. -/
theorem validate_report :
    validate host scripts parsers limits uploads readers input req fresh =
        outcomeOf (check host scripts parsers limits uploads readers input req fresh) ∧
      ∀ report, validate host scripts parsers limits uploads readers input req fresh =
          .ok (.error report) →
        (∀ part, ((report.filter (·.part = part)).map Reported.bare).Perm
          (failuresOf (check host scripts parsers limits uploads readers input req fresh) part)) ∧
          ∀ a ∈ report, ∀ b ∈ report, a.path = b.path → a.part = b.part := by
  have heq : validate host scripts parsers limits uploads readers input req fresh =
      outcomeOf (check host scripts parsers limits uploads readers input req fresh) := runParts_eq _
  refine ⟨heq, fun report hreport => ?_⟩
  rw [heq] at hreport
  unfold outcomeOf at hreport
  split at hreport
  · cases hreport
  · split at hreport
    · cases hreport
    · rename_i hne
      cases hreport
      refine ⟨fun part => ?_, fun a ha b hb hpath => ?_⟩
      · have hperm := (filter_reportOf rfl hne part).map Reported.bare
        rwa [bare_prefixWith] at hperm
      · exact part_eq_of_path_eq (named_reportOf ha) (named_reportOf hb) hpath

end Validate

/-- A route with a strict query and a JSON body. -/
def strictInput : InputSchemas where
  body := some (.schema ⟨[], {}⟩, [.json])
  query := some ⟨[], {}⟩
  params := none
  headers := none
  strict := some true

/-- `x=1` in the query and `{` as the body. -/
def brokenRequest : Incoming where
  params := []
  query := some [0x78, 0x3D, 0x31]
  headers := MultiMap.empty
  bytes := .ok [0x7B]
  stream := ⟨false, [], .done⟩
  file := .error (.raised "no uploads")

def brokenReaders : Readers where
  json _ := none
  form _ := [("x", "1")]
  headerText _ := ""

/-- The body stands before the query. -/
theorem validate_report_broken : ∃ report : List Reported,
    report.map (·.path) = ["body", "query.x"] ∧
      ∀ part, ((report.filter (·.part = part)).map Reported.bare).Perm
        (failuresOf (check .ascii noScripts plainParsers ⟨0, 0, 0⟩ noUploads brokenReaders
          strictInput brokenRequest fun _ => 0) part) := by
  obtain ⟨report, hreport, hpaths⟩ : ∃ report, validate .ascii noScripts plainParsers ⟨0, 0, 0⟩
      noUploads brokenReaders strictInput brokenRequest (fun _ => 0) = .ok (.error report) ∧
        report.map (·.path) = ["body", "query.x"] := ⟨_, rfl, by decide⟩
  exact ⟨report, hpaths, ((validate_report .ascii noScripts plainParsers ⟨0, 0, 0⟩ noUploads
    brokenReaders strictInput brokenRequest fun _ => 0).2 report hreport).1⟩

end Nitr.Validate.Request
