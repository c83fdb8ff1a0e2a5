import Nitr.Http.UploadRoutes
import Nitr.Lib.Ensures

/-! # Reading a whole multipart body

The part loop of `validation/multipart.rs` over the spooler: which streams are read, and as what.
Only the bytes of the parts count, not how the stream cuts them. -/

namespace Nitr.Spool

open Nitr.Validate (Part Ending Stream Limits SchemaDef TextValue LuaString Fault)

/-- The bytes of a part. -/
def partBytes (part : Part) : List UInt8 := part.chunks.flatten

/-- A part that came in one chunk. -/
def joined (part : Part) : Part := { part with chunks := [partBytes part] }

section Spec

variable (schema : SchemaDef) (limits : Limits)

/-- The cap of a file part: the rule's, within the server's. -/
def fileCap (name : String) : ℕ :=
  min ((schema.fileMaxBytes name).getD limits.maxFileBytes) limits.maxFileBytes

/-- What a spooled file is described by, from its bytes. -/
def described (part : Part) (filename : String) : FileInfo :=
  ((Spooler.create (fileCap schema limits (part.name.getD ""))).observe (partBytes part)).finish
    (if filename = "" then none else some filename) part.contentType

/-- What the parts are read as; `index` numbers the files. -/
def partValues : List Part → (index : ℕ) → List (String × TextValue)
  | [], _ => []
  | part :: rest, index =>
    let name := part.name.getD ""
    match part.filename with
    | none =>
      (name, .text (LuaString.toStringLossy ⟨⟨(partBytes part).toArray⟩⟩)) :: partValues rest index
    | some filename =>
      if !schema.isFileField name then partValues rest index
      else if filename = "" ∧ partBytes part = [] then partValues rest (index + 1)
      else
        (name, .file (index + 1) (described schema limits part filename).read) ::
          partValues rest (index + 1)

/-- A part that can be read: it is complete, a text within its limit, and a declared file stored
on the disk. -/
structure PartReadable (disk : Disk) (part : Part) : Prop where
  complete : part.complete = true
  text : part.filename = none → (partBytes part).length ≤ limits.maxFieldBytes
  file : part.filename ≠ none → schema.isFileField (part.name.getD "") = true →
    ∃ s, (Spooler.create (fileCap schema limits (part.name.getD ""))).pushAll disk part.chunks =
      .ok s

end Spec

/-! ## One part -/

theorem readField_exceeded {limit : ℕ} {chunks : List (List UInt8)} {buf : List UInt8} :
    (Validate.readField limit chunks buf true).2 = true := by
  induction chunks generalizing buf with
  | nil => rfl
  | cons chunk rest ih =>
      rw [Validate.readField]
      split
      · exact ih
      · exact ih

/-- A text is read whole, or a chunk did not fit. -/
theorem readField_eq {limit : ℕ} {chunks : List (List UInt8)} {buf : List UInt8} :
    (buf.length + chunks.flatten.length ≤ limit →
      Validate.readField limit chunks buf false = (buf ++ chunks.flatten, false)) ∧
    (limit < buf.length + chunks.flatten.length → buf.length ≤ limit →
      (Validate.readField limit chunks buf false).2 = true) := by
  induction chunks generalizing buf with
  | nil =>
      refine ⟨fun _ => by simp [Validate.readField], fun hlt hle => ?_⟩
      simp only [List.flatten_nil, List.length_nil, Nat.add_zero] at hlt
      omega
  | cons chunk rest ih =>
      obtain ⟨ihfits, ihnot⟩ := @ih (buf ++ chunk)
      rw [List.length_append] at ihfits ihnot
      rw [List.flatten_cons, List.length_append, Validate.readField]
      refine ⟨fun hfits => ?_, fun hlt hle => ?_⟩
      · rw [if_neg (by omega), ihfits (by omega), List.append_assoc]
      · split
        · exact readField_exceeded
        · exact ihnot (by omega) (by omega)

section Loop

variable {schema : SchemaDef} {limits : Limits} {disk : Disk}

/-- A text part is read as its bytes, exactly if it is complete and within the limit. -/
theorem readText_eq_ok {name : String} {part : Part} {value : TextValue} :
    Validate.readText limits name part = .ok value ↔
      part.complete = true ∧ (partBytes part).length ≤ limits.maxFieldBytes ∧
        value = .text (LuaString.toStringLossy ⟨⟨(partBytes part).toArray⟩⟩) := by
  have hfield := @readField_eq limits.maxFieldBytes part.chunks []
  simp only [List.length_nil, Nat.zero_add, List.nil_append] at hfield
  unfold Validate.readText partBytes
  by_cases hfits : part.chunks.flatten.length ≤ limits.maxFieldBytes
  · rw [hfield.1 hfits]
    cases part.complete <;> simp [-List.length_flatten, hfits, eq_comm]
  · have hexceeded := hfield.2 (Nat.lt_of_not_le hfits) (Nat.zero_le _)
    generalize Validate.readField limits.maxFieldBytes part.chunks [] false = read at hexceeded
    obtain ⟨buf, exceeded⟩ := read
    obtain rfl : exceeded = true := hexceeded
    cases part.complete <;> simp [-List.length_flatten, hfits]

/-- A spooler describes the bytes it was given as if they had come in one chunk. -/
theorem Spools.finish_observe {s : Spooler} {cap : ℕ} {seen : List UInt8} (h : Spools s cap seen)
    (filename declared : Option String) :
    s.finish filename declared = ((Spooler.create cap).observe seen).finish filename declared := by
  have hcreate := spools_create cap
  have hhead := @Spools.observe_head _ _ _ seen hcreate
  have hsize := @Spools.observe_size _ _ _ seen hcreate
  have htracks : Tracks ((Spooler.create cap).observe seen).utf8 seen := hcreate.utf8.push seen
  have hutf8 : s.utf8.finish = ((Spooler.create cap).observe seen).utf8.finish :=
    Bool.eq_iff_iff.mpr (h.utf8.finish.trans htracks.finish.symm)
  rw [List.nil_append] at hhead hsize
  have hcap : ((Spooler.create cap).observe seen).cap = cap := rfl
  unfold Spooler.finish
  rw [h.head, hhead, h.size, hsize, h.cap_eq, hcap, hutf8]

theorem readFile_eq_ok {index : ℕ} {filename : String} {part : Part} {r : Option TextValue} :
    Validate.readFile schema limits (uploads disk) index (part.name.getD "") filename part = .ok r ↔
      part.complete = true ∧
        (∃ s, (Spooler.create (fileCap schema limits (part.name.getD ""))).pushAll disk
          part.chunks = .ok s) ∧
        r = if filename = "" ∧ partBytes part = [] then none
          else some (.file index (described schema limits part filename).read) := by
  unfold Validate.readFile
  cases hcomplete : part.complete with
  | false => simp
  | true =>
      simp only [uploads, spool, fileCap, Bool.not_true, Bool.false_eq_true, if_false, true_and]
      cases hpush : (Spooler.create (min ((schema.fileMaxBytes (part.name.getD "")).getD
          limits.maxFileBytes) limits.maxFileBytes)).pushAll disk part.chunks with
      | error torn => simp [Except.map]
      | ok s =>
          have hspools := spools_of_pushAll hpush
          have hinfo := hspools.finish_observe (if filename = "" then none else some filename)
            part.contentType
          have hempty : (s.finish (if filename = "" then none else some filename)
              part.contentType).read.size = 0 ↔ partBytes part = [] := by
            show s.size = 0 ↔ _
            rw [hspools.size, ← List.length_eq_zero_iff]
            unfold partBytes
            omega
          simp only [Except.map, Except.ok.injEq, exists_eq', true_and]
          show Except.ok (if filename = "" ∧ (s.finish _ part.contentType).read.size = 0 then none
            else some (TextValue.file index (s.finish _ part.contentType).read)) = .ok r ↔ _
          have hdescribed : described schema limits part filename =
              s.finish (if filename = "" then none else some filename) part.contentType := by
            rw [hinfo, described, fileCap]
            rfl
          simp only [Except.ok.injEq, hempty, hdescribed]
          exact eq_comm

/-! ## The loop -/

/-- Everything of the loop's body that can go wrong. -/
def Readable (schema : SchemaDef) (limits : Limits) (disk : Disk) (count : ℕ)
    (parts : List Part) : Prop :=
  count + parts.length ≤ limits.maxParts ∧ ∀ part ∈ parts, PartReadable schema limits disk part

theorem readable_cons {count : ℕ} {part : Part} {rest : List Part} :
    Readable schema limits disk count (part :: rest) ↔
      count + 1 ≤ limits.maxParts ∧ PartReadable schema limits disk part ∧
        Readable schema limits disk (count + 1) rest := by
  unfold Readable
  rw [List.length_cons, List.forall_mem_cons, Nat.add_right_comm, ← Nat.add_assoc]
  constructor
  · rintro ⟨hcount, hpart, hrest⟩
    exact ⟨by omega, hpart, hcount, hrest⟩
  · rintro ⟨-, hpart, hcount, hrest⟩
    exact ⟨hcount, hpart, hrest⟩

/-- What the loop gives for the end of the stream. -/
def ended (ending : Ending) (out : List (String × TextValue)) :
    Except Fault (Option (List (String × TextValue))) :=
  match ending with
  | .done => .ok (some out)
  | .failed msg => .error (.raised msg)
  | .malformed => .ok none

/-- The loop comes to the end of the stream exactly if every part can be read. -/
theorem readParts_eq_ok {ending : Ending} {parts : List Part} {count index : ℕ}
    {out : List (String × TextValue)} {r : Option (List (String × TextValue))}
    (hcount : count ≤ limits.maxParts) :
    Validate.readParts schema limits (uploads disk) ending parts count index out = .ok r ↔
      Readable schema limits disk count parts ∧
        ended ending (out ++ partValues schema limits parts index) = .ok r := by
  induction parts generalizing count index out with
  | nil =>
      have hreadable : Readable schema limits disk count [] := ⟨hcount, by simp⟩
      rw [partValues, List.append_nil]
      cases ending <;> simp [Validate.readParts, ended, hreadable]
  | cons part rest ih =>
      rw [readable_cons, Validate.readParts, partValues]
      by_cases hroom : limits.maxParts < count + 1
      · simp [hroom, Nat.not_le_of_lt hroom]
      have hle : count + 1 ≤ limits.maxParts := Nat.le_of_not_lt hroom
      simp only [hroom, if_false, hle, true_and]
      cases hname : part.filename with
      | none =>
          have hpart : PartReadable schema limits disk part ↔
              part.complete = true ∧ (partBytes part).length ≤ limits.maxFieldBytes :=
            ⟨fun h => ⟨h.complete, h.text hname⟩, fun h => ⟨h.1, fun _ => h.2, by simp [hname]⟩⟩
          simp only [Except.bind_eq_ok_iff, readText_eq_ok, hpart]
          constructor
          · rintro ⟨value, ⟨hcomplete, hfits, rfl⟩, hrest⟩
            obtain ⟨hreadable, hended⟩ := (ih hle).mp hrest
            rw [List.append_assoc] at hended
            exact ⟨⟨⟨hcomplete, hfits⟩, hreadable⟩, hended⟩
          · rintro ⟨⟨⟨hcomplete, hfits⟩, hreadable⟩, hended⟩
            refine ⟨_, ⟨hcomplete, hfits, rfl⟩, (ih hle).mpr ⟨hreadable, ?_⟩⟩
            rw [List.append_assoc]
            exact hended
      | some filename =>
          simp only
          cases hdeclared : schema.isFileField (part.name.getD "") with
          | false =>
              have hpart : PartReadable schema limits disk part ↔ part.complete = true :=
                ⟨fun h => h.complete, fun h => ⟨h, by simp [hname], by simp [hdeclared]⟩⟩
              cases hcomplete : part.complete with
              | false => simp [hpart, hcomplete]
              | true => simp [hpart, hcomplete, ih hle]
          | true =>
              have hpart : PartReadable schema limits disk part ↔ part.complete = true ∧
                  ∃ s, (Spooler.create (fileCap schema limits (part.name.getD ""))).pushAll disk
                    part.chunks = .ok s :=
                ⟨fun h => ⟨h.complete, h.file (by simp [hname]) hdeclared⟩,
                  fun h => ⟨h.1, by simp [hname], fun _ _ => h.2⟩⟩
              simp only [Bool.not_true, Bool.false_eq_true, if_false, Except.bind_eq_ok_iff,
                readFile_eq_ok, hpart]
              by_cases hempty : filename = "" ∧ partBytes part = []
              · simp only [hempty, and_self, if_true]
                constructor
                · rintro ⟨r, ⟨hcomplete, hstored, rfl⟩, hrest⟩
                  obtain ⟨hreadable, hended⟩ := (ih hle).mp hrest
                  exact ⟨⟨⟨hcomplete, hstored⟩, hreadable⟩, hended⟩
                · rintro ⟨⟨⟨hcomplete, hstored⟩, hreadable⟩, hended⟩
                  exact ⟨none, ⟨hcomplete, hstored, rfl⟩, (ih hle).mpr ⟨hreadable, hended⟩⟩
              · simp only [hempty, if_false]
                constructor
                · rintro ⟨r, ⟨hcomplete, hstored, rfl⟩, hrest⟩
                  obtain ⟨hreadable, hended⟩ := (ih hle).mp hrest
                  rw [List.append_assoc] at hended
                  exact ⟨⟨⟨hcomplete, hstored⟩, hreadable⟩, hended⟩
                · rintro ⟨⟨⟨hcomplete, hstored⟩, hreadable⟩, hended⟩
                  refine ⟨_, ⟨hcomplete, hstored, rfl⟩, (ih hle).mpr ⟨hreadable, ?_⟩⟩
                  rw [List.append_assoc]
                  exact hended

theorem partBytes_joined (part : Part) : partBytes (joined part) = partBytes part :=
  List.append_nil _

/-- The values are a function of the parts' bytes. -/
theorem partValues_joined (parts : List Part) (index : ℕ) :
    partValues schema limits (parts.map joined) index = partValues schema limits parts index := by
  induction parts generalizing index with
  | nil => rfl
  | cons part rest ih =>
      have hdescribed : ∀ filename, described schema limits (joined part) filename =
          described schema limits part filename := fun filename => by
        rw [described, partBytes_joined]
        rfl
      have hname : (joined part).name = part.name := rfl
      have hfilename : (joined part).filename = part.filename := rfl
      rw [List.map_cons, partValues, partValues]
      simp only [partBytes_joined, hdescribed, hname, hfilename, ih]

/-- The multipart route, whether or not `[multipart] upload_dir` is set and the request has a
spool. -/
def routed (root spoolDir : Bool) (disk : Disk) : Validate.Uploads :=
  { uploads disk with root, spoolDir }

/-- A multipart body is read exactly if there is a place for uploads, the body is complete, has no
more parts than allowed, every text is within its limit and every declared file was stored: then as
its texts and its declared files in order, an empty file input left out. It is malformed exactly if
its boundary is, or its end where there is a place for uploads. How the stream cuts the parts does
not matter. -/
theorem multipart_read {root spoolDir : Bool} {stream : Stream} {pairs : List (String × TextValue)} :
    (Validate.readMultipart schema limits (routed root spoolDir disk) stream = .ok (some pairs) ↔
      stream.boundary = true ∧ (root = true ∧ spoolDir = true) ∧ stream.ending = .done ∧
        Readable schema limits disk 0 stream.parts ∧
        pairs = partValues schema limits stream.parts 0) ∧
    (Validate.readMultipart schema limits (routed root spoolDir disk) stream = .ok none ↔
      stream.boundary = false ∨ (root = true ∧ spoolDir = true) ∧
        stream.ending = .malformed ∧ Readable schema limits disk 0 stream.parts) ∧
    ∀ disk' stream' pairs', stream'.parts.map joined = stream.parts.map joined →
      Validate.readMultipart schema limits (routed root spoolDir disk) stream = .ok (some pairs) →
      Validate.readMultipart schema limits (routed root spoolDir disk') stream' = .ok (some pairs') →
      pairs' = pairs := by
  have hread : ∀ disk (stream : Stream) r,
      Validate.readMultipart schema limits (routed root spoolDir disk) stream = .ok r ↔
        stream.boundary = false ∧ r = none ∨ stream.boundary = true ∧
          (root = true ∧ spoolDir = true) ∧ Readable schema limits disk 0 stream.parts ∧
          ended stream.ending (partValues schema limits stream.parts 0) = .ok r := by
    intro disk stream r
    unfold Validate.readMultipart
    cases stream.boundary with
    | false => simp [eq_comm]
    | true =>
        cases root with
        | false => simp [routed]
        | true =>
            cases spoolDir with
            | false => simp [routed]
            | true =>
                have hloop := @readParts_eq_ok schema limits disk stream.ending stream.parts 0 0 [] r
                  (Nat.zero_le _)
                rw [List.nil_append] at hloop
                simpa [routed, uploads] using hloop
  have hsome : ∀ disk (stream : Stream) pairs,
      Validate.readMultipart schema limits (routed root spoolDir disk) stream = .ok (some pairs) ↔
        stream.boundary = true ∧ (root = true ∧ spoolDir = true) ∧ stream.ending = .done ∧
          Readable schema limits disk 0 stream.parts ∧
          pairs = partValues schema limits stream.parts 0 := by
    intro disk stream pairs
    rw [hread]
    cases stream.ending with
    | done => simp [ended, @eq_comm _ pairs]
    | failed msg => simp [ended]
    | malformed => simp [ended]
  refine ⟨hsome disk stream pairs, ?_, fun disk' stream' pairs' hbytes h h' => ?_⟩
  · rw [hread]
    cases hboundary : stream.boundary <;> cases stream.ending <;> simp [ended]
  · obtain ⟨-, -, -, -, rfl⟩ := (hsome disk stream pairs).mp h
    obtain ⟨-, -, -, -, rfl⟩ := (hsome disk' stream' pairs').mp h'
    rw [← partValues_joined stream'.parts, hbytes, partValues_joined]

end Loop

end Nitr.Spool
