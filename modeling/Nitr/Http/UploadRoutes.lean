import Nitr.Http.Fresh
import Nitr.Http.SpoolWhole
import Nitr.Validate.Body

/-! # The two upload routes

A file comes as a part of a multipart body or, by `validation/raw.rs`, as the whole body.
Each route takes the declared type and the file name from its own headers. -/

namespace Nitr.Spool

open Nitr.Media

/-! ## The routes -/

/-- The spool a request writes to. -/
def spool (disk : Disk) (cap : ℕ) (chunks : List (List UInt8))
    (filename declared : Option String) : Except Validate.Fault FileInfo :=
  match (Spooler.create cap).pushAll disk chunks with
  | .ok s => .ok (s.finish filename declared)
  | .error _ => .error (.raised "the upload could not be written")

/-- The multipart route spools its files. -/
def uploads (disk : Disk) : Validate.Uploads where
  root := true
  spoolDir := true
  spool _ cap chunks filename declared := (spool disk cap chunks filename declared).map (·.read)

/-- The `filename` parameter of a `Content-Disposition` value, unquoted. -/
def dispositionFilename (value : List Char) : Option (List Char) :=
  let named := (value.splitOn ';').findSome? fun param =>
    (Http.trim param).stripPrefix "filename=".toList
  (named.map fun name => name.trimBy (· = '"')).filter (· ≠ [])

/-- The declared type of a raw body: without parameters, in lower case. -/
def rawDeclared (value : List Char) : Option (List Char) :=
  ((Http.toStr value).map fun text =>
    (Http.trim (text.takeWhile (· ≠ ';'))).map Char.toLower).filter (· ≠ [])

/-- What a raw body's file is read from. -/
structure RawRequest where
  contentType : Option String
  contentDisposition : Option String
  chunks : List (List UInt8)

/-- `raw::read`. -/
def readRaw (limits : Validate.Limits) (disk : Disk) (req : RawRequest) :
    Except Validate.Fault FileInfo :=
  let declared := req.contentType.bind fun v => (rawDeclared v.toList).map String.ofList
  let filename := req.contentDisposition.bind fun v =>
    ((Http.toStr v.toList).bind dispositionFilename).map String.ofList
  spool disk limits.maxFileBytes req.chunks filename declared

/-! ## File names -/

/-- The characters of the file names a client may send either way. -/
def plainChar (c : Char) : Bool := c.isAlphanum || c = '.' || c = '-' || c = ' '

/-- The `Content-Disposition` that names a raw body. -/
def attachment (name : List Char) : List Char := "attachment; filename=\"".toList ++ name ++ ['"']

theorem plainChar_ne {c d : Char} (h : plainChar c = true) (hd : plainChar d = false) : c ≠ d := by
  rintro rfl
  rw [h] at hd
  cases hd

theorem visible_plainChar {c : Char} (h : plainChar c = true) : Http.visible c = true := by
  have hbound : 32 ≤ c.toNat ∧ c.toNat < 127 := by
    change (((((decide (65 ≤ c.val ∧ c.val ≤ 90) ||
      (decide (97 ≤ c.val) && decide (c.val ≤ 122))) ||
      (decide (48 ≤ c.val) && decide (c.val ≤ 57))) || decide (c = '.')) || decide (c = '-')) ||
      decide (c = ' ')) = true at h
    simp only [Bool.or_eq_true, Bool.and_eq_true, decide_eq_true_eq,
      UInt32.le_iff_toNat_le] at h
    have hval : c.val.toNat = c.toNat := rfl
    rcases h with ((((h | h) | h) | rfl) | rfl) | rfl
    · have hupper := h
      simp at hupper
      omega
    · simp at h
      omega
    · simp at h
      omega
    · decide
    · decide
    · decide
  simp [Http.visible, hbound]

theorem dispositionFilename_attachment {name : List Char} (hne : name ≠ [])
    (h : ∀ c ∈ name, plainChar c = true) : dispositionFilename (attachment name) = some name := by
  have hquote : ∀ c ∈ name, (decide (c = '"')) = false := fun c hc => by
    simpa using plainChar_ne (h c hc) (by decide)
  have hsemi : ';' ∉ " filename=\"".toList ++ name ++ ['"'] := by
    intro hmem
    simp only [List.mem_append, List.mem_singleton] at hmem
    rcases hmem with (hmem | hmem) | hmem
    · exact absurd hmem (by decide)
    · exact plainChar_ne (h _ hmem) (by decide) rfl
    · exact absurd hmem (by decide)
  have hsplit : (attachment name).splitOn ';' =
      ["attachment".toList, " filename=\"".toList ++ name ++ ['"']] := by
    have htext : attachment name =
        "attachment".toList ++ ';' :: (" filename=\"".toList ++ name ++ ['"']) := rfl
    rw [htext, List.splitOn_append_cons_self_of_not_mem (by decide),
      List.splitOn_eq_singleton hsemi]
  have htrim : Http.trim (" filename=\"".toList ++ name ++ ['"']) =
      "filename=".toList ++ ('"' :: name ++ ['"']) := by
    have hparts : " filename=\"".toList ++ name ++ ['"'] =
        [' '] ++ ("filename=\"".toList ++ name ++ ['"']) ++ [] := by simp
    have hblank : ∀ c ∈ [' '], c.isWhitespace = true := by
      intro c hc
      rw [List.mem_singleton.mp hc]
      rfl
    rw [hparts, Http.trim, List.trimBy_append hblank (by simp) (by simp) (by rfl) (by simp)]
    rfl
  have hunquoted : ('"' :: name ++ ['"']).trimBy (fun c => decide (c = '"')) = name := by
    have hparts : '"' :: name ++ ['"'] = ['"'] ++ name ++ ['"'] := rfl
    rw [hparts]
    exact List.trimBy_append (by simp) (by simp) hne (hquote _ (List.head_mem hne))
      (hquote _ (List.getLast_mem hne))
  have hfirst : (Http.trim "attachment".toList).stripPrefix "filename=".toList = none := by decide
  have hnamed : ("filename=".toList ++ ('"' :: name ++ ['"'])).stripPrefix "filename=".toList =
      some ('"' :: name ++ ['"']) := List.stripPrefix_eq_some.mpr rfl
  simp only [dispositionFilename]
  rw [hsplit, List.findSome?_cons, hfirst, List.findSome?_cons, htrim, hnamed]
  simp only [Option.map_some, hunquoted]
  simp [hne]

theorem toStr_attachment {name : List Char} (h : ∀ c ∈ name, plainChar c = true) :
    Http.toStr (attachment name) = some (attachment name) := by
  have hstart : "attachment; filename=\"".toList.all Http.visible = true := by decide
  have hname : name.all Http.visible = true :=
    List.all_eq_true.mpr fun c hc => visible_plainChar (h c hc)
  have hall : (attachment name).all Http.visible = true := by
    unfold attachment
    rw [List.all_append, List.all_append, hstart, hname]
    rfl
  rw [Http.toStr, if_pos hall]

/-! ## Declared types -/

/-- The characters of the names in the table. -/
def typeChar (c : Char) : Bool :=
  (97 ≤ c.toNat && c.toNat ≤ 122) || (43 ≤ c.toNat && c.toNat ≤ 57)

theorem typeChar_spec {c : Char} (h : typeChar c = true) :
    Http.visible c = true ∧ c.isWhitespace = false ∧ c ≠ ';' ∧ c.toLower = c := by
  have hbound : 43 ≤ c.toNat ∧ c.toNat ≤ 122 ∧ (97 ≤ c.toNat ∨ c.toNat ≤ 57) := by
    simp only [typeChar, Bool.or_eq_true, Bool.and_eq_true, decide_eq_true_eq] at h
    omega
  refine ⟨by simp [Http.visible]; omega, ?_, ?_, ?_⟩
  · rw [Bool.eq_false_iff]
    intro hblank
    simp only [Char.isWhitespace, Bool.or_eq_true, decide_eq_true_eq] at hblank
    rcases hblank with ((rfl | rfl) | rfl) | rfl <;> simp at hbound
  · rintro rfl
    simp at hbound
  · have hnot : ¬(c.val ≥ 'A'.val ∧ c.val ≤ 'Z'.val) := by
      have hval : c.val.toNat = c.toNat := rfl
      rw [ge_iff_le, UInt32.le_iff_toNat_le, UInt32.le_iff_toNat_le, hval]
      simp only [Char.reduceVal, UInt32.reduceToNat]
      omega
    exact dif_neg hnot

/-- A name of such characters is its own normal form. -/
theorem rawDeclared_of_typeChar {name : List Char} (hne : name ≠ [])
    (h : ∀ c ∈ name, typeChar c = true) : rawDeclared name = some name := by
  have hvisible : Http.toStr name = some name :=
    if_pos (List.all_eq_true.mpr fun c hc => (typeChar_spec (h c hc)).1)
  have hwhole : name.takeWhile (fun c => decide (c ≠ ';')) = name :=
    List.takeWhile_eq_self_iff.mpr fun c hc => by simpa using (typeChar_spec (h c hc)).2.2.1
  have htrim : Http.trim name = name :=
    List.trimBy_eq_self fun c hc => (typeChar_spec (h c hc)).2.1
  have hlower : name.map Char.toLower = name :=
    (List.map_congr_left fun c hc => (typeChar_spec (h c hc)).2.2.2).trans (List.map_id name)
  unfold rawDeclared
  rw [hvisible, Option.map_some, hwhole, htrim, hlower]
  simp [hne]

/-- The text types of the table are their own normal form. -/
theorem rawDeclared_of_lookup {name : String} {media : MediaType} (h : lookup name = some media)
    (htier : media.tier = .text) : rawDeclared name.toList = some name.toList := by
  have hall : ∀ m ∈ mediaTypes, m.tier = .text →
      m.name.toList ≠ [] ∧ m.name.toList.all typeChar = true := by
    decide +kernel
  obtain ⟨hne, hchars⟩ := hall media (mem_of_lookup h) htier
  rw [name_of_lookup h] at hne hchars
  exact rawDeclared_of_typeChar hne (List.all_eq_true.mp hchars)

/-- The effective type, by the first bytes and the declared type. -/
def effectiveType (head : List UInt8) (declared : Option String) : String :=
  match detect head with
  | .detected media => media.name
  | .executable => executableType
  | .text =>
      match FileInfo.declaredIn .text declared with
      | some d => if textSubtypeMatches d head then d else "text/plain"
      | none => "text/plain"
  | .unknown => unknownType

theorem declaredIn_eq_some {tier : Tier} {declared : Option String} {d : String}
    (h : FileInfo.declaredIn tier declared = some d) :
    declared = some d ∧ ∃ media, lookup d = some media ∧ media.tier = tier := by
  obtain ⟨hd, htier⟩ := Option.filter_eq_some_iff.mp h
  obtain ⟨media, hmedia, ht⟩ := (Option.any_eq_true _ _).mp htier
  exact ⟨hd, media, hmedia, by simpa using ht⟩

theorem finish_effectiveType (s : Spooler) (filename declared : Option String) :
    (s.finish filename declared).effectiveType = effectiveType s.head declared := by
  unfold FileInfo.effectiveType effectiveType
  simp only [Spooler.finish]
  cases detect s.head with
  | detected media => rfl
  | executable => rfl
  | text =>
      cases hd : FileInfo.declaredIn .text declared with
      | none => rfl
      | some d =>
          rw [(declaredIn_eq_some hd).1]
          rfl
  | unknown =>
      cases hd : FileInfo.declaredIn .header declared with
      | none => rfl
      | some d =>
          obtain ⟨-, media, hmedia, htier⟩ := declaredIn_eq_some hd
          simp only [Option.getD_some]
          rw [← name_of_lookup hmedia]
          exact name_of_header (mem_of_lookup hmedia) htier

/-- Where the two routes give a file one type: bytes sniffed as text, with the structure of
the text type that the header names once normalized, need the header to be that name. -/
def SameType (contentType : String) (head : List UInt8) : Prop :=
  detect head = .text → ∀ d media, rawDeclared contentType.toList = some d →
    lookup (.ofList d) = some media → media.tier = .text → media.name ≠ "text/plain" →
    textSubtypeMatches media.name head = true → contentType.toList = d

theorem declaredIn_of_lookup {tier : Tier} {d : String} {media : MediaType}
    (h : lookup d = some media) (ht : media.tier = tier) :
    FileInfo.declaredIn tier (some d) = some d := by
  unfold FileInfo.declaredIn
  rw [Option.filter_some, h]
  simp [ht]

theorem effectiveType_of_not_text {head : List UInt8} (h : detect head ≠ .text)
    (declared declared' : Option String) :
    effectiveType head declared = effectiveType head declared' := by
  unfold effectiveType
  cases hd : detect head with
  | text => exact absurd hd h
  | _ => rfl

theorem effectiveType_eq_iff (contentType : String) (head : List UInt8) :
    effectiveType head (some contentType) =
        effectiveType head ((rawDeclared contentType.toList).map String.ofList) ↔
      SameType contentType head := by
  by_cases htext : detect head = .text
  swap
  · exact ⟨fun _ h => absurd h htext, fun _ => effectiveType_of_not_text htext _ _⟩
  cases hsent : FileInfo.declaredIn .text (some contentType) with
  | some d =>
      -- The header is a name of the table: both routes look up the same text.
      obtain ⟨hd, media, hmedia, htier⟩ := declaredIn_eq_some hsent
      cases hd
      rw [rawDeclared_of_lookup hmedia htier, Option.map_some, String.ofList_toList]
      refine ⟨fun _ _ d media hraw _ _ _ _ => ?_, fun _ => rfl⟩
      rw [rawDeclared_of_lookup hmedia htier] at hraw
      exact Option.some.inj hraw
  | none =>
      have hleft : effectiveType head (some contentType) = "text/plain" := by
        simp only [effectiveType, htext, hsent]
      rw [hleft]
      cases hraw : rawDeclared contentType.toList with
      | none =>
          simp only [SameType, hraw]
          simp [effectiveType, htext, FileInfo.declaredIn]
      | some d =>
          rw [Option.map_some]
          constructor
          · intro hright htext d' media hd' hmedia htier hname hmatches
            rw [hraw, Option.some.injEq] at hd'
            subst hd'
            rw [name_of_lookup hmedia] at hname hmatches
            refine absurd hright.symm ?_
            simp only [effectiveType, htext, declaredIn_of_lookup hmedia htier, hmatches, if_true]
            exact hname
          · intro hsame
            simp only [effectiveType, htext]
            cases hd : FileInfo.declaredIn .text (some (String.ofList d)) with
            | none => rfl
            | some found =>
                obtain ⟨hfound, media, hmedia, htier⟩ := declaredIn_eq_some hd
                cases hfound
                simp only
                split
                · rename_i hmatches
                  by_contra hname
                  rw [← name_of_lookup hmedia] at hname hmatches
                  have heq := hsame htext d media hraw hmedia htier (Ne.symm hname) hmatches
                  rw [← heq, String.ofList_toList] at hmedia
                  rw [declaredIn_of_lookup hmedia htier] at hsent
                  cases hsent
                · rfl

/-! ## Verdicts -/

section Verdict

open Validate

/-- What a `file` rule says of an upload: whether it passes, and what is recorded. -/
def verdict (host : Host) (rule : RuleKeys) (checkName : Option (Bool × Checker)) (site : Site)
    (ctx : Ctx) (p : ℕ) (info : Validate.FileInfo) : Except Fault (Bool × Ctx) :=
  (checkFile host rule checkName (.file p info) site ctx).map fun r => (r.1.isSome, r.2)

theorem applyTests_map_congr {host : Host} {rule : RuleKeys} {site : Site} {ctx : Ctx}
    {tests : List Test} {next next' : Check (Option Value)}
    (h : (next ctx).map (fun r => (r.1.isSome, r.2)) = (next' ctx).map fun r => (r.1.isSome, r.2)) :
    (applyTests host rule site tests next ctx).map (fun r => (r.1.isSome, r.2)) =
      (applyTests host rule site tests next' ctx).map fun r => (r.1.isSome, r.2) := by
  unfold applyTests
  cases firstViolated tests with
  | some test => rfl
  | none => exact h

/-- Only the smaller of the two size limits counts. -/
theorem verdict_cap (host : Host) (rule : RuleKeys) (checkName : Option (Bool × Checker))
    (site : Site) (ctx : Ctx) (p p' cap : ℕ) (info : Validate.FileInfo)
    (h : ∀ m, rule.maxBytes = some m → min m info.cap = min m cap) :
    verdict host rule checkName site ctx p info =
      verdict host rule checkName site ctx p' { info with cap := cap } := by
  unfold verdict checkFile
  cases hfile : rule.file with
  | none => rfl
  | some file =>
      cases hmax : rule.maxBytes with
      | none => rfl
      | some m =>
          simp only
          rw [h m hmax]
          refine applyTests_map_congr ?_
          -- The filename rule and the content rules do not read the cap.
          have hname : filenameFailure { info with cap := cap } checkName =
              filenameFailure info checkName := rfl
          have hcontent : contentTests host file { info with cap := cap } =
              contentTests host file info := rfl
          rw [hname, hcontent]
          simp only [bind, StateT.bind, Except.bind]
          cases filenameFailure info checkName ctx with
          | error fault => rfl
          | ok r =>
              obtain ⟨failure, next⟩ := r
              cases failure with
              | some params => rfl
              | none => exact applyTests_map_congr rfl

end Verdict

/-! ## Agreement -/

/-- Two descriptions of an upload that a `file` rule cannot tell apart. -/
structure Agree (rule : Validate.RuleKeys) (info info' : Validate.FileInfo) : Prop where
  effectiveType : info.effectiveType = info'.effectiveType
  extension : info.extension = info'.extension
  isExecutable : info.isExecutable = info'.isExecutable
  verdict : ∀ (host : Validate.Host) (checkName : Option (Bool × Validate.Checker))
    (site : Validate.Site) (ctx : Validate.Ctx) (p p' : ℕ),
    verdict host rule checkName site ctx p info = verdict host rule checkName site ctx p' info'

/-- With the same size limit in force, it is the effective type that decides. -/
theorem agree_iff {rule : Validate.RuleKeys} {info : Validate.FileInfo} {cap : ℕ} {type : String}
    (h : ∀ m, rule.maxBytes = some m → min m info.cap = min m cap) :
    Agree rule info { info with cap := cap, effectiveType := type } ↔
      info.effectiveType = type := by
  constructor
  · intro hagree
    exact hagree.effectiveType
  · rintro rfl
    exact ⟨rfl, rfl, rfl, fun host checkName site ctx p p' =>
      verdict_cap host rule checkName site ctx p p' cap info h⟩

theorem spool_eq_ok {disk : Disk} {cap : ℕ} {chunks : List (List UInt8)}
    {filename declared : Option String} {info : FileInfo}
    (h : spool disk cap chunks filename declared = .ok info) :
    ∃ s, Spools s cap chunks.flatten ∧ info = s.finish filename declared := by
  unfold spool at h
  split at h
  · rename_i s hs
    cases h
    exact ⟨s, spools_of_pushAll hs, rfl⟩
  · cases h

/-- The same bytes under the same name differ in the cap and in the effective type only. -/
theorem finish_read {s s' : Spooler} {cap cap' : ℕ} {seen : List UInt8} (h : Spools s cap seen)
    (h' : Spools s' cap' seen) (filename declared declared' : Option String) :
    (s'.finish filename declared').read =
      { (s.finish filename declared).read with
        cap := cap', effectiveType := effectiveType (seen.take sniffBytes) declared' } := by
  have hutf8 : s.utf8.finish = s'.utf8.finish :=
    Bool.eq_iff_iff.mpr (h.utf8.finish.trans h'.utf8.finish.symm)
  have heffective := finish_effectiveType s' filename declared'
  rw [h'.head] at heffective
  unfold FileInfo.read
  rw [heffective]
  simp only [Spooler.finish, FileInfo.isExecutable, h.head, h'.head, h.size, h'.size, h'.cap_eq,
    hutf8]

theorem ofList_ne_empty {name : List Char} (h : name ≠ []) : String.ofList name ≠ "" := by
  intro heq
  exact h (by simpa using congrArg String.toList heq)

/-- A named part of a declared field is spooled as it was sent. -/
theorem readFile_eq_file {disk : Disk} {schema : Validate.SchemaDef} {limits : Validate.Limits}
    {index p : ℕ} {name contentType : String} {filename : List Char}
    {chunks : List (List UInt8)} {info : Validate.FileInfo} (hname : filename ≠ [])
    (h : Validate.readFile schema limits (uploads disk) index name (.ofList filename)
      ⟨some name, some (.ofList filename), some contentType, chunks, true⟩ =
        .ok (some (.file p info))) :
    ∃ s, Spools s (min ((schema.fileMaxBytes name).getD limits.maxFileBytes) limits.maxFileBytes)
        chunks.flatten ∧
      info = (s.finish (some (.ofList filename)) (some contentType)).read := by
  have hne := ofList_ne_empty hname
  unfold Validate.readFile at h
  simp only [Bool.not_true, Bool.false_eq_true, if_false, hne, false_and, uploads, Except.map] at h
  cases hspool : spool disk
      (min ((schema.fileMaxBytes name).getD limits.maxFileBytes) limits.maxFileBytes) chunks
      (some (.ofList filename)) (some contentType) with
  | error fault =>
      rw [hspool] at h
      cases h
  | ok found =>
      rw [hspool] at h
      obtain ⟨s, hs, rfl⟩ := spool_eq_ok hspool
      cases h
      exact ⟨s, hs, rfl⟩

/-- A raw body is spooled under its name, the declared type normalized. -/
theorem readRaw_eq_ok {disk : Disk} {limits : Validate.Limits} {contentType : String}
    {filename : List Char} {chunks : List (List UInt8)} {info : FileInfo} (hname : filename ≠ [])
    (hplain : ∀ c ∈ filename, plainChar c = true)
    (h : readRaw limits disk
      ⟨some contentType, some (.ofList (attachment filename)), chunks⟩ = .ok info) :
    ∃ s, Spools s limits.maxFileBytes chunks.flatten ∧
      info = s.finish (some (.ofList filename))
        ((rawDeclared contentType.toList).map String.ofList) := by
  unfold readRaw at h
  simp only [Option.bind_some, String.toList_ofList, toStr_attachment hplain,
    dispositionFilename_attachment hname hplain, Option.map_some] at h
  exact spool_eq_ok h

/-- A file part and a raw body of the same bytes, name and `Content-Type` agree exactly where
the type comes out the same. -/
theorem routes_agree_iff (disk disk' : Disk) (schema : Validate.SchemaDef)
    (limits : Validate.Limits) (name contentType : String) (filename : List Char)
    (rule : Validate.Rule) (index : ℕ) (chunks chunks' : List (List UInt8))
    (p : ℕ) (info : Validate.FileInfo) (info' : FileInfo)
    (hrule : schema.rule name = some rule) (hkind : rule.kind = .file)
    (hname : filename ≠ []) (hplain : ∀ c ∈ filename, plainChar c = true)
    (hbytes : chunks.flatten = chunks'.flatten)
    (hpart : Validate.readFile schema limits (uploads disk) index name (.ofList filename)
      ⟨some name, some (.ofList filename), some contentType, chunks, true⟩ =
        .ok (some (.file p info)))
    (hraw : readRaw limits disk'
      ⟨some contentType, some (.ofList (attachment filename)), chunks'⟩ = .ok info') :
    Agree rule.toRuleKeys info info'.read ↔
      SameType contentType (chunks.flatten.take sniffBytes) := by
  obtain ⟨s, hs, rfl⟩ := readFile_eq_file hname hpart
  obtain ⟨s', hs', rfl⟩ := readRaw_eq_ok hname hplain hraw
  rw [← hbytes] at hs'
  have hread := finish_read hs hs' (some (.ofList filename)) (some contentType)
    ((rawDeclared contentType.toList).map String.ofList)
  have htype : ((s.finish (some (.ofList filename)) (some contentType)).read).effectiveType =
      effectiveType (chunks.flatten.take sniffBytes) (some contentType) := by
    rw [← hs.head]
    exact finish_effectiveType s _ _
  have hcap : (s.finish (some (.ofList filename)) (some contentType)).read.cap =
      min ((schema.fileMaxBytes name).getD limits.maxFileBytes) limits.maxFileBytes := hs.cap_eq
  rw [hread, ← effectiveType_eq_iff, ← htype]
  refine agree_iff fun m hm => ?_
  have hmax : schema.fileMaxBytes name = some m := by
    simp [Validate.SchemaDef.fileMaxBytes, hrule, hkind, hm]
  rw [hcap, hmax, Option.getD_some]
  omega

/-- A rule for comma-separated values. -/
def csvRule : Validate.Rule :=
  .ofKeys { anyText with file := anyText.file.map fun f => { f with types := [.exact "text/csv"] } }

def csvSchema : Validate.SchemaDef := ⟨[("doc", csvRule)], {}⟩

def csvLimits : Validate.Limits := ⟨10, 1000, 1000⟩

/-- `a,b` and a line end. -/
def csvChunks : List (List UInt8) := [[0x61, 0x2C], [0x62, 0x0A]]

def csvSpool (cap : ℕ) : Spooler :=
  ⟨[0x61, 0x2C, 0x62, 0x0A], cap, 4, [0x61, 0x2C, 0x62, 0x0A], ⟨true, []⟩⟩

/-- The part as a form sends it. -/
def csvPart (contentType : String) : Except Validate.Fault (Option Validate.TextValue) :=
  Validate.readFile csvSchema csvLimits (uploads roomy) 1 "doc" (.ofList "t.csv".toList)
    ⟨some "doc", some (.ofList "t.csv".toList), some contentType, csvChunks, true⟩

/-- The raw body, in one chunk. -/
def csvBody (contentType : String) : Except Validate.Fault FileInfo :=
  readRaw csvLimits roomy
    ⟨some contentType, some (.ofList (attachment "t.csv".toList)), [csvChunks.flatten]⟩

theorem csvPart_eq (contentType : String) :
    csvPart contentType = .ok (some (.file 1
      ((csvSpool 100).finish (some (.ofList "t.csv".toList)) (some contentType)).read)) := by
  have hrun : (Spooler.create 100).pushAll roomy csvChunks = .ok (csvSpool 100) := by
    decide +kernel
  have hcap : min ((csvSchema.fileMaxBytes "doc").getD csvLimits.maxFileBytes)
      csvLimits.maxFileBytes = 100 := by rfl
  have hne : String.ofList "t.csv".toList ≠ "" := ofList_ne_empty (by decide)
  unfold csvPart Validate.readFile
  simp only [hcap, uploads, spool, hrun, hne]
  rfl

theorem routes_agree_csv :
    ∃ info info', csvPart "text/csv" = .ok (some (.file 1 info)) ∧
      csvBody "text/csv" = .ok info' ∧
      (Agree csvRule.toRuleKeys info info'.read ↔
        SameType "text/csv" (csvChunks.flatten.take sniffBytes)) := by
  have hbody : csvBody "text/csv" =
      .ok ((csvSpool 1000).finish (some "t.csv") (some "text/csv")) := by
    decide +kernel
  have hplain : "t.csv".toList.all plainChar = true := by decide
  exact ⟨_, _, csvPart_eq _, hbody, routes_agree_iff roomy roomy csvSchema csvLimits "doc" "text/csv"
    "t.csv".toList csvRule 1 csvChunks [csvChunks.flatten] 1 _ _ rfl rfl (by decide)
    (List.all_eq_true.mp hplain) (by decide) (csvPart_eq _) hbody⟩

theorem csv_parameters_differ :
    ∃ info info', csvPart "text/csv; charset=utf-8" = .ok (some (.file 1 info)) ∧
      csvBody "text/csv; charset=utf-8" = .ok info' ∧
      info.effectiveType = "text/plain" ∧ info'.read.effectiveType = "text/csv" ∧
      ¬Agree csvRule.toRuleKeys info info'.read := by
  have hbody : csvBody "text/csv; charset=utf-8" =
      .ok ((csvSpool 1000).finish (some "t.csv") (some "text/csv")) := by
    decide +kernel
  have hpart : ((csvSpool 100).finish (some (.ofList "t.csv".toList))
      (some "text/csv; charset=utf-8")).effectiveType = "text/plain" := by decide +kernel
  have hraw : ((csvSpool 1000).finish (some "t.csv") (some "text/csv")).effectiveType =
      "text/csv" := by decide +kernel
  refine ⟨_, _, csvPart_eq _, hbody, hpart, hraw, fun hagree => ?_⟩
  have htypes : "text/plain" = "text/csv" := hpart.symm.trans (hagree.effectiveType.trans hraw)
  exact absurd htypes (by decide)

end Nitr.Spool
