import Nitr.Lib.Machine
import Nitr.Media.Dimensions

/-! # The header parsers over machine words

`media/sniff.rs` and `media/dimensions.rs` with the arithmetic on `usize`, the indexing and
the slicing as the code has them. Values of 16 and 32 bits from a header are numbers; they fit
an address of either size. -/

namespace Nitr.Media.Words

open Machine

/-! ## Signatures -/

def starts (head magic : List UInt8) : Checked Bool :=
  if magic.length ≤ head.length then do
    let front ← slice head 0 magic.length
    pure (front == magic)
  else pure false

section

variable (w : Usize)

def occursAt (head : List UInt8) (offset : ℕ) (magic : List UInt8) : Checked Bool := do
  let stop ← w.add offset magic.length
  if stop ≤ head.length then
    let stop ← w.add offset magic.length
    let part ← slice head offset stop
    pure (part == magic)
  else pure false

/-- The `ftyp` brand of an ISO base media file. -/
def ftypBrand (head : List UInt8) : Checked (Option (List UInt8)) := do
  let marked ← occursAt w head 4 (bytes "ftyp")
  if marked && decide (12 ≤ head.length) then
    let brand ← slice head 8 12
    pure (some brand)
  else pure none

/-! ## ZIP containers -/

def u16At (head : List UInt8) (pos i : ℕ) : Checked ℕ := do
  let low ← w.add pos i
  let a ← index head low
  let high ← w.add low 1
  let b ← index head high
  pure (a.toNat + b.toNat * 256)

def u32At (head : List UInt8) (pos i : ℕ) : Checked ℕ := do
  let first ← w.add pos i
  let a ← index head first
  let second ← w.add first 1
  let b ← index head second
  let third ← w.add first 2
  let c ← index head third
  let fourth ← w.add first 3
  let d ← index head fourth
  pure (a.toNat + (b.toNat + (c.toNat + d.toNat * 256) * 256) * 256)

/-- The names found and the offset of the next local header. -/
abbrev ZipState : Type := List (List UInt8) × ℕ

/-- One local header that the prefix holds to the end of its fields. -/
def zipHeader (head : List UInt8) (names : List (List UInt8)) (pos : ℕ) :
    Checked (Flow ZipState (List (List UInt8))) := do
  let flags ← u16At w head pos 6
  let csize ← u32At w head pos 18
  let nlen ← u16At w head pos 26
  let xlen ← u16At w head pos 28
  let nameStart ← w.add pos 30
  match w.checkedAdd nameStart nlen with
  | none => pure (.stop names)
  | some nameEnd =>
      if head.length < nameEnd then pure (.stop names)
      else
        let name ← slice head nameStart nameEnd
        -- Sizes deferred to a data descriptor cannot be skipped.
        if flags / 8 % 2 = 1 then pure (.stop (names ++ [name]))
        else
          match (w.checkedAdd nameEnd xlen).bind fun n => w.checkedAdd n csize with
          | none => pure (.stop (names ++ [name]))
          | some next => pure (.next (names ++ [name], next))

def zipRound (head : List UInt8) : ZipState → Checked (Flow ZipState (List (List UInt8)))
  | (names, pos) => do
    if names.length < 8 then
      let bound ← w.add pos 30
      if bound ≤ head.length then
        let signed ← occursAt w head pos (bytes "PK\x03\x04")
        if signed then zipHeader w head names pos else pure (.stop names)
      else pure (.stop names)
    else pure (.stop names)

def zipEntryNames (rounds : ℕ) (head : List UInt8) : Checked (List (List UInt8)) :=
  loop (zipRound w head) rounds ([], 0)

/-- The first of the types that the bytes start with the name of. -/
def firstEntry (body : List UInt8) : List String → Checked (Option MediaType)
  | [] => pure none
  | candidate :: rest => do
      let found ← starts body (bytes candidate)
      if found then
        match lookup candidate with
        | some media => pure (some media)
        | none => firstEntry body rest
      else firstEntry body rest

/-- The type that an office document's names tell, if they are of one. -/
def officeType (names : List (List UInt8)) : Option MediaType :=
  let has := fun needle => names.any fun n => Media.starts n (bytes needle)
  if names.contains (bytes "[Content_Types].xml") || has "_rels/" then
    lookup (if has "word/" then
        "application/vnd.openxmlformats-officedocument.wordprocessingml.document"
      else if has "xl/" then "application/vnd.openxmlformats-officedocument.spreadsheetml.sheet"
      else if has "ppt/" then
        "application/vnd.openxmlformats-officedocument.presentationml.presentation"
      else "application/zip")
  else none

def declaredType (head first : List UInt8) : Checked (Option MediaType) :=
  if first = bytes "mimetype" then do
    let start ← w.add 30 first.length
    let body ← slice head (min start head.length) head.length
    firstEntry body mimetypeEntries
  else pure none

def zipKind (rounds : ℕ) (head : List UInt8) : Checked MediaType := do
  let names ← zipEntryNames w rounds head
  let declared ← declaredType w head (names.head?.getD [])
  match declared with
  | some media => pure media
  | none =>
      match officeType names with
      | some media => pure media
      | none => expect (lookup "application/zip")

end

/-! ## Text and executables -/

def isText (head : List UInt8) : Checked Bool :=
  let body := unmarked head
  let plain := fun part => !(Validate.LuaString.lossyChars part).any strayControl
  if head.isEmpty then pure true
  else
    match Utf8.fromUtf8 body with
    | .ok () => pure (plain body)
    | .error ⟨validUpTo, none⟩ =>
        if 0 < validUpTo then do
          let valid ← slice body 0 validUpTo
          match Utf8.fromUtf8 valid with
          | .ok () => pure (plain valid)
          | .error _ => pure false
        else pure false
    | .error ⟨_, some _⟩ => pure false

def isExecutable (head : List UInt8) : Checked Bool := do
  let mz ← starts head (bytes "MZ")
  let elf ← starts head (bytes "\x7fELF")
  let script ← starts head (bytes "#!")
  let java ← starts head (bytes "\xCA\xFE\xBA\xBE")
  if mz || elf || script || java then pure true
  else if 4 ≤ head.length then
    let a ← index head 0
    let b ← index head 1
    let c ← index head 2
    let d ← index head 3
    let magic := ((a.toNat * 256 + b.toNat) * 256 + c.toNat) * 256 + d.toNat
    pure ([0xFEEDFACE, 0xFEEDFACF, 0xCEFAEDFE, 0xCFFAEDFE].contains magic)
  else pure false

/-! ## Detection -/

def firstSignature (head : List UInt8) : List (List UInt8 × String) → Checked (Option String)
  | [] => pure none
  | (magic, name) :: rest => do
      let found ← starts head magic
      if found then pure (some name) else firstSignature head rest

def audioFrame (head : List UInt8) : Checked (Option String) :=
  if 2 ≤ head.length then do
    let first ← index head 0
    if first = 0xFF then
      let second ← index head 1
      if second &&& 0xF6 = 0xF0 then pure (some "audio/aac")
      else if second &&& 0xE0 = 0xE0 ∧ second < 0xFE then pure (some "audio/mpeg")
      else pure none
    else pure none
  else pure none

/-- A known version of the header of a bitmap. -/
def bmpHeader (head : List UInt8) : Checked Bool :=
  match getRange head 14 18 with
  | none => pure false
  | some b => do
      let b0 ← index b 0
      let b1 ← index b 1
      let b2 ← index b 2
      let b3 ← index b 3
      let header := b0.toNat + (b1.toNat + (b2.toNat + b3.toNat * 256) * 256) * 256
      pure ([12, 40, 52, 56, 108, 124].contains header)

def isBitmap (head : List UInt8) : Checked Bool := do
  let bm ← starts head (bytes "BM")
  if bm then bmpHeader head else pure false

section

variable (w : Usize)

def riffType (head : List UInt8) : Checked (Option String) := do
  let riff ← starts head (bytes "RIFF")
  if riff then
    let image ← occursAt w head 8 (bytes "WEBP")
    if image then pure (some "image/webp")
    else
      let audio ← occursAt w head 8 (bytes "WAVE")
      if audio then pure (some "audio/wav")
      else
        let video ← occursAt w head 8 (bytes "AVI ")
        pure (if video then some "video/x-msvideo" else none)
  else pure none

/-- The end of detection: audio frames, Matroska and text. -/
def detectRest (head : List UInt8) : Checked Detection := do
  let audio ← audioFrame head
  match audio with
  | some name => pure (hit name)
  | none =>
      let matroska ← starts head (bytes "\x1A\x45\xDF\xA3")
      if matroska then
        pure (hit (if (windows head).contains (bytes "webm") then "video/webm"
          else "video/x-matroska"))
      else
        let text ← isText head
        pure (if text then .text else .unknown)

/-- Detection from the bitmaps on. -/
def detectLate (rounds : ℕ) (head : List UInt8) : Checked Detection := do
  let bitmap ← isBitmap head
  if bitmap then pure (hit "image/bmp")
  else
    let zip ← starts head (bytes "PK\x03\x04")
    if zip then
      let media ← zipKind w rounds head
      pure (.detected media)
    else
      let tar ← occursAt w head 257 (bytes "ustar")
      if tar then pure (hit "application/x-tar") else detectRest head

/-- Sniffs the prefix. -/
def detect (rounds : ℕ) (head : List UInt8) : Checked Detection := do
  let executable ← isExecutable head
  if executable then pure .executable
  else
    let signature ← firstSignature head signatures
    match signature with
    | some name => pure (hit name)
    | none =>
        let riff ← riffType w head
        match riff with
        | some name => pure (hit name)
        | none =>
            let iso ← occursAt w head 4 (bytes "ftyp")
            if iso && decide (head.length < 12) then pure .unknown
            else
              let brand ← ftypBrand w head
              match brand with
              | some brand => pure (hit (brandType brand))
              | none => detectLate w rounds head

end

/-! ## Declared subtypes -/

def textSubtypeMatches (declared : String) (head : List UInt8) : Checked Bool :=
  let body := unmarked head
  let first := body.find? fun b => !isAsciiWhitespace b
  if declared = "application/json" then pure (first = some 0x7B || first = some 0x5B)
  else if declared ∈ ["application/xml", "text/xml", "text/html"] then pure (first = some 0x3C)
  else if declared = "image/svg+xml" then do
    let part ← slice body 0 (min body.length 4096)
    pure (svgText part)
  else pure true

/-! ## Dimensions -/

section

variable (w : Usize)

def be16 (head : List UInt8) (i : ℕ) : Checked (Option ℕ) := do
  let stop ← w.add i 2
  match getRange head i stop with
  | none => pure none
  | some b =>
      let b0 ← index b 0
      let b1 ← index b 1
      pure (some (b0.toNat * 256 + b1.toNat))

def be32 (head : List UInt8) (i : ℕ) : Checked (Option ℕ) := do
  let stop ← w.add i 4
  match getRange head i stop with
  | none => pure none
  | some b =>
      let b0 ← index b 0
      let b1 ← index b 1
      let b2 ← index b 2
      let b3 ← index b 3
      pure (some (((b0.toNat * 256 + b1.toNat) * 256 + b2.toNat) * 256 + b3.toNat))

def le16 (head : List UInt8) (i : ℕ) : Checked (Option ℕ) := do
  let stop ← w.add i 2
  match getRange head i stop with
  | none => pure none
  | some b =>
      let b0 ← index b 0
      let b1 ← index b 1
      pure (some (b0.toNat + b1.toNat * 256))

def le32 (head : List UInt8) (i : ℕ) : Checked (Option ℕ) := do
  let stop ← w.add i 4
  match getRange head i stop with
  | none => pure none
  | some b =>
      let b0 ← index b 0
      let b1 ← index b 1
      let b2 ← index b 2
      let b3 ← index b 3
      pure (some (b0.toNat + (b1.toNat + (b2.toNat + b3.toNat * 256) * 256) * 256))

/-- Two fields, the second read where there is the first. -/
def both (first second : Checked (Option ℕ)) : Checked (Option (ℕ × ℕ)) := do
  match ← first with
  | none => pure none
  | some a =>
      match ← second with
      | none => pure none
      | some b => pure (some (a, b))

def png (head : List UInt8) : Checked (Option (ℕ × ℕ)) := do
  let marked ← occursAt w head 12 (bytes "IHDR")
  if marked then both (be32 w head 16) (be32 w head 20) else pure none

def gif (head : List UInt8) : Checked (Option (ℕ × ℕ)) := both (le16 w head 6) (le16 w head 8)

def bmp (head : List UInt8) : Checked (Option (ℕ × ℕ)) := do
  match ← le32 w head 14 with
  | none => pure none
  | some header =>
      if header = 12 then both (le16 w head 18) (le16 w head 20)
      else
        -- The height is negative where the rows run top-down.
        let found ← both (le32 w head 18) (le32 w head 22)
        pure (found.map fun size => (size.1, unsignedAbs size.2))

def jpegRound (head : List UInt8) (pos : ℕ) : Checked (Flow ℕ (Option (ℕ × ℕ))) := do
  let bound ← w.add pos 9
  if bound ≤ head.length then
    let lead ← index head pos
    if lead ≠ 0xFF then pure (.stop none)
    else
      let i ← w.add pos 1
      let b ← index head i
      let marker := b.toNat
      if marker = 0xFF then
        let next ← w.add pos 1
        pure (.next next)
      else if standalone marker then
        let next ← w.add pos 2
        pure (.next next)
      else
        let i ← w.add pos 2
        let high ← index head i
        let i ← w.add pos 3
        let low ← index head i
        let len := high.toNat * 256 + low.toNat
        if startOfFrame marker then
          let i ← w.add pos 5
          match ← be16 w head i with
          | none => pure (.stop none)
          | some h =>
              let i ← w.add pos 7
              match ← be16 w head i with
              | none => pure (.stop none)
              | some width => pure (.stop (some (width, h)))
        else if marker = 0xDA || len < 2 then pure (.stop none)
        else
          let step ← w.add 2 len
          let next ← w.add pos step
          pure (.next next)
  else pure (.stop none)

/-- Walks the segments to the first `SOFn` marker. -/
def jpeg (rounds : ℕ) (head : List UInt8) : Checked (Option (ℕ × ℕ)) :=
  loop (jpegRound w head) rounds 2

def u24 (head : List UInt8) (i : ℕ) : Checked (Option ℕ) := do
  match head[i]? with
  | none => pure none
  | some a =>
      let second ← w.add i 1
      match head[second]? with
      | none => pure none
      | some b =>
          let third ← w.add i 2
          match head[third]? with
          | none => pure none
          | some c => pure (some (a.toNat + (b.toNat + c.toNat * 256) * 256))

/-- A size that is stored as one less, of 32 bits. -/
def oneMore (n : ℕ) : Checked ℕ := addBelow (2 ^ 32) n 1

def webp (head : List UInt8) : Checked (Option (ℕ × ℕ)) :=
  match getRange head 12 16 with
  | none => pure none
  | some tag =>
      if tag = bytes "VP8 " then do
        let coded ← occursAt w head 23 (bytes "\x9d\x01\x2a")
        if coded then
          let found ← both (le16 w head 26) (le16 w head 28)
          pure (found.map fun size => (size.1 % 0x4000, size.2 % 0x4000))
        else pure none
      else if tag = bytes "VP8L" then
        if head[20]? = some 0x2F then do
          match ← le32 w head 21 with
          | none => pure none
          | some bits =>
              let width ← oneMore (bits % 0x4000)
              let height ← oneMore (bits / 0x4000 % 0x4000)
              pure (some (width, height))
        else pure none
      else if tag = bytes "VP8X" then do
        match ← u24 w head 24 with
        | none => pure none
        | some n =>
            let width ← oneMore n
            match ← u24 w head 27 with
            | none => pure none
            | some n =>
                let height ← oneMore n
                pure (some (width, height))
      else pure none

/-- One entry of a directory: its tag and its value. -/
def tiffEntry (rd16 rd32 : ℕ → Checked (Option ℕ)) (ifd i : ℕ) : Checked (Option (ℕ × ℕ)) := do
  let base ← w.add ifd 2
  let skip ← w.mul i 12
  let entry ← w.add base skip
  match ← rd16 entry with
  | none => pure none
  | some tag =>
      let at2 ← w.add entry 2
      match ← rd16 at2 with
      | none => pure none
      | some kind =>
          let at8 ← w.add entry 8
          match ← (if kind = 3 then rd16 at8 else rd32 at8) with
          | none => pure none
          | some value => pure (some (tag, value))

/-- The last width and height in the entries. -/
def tiffEntries (rd16 rd32 : ℕ → Checked (Option ℕ)) (ifd : ℕ) :
    List ℕ → Option ℕ × Option ℕ → Checked (Option (Option ℕ × Option ℕ))
  | [], found => pure (some found)
  | i :: rest, (width, height) => do
      match ← tiffEntry w rd16 rd32 ifd i with
      | none => pure none
      | some (tag, value) =>
          tiffEntries rd16 rd32 ifd rest
            (if tag = 256 then (some value, height)
              else if tag = 257 then (width, some value) else (width, height))

def tiff (head : List UInt8) : Checked (Option (ℕ × ℕ)) := do
  let little := Media.starts head (bytes "II")
  let rd16 := fun i => if little then le16 w head i else be16 w head i
  let rd32 := fun i => if little then le32 w head i else be32 w head i
  match ← rd32 4 with
  | none => pure none
  | some ifd =>
      match ← rd16 ifd with
      | none => pure none
      | some count =>
          match ← tiffEntries w rd16 rd32 ifd (List.range (min count 64)) (none, none) with
          | some (some width, some height) => pure (some (width, height))
          | _ => pure none

/-- Header-only image dimensions. -/
def dimensions (rounds : ℕ) (media : MediaType) (head : List UInt8) :
    Checked (Option (ℕ × ℕ)) :=
  if media.name = "image/png" then png w head
  else if media.name = "image/gif" then gif w head
  else if media.name = "image/bmp" then bmp w head
  else if media.name = "image/jpeg" then jpeg w rounds head
  else if media.name = "image/webp" then webp w head
  else if media.name = "image/tiff" then tiff w head
  else pure none

end

end Nitr.Media.Words
