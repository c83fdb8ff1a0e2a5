import Nitr.Media.Sniff

/-! # Image dimensions

`media/dimensions.rs`: width and height from the header alone, `none` where the first bytes
do not carry them. -/

namespace Nitr.Media

def png (head : List UInt8) : Option (ℕ × ℕ) :=
  if occursAt head 12 (bytes "IHDR") then do
    let w ← be32 head 16
    let h ← be32 head 20
    some (w, h)
  else none

def gif (head : List UInt8) : Option (ℕ × ℕ) := do
  let w ← le16 head 6
  let h ← le16 head 8
  some (w, h)

/-- The magnitude of 32 bits read as a signed number. -/
def unsignedAbs (n : ℕ) : ℕ := if n < 2 ^ 31 then n else 2 ^ 32 - n

def bmp (head : List UInt8) : Option (ℕ × ℕ) := do
  let header ← le32 head 14
  if header = 12 then
    let w ← le16 head 18
    let h ← le16 head 20
    some (w, h)
  else
    let w ← le32 head 18
    let h ← le32 head 22
    -- The height is negative where the rows run top-down.
    some (w, unsignedAbs h)

/-- Markers without a length. -/
def standalone (marker : ℕ) : Bool :=
  marker = 0xD8 || marker = 0x01 || (0xD0 ≤ marker && marker ≤ 0xD7)

/-- The `SOFn` markers. -/
def startOfFrame (marker : ℕ) : Bool :=
  0xC0 ≤ marker && marker ≤ 0xCF && !([0xC4, 0xC8, 0xCC].contains marker)

/-- The walk over the segments; every round moves on, so the bytes are rounds enough. -/
def jpegFrom (head : List UInt8) : ℕ → ℕ → Option (ℕ × ℕ)
  | 0, _ => none
  | rounds + 1, pos =>
      if head.length < pos + 9 then none
      else if head.getD pos 0 ≠ 0xFF then none
      else
        let marker := (head.getD (pos + 1) 0).toNat
        if marker = 0xFF then jpegFrom head rounds (pos + 1)
        else if standalone marker then jpegFrom head rounds (pos + 2)
        else
          let len := (be16 head (pos + 2)).getD 0
          if startOfFrame marker then do
            let h ← be16 head (pos + 5)
            let w ← be16 head (pos + 7)
            some (w, h)
          else if marker = 0xDA || len < 2 then none
          else jpegFrom head rounds (pos + 2 + len)

def jpeg (head : List UInt8) : Option (ℕ × ℕ) := jpegFrom head head.length 2

def le24 (head : List UInt8) (i : ℕ) : Option ℕ :=
  match head.drop i with
  | a :: b :: c :: _ => some (a.toNat + (b.toNat + c.toNat * 256) * 256)
  | _ => none

def webp (head : List UInt8) : Option (ℕ × ℕ) :=
  if occursAt head 12 (bytes "VP8 ") then
    if occursAt head 23 (bytes "\x9d\x01\x2a") then do
      let w ← le16 head 26
      let h ← le16 head 28
      some (w % 0x4000, h % 0x4000)
    else none
  else if occursAt head 12 (bytes "VP8L") then
    if head[20]? = some 0x2F then do
      let bits ← le32 head 21
      some (bits % 0x4000 + 1, bits / 0x4000 % 0x4000 + 1)
    else none
  else if occursAt head 12 (bytes "VP8X") then do
    let w ← le24 head 24
    let h ← le24 head 27
    some (w + 1, h + 1)
  else none

/-- The entries of a TIFF directory, the last width and height in them. -/
def tiffEntries (rd16 rd32 : ℕ → Option ℕ) (ifd : ℕ) :
    List ℕ → Option ℕ × Option ℕ → Option (Option ℕ × Option ℕ)
  | [], found => some found
  | i :: rest, (w, h) => do
      let entry := ifd + 2 + i * 12
      let tag ← rd16 entry
      let kind ← rd16 (entry + 2)
      let value ← if kind = 3 then rd16 (entry + 8) else rd32 (entry + 8)
      tiffEntries rd16 rd32 ifd rest
        (if tag = 256 then (some value, h) else if tag = 257 then (w, some value) else (w, h))

def tiff (head : List UInt8) : Option (ℕ × ℕ) := do
  let little := starts head (bytes "II")
  let rd16 := fun i => if little then le16 head i else be16 head i
  let rd32 := fun i => if little then le32 head i else be32 head i
  let ifd ← rd32 4
  let count ← rd16 ifd
  let found ← tiffEntries rd16 rd32 ifd (List.range (min count 64)) (none, none)
  let w ← found.1
  let h ← found.2
  some (w, h)

/-- Header-only image dimensions. -/
def dimensions (media : MediaType) (head : List UInt8) : Option (ℕ × ℕ) :=
  if media.name = "image/png" then png head
  else if media.name = "image/gif" then gif head
  else if media.name = "image/bmp" then bmp head
  else if media.name = "image/jpeg" then jpeg head
  else if media.name = "image/webp" then webp head
  else if media.name = "image/tiff" then tiff head
  else none

end Nitr.Media
