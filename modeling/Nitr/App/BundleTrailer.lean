import Nitr.Lib.LittleEndian

/-! # The archive appended to an executable

`build` writes the executable, the archive, the length of the archive and a magic word;
`read_appended` finds the archive from the end. -/

namespace Nitr.App.BundleTrailer

open LittleEndian

/-- `NITRBNDL`. -/
def MAGIC : List UInt8 := [78, 73, 84, 82, 66, 78, 68, 76]

/-- The length of the archive in eight bytes, and the magic. -/
def TRAILER : ℕ := 16

inductive ReadError where
  /-- `the appended application archive is corrupt (bad length)` -/
  | corrupt
deriving DecidableEq

/-- `read_appended`. -/
def readAppended (file : List UInt8) : Except ReadError (Option (List UInt8)) :=
  if file.length < TRAILER then .ok none
  else
    let trailer := file.drop (file.length - TRAILER)
    if trailer.drop 8 ≠ MAGIC then .ok none
    else
      let tarLen := decode (trailer.take 8)
      if tarLen = 0 ∨ file.length - TRAILER < tarLen then .error .corrupt
      else .ok (some ((file.drop (file.length - (TRAILER + tarLen))).take tarLen))

inductive BuildError where
  | read (err : ReadError)
  /-- `this executable already carries a bundle` -/
  | bundled
deriving DecidableEq

/-- What `build` writes, given the archive it made. -/
def build (exe tar : List UInt8) : Except BuildError (List UInt8) :=
  match readAppended exe with
  | .error err => .error (.read err)
  | .ok (some _) => .error .bundled
  | .ok none => .ok (exe ++ tar ++ encode 8 tar.length ++ MAGIC)

variable {file tar exe : List UInt8}

theorem readAppended_append {length : List UInt8} (hlength : length.length = 8) :
    readAppended (file ++ length ++ MAGIC) =
      if decode length = 0 ∨ file.length < decode length then .error .corrupt
      else .ok (some (file.drop (file.length - decode length))) := by
  have htotal : (file ++ length ++ MAGIC).length = file.length + TRAILER := by
    simp [hlength, MAGIC, TRAILER]
  have htrailer : (file ++ length ++ MAGIC).drop (file.length + TRAILER - TRAILER) =
      length ++ MAGIC := by
    rw [Nat.add_sub_cancel, List.append_assoc, List.drop_left]
  unfold readAppended
  simp only [htotal, htrailer]
  rw [if_neg (by omega), ← hlength, List.drop_left, List.take_left, if_neg (by simp),
    Nat.add_sub_cancel]
  split
  · rfl
  · rename_i hfits
    have hle : decode length ≤ file.length := by omega
    have hstart : file.length + TRAILER - (TRAILER + decode length) =
        file.length - decode length := by omega
    rw [hstart, List.append_assoc, List.drop_append_of_le_length (Nat.sub_le ..),
      List.take_left' (by rw [List.length_drop]; omega)]

/-- A file with a trailer, or one that is read as plain. -/
theorem exists_trailer (file : List UInt8) :
    (∃ body length : List UInt8, length.length = 8 ∧ file = body ++ length ++ MAGIC) ∨
      readAppended file = .ok none := by
  unfold readAppended
  by_cases hshort : file.length < TRAILER
  · rw [if_pos hshort]
    exact .inr rfl
  rw [if_neg hshort]
  by_cases hmagic : (file.drop (file.length - TRAILER)).drop 8 ≠ MAGIC
  · exact .inr (if_pos hmagic)
  refine .inl ⟨file.take (file.length - TRAILER), (file.drop (file.length - TRAILER)).take 8, ?_, ?_⟩
  · rw [List.length_take, List.length_drop]
    unfold TRAILER at hshort ⊢
    omega
  · rw [← Classical.not_not.mp hmagic, List.append_assoc, List.take_append_drop,
      List.take_append_drop]

theorem readAppended_eq_some_iff :
    readAppended file = .ok (some tar) ↔
      tar ≠ [] ∧ tar.length < 256 ^ 8 ∧ ∃ exe, file = exe ++ tar ++ encode 8 tar.length ++ MAGIC := by
  constructor
  · intro h
    obtain ⟨body, length, hlength, rfl⟩ | hplain := exists_trailer file
    · rw [readAppended_append hlength] at h
      split at h
      · cases h
      · rename_i hfits
        cases h
        have hlen : (body.drop (body.length - decode length)).length = decode length := by
          rw [List.length_drop]
          omega
        refine ⟨?_, ?_, body.take (body.length - decode length), ?_⟩
        · rw [← List.length_pos_iff, hlen]
          omega
        · rw [hlen, ← hlength]
          exact decode_lt length
        · rw [List.take_append_drop, hlen, ← hlength, encode_decode]
    · rw [hplain] at h
      cases h
  · rintro ⟨hne, hlt, exe, rfl⟩
    have hpos := List.length_pos_iff.mpr hne
    rw [readAppended_append (length_encode 8 _), decode_encode hlt, if_neg (by
      rw [List.length_append]
      omega), List.length_append, Nat.add_sub_cancel, List.drop_left]

theorem readAppended_eq_none_iff :
    readAppended file = .ok none ↔
      ¬∃ body length : List UInt8, length.length = 8 ∧ file = body ++ length ++ MAGIC := by
  constructor
  · rintro h ⟨body, length, hlength, rfl⟩
    rw [readAppended_append hlength] at h
    split at h
    · cases h
    · cases h
  · intro h
    exact (exists_trailer file).resolve_left h

/-- A file is read as a bundle exactly if it is some executable with a nonempty archive, its
length and the magic word behind; it is read as plain exactly if it has no trailer; and what
`build` wrote is read as the archive it was given, and is not built from again. -/
theorem build_readAppended :
    (readAppended file = .ok (some tar) ↔
      tar ≠ [] ∧ tar.length < 256 ^ 8 ∧
        ∃ exe, file = exe ++ tar ++ encode 8 tar.length ++ MAGIC) ∧
      (readAppended file = .ok none ↔
        ¬∃ body length : List UInt8, length.length = 8 ∧ file = body ++ length ++ MAGIC) ∧
      ∀ exe, tar ≠ [] → tar.length < 256 ^ 8 → build exe tar = .ok file →
        readAppended file = .ok (some tar) ∧ ∀ tar', build file tar' = .error .bundled := by
  refine ⟨readAppended_eq_some_iff, readAppended_eq_none_iff, fun exe hne hlt hbuild => ?_⟩
  have hread : readAppended file = .ok (some tar) := by
    unfold build at hbuild
    split at hbuild
    · cases hbuild
    · cases hbuild
    · cases hbuild
      exact readAppended_eq_some_iff.mpr ⟨hne, hlt, exe, rfl⟩
  refine ⟨hread, fun tar' => ?_⟩
  rw [build, hread]

end Nitr.App.BundleTrailer
