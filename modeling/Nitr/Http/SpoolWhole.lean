import Nitr.Http.Spool
import Nitr.Validate.Revalidate

/-! # Uploads are whole and their chunks do not matter -/

namespace Nitr.Spool

open Nitr.Media Utf8

/-! ## The tracker -/

/-- What a tracker knows of the bytes it was given: whole sequences and the start of one, or
that nothing can make them whole. -/
inductive Tracks : Utf8Tracker → List UInt8 → Prop where
  | good {done carry : List UInt8} (hdone : Whole done) (hcarry : carry = [] ∨ Unfinished carry) :
      Tracks ⟨true, carry⟩ (done ++ carry)
  | bad {carry seen : List UInt8} (hseen : ∀ more, ¬Whole (seen ++ more)) :
      Tracks ⟨false, carry⟩ seen

theorem tracks_new : Tracks .new [] := @Tracks.good [] [] whole_nil (.inl rfl)

theorem Tracks.push {t : Utf8Tracker} {seen : List UInt8} (h : Tracks t seen)
    (chunk : List UInt8) : Tracks (t.push chunk) (seen ++ chunk) := by
  cases h with
  | bad hseen =>
      refine .bad fun more => ?_
      rw [List.append_assoc]
      exact hseen _
  | good hdone hcarry =>
      rename_i done carry
      rw [List.append_assoc]
      simp only [Utf8Tracker.push, if_true]
      split
      · rename_i hok
        have hwhole := hdone.append_iff.mpr (fromUtf8_eq_ok.mp hok)
        simpa using @Tracks.good _ [] hwhole (.inl rfl)
      · rename_i n hcut
        obtain ⟨hfront, htail⟩ := fromUtf8_unfinished hcut
        have hgood := Tracks.good (hdone.append_iff.mpr hfront) (.inr htail)
        rwa [List.append_assoc, List.take_append_drop] at hgood
      · rename_i hwrong
        refine .bad fun more => ?_
        rw [List.append_assoc, hdone.append_iff]
        exact fromUtf8_wrong hwrong more

theorem Tracks.finish {t : Utf8Tracker} {seen : List UInt8} (h : Tracks t seen) :
    t.finish = true ↔ Whole seen := by
  cases h with
  | bad hseen =>
      have hnot := hseen []
      rw [List.append_nil] at hnot
      simp [Utf8Tracker.finish, hnot]
  | good hdone hcarry =>
      rw [hdone.append_iff]
      rcases hcarry with rfl | hcarry
      · simp [Utf8Tracker.finish, whole_nil]
      · have hne : ∀ carry, Unfinished carry → carry ≠ [] := by
          rintro carry hc rfl
          exact hc.not_whole whole_nil
        simp [Utf8Tracker.finish, hne _ hcarry, hcarry.not_whole]

/-! ## One chunk -/

/-- A spooler that was given some bytes. -/
structure Spools (s : Spooler) (cap : ℕ) (seen : List UInt8) : Prop where
  cap_eq : s.cap = cap
  head : s.head = seen.take sniffBytes
  size : s.size = min seen.length (2 ^ 64 - 1)
  utf8 : Tracks s.utf8 seen
  whole : s.size ≤ s.cap → s.file = seen
  capped : s.file.length ≤ s.cap
  stored : s.file.length < 2 ^ 63

theorem spools_create (cap : ℕ) : Spools (.create cap) cap [] :=
  ⟨rfl, rfl, rfl, tracks_new, fun _ => rfl, Nat.zero_le _, by simp [Spooler.create]⟩

section Push

variable {s : Spooler} {cap : ℕ} {seen chunk : List UInt8}

theorem Spools.observe_head (h : Spools s cap seen) :
    (s.observe chunk).head = (seen ++ chunk).take sniffBytes := by
  simp only [Spooler.observe]
  rw [h.head, List.length_take, List.take_append]
  split
  · rename_i hlt
    have hseen : seen.length < sniffBytes := by omega
    rw [Nat.min_eq_right (Nat.le_of_lt hseen), ← List.take_eq_take_min]
  · rename_i hge
    have hseen : sniffBytes - seen.length = 0 := by omega
    rw [hseen, List.take_zero, List.append_nil]

theorem Spools.observe_size (h : Spools s cap seen) :
    (s.observe chunk).size = min (seen ++ chunk).length (2 ^ 64 - 1) := by
  simp only [Spooler.observe, saturatingAdd]
  rw [h.size, List.length_append]
  omega

/-- A spooler that writes has written everything before. -/
theorem Spools.file_eq (h : Spools s cap seen)
    (hsize : (s.observe chunk).size ≤ (s.observe chunk).cap) : s.file = seen := by
  refine h.whole ?_
  have hcap : (s.observe chunk).cap = s.cap := rfl
  rw [h.observe_size, List.length_append, hcap] at hsize
  rw [h.size]
  omega

/-- However much of the chunk is stored. -/
theorem Spools.write_le (h : Spools s cap seen) (disk : Disk)
    (hsize : (s.observe chunk).size ≤ (s.observe chunk).cap) :
    (s.file ++ chunk.take (disk.stores s.file chunk)).length ≤ s.cap := by
  have hbound := disk.bounded s.file chunk h.stored
  have hcap : (s.observe chunk).cap = s.cap := rfl
  have hfile := h.file_eq hsize
  rw [h.observe_size, hcap, ← hfile, List.length_append] at hsize
  rw [List.length_append, List.length_take] at hbound ⊢
  omega

theorem Spools.push {disk : Disk} {s' : Spooler} (h : Spools s cap seen)
    (hpush : s.push disk chunk = .ok s') : Spools s' cap (seen ++ chunk) := by
  unfold Spooler.push at hpush
  simp only at hpush
  split at hpush
  · rename_i hsize
    split at hpush
    · rename_i hall
      cases hpush
      have hstored := disk.bounded s.file chunk h.stored
      have hwrite := h.write_le disk hsize
      have htake : chunk.take (disk.stores s.file chunk) = chunk := List.take_of_length_le hall
      refine ⟨h.cap_eq, h.observe_head, h.observe_size, h.utf8.push chunk, fun _ => ?_, hwrite,
        hstored⟩
      rw [htake, h.file_eq hsize]
    · cases hpush
  · rename_i hsize
    cases hpush
    exact ⟨h.cap_eq, h.observe_head, h.observe_size, h.utf8.push chunk,
      fun hle => absurd hle hsize, h.capped, h.stored⟩

theorem Spools.push_error {disk : Disk} {torn : Spooler} (h : Spools s cap seen)
    (hpush : s.push disk chunk = .error torn) : torn.file.length ≤ cap := by
  unfold Spooler.push at hpush
  simp only at hpush
  split at hpush
  · rename_i hsize
    split at hpush
    · cases hpush
    · cases hpush
      rw [← h.cap_eq]
      exact h.write_le disk hsize
  · cases hpush

end Push

/-! ## A whole upload -/

theorem Spools.pushAll {disk : Disk} {s s' : Spooler} {cap : ℕ} {seen : List UInt8}
    {chunks : List (List UInt8)} (h : Spools s cap seen)
    (hpush : s.pushAll disk chunks = .ok s') : Spools s' cap (seen ++ chunks.flatten) := by
  induction chunks generalizing s seen with
  | nil =>
      cases hpush
      simpa using h
  | cons chunk rest ih =>
      rw [Spooler.pushAll] at hpush
      split at hpush
      · rename_i next hnext
        rw [List.flatten_cons, ← List.append_assoc]
        exact ih (h.push hnext) hpush
      · cases hpush

theorem Spools.pushAll_error {disk : Disk} {s torn : Spooler} {cap : ℕ} {seen : List UInt8}
    {chunks : List (List UInt8)} (h : Spools s cap seen)
    (hpush : s.pushAll disk chunks = .error torn) : torn.file.length ≤ cap := by
  induction chunks generalizing s seen with
  | nil => cases hpush
  | cons chunk rest ih =>
      rw [Spooler.pushAll] at hpush
      split at hpush
      · rename_i next hnext
        exact ih (h.push hnext) hpush
      · rename_i hnext
        cases hpush
        exact h.push_error hnext

theorem spools_of_pushAll {disk : Disk} {s : Spooler} {cap : ℕ} {chunks : List (List UInt8)}
    (hpush : (Spooler.create cap).pushAll disk chunks = .ok s) :
    Spools s cap chunks.flatten :=
  (spools_create cap).pushAll hpush

/-- The description is a function of the bytes. -/
theorem Spools.finish_eq {s s' : Spooler} {cap : ℕ} {seen : List UInt8} (h : Spools s cap seen)
    (h' : Spools s' cap seen) (filename declared : Option String) :
    s.finish filename declared = s'.finish filename declared := by
  have hutf8 : s.utf8.finish = s'.utf8.finish :=
    Bool.eq_iff_iff.mpr (h.utf8.finish.trans h'.utf8.finish.symm)
  unfold Spooler.finish
  rw [h.head, h'.head, h.size, h'.size, h.cap_eq, h'.cap_eq, hutf8]

theorem Spools.utf8_iff {s : Spooler} {cap : ℕ} {seen : List UInt8} (h : Spools s cap seen)
    (filename declared : Option String) :
    (s.finish filename declared).utf8 = some true ↔ seen.toByteArray.IsValidUTF8 := by
  rw [← fromUtf8_iff_isValidUTF8, fromUtf8_eq_ok, ← h.utf8.finish]
  simp [Spooler.finish]

open Validate in
/-- A file that a rule accepts was not cut short. -/
theorem size_le_of_checkFile {host : Host} {rule : RuleKeys}
    {filename : Option (Bool × Checker)} {p : ℕ} {info : Validate.FileInfo} {site : Site}
    {ctx ctx' : Ctx} {w : Value}
    (h : checkFile host rule filename (.file p info) site ctx = .ok (some w, ctx')) :
    info.size ≤ info.cap := by
  unfold checkFile at h
  cases hfile : rule.file with
  | none =>
      rw [hfile] at h
      cases h
  | some file =>
      cases hmax : rule.maxBytes with
      | none =>
          rw [hfile, hmax] at h
          cases h
      | some maxBytes =>
          rw [hfile, hmax] at h
          obtain ⟨htests, -⟩ := applyTests_eq_some.mp h
          have hfirst := htests _ (List.mem_cons_self ..)
          simp only [decide_eq_false_iff_not] at hfirst
          omega

/-- The description of an upload does not depend on its chunks, its UTF-8 flag is exact, a
spool never holds more than its cap, and a file that is accepted is the whole stream. -/
theorem spooled_whole (disk disk' : Disk) (cap : ℕ) :
    (∀ (chunks chunks' : List (List UInt8)) (s s' : Spooler),
      (Spooler.create cap).pushAll disk chunks = .ok s →
      (Spooler.create cap).pushAll disk' chunks' = .ok s' →
      chunks.flatten = chunks'.flatten →
      ∀ filename declared, s.finish filename declared = s'.finish filename declared) ∧
    (∀ (chunks : List (List UInt8)) (s : Spooler),
      (Spooler.create cap).pushAll disk chunks = .ok s →
      ∀ filename declared, (s.finish filename declared).utf8 = some true ↔
        chunks.flatten.toByteArray.IsValidUTF8) ∧
    (∀ (chunks : List (List UInt8)) (s : Spooler),
      (Spooler.create cap).pushAll disk chunks = .ok s ∨
        (Spooler.create cap).pushAll disk chunks = .error s →
      s.file.length ≤ cap) ∧
    ∀ (chunks : List (List UInt8)) (s : Spooler),
      (Spooler.create cap).pushAll disk chunks = .ok s →
      ∀ (filename declared : Option String) (host : Validate.Host) (rule : Validate.RuleKeys)
        (checkName : Option (Bool × Validate.Checker)) (p : ℕ) (site : Validate.Site)
        (ctx ctx' : Validate.Ctx) (w : Validate.Value),
        Validate.checkFile host rule checkName (.file p (s.finish filename declared).read) site
          ctx = .ok (some w, ctx') →
        s.file = chunks.flatten := by
  refine ⟨?_, ?_, ?_, ?_⟩
  · intro chunks chunks' s s' hs hs' hbytes filename declared
    have h' := spools_of_pushAll hs'
    rw [← hbytes] at h'
    exact (spools_of_pushAll hs).finish_eq h' filename declared
  · intro chunks s hs filename declared
    exact (spools_of_pushAll hs).utf8_iff filename declared
  · rintro chunks s (hs | hs)
    · have h := spools_of_pushAll hs
      rw [← h.cap_eq]
      exact h.capped
    · exact (spools_create cap).pushAll_error hs
  · intro chunks s hs filename declared host rule checkName p site ctx ctx' w haccepted
    exact (spools_of_pushAll hs).whole (size_le_of_checkFile haccepted)

/-- A disk that takes everything it can. -/
def roomy : Disk where
  stores file _ := 2 ^ 63 - 1 - file.length
  bounded file chunk h := by
    rw [List.length_append, List.length_take]
    omega

def anyText : Validate.RuleKeys where
  kind := .file
  maxBytes := some 100
  file := some
    { minBytes := 0, types := [.exact "text/plain"], allowExecutables := false, extensions := [],
      matchExtension := false, minWidth := none, maxWidth := none, minHeight := none,
      maxHeight := none, maxPixels := none, aspect := none, utf8 := true }

/-- A sequence cut between chunks. -/
def cutChunks : List (List UInt8) := [[0x61, 0xC3], [], [0xA9]]

def cutSpool : Spooler := ⟨[0x61, 0xC3, 0xA9], 10, 3, [0x61, 0xC3, 0xA9], ⟨true, []⟩⟩

theorem spooled_whole_cut :
    ∃ s s' : Spooler, (Spooler.create 10).pushAll roomy cutChunks = .ok s ∧
      (Spooler.create 10).pushAll roomy [[0x61], [0xC3, 0xA9]] = .ok s' ∧
      s.finish none none = s'.finish none none ∧
      (∃ w ctx, Validate.checkFile .ascii anyText none (.file 0 (s.finish none none).read)
        ⟨{}, [], ⟨0, .integer 1⟩⟩ ⟨false, 0, [], []⟩ = .ok (some w, ctx)) ∧
      s.file = cutChunks.flatten ∧ s.file.length ≤ 10 ∧
      ((s.finish none none).utf8 = some true ↔ cutChunks.flatten.toByteArray.IsValidUTF8) := by
  have hcut : (Spooler.create 10).pushAll roomy cutChunks = .ok cutSpool := by decide +kernel
  have hother : (Spooler.create 10).pushAll roomy [[0x61], [0xC3, 0xA9]] = .ok cutSpool := by
    decide +kernel
  have haccepted : Validate.checkFile .ascii anyText none
      (.file 0 (cutSpool.finish none none).read) ⟨{}, [], ⟨0, .integer 1⟩⟩ ⟨false, 0, [], []⟩ =
      .ok (some (.file 0 (cutSpool.finish none none).read), ⟨false, 0, [], []⟩) := by rfl
  obtain ⟨hsame, hutf8, hcap, hwhole⟩ := spooled_whole roomy roomy 10
  exact ⟨cutSpool, cutSpool, hcut, hother, hsame _ _ _ _ hcut hother rfl none none,
    ⟨_, _, haccepted⟩, hwhole _ _ hcut _ _ _ _ _ _ _ _ _ _ haccepted,
    hcap _ _ (.inl hcut), hutf8 _ _ hcut none none⟩

end Nitr.Spool
