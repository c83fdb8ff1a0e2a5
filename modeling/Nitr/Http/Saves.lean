import Mathlib.Data.List.Nodup
import Mathlib.Logic.Function.Basic
import Nitr.Lib.Actions

/-! # Saving a part

`part:save` of `multipart/part.rs`: the upload is staged in the spool of the upload root and
renamed into place. Saves run side by side; each may fail, be dropped by the request's budget at
any point or die with the process, and a starting process sweeps the whole spool. -/

open Actions

namespace Nitr.Saves

abbrev Bytes := List UInt8

def SPOOL_DIR : String := ".nitr-tmp"

/-- A path below the upload root, by its components. -/
abbrev Place := List String

/-- Whether it is the spool or a path below it. -/
def Place.spooled (place : Place) : Bool := place.head? = some SPOOL_DIR

/-- A destination outside the spool. -/
structure Target where
  place : Place
  outside : place.spooled = false
deriving DecidableEq

/-- Where a save is. -/
inductive Phase where
  /-- Its target was resolved. -/
  | resolved
  /-- It streams the chunks that are left into its staged file. -/
  | streaming (left : List Bytes) (written : ℕ)
  /-- It failed and is about to `discard`. -/
  | failing
  /-- In `persist`, before the rename. -/
  | persisting (written : ℕ)
  /-- The rename failed. -/
  | cleaning
  /-- Dropped by the budget; what is on the blocking pool still runs: maybe the rename, and the
  removal of the staged file. -/
  | dropped (pending : Bool)
  | saved (written : ℕ)
  | failed
  /-- Died with its process. -/
  | killed
deriving DecidableEq

/-- A save: its target, the chunks of the part and the limit. `staged` is its own file in the
spool, under a name no other save has. -/
structure Save where
  target : Target
  chunks : List Bytes
  limit : ℕ
  phase : Phase
  staged : Option Bytes

/-- The upload as a whole. -/
def Save.upload (save : Save) : Bytes := save.chunks.flatten

structure State where
  /-- The files below the upload root, those of the saves under way left aside. -/
  files : Place → Option Bytes
  saves : List Save
  /-- The saves whose rename took place, in order. -/
  renamed : List ℕ

inductive Move where
  | create
  | createError
  | chunk
  /-- The first bytes of a chunk are written, and then an error. -/
  | writeError (stored : ℕ)
  | streamError
  | flush
  | rename
  | renameError
  | cleanup
  | discard
  | drop
  /-- The removal that a dropped save left to the blocking pool. -/
  | remove
deriving DecidableEq

inductive Action where
  | begin (target : Target) (chunks : List Bytes) (limit : ℕ)
  | move (i : ℕ) (m : Move)
  /-- A starting process sweeps the spool. -/
  | sweep
  /-- The process is killed. -/
  | kill

/-- What a move makes of its save, and the content that takes the target's place. -/
def Save.step (save : Save) (m : Move) : Option (Save × Option Bytes) :=
  match m, save.phase with
  | .create, .resolved =>
    some ({ save with phase := .streaming save.chunks 0, staged := some [] }, none)
  | .createError, .resolved => some ({ save with phase := .failed }, none)
  | .chunk, .streaming (chunk :: left) written =>
    if save.limit < written + chunk.length then some ({ save with phase := .failing }, none)
    else
      -- A staged file that was swept away is still written to.
      some ({ save with
        phase := .streaming left (written + chunk.length)
        staged := save.staged.map (· ++ chunk) }, none)
  | .writeError stored, .streaming (chunk :: _) _ =>
    some ({ save with
      phase := .failing
      staged := save.staged.map (· ++ chunk.take stored) }, none)
  | .streamError, .streaming _ _ => some ({ save with phase := .failing }, none)
  | .flush, .streaming [] written => some ({ save with phase := .persisting written }, none)
  | .rename, .persisting written =>
    match save.staged with
    | some content => some ({ save with phase := .saved written, staged := none }, some content)
    | none => some ({ save with phase := .cleaning }, none)
  | .renameError, .persisting _ => some ({ save with phase := .cleaning }, none)
  | .cleanup, .cleaning => some ({ save with phase := .failed, staged := none }, none)
  | .discard, .failing => some ({ save with phase := .failed, staged := none }, none)
  -- The creation may be under way.
  | .drop, .resolved => some ({ save with phase := .dropped false, staged := some [] }, none)
  | .drop, .streaming _ _ => some ({ save with phase := .dropped false }, none)
  | .drop, .failing => some ({ save with phase := .dropped false }, none)
  | .drop, .cleaning => some ({ save with phase := .dropped false }, none)
  | .drop, .persisting _ => some ({ save with phase := .dropped true }, none)
  | .rename, .dropped true =>
    match save.staged with
    | some content => some ({ save with phase := .dropped false, staged := none }, some content)
    | none => some ({ save with phase := .dropped false }, none)
  | .renameError, .dropped true => some ({ save with phase := .dropped false }, none)
  | .remove, .dropped _ => some ({ save with staged := none }, none)
  | _, _ => none

/-- What a kill leaves of a save: its staged file. -/
def Save.kill (save : Save) : Save :=
  match save.phase with
  | .saved _ | .failed => save
  | _ => { save with phase := .killed }

/-- The rename of a save puts its staged file in the place of the target. -/
def State.place (s : State) (i : ℕ) (target : Target) : Option Bytes → State
  | some content =>
    { s with
      files := Function.update s.files target.place (some content)
      renamed := s.renamed ++ [i] }
  | none => s

def step (s : State) : Action → Option State
  | .begin target chunks limit =>
    some { s with saves := s.saves ++ [⟨target, chunks, limit, .resolved, none⟩] }
  | .move i m =>
    s.saves[i]?.bind fun save => (save.step m).map fun r =>
      { s.place i save.target r.2 with saves := s.saves.set i r.1 }
  | .sweep =>
    some { s with
      files := fun place => if place.spooled then none else s.files place
      saves := s.saves.map fun save => { save with staged := none } }
  | .kill => some { s with saves := s.saves.map Save.kill }

/-! ## One save -/

/-- What a save has of its upload. -/
def Save.Sound (save : Save) : Prop :=
  match save.phase with
  | .streaming left written => ∃ before, save.chunks = before ++ left ∧
      written = before.flatten.length ∧ written ≤ save.limit ∧
      ∀ content, save.staged = some content → content = before.flatten
  | .persisting written => written = save.upload.length ∧ written ≤ save.limit ∧
      ∀ content, save.staged = some content → content = save.upload
  | .dropped true => save.upload.length ≤ save.limit ∧
      ∀ content, save.staged = some content → content = save.upload
  | .saved written => written = save.upload.length ∧ written ≤ save.limit
  | _ => True

/-- Whether its rename took place, where the phase tells. -/
def Phase.renamed : Phase → Option Bool
  | .saved _ => some true
  | .dropped false | .killed => none
  | _ => some false

/-- One move: it stays the same save, and what it puts in place is the whole upload, once. -/
structure Moved (save save' : Save) (placed : Option Bytes) : Prop where
  target : save'.target = save.target
  chunks : save'.chunks = save.chunks
  limit : save'.limit = save.limit
  sound : save'.Sound
  whole : ∀ content, placed = some content → content = save.upload ∧
    save.upload.length ≤ save.limit ∧ save.phase.renamed = some false ∧
    save'.phase.renamed ≠ some false
  quiet : placed = none → save'.phase.renamed = save.phase.renamed ∨
    save'.phase.renamed = none

/-- A move that puts nothing in place. -/
theorem Moved.stays {save : Save} {phase : Phase} {staged : Option Bytes}
    (hsound : Save.Sound { save with phase, staged })
    (hrenamed : phase.renamed = save.phase.renamed ∨ phase.renamed = none) :
    Moved save { save with phase, staged } none :=
  ⟨rfl, rfl, rfl, hsound, by simp, fun _ => hrenamed⟩

theorem Save.step_moved {save save' : Save} {m : Move} {placed : Option Bytes}
    (h : save.Sound) (hstep : save.step m = some (save', placed)) : Moved save save' placed := by
  unfold Save.step at hstep
  unfold Save.Sound at h
  split at hstep
  case h_1 hphase =>
      cases hstep
      refine .stays ⟨[], rfl, rfl, Nat.zero_le _, ?_⟩ (.inl (by rw [hphase]; rfl))
      intro content hcontent
      exact (Option.some.inj hcontent).symm
  case h_2 hphase =>
      cases hstep
      exact .stays trivial (.inl (by rw [hphase]; rfl))
  case h_3 chunk left written hphase =>
      rw [hphase] at h
      obtain ⟨before, hchunks, hwritten, hlimit, hstaged⟩ := h
      split at hstep
      · cases hstep
        exact .stays trivial (.inl (by rw [hphase]; rfl))
      · rename_i hroom
        cases hstep
        refine .stays ⟨before ++ [chunk], ?_, ?_, Nat.le_of_not_lt hroom, ?_⟩
          (.inl (by rw [hphase]; rfl))
        · simp [hchunks]
        · simp [hwritten]
        · intro content hcontent
          obtain ⟨old, hold, rfl⟩ := Option.map_eq_some_iff.mp hcontent
          simp [hstaged old hold]
  case h_4 hphase =>
      cases hstep
      exact .stays trivial (.inl (by rw [hphase]; rfl))
  case h_5 hphase =>
      cases hstep
      exact .stays trivial (.inl (by rw [hphase]; rfl))
  case h_6 written hphase =>
      rw [hphase] at h
      obtain ⟨before, hchunks, hwritten, hlimit, hstaged⟩ := h
      rw [List.append_nil] at hchunks
      cases hstep
      refine .stays ⟨?_, hlimit, ?_⟩ (.inl (by rw [hphase]; rfl))
      · rw [hwritten, ← hchunks]
        rfl
      · intro content hcontent
        rw [hstaged content hcontent, ← hchunks]
        rfl
  case h_7 written hphase =>
      rw [hphase] at h
      obtain ⟨hwritten, hlimit, hstaged⟩ := h
      split at hstep
      · rename_i content hcontent
        cases hstep
        refine ⟨rfl, rfl, rfl, ⟨hwritten, hlimit⟩, ?_, by simp⟩
        intro content' heq
        cases heq
        exact ⟨hstaged content hcontent, hwritten ▸ hlimit, by rw [hphase]; rfl,
          by simp [Phase.renamed]⟩
      · cases hstep
        exact .stays trivial (.inl (by rw [hphase]; rfl))
  case h_8 hphase =>
      cases hstep
      exact .stays trivial (.inl (by rw [hphase]; rfl))
  case h_9 hphase =>
      cases hstep
      exact .stays trivial (.inl (by rw [hphase]; rfl))
  case h_10 hphase =>
      cases hstep
      exact .stays trivial (.inl (by rw [hphase]; rfl))
  case h_11 hphase =>
      cases hstep
      exact .stays trivial (.inr rfl)
  case h_12 hphase =>
      cases hstep
      exact .stays trivial (.inr rfl)
  case h_13 hphase =>
      cases hstep
      exact .stays trivial (.inr rfl)
  case h_14 hphase =>
      cases hstep
      exact .stays trivial (.inr rfl)
  case h_15 written hphase =>
      rw [hphase] at h
      obtain ⟨hwritten, hlimit, hstaged⟩ := h
      cases hstep
      exact .stays ⟨hwritten ▸ hlimit, hstaged⟩ (.inl (by rw [hphase]; rfl))
  case h_16 hphase =>
      rw [hphase] at h
      split at hstep
      · rename_i content hcontent
        cases hstep
        refine ⟨rfl, rfl, rfl, trivial, ?_, by simp⟩
        intro content' heq
        cases heq
        exact ⟨h.2 content hcontent, h.1, by rw [hphase]; rfl, by simp [Phase.renamed]⟩
      · cases hstep
        exact .stays trivial (.inr rfl)
  case h_17 hphase =>
      cases hstep
      exact .stays trivial (.inr rfl)
  case h_18 pending hphase =>
      cases hstep
      refine .stays ?_ (.inl rfl)
      unfold Save.Sound
      rw [hphase] at h ⊢
      cases pending with
      | false => trivial
      | true => exact ⟨h.1, by simp⟩
  case h_19 => cases hstep

/-! ## All saves -/

/-- The files after these saves, each done at once. -/
def replay (files : Place → Option Bytes) (saves : List Save) (order : List ℕ) :
    Place → Option Bytes :=
  order.foldl (fun files i =>
    match saves[i]? with
    | some save => Function.update files save.target.place (some save.upload)
    | none => files) files

/-- Replaying depends on the targets and the uploads only. -/
theorem replay_congr {files : Place → Option Bytes} {saves saves' : List Save} {order : List ℕ}
    (h : ∀ i ∈ order, saves'[i]?.map (fun save => (save.target, save.upload)) =
      saves[i]?.map fun save => (save.target, save.upload)) :
    replay files saves' order = replay files saves order := by
  induction order generalizing files with
  | nil => rfl
  | cons i order ih =>
      have hi := h i List.mem_cons_self
      unfold replay
      rw [List.foldl_cons, List.foldl_cons]
      have hfirst : (match saves'[i]? with
          | some save => Function.update files save.target.place (some save.upload)
          | none => files) = match saves[i]? with
          | some save => Function.update files save.target.place (some save.upload)
          | none => files := by
        cases hs : saves[i]? with
        | none =>
            rw [hs] at hi
            rw [Option.map_eq_none_iff.mp hi]
        | some save =>
            rw [hs] at hi
            obtain ⟨save', hs', heq⟩ := Option.map_eq_some_iff.mp hi
            rw [hs']
            simp only [Prod.mk.injEq] at heq
            simp only [heq.1, heq.2]
      rw [hfirst]
      exact ih fun j hj => h j (List.mem_cons_of_mem i hj)

structure Sound (files : Place → Option Bytes) (s : State) : Prop where
  saves : ∀ save ∈ s.saves, save.Sound
  files : ∀ place, place.spooled = false → s.files place = replay files s.saves s.renamed place
  nodup : s.renamed.Nodup
  known : ∀ i ∈ s.renamed, i < s.saves.length
  told : ∀ i save, s.saves[i]? = some save → ∀ done, save.phase.renamed = some done →
    (done = true ↔ i ∈ s.renamed)
  limit : ∀ i save, s.saves[i]? = some save → i ∈ s.renamed → save.upload.length ≤ save.limit

theorem sound_nil (files : Place → Option Bytes) : Sound files ⟨files, [], []⟩ :=
  ⟨by simp, fun _ _ => rfl, List.nodup_nil, by simp, by simp, by simp⟩

variable {files : Place → Option Bytes} {s s' : State}

theorem Moved.upload {save save' : Save} {placed : Option Bytes} (h : Moved save save' placed) :
    save'.upload = save.upload := by
  unfold Save.upload
  rw [h.chunks]

/-- Each save moves on, and none puts anything in place. -/
theorem Sound.quiet (h : Sound files s) {saves' : List Save}
    (hlen : saves'.length = s.saves.length)
    (hmoved : ∀ (i : ℕ) (save save' : Save), s.saves[i]? = some save → saves'[i]? = some save' →
      Moved save save' none) : Sound files { s with saves := saves' } := by
  have hback : ∀ (i : ℕ) (save' : Save), saves'[i]? = some save' →
      ∃ save, s.saves[i]? = some save ∧ Moved save save' none := by
    intro i save' hs'
    have hi : i < s.saves.length := hlen ▸ (List.getElem?_eq_some_iff.mp hs').1
    exact ⟨s.saves[i], List.getElem?_eq_getElem hi, hmoved i _ save' (List.getElem?_eq_getElem hi) hs'⟩
  refine ⟨?_, ?_, h.nodup, fun i hi => hlen ▸ h.known i hi, ?_, ?_⟩
  · intro save' hmem
    obtain ⟨i, hs'⟩ := List.mem_iff_getElem?.mp hmem
    obtain ⟨save, -, hmove⟩ := hback i save' hs'
    exact hmove.sound
  · intro place houtside
    rw [h.files place houtside]
    refine congrFun (replay_congr fun i hi => ?_).symm place
    have hi' : i < saves'.length := hlen ▸ h.known i hi
    obtain ⟨save, hs, hmove⟩ := hback i _ (List.getElem?_eq_getElem hi')
    simp only [List.getElem?_eq_getElem hi', hs, Option.map_some, hmove.target, hmove.upload]
  · intro i save' hs' done hdone
    obtain ⟨save, hs, hmove⟩ := hback i save' hs'
    obtain heq | hnone := hmove.quiet rfl
    · exact h.told i save hs done (heq ▸ hdone)
    · rw [hnone] at hdone
      cases hdone
  · intro i save' hs' hi
    obtain ⟨save, hs, hmove⟩ := hback i save' hs'
    rw [hmove.upload, hmove.limit]
    exact h.limit i save hs hi

/-- A rename: the save is new among those that took place, and it comes last. -/
theorem Sound.place (h : Sound files s) {i : ℕ} {save save' : Save} {content : Bytes}
    (hs : s.saves[i]? = some save) (hmoved : Moved save save' (some content)) :
    Sound files { s.place i save.target (some content) with saves := s.saves.set i save' } := by
  obtain ⟨rfl, hlimit, hfalse, htrue⟩ := hmoved.whole content rfl
  have hi : i < s.saves.length := (List.getElem?_eq_some_iff.mp hs).1
  have hnew : i ∉ s.renamed := fun hmem => by
    have := (h.told i save hs false hfalse).mpr hmem
    cases this
  have hset : (s.saves.set i save')[i]? = some save' := by
    rw [List.getElem?_set_self hi]
  have hother : ∀ j, j ≠ i → (s.saves.set i save')[j]? = s.saves[j]? := fun j hj =>
    List.getElem?_set_ne (Ne.symm hj)
  refine ⟨?_, ?_, ?_, ?_, ?_, ?_⟩
  · intro save'' hmem
    obtain hmem | rfl := List.mem_or_eq_of_mem_set hmem
    · exact h.saves save'' hmem
    · exact hmoved.sound
  · intro place houtside
    have hold : replay files (s.saves.set i save') s.renamed = replay files s.saves s.renamed := by
      refine replay_congr fun j hj => ?_
      rw [hother j fun heq => hnew (heq ▸ hj)]
    have hlast : replay files (s.saves.set i save') (s.renamed ++ [i]) =
        Function.update (replay files s.saves s.renamed) save.target.place (some save.upload) := by
      rw [← hold, ← hmoved.target, ← hmoved.upload]
      unfold replay
      rw [List.foldl_append, List.foldl_cons, List.foldl_nil, hset]
    show Function.update s.files save.target.place (some save.upload) place =
      replay files (s.saves.set i save') (s.renamed ++ [i]) place
    rw [hlast]
    by_cases hplace : place = save.target.place
    · rw [hplace, Function.update_self, Function.update_self]
    · rw [Function.update_of_ne hplace, Function.update_of_ne hplace]
      exact h.files place houtside
  · exact List.nodup_append.mpr ⟨h.nodup, List.nodup_singleton i, fun a ha b hb heq =>
      hnew ((List.mem_singleton.mp hb) ▸ heq ▸ ha)⟩
  · intro j hj
    rw [List.length_set]
    obtain hj | hj := List.mem_append.mp hj
    · exact h.known j hj
    · exact (List.mem_singleton.mp hj) ▸ hi
  · intro j save'' hs'' done hdone
    by_cases hj : j = i
    · subst hj
      rw [hset] at hs''
      cases hs''
      have : done = true := by
        cases done with
        | true => rfl
        | false => exact absurd hdone htrue
      simp [this, State.place]
    · rw [hother j hj] at hs''
      simp [State.place, hj, h.told j save'' hs'' done hdone]
  · intro j save'' hs'' hmem
    by_cases hj : j = i
    · subst hj
      rw [hset] at hs''
      cases hs''
      rw [hmoved.upload, hmoved.limit]
      exact hlimit
    · rw [hother j hj] at hs''
      refine h.limit j save'' hs'' ?_
      simpa [State.place, hj] using hmem

theorem Sound.begin (h : Sound files s) (target : Target) (chunks : List Bytes) (limit : ℕ) :
    Sound files { s with saves := s.saves ++ [⟨target, chunks, limit, .resolved, none⟩] } := by
  have hold : ∀ i, i < s.saves.length →
      (s.saves ++ [⟨target, chunks, limit, .resolved, none⟩])[i]? = s.saves[i]? := fun i hi =>
    List.getElem?_append_left hi
  have hcases : ∀ (i : ℕ) (save : Save),
      (s.saves ++ [⟨target, chunks, limit, .resolved, none⟩])[i]? = some save →
      s.saves[i]? = some save ∨ save.phase = .resolved ∧ i ∉ s.renamed := by
    intro i save hs
    by_cases hi : i < s.saves.length
    · exact .inl (hold i hi ▸ hs)
    · rw [List.getElem?_append_right (Nat.le_of_not_lt hi)] at hs
      obtain rfl := List.mem_singleton.mp (List.mem_of_getElem? hs)
      exact .inr ⟨rfl, fun hmem => hi (h.known i hmem)⟩
  refine ⟨?_, ?_, h.nodup, ?_, ?_, ?_⟩
  · intro save hmem
    obtain hmem | hmem := List.mem_append.mp hmem
    · exact h.saves save hmem
    · rw [List.mem_singleton.mp hmem]
      trivial
  · intro place houtside
    rw [h.files place houtside]
    refine congrFun (replay_congr fun i hi => ?_).symm place
    rw [hold i (h.known i hi)]
  · intro i hi
    rw [List.length_append]
    exact Nat.lt_add_right _ (h.known i hi)
  · intro i save hs done hdone
    obtain hs | ⟨hphase, hnew⟩ := hcases i save hs
    · exact h.told i save hs done hdone
    · rw [hphase] at hdone
      cases hdone
      simp [hnew]
  · intro i save hs hi
    obtain hs | ⟨-, hnew⟩ := hcases i save hs
    · exact h.limit i save hs hi
    · exact absurd hi hnew

theorem swept_moved {save : Save} (h : save.Sound) : Moved save { save with staged := none } none := by
  refine .stays ?_ (.inl rfl)
  unfold Save.Sound at h ⊢
  cases hphase : save.phase with
  | streaming left written =>
      rw [hphase] at h
      obtain ⟨before, hchunks, hwritten, hlimit, -⟩ := h
      exact ⟨before, hchunks, hwritten, hlimit, by simp⟩
  | persisting written =>
      rw [hphase] at h
      exact ⟨h.1, h.2.1, by simp⟩
  | dropped pending =>
      rw [hphase] at h
      cases pending with
      | true => exact ⟨h.1, by simp⟩
      | false => trivial
  | saved written =>
      rw [hphase] at h
      exact h
  | _ => trivial

theorem kill_moved {save : Save} (h : save.Sound) : Moved save save.kill none := by
  unfold Save.kill
  split
  · exact ⟨rfl, rfl, rfl, h, by simp, fun _ => .inl rfl⟩
  · exact ⟨rfl, rfl, rfl, h, by simp, fun _ => .inl rfl⟩
  · exact .stays trivial (.inr rfl)

theorem Sound.step {a : Action} (h : Sound files s) (hstep : step s a = some s') :
    Sound files s' ∧ s.renamed <+: s'.renamed := by
  cases a with
  | begin target chunks limit =>
      cases hstep
      exact ⟨h.begin target chunks limit, List.prefix_refl _⟩
  | move i m =>
      unfold Saves.step at hstep
      rw [Option.bind_eq_some_iff] at hstep
      obtain ⟨save, hs, hstep⟩ := hstep
      rw [Option.map_eq_some_iff] at hstep
      obtain ⟨⟨save', placed⟩, hsave, rfl⟩ := hstep
      have hmoved := Save.step_moved (h.saves save (List.mem_of_getElem? hs)) hsave
      cases placed with
      | some content => exact ⟨h.place hs hmoved, List.prefix_append _ _⟩
      | none =>
          refine ⟨h.quiet (List.length_set ..) fun j old new hold hnew => ?_, List.prefix_refl _⟩
          by_cases hj : j = i
          · subst hj
            rw [List.getElem?_set_self (List.getElem?_eq_some_iff.mp hs).1] at hnew
            rw [hs] at hold
            cases hold
            cases hnew
            exact hmoved
          · rw [List.getElem?_set_ne (Ne.symm hj), hold] at hnew
            cases hnew
            exact ⟨rfl, rfl, rfl, h.saves old (List.mem_of_getElem? hold), by simp, fun _ => .inl rfl⟩
  | sweep =>
      cases hstep
      have hquiet := h.quiet (List.length_map ..) fun i old new hold hnew => by
        rw [List.getElem?_map, hold] at hnew
        cases hnew
        exact swept_moved (h.saves old (List.mem_of_getElem? hold))
      refine ⟨⟨hquiet.saves, fun place houtside => ?_, hquiet.nodup, hquiet.known, hquiet.told,
        hquiet.limit⟩, List.prefix_refl _⟩
      show (if place.spooled then none else s.files place) = _
      rw [houtside, if_neg Bool.false_ne_true]
      exact hquiet.files place houtside
  | kill =>
      cases hstep
      refine ⟨h.quiet (List.length_map ..) fun i old new hold hnew => ?_, List.prefix_refl _⟩
      rw [List.getElem?_map, hold] at hnew
      cases hnew
      exact kill_moved (h.saves old (List.mem_of_getElem? hold))

/-- However saves run side by side, fail, are dropped, die and are swept: outside its spool the
upload root holds what some of the saves, done one after another and each at once with its whole
upload, make of it. A save that returned is among them, with its size; one that failed is not; none
is there twice or with an upload over its limit; and what is done stays done. -/
theorem saves_linear {acts : List Action} (h : runFrom step ⟨files, [], []⟩ acts = some s) :
    (∀ place, place.spooled = false → s.files place = replay files s.saves s.renamed place) ∧
      s.renamed.Nodup ∧
      (∀ i save, s.saves[i]? = some save →
        (∀ written, save.phase = .saved written → i ∈ s.renamed ∧ written = save.upload.length) ∧
        (save.phase = .failed → i ∉ s.renamed) ∧
        (i ∈ s.renamed → save.upload.length ≤ save.limit)) ∧
      ∀ later s', runFrom step s later = some s' → s.renamed <+: s'.renamed := by
  have hsound : Sound files s :=
    runFrom_keeps (fun _ _ _ hinv hstep => (hinv.step hstep).1) (sound_nil files) h
  refine ⟨hsound.files, hsound.nodup, fun i save hs => ⟨fun written hphase => ?_, fun hphase hmem => ?_,
    hsound.limit i save hs⟩, fun later s' hlater => ?_⟩
  · refine ⟨(hsound.told i save hs true (by rw [hphase]; rfl)).mp rfl, ?_⟩
    have hsave := hsound.saves save (List.mem_of_getElem? hs)
    rw [Save.Sound, hphase] at hsave
    exact hsave.1
  · have hfalse := (hsound.told i save hs false (by rw [hphase]; rfl)).mpr hmem
    cases hfalse
  · exact runFrom_related (Sound files) (fun s s' => s.renamed <+: s'.renamed)
      (fun _ => List.prefix_refl _) (fun _ _ _ => List.IsPrefix.trans)
      (fun _ _ _ hinv hstep => hinv.step hstep) hsound hlater

def avatar : Target := ⟨["avatar.png"], rfl⟩

/-- Two saves to one place: the first is dropped in its rename, which still runs, after the other. -/
def droppedRename : List Action :=
  [.begin avatar [[1], [2]] 4, .begin avatar [[3]] 4, .move 0 .create, .move 0 .chunk, .move 1 .create,
    .move 0 .chunk, .move 1 .chunk, .move 0 .flush, .move 0 .drop, .move 1 .flush, .move 1 .rename,
    .move 0 .rename, .move 0 .remove]

theorem saves_linear_dropped : ∃ s, runFrom step ⟨fun _ => none, [], []⟩ droppedRename = some s ∧
    s.files ["avatar.png"] = replay (fun _ => none) s.saves s.renamed ["avatar.png"] ∧
      s.renamed = [1, 0] := by
  obtain ⟨s, hrun⟩ : ∃ s, runFrom step ⟨fun _ => none, [], []⟩ droppedRename = some s := ⟨_, rfl⟩
  refine ⟨s, hrun, (saves_linear hrun).1 _ rfl, ?_⟩
  cases hrun
  rfl

end Nitr.Saves
