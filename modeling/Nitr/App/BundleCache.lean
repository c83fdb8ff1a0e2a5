import Nitr.Lib.Actions

/-! # The extraction of a bundle

`load` of `bundle.rs` extracts the archive once into a directory that later starts reuse. Starts
of the same bundle run side by side, crash anywhere, and sweep away the staging directories of
others, live ones included. -/

open Actions

namespace Nitr.App.BundleCache

/-! ## The archive -/

/-- A component of an entry's name. -/
inductive Component where
  | normal (name : String)
  | curDir
  | parentDir
  | rootDir
  | drive
deriving DecidableEq

def Component.inside : Component → Bool
  | .normal _ => true
  | .curDir => true
  | _ => false

inductive EntryType where
  | regular
  | directory
  | link
  | symlink
  | other
deriving DecidableEq

/-- An entry of the archive; its name may be unreadable. -/
structure Entry where
  path : Option (List Component)
  kind : EntryType
  content : List UInt8
deriving DecidableEq

/-- Why an archive is not extracted. -/
inductive Refusal where
  /-- `cannot read a bundle archive entry` -/
  | entry
  /-- `a bundle archive entry has an unreadable name` -/
  | name
  /-- `which would land outside the extraction directory` -/
  | outside
  /-- `a bundle holds only regular files and directories` -/
  | kind
deriving DecidableEq

/-- The policy of `extract` for what the reader of the archive gives: an entry, or an error. -/
def check : Option Entry → Except Refusal Entry
  | none => .error .entry
  | some e =>
    match e.path with
    | none => .error .name
    | some path =>
      if !path.all Component.inside then .error .outside
      else if e.kind ≠ .regular ∧ e.kind ≠ .directory then .error .kind
      else .ok e

/-- What the archive unpacks to, or the first reason against it. -/
def contents (archive : List (Option Entry)) : Except Refusal (List Entry) := archive.mapM check

/-! ## The starts -/

/-- What a directory holds: entries of the archive, and the marker. -/
structure Dir where
  entries : List Entry
  marker : Bool
deriving DecidableEq

/-- `create` of a fresh private directory. -/
def Dir.empty : Dir := ⟨[], false⟩

/-- All of the archive, with the marker. -/
structure Dir.Whole (archive : List (Option Entry)) (dir : Dir) : Prop where
  entries : contents archive = .ok dir.entries
  marker : dir.marker = true

/-- Why a start returned an error. -/
inductive Failure where
  /-- An error of the operating system that no other start caused. -/
  | io
  /-- The archive breaks the policy. -/
  | refused (why : Refusal)
  /-- Another start removed its staging directory, or published first. -/
  | overtaken
deriving DecidableEq

/-- A start in `load`, with its staging directory as it is on disk: `none` once it was removed.
The directory is a fresh one, so no other start uses it. -/
inductive Proc where
  /-- About to look for the marker. -/
  | checking
  | creating
  /-- In `extract`, with what is left to unpack. -/
  | extracting (staging : Option Dir) (left : List (Option Entry))
  /-- The marker is in place. -/
  | renaming (staging : Option Dir)
  /-- The rename failed. -/
  | losing (staging : Option Dir)
  /-- Another start was first: it removes its own staging directory. -/
  | discarding (staging : Option Dir)
  /-- In `sweep_stale_staging`. -/
  | sweeping
  /-- It goes on with the published directory. -/
  | done
  | failed (why : Failure)
  | crashed
deriving DecidableEq

/-- The staging directory of a start. -/
def Proc.staging : Proc → Option Dir
  | .extracting staging _ => staging
  | .renaming staging => staging
  | .losing staging => staging
  | .discarding staging => staging
  | _ => none

def Proc.withStaging (staging : Option Dir) : Proc → Proc
  | .extracting _ left => .extracting staging left
  | .renaming _ => .renaming staging
  | .losing _ => .losing staging
  | .discarding _ => .discarding staging
  | proc => proc

structure State where
  /-- The directory that starts reuse, `app-<key>`. -/
  root : Option Dir
  procs : List Proc
  /-- The staging directories that starts which ended left behind. -/
  stale : List Dir
deriving DecidableEq

/-- One removal of `remove_dir_all`. The directory itself goes only when it is empty. -/
inductive Removal where
  | entry (e : Entry)
  | marker
  | dir
deriving DecidableEq

def Dir.remove (dir : Dir) : Removal → Option Dir
  | .entry e => some { dir with entries := dir.entries.erase e }
  | .marker => some { dir with marker := false }
  | .dir => if dir.entries = [] ∧ dir.marker = false then none else some dir

inductive Action where
  /-- Another process starts. -/
  | start
  /-- It looks for the marker in the published directory. -/
  | test (p : ℕ)
  | create (p : ℕ)
  | unpack (p : ℕ)
  /-- `unpack` meets a directory that is being removed. -/
  | disturb (p : ℕ)
  | mark (p : ℕ)
  | rename (p : ℕ)
  /-- After a failed rename, it looks for the marker again. -/
  | judge (p : ℕ)
  /-- One removal in the staging directory of a live start. -/
  | wipe (p q : ℕ) (removal : Removal)
  /-- One removal in a stale staging directory. -/
  | wipeStale (p k : ℕ) (removal : Removal)
  /-- The sweep or the removal is over, whatever it left. -/
  | finish (p : ℕ)
  | ioError (p : ℕ)
  | crash (p : ℕ)
deriving DecidableEq

def State.setProc (s : State) (p : ℕ) (proc : Proc) : State :=
  { s with procs := s.procs.set p proc }

/-- The start ends and leaves its staging directory. -/
def State.endProc (s : State) (p : ℕ) (proc ended : Proc) : State :=
  { s with procs := s.procs.set p ended, stale := s.stale ++ proc.staging.toList }

/-- Whether the published directory has the marker. -/
def State.published (s : State) : Bool := s.root.any Dir.marker

/-- Who may remove in the staging directory of the `q`th start. -/
def Proc.wipes (p q : ℕ) : Proc → Bool
  | .sweeping => true
  | .discarding _ => p = q
  | _ => false

/-- One step of the `p`th start. -/
def State.procStep (archive : List (Option Entry)) (s : State) : Action → Proc → Option State
  | .test p, .checking => some (s.setProc p (if s.published then .done else .creating))
  | .create p, .creating => some (s.setProc p (.extracting (some .empty) archive))
  | .unpack p, .extracting staging (item :: left) =>
    match check item, staging with
    | .error why, _ =>
      some (s.endProc p (.extracting staging (item :: left)) (.failed (.refused why)))
    | .ok e, some dir =>
      some (s.setProc p (.extracting (some { dir with entries := dir.entries ++ [e] }) left))
    | .ok _, none => some (s.setProc p (.failed .overtaken))
  | .disturb p, .extracting staging (_ :: _) =>
    if .sweeping ∈ s.procs then
      some { s.setProc p (.failed .overtaken) with stale := s.stale ++ staging.toList }
    else none
  | .mark p, .extracting (some dir) [] =>
    some (s.setProc p (.renaming (some { dir with marker := true })))
  | .mark p, .extracting none [] => some (s.setProc p (.failed .overtaken))
  | .rename p, .renaming staging =>
    match s.root, staging with
    | none, some dir => some { s.setProc p .sweeping with root := some dir }
    | _, _ => some (s.setProc p (.losing staging))
  | .judge p, .losing staging =>
    if s.published then some (s.setProc p (.discarding staging))
    else some (s.endProc p (.losing staging) (.failed .overtaken))
  | .finish p, .sweeping => some (s.setProc p .done)
  | .finish p, .discarding staging => some (s.endProc p (.discarding staging) .done)
  | .wipe p q removal, proc =>
    if proc.wipes p q then
      s.procs[q]?.bind fun target => target.staging.map fun dir =>
        s.setProc q (target.withStaging (dir.remove removal))
    else none
  | .wipeStale _ k removal, .sweeping =>
    s.stale[k]?.map fun dir => { s with
      stale := s.stale.take k ++ (dir.remove removal).toList ++ s.stale.drop (k + 1) }
  | .ioError p, proc => some (s.endProc p proc (.failed .io))
  | .crash p, proc => some (s.endProc p proc .crashed)
  | _, _ => none

/-- The start that takes the action. -/
def Action.proc : Action → Option ℕ
  | .start => none
  | .test p | .create p | .unpack p | .disturb p | .mark p | .rename p | .judge p | .finish p
  | .wipe p _ _ | .wipeStale p _ _ | .ioError p | .crash p => some p

def step (archive : List (Option Entry)) (s : State) (a : Action) : Option State :=
  match a.proc with
  | none => some { s with procs := s.procs ++ [.checking] }
  | some p => s.procs[p]?.bind (s.procStep archive a)

/-! ## What the published directory holds -/

/-- What a start can be while nothing is published: its staging directory is as it left it, and
nobody sweeps. -/
def Proc.Intact (archive : List (Option Entry)) : Proc → Prop
  | .checking => True
  | .creating => True
  | .extracting staging left => ∃ before entries, before ++ left = archive ∧
      contents before = .ok entries ∧ staging = some ⟨entries, false⟩
  | .renaming staging => ∃ dir, staging = some dir ∧ dir.Whole archive
  | .failed why => why ≠ .overtaken
  | .crashed => True
  | _ => False

/-- What a start has found of the archive. -/
def Proc.Follows (archive : List (Option Entry)) : Proc → Prop
  | .extracting _ left => ∃ before entries, before ++ left = archive ∧ contents before = .ok entries
  | .failed (.refused why) => contents archive = .error why
  | _ => True

structure Sound (archive : List (Option Entry)) (s : State) : Prop where
  whole : ∀ dir, s.root = some dir → dir.Whole archive
  intact : s.root = none → ∀ proc ∈ s.procs, proc.Intact archive
  follows : ∀ proc ∈ s.procs, proc.Follows archive

variable {archive : List (Option Entry)} {s s' : State}

/-- One more item is unpacked. -/
theorem contents_concat {before left : List (Option Entry)} {item : Option Entry} {e : Entry}
    {entries : List Entry} (happend : before ++ item :: left = archive)
    (hentries : contents before = .ok entries) (hitem : check item = .ok e) :
    (before ++ [item]) ++ left = archive ∧ contents (before ++ [item]) = .ok (entries ++ [e]) := by
  refine ⟨by rw [List.append_assoc]; exact happend, ?_⟩
  rw [contents] at hentries ⊢
  rw [List.mapM_append, hentries, List.mapM_cons, hitem]
  rfl

theorem contents_refused {before left : List (Option Entry)} {item : Option Entry} {why : Refusal}
    {entries : List Entry} (happend : before ++ item :: left = archive)
    (hentries : contents before = .ok entries) (hitem : check item = .error why) :
    contents archive = .error why := by
  rw [contents] at hentries ⊢
  rw [← happend, List.mapM_append, hentries, List.mapM_cons, hitem]
  rfl

/-- Only a start that found the directory published removes anything. -/
theorem Proc.not_intact {proc : Proc} {p q : ℕ} (h : proc.wipes p q = true) :
    ¬proc.Intact archive := by
  cases proc with
  | sweeping => exact id
  | discarding staging => exact id
  | _ => cases h

theorem Proc.Follows.withStaging {proc : Proc} (h : proc.Follows archive) (staging : Option Dir) :
    (proc.withStaging staging).Follows archive := by
  cases proc <;> exact h

/-- The sound states a step leads to; a published directory stays. -/
def Onward (archive : List (Option Entry)) (s s' : State) : Prop :=
  Sound archive s' ∧ ∀ dir, s.root = some dir → s'.root = some dir

/-- One start goes on while the published directory stays. -/
theorem Sound.setProc (h : Sound archive s) {p : ℕ} {proc : Proc} {s' : State}
    (hroot : s'.root = s.root) (hprocs : s'.procs = s.procs.set p proc)
    (hproc : s.root = none → proc.Intact archive) (hfollows : proc.Follows archive) :
    Onward archive s s' := by
  refine ⟨⟨fun dir hdir => h.whole dir (hroot ▸ hdir), fun hnone q hq => ?_, fun q hq => ?_⟩,
    fun dir hdir => hroot ▸ hdir⟩
  · rw [hroot] at hnone
    rw [hprocs] at hq
    obtain hq | rfl := List.mem_or_eq_of_mem_set hq
    · exact h.intact hnone q hq
    · exact hproc hnone
  · rw [hprocs] at hq
    obtain hq | rfl := List.mem_or_eq_of_mem_set hq
    · exact h.follows q hq
    · exact hfollows

/-- A staging directory that is in place is published whole. -/
theorem Sound.publish (h : Sound archive s) {p : ℕ} {dir : Dir} (hroot : s.root = none)
    (hwhole : dir.Whole archive) :
    Onward archive s { s.setProc p .sweeping with root := some dir } := by
  refine ⟨⟨fun dir' hdir' => ?_, fun hnone => ?_, fun q hq => ?_⟩, fun dir' hdir' => ?_⟩
  · cases hdir'
    exact hwhole
  · cases hnone
  · obtain hq | rfl := List.mem_or_eq_of_mem_set hq
    · exact h.follows q hq
    · trivial
  · rw [hroot] at hdir'
    cases hdir'

theorem Sound.published_iff (h : Sound archive s) : s.published = true ↔ s.root ≠ none := by
  unfold State.published
  cases hroot : s.root with
  | none => simp
  | some dir => simp [(h.whole dir hroot).marker]

/-- Nobody but its own start touches a staging directory while nothing is published. -/
theorem Proc.not_intact_extracting {left : List (Option Entry)} :
    ¬(Proc.extracting none left).Intact archive := by
  rintro ⟨_, _, -, -, hdir⟩
  cases hdir

theorem Sound.procStep (h : Sound archive s) {a : Action} {p : ℕ} {proc : Proc}
    (hp : s.procs[p]? = some proc) (hstep : s.procStep archive a proc = some s') :
    Onward archive s s' := by
  have hintact : s.root = none → proc.Intact archive := fun hnone =>
    h.intact hnone proc (List.mem_of_getElem? hp)
  have hfollows : proc.Follows archive := h.follows proc (List.mem_of_getElem? hp)
  have hpub := h.published_iff
  unfold State.procStep at hstep
  split at hstep
  case h_1 p =>
      cases hstep
      refine h.setProc rfl rfl (fun hnone => ?_) ?_
      · split
        · exact absurd hnone (hpub.mp ‹_›)
        · trivial
      · split <;> trivial
  case h_2 p =>
      cases hstep
      have hstart : contents [] = .ok [] := rfl
      exact h.setProc rfl rfl (fun _ => ⟨[], [], rfl, hstart, rfl⟩) ⟨[], [], rfl, hstart⟩
  case h_3 p staging item left =>
      obtain ⟨before, entries, happend, hentries⟩ := hfollows
      split at hstep
      · rename_i why _ hitem
        cases hstep
        exact h.setProc rfl rfl (fun _ => Failure.noConfusion)
          (contents_refused happend hentries hitem)
      · rename_i e dir hitem
        cases hstep
        obtain ⟨happend', hentries'⟩ := contents_concat happend hentries hitem
        refine h.setProc rfl rfl (fun hnone => ?_) ⟨_, _, happend', hentries'⟩
        obtain ⟨before₁, entries₁, happend₁, hentries₁, hdir⟩ := hintact hnone
        cases hdir
        obtain ⟨happend₂, hentries₂⟩ := contents_concat happend₁ hentries₁ hitem
        exact ⟨_, _, happend₂, hentries₂, rfl⟩
      · cases hstep
        exact h.setProc rfl rfl (fun hnone => absurd (hintact hnone) Proc.not_intact_extracting) trivial
  case h_4 p staging item left =>
      rw [Option.ite_none_right_eq_some] at hstep
      obtain ⟨hsweeping, hstep⟩ := hstep
      cases hstep
      exact h.setProc rfl rfl (fun hnone => (h.intact hnone _ hsweeping).elim) trivial
  case h_5 p dir =>
      cases hstep
      refine h.setProc rfl rfl (fun hnone => ?_) trivial
      obtain ⟨before, entries, happend, hentries, hdir⟩ := hintact hnone
      cases hdir
      rw [List.append_nil] at happend
      rw [happend] at hentries
      exact ⟨_, rfl, hentries, rfl⟩
  case h_6 p =>
      cases hstep
      exact h.setProc rfl rfl (fun hnone => absurd (hintact hnone) Proc.not_intact_extracting) trivial
  case h_7 p staging =>
      split at hstep
      · rename_i dir hroot
        cases hstep
        obtain ⟨_, hdir, hwhole⟩ := hintact hroot
        cases hdir
        exact h.publish hroot hwhole
      · rename_i hother
        cases hstep
        refine h.setProc rfl rfl (fun hnone => ?_) trivial
        obtain ⟨dir, hdir, -⟩ := hintact hnone
        exact (hother dir hnone hdir).elim
  case h_8 p staging =>
      split at hstep
      · cases hstep
        exact h.setProc rfl rfl (fun hnone => absurd hnone (hpub.mp ‹_›)) trivial
      · cases hstep
        exact h.setProc rfl rfl (fun hnone => (hintact hnone).elim) trivial
  case h_9 p =>
      cases hstep
      exact h.setProc rfl rfl (fun hnone => (hintact hnone).elim) trivial
  case h_10 p staging =>
      cases hstep
      exact h.setProc rfl rfl (fun hnone => (hintact hnone).elim) trivial
  case h_11 proc p q removal =>
      rw [Option.ite_none_right_eq_some, Option.bind_eq_some_iff] at hstep
      obtain ⟨hwipes, target, htarget, hstep⟩ := hstep
      rw [Option.map_eq_some_iff] at hstep
      obtain ⟨dir, -, rfl⟩ := hstep
      have htarget := h.follows target (List.mem_of_getElem? htarget)
      exact h.setProc rfl rfl (fun hnone => absurd (hintact hnone) (Proc.not_intact hwipes))
        (htarget.withStaging _)
  case h_12 p k removal =>
      rw [Option.map_eq_some_iff] at hstep
      obtain ⟨dir, -, rfl⟩ := hstep
      exact ⟨⟨h.whole, h.intact, h.follows⟩, fun dir hdir => hdir⟩
  case h_13 p proc =>
      cases hstep
      exact h.setProc rfl rfl (fun _ => Failure.noConfusion) trivial
  case h_14 p proc =>
      cases hstep
      exact h.setProc rfl rfl (fun _ => trivial) trivial
  case h_15 => cases hstep

theorem Sound.step {a : Action} (h : Sound archive s) (hstep : step archive s a = some s') :
    Onward archive s s' := by
  unfold BundleCache.step at hstep
  split at hstep
  · cases hstep
    refine ⟨⟨h.whole, fun hnone proc hproc => ?_, fun proc hproc => ?_⟩, fun dir hdir => hdir⟩
    · obtain hproc | hproc := List.mem_append.mp hproc
      · exact h.intact hnone proc hproc
      · rw [List.mem_singleton.mp hproc]
        trivial
    · obtain hproc | hproc := List.mem_append.mp hproc
      · exact h.follows proc hproc
      · rw [List.mem_singleton.mp hproc]
        trivial
  · rw [Option.bind_eq_some_iff] at hstep
    obtain ⟨proc, hp, hstep⟩ := hstep
    exact h.procStep hp hstep

def config : Entry := ⟨some [.normal "nitr.toml"], .regular, [1]⟩

def handler : Entry := ⟨some [.normal "app.lua"], .regular, [2]⟩

end Nitr.App.BundleCache
