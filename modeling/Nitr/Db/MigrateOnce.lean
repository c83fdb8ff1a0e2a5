import Nitr.Db.Ledger

/-! # Migrations run once

A run that failed stops, and a run that meets a file changed after it was applied ends without
another commit. With the invariant of the ledger this says what any interleaving commits. -/

namespace Nitr.Migrate

variable {σ : Type} {engine : Engine σ}

/-! ## Runs that stop -/

/-- The run has failed, returned or died. -/
def Phase.Ended : Phase σ → Prop
  | .undoing _ => True
  | .returned _ => True
  | .crashed => True
  | _ => False

/-- The file a run is at. -/
def Phase.file : Phase σ → Option Migration
  | .looping loop => loop.todo.head?
  | .executing _ file _ _ => some file
  | .recorded _ file _ _ => some file
  | _ => none

/-- The run has met a failure; it can only return an error. -/
def Phase.Failed : Phase σ → Prop
  | .undoing _ => True
  | .returned (.error _) => True
  | .crashed => True
  | _ => False

/-- The version of the file is applied under another checksum. -/
def Differs (engine : Engine σ) (db : Db σ) (file : Migration) : Prop :=
  ∃ row ∈ db.ledger.getD [], row.version = file.version ∧ row.checksum ≠ engine.sha256 file.sql

/-- How many steps a run may take before it returns from a file that cannot be applied. -/
def Phase.budget (engine : Engine σ) (file : Migration) : Phase σ → ℕ
  | .looping _ => (engine.statements file.sql).length + 4
  | .executing _ _ ran _ => (engine.statements file.sql).length - ran + 3
  | .recorded _ _ _ _ => 2
  | .undoing _ => 1
  | _ => 0

def Event.actsOn (run : ℕ) : Event → Bool
  | .act run' _ _ => run' = run
  | _ => false

theorem entriesOf_apply {sys : Sys σ} {run run' : ℕ} (effect : Effect σ) (h : run' ≠ run) :
    (sys.apply engine run' effect).entriesOf run = sys.entriesOf run := by
  cases effect with
  | nothing => rfl
  | created =>
      simp only [Sys.apply]
      split <;> rfl
  | committed work file ran =>
      simp only [Sys.apply]
      rw [Sys.entriesOf, Sys.entriesOf_append rfl, if_neg h, List.append_nil]

/-- What is committed stays in the log. -/
theorem log_subset_step {sys : Sys σ} (event : Event) : sys.log ⊆ (sys.step engine event).log := by
  have happly : ∀ run effect, sys.log ⊆ (sys.apply engine run effect).log := by
    intro run effect
    cases effect with
    | nothing => exact List.Subset.refl _
    | created =>
        simp only [Sys.apply]
        split <;> exact List.Subset.refl _
    | committed work file ran => exact List.subset_append_left _ _
  cases event with
  | start => exact List.Subset.refl _
  | crash run => exact List.Subset.refl _
  | act run fault listing =>
      simp only [Sys.step]
      split
      · exact List.Subset.refl _
      · exact happly run _

/-- What an event does to one run: a step of its own, its crash, or nothing. -/
theorem step_cases {sys : Sys σ} {run : ℕ} {phase : Phase σ} (hphase : sys.runs[run]? = some phase)
    (event : Event) :
    (∃ fault listing, event = .act run fault listing ∧
      (sys.step engine event).runs[run]? =
        some (phase.act engine sys.db sys.commits fault listing).1 ∧
      (sys.step engine event).log =
        (sys.apply engine run (phase.act engine sys.db sys.commits fault listing).2).log) ∨
    event.actsOn run = false ∧
      (sys.step engine event).entriesOf run = sys.entriesOf run ∧
      ((sys.step engine event).runs[run]? = some phase ∨
        (sys.step engine event).runs[run]? = some phase.crash) := by
  have hrun : run < sys.runs.length := (List.getElem?_eq_some_iff.mp hphase).1
  cases event with
  | start =>
      refine .inr ⟨rfl, rfl, .inl ?_⟩
      rw [← hphase]
      exact List.getElem?_append_left hrun
  | crash run' =>
      refine .inr ⟨rfl, rfl, ?_⟩
      simp only [Sys.step, List.getElem?_modify, hphase]
      split
      · exact .inr rfl
      · exact .inl rfl
  | act run' fault listing =>
      by_cases heq : run' = run
      · subst heq
        refine .inl ⟨fault, listing, rfl, ?_, ?_⟩
        · simp only [Sys.step, hphase]
          exact List.getElem?_set_self hrun
        · simp only [Sys.step, hphase]
      · refine .inr ⟨by simp [Event.actsOn, heq], ?_, .inl ?_⟩
        · simp only [Sys.step]
          split
          · rfl
          · exact entriesOf_apply _ heq
        · simp only [Sys.step]
          split
          · exact hphase
          · rw [← hphase]
            exact List.getElem?_set_ne heq

/-- A run that has ended commits nothing more. -/
theorem ended_step {sys : Sys σ} {run : ℕ} {phase : Phase σ}
    (hphase : sys.runs[run]? = some phase) (hended : phase.Ended) (event : Event) :
    (sys.step engine event).entriesOf run = sys.entriesOf run ∧
      ∃ next, (sys.step engine event).runs[run]? = some next ∧ next.Ended := by
  obtain ⟨fault, listing, _, hnext, hlog⟩ | ⟨_, hsame, hnext⟩ := step_cases hphase event
  · have hact : (phase.act engine sys.db sys.commits fault listing).2 = .nothing ∧
        (phase.act engine sys.db sys.commits fault listing).1.Ended := by
      cases phase with
      | undoing file => exact ⟨rfl, trivial⟩
      | returned result => exact ⟨rfl, trivial⟩
      | crashed => exact ⟨rfl, trivial⟩
      | _ => exact hended.elim
    refine ⟨?_, _, hnext, hact.2⟩
    rw [Sys.entriesOf, hlog, hact.1]
    rfl
  · refine ⟨hsame, ?_⟩
    rcases hnext with hnext | hnext
    · exact ⟨phase, hnext, hended⟩
    · exact ⟨_, hnext, by cases phase <;> trivial⟩

theorem ended_run {sys : Sys σ} {run : ℕ} {phase : Phase σ}
    (hphase : sys.runs[run]? = some phase) (hended : phase.Ended) (events : List Event) :
    (events.foldl (Sys.step engine) sys).entriesOf run = sys.entriesOf run := by
  induction events generalizing sys phase with
  | nil => rfl
  | cons event events ih =>
      obtain ⟨hsame, next, hnext, hnextEnded⟩ := @ended_step σ engine sys run phase hphase hended event
      rw [List.foldl_cons, ih hnext hnextEnded, hsame]

/-- A run at a file whose version is applied under another checksum. -/
structure Stalled (engine : Engine σ) (sys : Sys σ) (run : ℕ) (file : Migration) (phase : Phase σ) :
    Prop where
  phase_eq : sys.runs[run]? = some phase
  differs : Differs engine sys.db file
  blocked : phase.file = some file ∨ phase.Failed

/-- The row that differs is the only one of its version. -/
theorem Inv.not_applied {app : σ} {sys : Sys σ} (h : Inv engine app sys) {file : Migration}
    (hdiffers : Differs engine sys.db file) :
    (file.version, engine.sha256 file.sql) ∉ applied sys.db := by
  intro hmem
  obtain ⟨row, hrow, hversion, hchecksum⟩ := hdiffers
  obtain ⟨row', hrow', heq⟩ := List.mem_map.mp hmem
  have hnodup : ((sys.db.ledger.getD []).map Row.version).Nodup := by
    rw [h.versions]
    exact h.once
  have hsame : row' = row := List.inj_on_of_nodup_map hnodup hrow' hrow
    ((congrArg Prod.fst heq).trans hversion.symm)
  rw [hsame] at heq
  exact hchecksum (congrArg Prod.snd heq)

/-- A stalled run commits nothing, and each of its steps brings it nearer to its end. -/
theorem Stalled.act {app : σ} {sys : Sys σ} (h : Inv engine app sys) {run : ℕ} {file : Migration}
    {phase : Phase σ} (hstalled : Stalled engine sys run file phase) (fault : Bool)
    (listing : Listing) :
    ∃ next, phase.act engine sys.db sys.commits fault listing = (next, .nothing) ∧
      (next.file = some file ∨ next.Failed) ∧
      (next.budget engine file < phase.budget engine file ∨ next.budget engine file = 0) := by
  have hgood := h.good run phase hstalled.phase_eq
  rcases hstalled.blocked with hfile | hfailed
  · cases phase with
    | looping loop =>
        refine ⟨_, rfl, ?_⟩
        obtain ⟨rest, htodo⟩ := List.head?_eq_some_iff.mp hfile
        simp only [nextFile, htodo]
        split
        · rename_i recorded hlookup
          obtain ⟨_, _, happlied, _⟩ := List.lookup_eq_some_iff.mp hlookup
          have hmem : (file.version, recorded) ∈ applied sys.db :=
            hgood.2.1 (by rw [happlied]; simp)
          split
          · rename_i heq
            exact absurd (heq ▸ hmem) (h.not_applied hstalled.differs)
          · exact ⟨.inr trivial, .inr rfl⟩
        · split
          · exact ⟨.inr trivial, .inr rfl⟩
          · exact ⟨.inl rfl, .inl (by simp only [Phase.budget]; omega)⟩
    | executing loop file' ran txn =>
        obtain rfl : file' = file := Option.some.inj hfile
        obtain ⟨_, hran, _⟩ := hgood
        refine ⟨_, rfl, ?_⟩
        simp only [execute]
        split
        · exact ⟨.inr trivial, .inl (by simp only [Phase.budget]; omega)⟩
        · split
          · rename_i stmt hstmt
            have hlt := (List.getElem?_eq_some_iff.mp hstmt).1
            split
            · exact ⟨.inl rfl, .inl (by simp only [Phase.budget]; omega)⟩
            · exact ⟨.inr trivial, .inl (by simp only [Phase.budget]; omega)⟩
          · split
            · exact ⟨.inl rfl, .inl (by simp only [Phase.budget]; omega)⟩
            · exact ⟨.inr trivial, .inl (by simp only [Phase.budget]; omega)⟩
    | recorded loop file' ran txn =>
        obtain rfl : file' = file := Option.some.inj hfile
        obtain ⟨⟨hledger, _, hqueue⟩, _, _, hexecuted⟩ := hgood
        have hbase : txn.base ≠ sys.commits := by
          intro hnow
          have hcommits : Commits engine sys run file' txn.work :=
            ⟨hledger, fun e he => hqueue.ahead e he file' List.mem_cons_self,
              hqueue.keeps file' List.mem_cons_self, hexecuted hnow⟩
          obtain ⟨rows, hrows, hnew, _⟩ := hcommits.rows
          obtain ⟨row, hrow, hversion, _⟩ := hstalled.differs
          rw [hrows, Option.getD_some] at hrow
          exact hnew (hversion ▸ List.mem_map_of_mem hrow)
        exact ⟨.undoing file', by rw [Phase.act, if_pos (.inr hbase)], .inr trivial,
          .inl (by simp only [Phase.budget]; omega)⟩
    | _ => cases hfile
  · cases phase with
    | undoing file' => exact ⟨_, rfl, .inr trivial, .inr rfl⟩
    | returned result => exact ⟨_, rfl, .inr hfailed, .inr rfl⟩
    | crashed => exact ⟨_, rfl, .inr trivial, .inr rfl⟩
    | _ => exact hfailed.elim

theorem Differs.step {app : σ} {sys : Sys σ} (h : Inv engine app sys) {event : Event}
    (hkeeps : event.Keeps engine) {file : Migration} (hdiffers : Differs engine sys.db file) :
    Differs engine (sys.step engine event).db file := by
  obtain ⟨row, hrow, hrest⟩ := hdiffers
  refine ⟨row, ?_, hrest⟩
  rw [h.rows] at hrow
  rw [(h.step hkeeps).rows]
  exact List.map_subset _ (log_subset_step event) hrow

theorem budget_crash {file : Migration} (phase : Phase σ) :
    phase.crash.budget engine file = 0 := by
  cases phase <;> rfl

theorem Stalled.step {app : σ} {sys : Sys σ} (h : Inv engine app sys) {run : ℕ} {file : Migration}
    {phase : Phase σ} (hstalled : Stalled engine sys run file phase) {event : Event}
    (hkeeps : event.Keeps engine) :
    (sys.step engine event).entriesOf run = sys.entriesOf run ∧
      ∃ next, Stalled engine (sys.step engine event) run file next ∧
        next.budget engine file ≤
          phase.budget engine file - if event.actsOn run then 1 else 0 := by
  have hdiffers := hstalled.differs.step h hkeeps
  obtain ⟨fault, listing, rfl, hnext, hlog⟩ | ⟨hother, hsame, hnext⟩ :=
    step_cases hstalled.phase_eq event
  · obtain ⟨next, hact, hblocked, hbudget⟩ := hstalled.act h fault listing
    rw [hact] at hnext hlog
    refine ⟨by rw [Sys.entriesOf, hlog]; rfl, next, ⟨hnext, hdiffers, hblocked⟩, ?_⟩
    simp only [Event.actsOn, decide_true, if_true]
    omega
  · refine ⟨hsame, ?_⟩
    rw [hother, if_neg Bool.false_ne_true, Nat.sub_zero]
    rcases hnext with hnext | hnext
    · exact ⟨phase, ⟨hnext, hdiffers, hstalled.blocked⟩, le_rfl⟩
    · refine ⟨phase.crash, ⟨hnext, hdiffers, .inr ?_⟩, by rw [budget_crash]; exact Nat.zero_le _⟩
      rcases hstalled.blocked with hfile | hfailed
      · cases phase <;> trivial
      · cases phase <;> trivial

theorem Stalled.run {app : σ} {sys : Sys σ} (h : Inv engine app sys) {run : ℕ} {file : Migration}
    {phase : Phase σ} (hstalled : Stalled engine sys run file phase) {events : List Event}
    (hkeeps : ∀ event ∈ events, event.Keeps engine) :
    (events.foldl (Sys.step engine) sys).entriesOf run = sys.entriesOf run ∧
      ∃ next, Stalled engine (events.foldl (Sys.step engine) sys) run file next ∧
        next.budget engine file ≤
          phase.budget engine file - events.countP (Event.actsOn run) := by
  induction events generalizing sys phase with
  | nil => exact ⟨rfl, phase, hstalled, by simp⟩
  | cons event events ih =>
      have hevent := hkeeps event List.mem_cons_self
      obtain ⟨hsame, next, hnext, hbudget⟩ := hstalled.step h hevent
      obtain ⟨hsame', last, hlast, hbudget'⟩ :=
        ih (h.step hevent) hnext fun e he => hkeeps e (List.mem_cons_of_mem _ he)
      refine ⟨hsame'.trans hsame, last, hlast, ?_⟩
      rw [List.countP_cons]
      omega

/-! ## Exactly once -/

/-- What is committed after some events, and what can still be. -/
structure Exact (engine : Engine σ) (app : σ) (events : List Event) : Prop where
  serial : (Sys.run engine app events).db.ledger ≠ none →
    replay engine ⟨app, some []⟩ (Sys.run engine app events).log =
      some (Sys.run engine app events).db
  recorded : ∀ row, row ∈ (Sys.run engine app events).db.ledger.getD [] ↔
    ∃ e ∈ (Sys.run engine app events).log, e.row = row
  whole : ∀ e ∈ (Sys.run engine app events).log,
    e.ran = (engine.statements e.file.sql).length ∧ e.row = e.file.row engine
  once : ((Sys.run engine app events).log.map fun e => e.file.version).Nodup
  ordered : ∀ run, ((Sys.run engine app events).entriesOf run).Pairwise
    fun a b => a.file.version < b.file.version
  stops : ∀ run phase, (Sys.run engine app events).runs[run]? = some phase → phase.Ended →
    ∀ later, (Sys.run engine app (events ++ later)).entriesOf run =
      (Sys.run engine app events).entriesOf run
  modified : ∀ run phase file, (Sys.run engine app events).runs[run]? = some phase →
    phase.file = some file → Differs engine (Sys.run engine app events).db file →
    ∀ later, (∀ event ∈ later, event.Keeps engine) →
      (Sys.run engine app (events ++ later)).entriesOf run =
        (Sys.run engine app events).entriesOf run ∧
      ((engine.statements file.sql).length + 4 ≤ later.countP (Event.actsOn run) →
        (∃ err, (Sys.run engine app (events ++ later)).runs[run]? =
          some (.returned (.error err))) ∨
        (Sys.run engine app (events ++ later)).runs[run]? = some .crashed)

theorem budget_le (phase : Phase σ) (file : Migration) :
    phase.budget engine file ≤ (engine.statements file.sql).length + 4 := by
  cases phase <;> simp only [Phase.budget] <;> omega

theorem Stalled.spent {sys : Sys σ} {run : ℕ} {file : Migration} {phase : Phase σ}
    (h : Stalled engine sys run file phase) (hbudget : phase.budget engine file = 0) :
    (∃ err, sys.runs[run]? = some (.returned (.error err))) ∨ sys.runs[run]? = some .crashed := by
  have hphase := h.phase_eq
  rcases h.blocked with hfile | hfailed
  · cases phase with
    | looping => simp [Phase.budget] at hbudget
    | executing => simp [Phase.budget] at hbudget
    | recorded => simp [Phase.budget] at hbudget
    | _ => cases hfile
  · cases phase with
    | undoing => simp [Phase.budget] at hbudget
    | returned result =>
        cases result with
        | error err => exact .inl ⟨err, hphase⟩
        | ok names => exact hfailed.elim
    | crashed => exact .inr hphase
    | _ => exact hfailed.elim

/-- Whatever the interleaving, the faults and the crashes: files are committed whole, with their
rows, once each and in order, and a run that finds a file changed stops there. -/
theorem run_exact {app : σ} {events : List Event} (h : ∀ event ∈ events, event.Keeps engine) :
    Exact engine app events := by
  have hinv : Inv engine app (Sys.run engine app events) := Inv.run h
  refine ⟨hinv.serial, ?_, hinv.whole, hinv.once, hinv.ordered, ?_, ?_⟩
  · intro row
    rw [hinv.rows, List.mem_map]
  · intro run phase hphase hended later
    rw [Sys.run_append]
    exact ended_run hphase hended later
  · intro run phase file hphase hfile hdiffers later hkeeps
    have hstalled : Stalled engine _ run file phase := ⟨hphase, hdiffers, .inl hfile⟩
    obtain ⟨hsame, last, hlast, hbudget⟩ := hstalled.run hinv hkeeps
    rw [Sys.run_append]
    refine ⟨hsame, ?_⟩
    intro hacts
    have hbound := @budget_le σ engine phase file
    exact hlast.spent (by omega)

/-! ## A migration that rewrites the ledger -/

def visitSql : String := "INSERT INTO visits DEFAULT VALUES"

def forgetSql : String := "DELETE FROM _nitr_migrations"

/-- A database that counts its visits, and the digests of the two texts. -/
def visitEngine : Engine ℕ where
  statements sql :=
    if sql = forgetSql then [fun db => some { db with ledger := db.ledger.map fun _ => [] }]
    else [fun db => some { db with app := db.app + 1 }]
  sha256 sql :=
    if sql = forgetSql then
      "b38e5a914d155538a351bd28f0b08960f596f818e34fb82368fa8bbb1335b96c"
    else "c661744a3935aeac673aaac54be1e710d9abf7bb0d1485b597fe093af8346423"

def visitFiles : Listing := .files [("001_visit.sql", some visitSql)]

/-- One run to its end. -/
def visitRun : List Event := .start :: List.replicate 8 (.act 0 false visitFiles)

theorem run_exact_visits :
    (∀ event ∈ visitRun, event.Keeps visitEngine) ∧ Exact visitEngine 0 visitRun := by
  have hkeeps : ∀ event ∈ visitRun, event.Keeps visitEngine := by
    intro event hevent
    rcases List.mem_cons.mp hevent with rfl | hevent
    · trivial
    · obtain rfl := List.eq_of_mem_replicate hevent
      rintro file ⟨entries, hentries, hmem⟩ stmt hstmt db db' hdb
      cases hentries
      have hsql : file.sql = visitSql := by simpa using congrArg Prod.snd (List.mem_singleton.mp hmem)
      have hstmt : stmt = fun db => some { db with app := db.app + 1 } := by
        rw [hsql] at hstmt
        exact List.mem_singleton.mp hstmt
      subst hstmt
      cases hdb
      rfl
  exact ⟨hkeeps, run_exact hkeeps⟩

def forgetFiles : Listing :=
  .files [("001_visit.sql", some visitSql), ("002_forget.sql", some forgetSql)]

/-- Two runs, one after the other. -/
def forgetRuns : List Event :=
  [.start] ++ List.replicate 12 (.act 0 false forgetFiles) ++
    [.start] ++ List.replicate 7 (.act 1 false forgetFiles)

/-- A statement may delete the row of a version, and the next run applies its file again. -/
theorem visit_twice :
    ¬((Sys.run visitEngine 0 forgetRuns).log.map fun e => e.file.version).Nodup := by
  decide +kernel

end Nitr.Migrate
