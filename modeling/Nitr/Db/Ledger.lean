import Nitr.Db.Migrate
import Nitr.Lib.Ensures
import Mathlib.Data.List.Induction

/-! # Migrations are applied once and whole

Over every interleaving of runs, the committed transactions are whole files with their rows, one
a version, and the database is what they make of it one after the other. -/

namespace Nitr.Migrate

variable {σ : Type} {engine : Engine σ}

/-! ## The directory is sorted -/

instance : Std.Total Migration.le := ⟨fun a _ => le_total (toLex (a.version, a.name)) _⟩

instance : IsTrans Migration Migration.le := ⟨fun _ _ _ h h' => le_trans h h'⟩

theorem Migration.le.version_le {a b : Migration} (h : a.le b) : a.version ≤ b.version := by
  rcases Prod.Lex.toLex_le_toLex.mp h with h | h
  · exact h.le
  · exact h.1.le

theorem pairwise_of_findDuplicate {files : List Migration} (hsorted : files.Pairwise Migration.le)
    (h : findDuplicate files = none) : files.Pairwise fun a b => a.version < b.version := by
  induction files with
  | nil => exact .nil
  | cons a rest ih =>
      cases rest with
      | nil => exact List.pairwise_singleton _ _
      | cons b rest =>
          unfold findDuplicate at h
          split at h
          · cases h
          · rename_i hne
            rw [List.pairwise_cons] at hsorted
            have hrest := ih hsorted.2 h
            have hab : a.version < b.version :=
              lt_of_le_of_ne (hsorted.1 b List.mem_cons_self).version_le hne
            refine List.pairwise_cons.mpr ⟨?_, hrest⟩
            intro c hc
            rcases List.mem_cons.mp hc with rfl | hc
            · exact hab
            · exact hab.trans ((List.pairwise_cons.mp hrest).1 c hc)

theorem readEntry_eq_ok {entry : String × Option String} {file : Migration}
    (h : readEntry entry = .ok file) : entry = (file.name, some file.sql) := by
  obtain ⟨name, text⟩ := entry
  unfold readEntry at h
  split at h
  · cases h
  · split at h
    · cases h
    · rename_i htext
      cases h
      exact Prod.ext rfl htext

/-- The texts of a directory. -/
def Listing.Holds (listing : Listing) (file : Migration) : Prop :=
  ∃ entries, listing = .files entries ∧ (file.name, some file.sql) ∈ entries

theorem discover_eq_ok {listing : Listing} {files : List Migration}
    (h : discover listing = .ok files) :
    files.Pairwise (fun a b => a.version < b.version) ∧ ∀ file ∈ files, listing.Holds file := by
  unfold discover at h
  split at h
  · cases h
    exact ⟨.nil, by simp⟩
  · cases h
  · rename_i entries
    split at h
    · cases h
    · rename_i found hfound
      simp only at h
      split at h
      · cases h
      · rename_i hnone
        cases h
        refine ⟨pairwise_of_findDuplicate (List.pairwise_insertionSort _ _) hnone, ?_⟩
        intro file hfile
        have hmem := (List.mem_insertionSort _).mp hfile
        obtain ⟨entry, hentry, hread⟩ := Except.Ensures.exists_of_mem_mapM hfound hmem
        rw [readEntry_eq_ok hread] at hentry
        exact ⟨entries, rfl, List.mem_of_mem_filter hentry⟩

/-! ## Replaying the log -/

/-- The statements of a list, one after the other. -/
def runStmts (stmts : List (Stmt σ)) (db : Db σ) : Option (Db σ) :=
  stmts.foldlM (fun db stmt => stmt db) db

/-- A committed transaction by itself. -/
def Entry.replay (engine : Engine σ) (db : Db σ) (e : Entry) : Option (Db σ) :=
  (runStmts ((engine.statements e.file.sql).take e.ran) db).bind (insertRow · e.row)

/-- Committed transactions, one after the other. -/
def replay (engine : Engine σ) (db : Db σ) (log : List Entry) : Option (Db σ) :=
  log.foldlM (Entry.replay engine) db

/-- The statements of a text leave the ledger alone. -/
def KeepsLedger (engine : Engine σ) (sql : String) : Prop :=
  ∀ stmt ∈ engine.statements sql, ∀ db db' : Db σ, stmt db = some db' → db'.ledger = db.ledger

theorem runStmts_ledger {stmts : List (Stmt σ)}
    (h : ∀ stmt ∈ stmts, ∀ db db' : Db σ, stmt db = some db' → db'.ledger = db.ledger)
    {db db' : Db σ} (hrun : runStmts stmts db = some db') : db'.ledger = db.ledger := by
  induction stmts generalizing db with
  | nil =>
      cases hrun
      rfl
  | cons stmt stmts ih =>
      simp only [runStmts, List.foldlM_cons, Option.bind_eq_bind, Option.bind_eq_some_iff] at hrun
      obtain ⟨mid, hmid, hrest⟩ := hrun
      rw [ih (fun s hs => h s (List.mem_cons_of_mem _ hs)) hrest,
        h stmt List.mem_cons_self db mid hmid]

theorem insertRow_eq_some {db db' : Db σ} {row : Row} :
    insertRow db row = some db' ↔ ∃ rows, db.ledger = some rows ∧
      row.version ∉ rows.map Row.version ∧ db' = { db with ledger := some (rows ++ [row]) } := by
  unfold insertRow
  cases db.ledger with
  | none => simp
  | some rows =>
      simp only [Option.ite_none_left_eq_some, Option.some.injEq, exists_eq_left']
      rw [@eq_comm _ db']

theorem replay_append {db : Db σ} {log : List Entry} {e : Entry} :
    replay engine db (log ++ [e]) = (replay engine db log).bind fun db => e.replay engine db := by
  simp [replay]

/-! ## What holds of a run between its steps -/

/-- The files a run has still to apply, after those it has committed. -/
structure Queue (engine : Engine σ) (mine : List Entry) (files : List Migration) : Prop where
  sorted : files.Pairwise fun a b => a.version < b.version
  ahead : ∀ e ∈ mine, ∀ file ∈ files, e.file.version < file.version
  keeps : ∀ file ∈ files, KeepsLedger engine file.sql

theorem Queue.tail {mine : List Entry} {file : Migration} {files : List Migration}
    (h : Queue engine mine (file :: files)) : Queue engine mine files where
  sorted := (List.pairwise_cons.mp h.sorted).2
  ahead e he f hf := h.ahead e he f (List.mem_cons_of_mem _ hf)
  keeps f hf := h.keeps f (List.mem_cons_of_mem _ hf)

/-- A transaction that has seen every commit works on the database as the statements leave it. -/
def Working (engine : Engine σ) (db : Db σ) (commits : ℕ) (file : Migration) (ran : ℕ) :
    Option (Txn σ) → Prop
  | none => ran = 0
  | some txn => txn.base ≤ commits ∧
      (txn.base = commits → runStmts ((engine.statements file.sql).take ran) db = some txn.work)

/-- The transaction that has also recorded its file. -/
def Recorded (engine : Engine σ) (db : Db σ) (commits : ℕ) (file : Migration) (txn : Txn σ) : Prop :=
  txn.base ≤ commits ∧
    (txn.base = commits → ∃ work, runStmts (engine.statements file.sql) db = some work ∧
      insertRow work (file.row engine) = some txn.work)

/-- What a run knows of a database it shares; `mine` are its own transactions. -/
def Good (engine : Engine σ) (db : Db σ) (commits : ℕ) (mine : List Entry) : Phase σ → Prop
  | .ensuring => mine = []
  | .reading => mine = [] ∧ db.ledger ≠ none
  | .listing seen => mine = [] ∧ db.ledger ≠ none ∧ seen ⊆ applied db
  | .looping loop => db.ledger ≠ none ∧ loop.applied ⊆ applied db ∧ Queue engine mine loop.todo
  | .executing loop file ran txn =>
      (db.ledger ≠ none ∧ loop.applied ⊆ applied db ∧ Queue engine mine (file :: loop.todo)) ∧
        ran ≤ (engine.statements file.sql).length ∧ Working engine db commits file ran txn
  | .recorded loop file ran txn =>
      (db.ledger ≠ none ∧ loop.applied ⊆ applied db ∧ Queue engine mine (file :: loop.todo)) ∧
        ran = (engine.statements file.sql).length ∧ Recorded engine db commits file txn
  | .undoing _ => True
  | .returned _ => True
  | .crashed => True

/-- Another run's commit keeps what a run knows; its open transaction can no longer commit. -/
theorem Good.later {db db' : Db σ} {commits commits' : ℕ} {mine : List Entry} {phase : Phase σ}
    (h : Good engine db commits mine phase) (hledger : db.ledger ≠ none → db'.ledger ≠ none)
    (happlied : applied db ⊆ applied db') (hcommits : commits < commits') :
    Good engine db' commits' mine phase := by
  cases phase with
  | ensuring => exact h
  | reading => exact ⟨h.1, hledger h.2⟩
  | listing seen => exact ⟨h.1, hledger h.2.1, List.Subset.trans h.2.2 happlied⟩
  | looping loop => exact ⟨hledger h.1, List.Subset.trans h.2.1 happlied, h.2.2⟩
  | executing loop file ran txn =>
      obtain ⟨⟨hl, ha, hq⟩, hran, hwork⟩ := h
      refine ⟨⟨hledger hl, List.Subset.trans ha happlied, hq⟩, hran, ?_⟩
      cases txn with
      | none => exact hwork
      | some txn =>
          have hbase : txn.base ≤ commits := hwork.1
          exact ⟨by omega, fun hnow => by omega⟩
  | recorded loop file ran txn =>
      obtain ⟨⟨hl, ha, hq⟩, hran, hbase, _⟩ := h
      exact ⟨⟨hledger hl, List.Subset.trans ha happlied, hq⟩, hran, by omega, fun hnow => by omega⟩
  | undoing file => trivial
  | returned result => trivial
  | crashed => trivial

theorem Good.crash {db : Db σ} {commits : ℕ} {mine : List Entry} (phase : Phase σ) :
    Good engine db commits mine phase.crash := by
  cases phase <;> trivial

theorem Good.nextFile {db : Db σ} {commits : ℕ} {mine : List Entry} {loop : Loop}
    (h : Good engine db commits mine (.looping loop)) (fault : Bool) :
    Good engine db commits mine (nextFile engine loop fault) := by
  obtain ⟨hledger, happlied, hqueue⟩ := h
  unfold Migrate.nextFile
  split
  · trivial
  · rename_i file rest htodo
    rw [htodo] at hqueue
    split
    · split
      · exact ⟨hledger, happlied, hqueue.tail⟩
      · trivial
    · split
      · trivial
      · exact ⟨⟨hledger, happlied, hqueue⟩, Nat.zero_le _, rfl⟩

theorem runStmts_take_succ {stmts : List (Stmt σ)} {ran : ℕ} {stmt : Stmt σ} {db : Db σ}
    (h : stmts[ran]? = some stmt) :
    runStmts (stmts.take (ran + 1)) db = (runStmts (stmts.take ran) db).bind stmt := by
  rw [List.take_add_one, h]
  simp [runStmts]

theorem Working.current {db : Db σ} {commits ran : ℕ} {file : Migration} {txn : Option (Txn σ)}
    (h : Working engine db commits file ran txn) :
    (txn.getD ⟨commits, db⟩).base ≤ commits ∧ ((txn.getD ⟨commits, db⟩).base = commits →
      runStmts ((engine.statements file.sql).take ran) db =
        some (txn.getD ⟨commits, db⟩).work) := by
  cases txn with
  | none =>
      obtain rfl : ran = 0 := h
      exact ⟨le_rfl, fun _ => rfl⟩
  | some txn => exact h

theorem Good.execute {db : Db σ} {commits : ℕ} {mine : List Entry} {loop : Loop}
    {file : Migration} {ran : ℕ} {txn : Option (Txn σ)}
    (h : Good engine db commits mine (.executing loop file ran txn)) (fault : Bool) :
    Good engine db commits mine (execute engine db commits fault loop file ran txn) := by
  obtain ⟨hknown, hran, hwork⟩ := h
  obtain ⟨hbase, hcurrent⟩ := hwork.current
  unfold Migrate.execute
  simp only
  split
  · trivial
  · split
    · rename_i stmt hstmt
      have hlt : ran < (engine.statements file.sql).length := (List.getElem?_eq_some_iff.mp hstmt).1
      split
      · rename_i work hdone
        refine ⟨hknown, hlt, hbase, ?_⟩
        intro hnow
        rw [runStmts_take_succ hstmt, hcurrent hnow]
        exact hdone
      · trivial
    · rename_i hend
      have hall : ran = (engine.statements file.sql).length :=
        le_antisymm hran (List.getElem?_eq_none_iff.mp hend)
      split
      · rename_i work hinsert
        refine ⟨hknown, hall, hbase, ?_⟩
        intro hnow
        refine ⟨_, ?_, hinsert⟩
        rw [← hcurrent hnow, hall, List.take_length]
      · trivial

/-- What a step of a run can be: quiet, the creation of the ledger, or the commit of a whole
file. -/
theorem Good.act {db : Db σ} {commits : ℕ} {mine : List Entry} {phase : Phase σ}
    (h : Good engine db commits mine phase) (fault : Bool) {listing : Listing}
    (hkeeps : ∀ file, listing.Holds file → KeepsLedger engine file.sql) :
    (∃ next, phase.act engine db commits fault listing = (next, .nothing) ∧
      Good engine db commits mine next) ∨
    (phase = .ensuring ∧ phase.act engine db commits fault listing = (.reading, .created)) ∨
    (∃ loop file txn,
      phase = .recorded loop file (engine.statements file.sql).length txn ∧
      txn.base = commits ∧
      phase.act engine db commits fault listing =
        (.looping { loop with done := loop.done ++ [file.name] },
          .committed txn.work file (engine.statements file.sql).length)) := by
  cases phase with
  | ensuring =>
      cases fault with
      | true => exact .inl ⟨_, rfl, trivial⟩
      | false => exact .inr (.inl ⟨rfl, rfl⟩)
  | reading =>
      cases fault with
      | true => exact .inl ⟨_, rfl, trivial⟩
      | false => exact .inl ⟨_, rfl, h.1, h.2, List.Subset.refl _⟩
  | listing seen =>
      obtain ⟨rfl, hledger, happlied⟩ := h
      cases hdiscover : discover listing with
      | error err => exact .inl ⟨.returned (.error err), by rw [Phase.act, hdiscover], trivial⟩
      | ok files =>
          obtain ⟨hsorted, hholds⟩ := discover_eq_ok hdiscover
          refine .inl ⟨.looping ⟨seen, files, []⟩, by rw [Phase.act, hdiscover], hledger, happlied,
            hsorted, by simp, ?_⟩
          intro file hfile
          exact hkeeps file (hholds file hfile)
  | looping loop => exact .inl ⟨_, rfl, h.nextFile fault⟩
  | executing loop file ran txn => exact .inl ⟨_, rfl, h.execute fault⟩
  | recorded loop file ran txn =>
      by_cases hfails : fault = true ∨ txn.base ≠ commits
      · exact .inl ⟨.undoing file, by rw [Phase.act, if_pos hfails], trivial⟩
      · obtain ⟨_, rfl, _⟩ := h
        refine .inr (.inr ⟨loop, file, txn, rfl, ?_, by rw [Phase.act, if_neg hfails]⟩)
        by_contra hbase
        exact hfails (.inr hbase)
  | undoing file => exact .inl ⟨_, rfl, trivial⟩
  | returned result => exact .inl ⟨_, rfl, trivial⟩
  | crashed => exact .inl ⟨_, rfl, trivial⟩

/-! ## What holds of the database -/

/-- The transactions of one run. -/
def Sys.entriesOf (sys : Sys σ) (run : ℕ) : List Entry := sys.log.filter fun e => e.run = run

/-- The invariant of a shared database that started with the tables `app`. -/
structure Inv (engine : Engine σ) (app : σ) (sys : Sys σ) : Prop where
  untouched : sys.db.ledger = none → sys.db = ⟨app, none⟩ ∧ sys.log = []
  serial : sys.db.ledger ≠ none → replay engine ⟨app, some []⟩ sys.log = some sys.db
  rows : sys.db.ledger.getD [] = sys.log.map Entry.row
  whole : ∀ e ∈ sys.log, e.ran = (engine.statements e.file.sql).length ∧ e.row = e.file.row engine
  once : (sys.log.map fun e => e.file.version).Nodup
  ordered : ∀ run, (sys.entriesOf run).Pairwise fun a b => a.file.version < b.file.version
  known : ∀ e ∈ sys.log, e.run < sys.runs.length
  good : ∀ run phase, sys.runs[run]? = some phase →
    Good engine sys.db sys.commits (sys.entriesOf run) phase

theorem Inv.init (app : σ) : Inv engine app (.init app) where
  untouched _ := ⟨rfl, rfl⟩
  serial h := absurd rfl h
  rows := rfl
  whole := by simp [Sys.init]
  once := List.nodup_nil
  ordered _ := .nil
  known := by simp [Sys.init]
  good := by simp [Sys.init]

theorem Inv.versions {app : σ} {sys : Sys σ} (h : Inv engine app sys) :
    (sys.db.ledger.getD []).map Row.version = sys.log.map fun e => e.file.version := by
  rw [h.rows, List.map_map]
  refine List.map_congr_left fun e he => ?_
  rw [Function.comp_apply, (h.whole e he).2, Migration.row]

/-- A step that only moves one run. -/
theorem Inv.moved {app : σ} {sys : Sys σ} (h : Inv engine app sys) {run : ℕ} {phase : Phase σ}
    (hgood : Good engine sys.db sys.commits (sys.entriesOf run) phase) :
    Inv engine app { sys with runs := sys.runs.set run phase } := by
  refine { h with known := ?_, good := ?_ }
  · simpa using h.known
  · intro run' phase' hphase
    rw [List.getElem?_set] at hphase
    split at hphase
    · rename_i heq
      subst heq
      split at hphase
      · cases hphase
        exact hgood
      · cases hphase
    · exact h.good run' phase' hphase

/-- The creation of the ledger. -/
theorem Inv.created {app : σ} {sys : Sys σ} (h : Inv engine app sys) (hnone : sys.db.ledger = none) :
    Inv engine app
      { sys with db := { sys.db with ledger := some [] }, commits := sys.commits + 1 } := by
  obtain ⟨hdb, hlog⟩ := h.untouched hnone
  refine { h with untouched := ?_, serial := ?_, rows := ?_, good := ?_ }
  · simp
  · intro _
    simp [hlog, hdb, replay]
  · simp [hlog]
  · intro run phase hphase
    refine (h.good run phase hphase).later (by simp) ?_ (Nat.lt_succ_self _)
    simp [applied, hnone]

/-- The facts of a commit. -/
structure Commits (engine : Engine σ) (sys : Sys σ) (run : ℕ) (file : Migration) (work : Db σ) :
    Prop where
  ledger : sys.db.ledger ≠ none
  file_last : ∀ e ∈ sys.entriesOf run, e.file.version < file.version
  keeps : KeepsLedger engine file.sql
  executed : ∃ mid, runStmts (engine.statements file.sql) sys.db = some mid ∧
    insertRow mid (file.row engine) = some work

theorem Commits.rows {sys : Sys σ} {run : ℕ} {file : Migration} {work : Db σ}
    (h : Commits engine sys run file work) : ∃ rows, sys.db.ledger = some rows ∧
      file.version ∉ rows.map Row.version ∧ work.ledger = some (rows ++ [file.row engine]) := by
  obtain ⟨mid, hmid, hinsert⟩ := h.executed
  obtain ⟨rows, hrows, hnew, rfl⟩ := insertRow_eq_some.mp hinsert
  rw [runStmts_ledger h.keeps hmid] at hrows
  exact ⟨rows, hrows, hnew, rfl⟩

theorem Sys.entriesOf_append {sys : Sys σ} {run run' : ℕ} {e : Entry} (he : e.run = run) :
    (sys.log ++ [e]).filter (fun e => e.run = run') =
      sys.entriesOf run' ++ if run = run' then [e] else [] := by
  rw [List.filter_append, Sys.entriesOf]
  by_cases h : run = run' <;> simp [h, he]

/-- The commit of a whole file. -/
theorem Inv.committed {app : σ} {sys : Sys σ} (h : Inv engine app sys) {run : ℕ} {file : Migration}
    {work : Db σ} (hcommits : Commits engine sys run file work) {loop : Loop}
    (hloop : loop.applied ⊆ applied sys.db) (hqueue : Queue engine (sys.entriesOf run) (file :: loop.todo))
    (hrun : run < sys.runs.length) :
    Inv engine app
      { db := work
        commits := sys.commits + 1
        log := sys.log ++ [⟨run, file, (engine.statements file.sql).length, file.row engine⟩]
        runs := sys.runs.set run (.looping loop) } := by
  obtain ⟨rows, hrows, hnew, hwork⟩ := hcommits.rows
  have happlied : applied sys.db ⊆ applied work := by
    simp [applied, hrows, hwork]
  refine ⟨?_, ?_, ?_, ?_, ?_, ?_, ?_, ?_⟩
  · simp [hwork]
  · intro _
    obtain ⟨mid, hmid, hinsert⟩ := hcommits.executed
    rw [replay_append, h.serial hcommits.ledger, Option.bind_some, Entry.replay, List.take_length,
      hmid]
    exact hinsert
  · have hrows' := h.rows
    rw [hrows, Option.getD_some] at hrows'
    simp [hwork, hrows']
  · intro e he
    rcases List.mem_append.mp he with he | he
    · exact h.whole e he
    · obtain rfl := List.mem_singleton.mp he
      exact ⟨rfl, rfl⟩
  · have hversions := h.versions
    rw [hrows, Option.getD_some] at hversions
    rw [hversions] at hnew
    rw [List.map_append, List.nodup_append]
    refine ⟨h.once, by simp, ?_⟩
    intro v hv v' hv' heq
    have hversion : v = file.version := heq.trans (List.mem_singleton.mp hv')
    exact hnew (hversion ▸ hv)
  · intro run'
    rw [Sys.entriesOf, Sys.entriesOf_append rfl]
    split
    · rename_i heq
      subst heq
      refine List.pairwise_append.mpr ⟨h.ordered run, List.pairwise_singleton _ _, ?_⟩
      intro e he e' he'
      obtain rfl := List.mem_singleton.mp he'
      exact hcommits.file_last e he
    · simpa using h.ordered run'
  · intro e he
    rw [List.length_set]
    rcases List.mem_append.mp he with he | he
    · exact h.known e he
    · obtain rfl := List.mem_singleton.mp he
      exact hrun
  · intro run' phase hphase
    rw [Sys.entriesOf, Sys.entriesOf_append rfl]
    rw [List.getElem?_set] at hphase
    split at hphase
    · rename_i heq
      subst heq
      cases hphase
      refine ⟨by simp [hwork], List.Subset.trans hloop happlied, hqueue.tail.sorted, ?_,
        hqueue.tail.keeps⟩
      intro e he f hf
      rcases List.mem_append.mp he with he | he
      · exact hqueue.tail.ahead e he f hf
      · rw [if_pos rfl] at he
        obtain rfl := List.mem_singleton.mp he
        exact (List.pairwise_cons.mp hqueue.sorted).1 f hf
    · rename_i hne
      rw [if_neg hne, List.append_nil]
      exact (h.good run' phase hphase).later (by simp [hwork]) happlied (Nat.lt_succ_self _)

/-! ## Every interleaving -/

/-- The texts an event lets a run read leave the ledger alone. -/
def Event.Keeps (engine : Engine σ) : Event → Prop
  | .act _ _ listing => ∀ file, listing.Holds file → KeepsLedger engine file.sql
  | _ => True

theorem Inv.started {app : σ} {sys : Sys σ} (h : Inv engine app sys) :
    Inv engine app { sys with runs := sys.runs ++ [.ensuring] } := by
  refine { h with known := ?_, good := ?_ }
  · intro e he
    have hlt := h.known e he
    simp only [List.length_append, List.length_singleton]
    omega
  · intro run phase hphase
    rcases Nat.lt_trichotomy run sys.runs.length with hlt | rfl | hgt
    · rw [List.getElem?_append_left hlt] at hphase
      exact h.good run phase hphase
    · rw [List.getElem?_concat_length] at hphase
      cases hphase
      refine List.filter_eq_nil_iff.mpr fun e he => ?_
      simpa using Nat.ne_of_lt (h.known e he)
    · rw [List.getElem?_eq_none (by simp; omega)] at hphase
      cases hphase

theorem Inv.crashed {app : σ} {sys : Sys σ} (h : Inv engine app sys) (run : ℕ) :
    Inv engine app { sys with runs := sys.runs.modify run Phase.crash } := by
  refine { h with known := ?_, good := ?_ }
  · simpa using h.known
  · intro run' phase hphase
    rw [List.getElem?_modify] at hphase
    obtain ⟨before, hbefore, hphase⟩ := Option.map_eq_some_iff.mp hphase
    split at hphase
    · rw [← hphase]
      exact Good.crash before
    · rw [← hphase]
      exact h.good run' before hbefore

theorem Inv.step {app : σ} {sys : Sys σ} (h : Inv engine app sys) {event : Event}
    (hkeeps : event.Keeps engine) : Inv engine app (sys.step engine event) := by
  cases event with
  | start => exact h.started
  | crash run => exact h.crashed run
  | act run fault listing =>
      simp only [Sys.step]
      cases hphase : sys.runs[run]? with
      | none => exact h
      | some phase =>
          have hrun : run < sys.runs.length := (List.getElem?_eq_some_iff.mp hphase).1
          obtain ⟨next, hact, hgood⟩ | ⟨rfl, hact⟩ | ⟨loop, file, txn, rfl, hbase, hact⟩ :=
            (h.good run phase hphase).act fault hkeeps
          · simp only [hact]
            exact h.moved hgood
          · have hempty := h.good run _ hphase
            simp only [hact, Sys.apply]
            split
            · rename_i rows hrows
              exact h.moved ⟨hempty, by simp [hrows]⟩
            · rename_i hnone
              exact (h.created hnone).moved ⟨hempty, by simp⟩
          · obtain ⟨⟨hledger, happlied, hqueue⟩, _, _, hexecuted⟩ := h.good run _ hphase
            simp only [hact, Sys.apply]
            refine h.committed ⟨hledger, ?_, ?_, hexecuted hbase⟩ happlied hqueue hrun
            · intro e he
              exact hqueue.ahead e he file List.mem_cons_self
            · exact hqueue.keeps file List.mem_cons_self

theorem Sys.run_append {app : σ} {events events' : List Event} :
    Sys.run engine app (events ++ events') =
      events'.foldl (Sys.step engine) (Sys.run engine app events) := List.foldl_append

theorem Inv.run {app : σ} {events : List Event} (h : ∀ event ∈ events, event.Keeps engine) :
    Inv engine app (Sys.run engine app events) := by
  induction events using List.reverseRecOn with
  | nil => exact .init app
  | append_singleton events event ih =>
      rw [Sys.run_append]
      exact (ih fun e he => h e (by simp [he])).step (h event (by simp))

end Nitr.Migrate
