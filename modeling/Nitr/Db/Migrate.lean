import Mathlib.Data.List.Sort
import Mathlib.Data.Prod.Lex
import Mathlib.Data.String.Basic
import Nitr.Lib.Text

/-! # Schema migrations

`db/migrate.rs`: numbered SQL files are applied in order, each in a transaction that also records
it in the ledger. Any number of runs share a database. A transaction works on the state it first
reads and commits only if nothing was committed since; every statement, and every commit, may
also fail by itself. -/

namespace Nitr.Migrate

/-- A row of `_nitr_migrations`. -/
structure Row where
  version : ℤ
  name : String
  checksum : String
deriving DecidableEq

/-- A database: the tables of the application, and the ledger once it exists. -/
structure Db (σ : Type) where
  app : σ
  ledger : Option (List Row)

/-- A statement fails or changes the database. -/
abbrev Stmt (σ : Type) := Db σ → Option (Db σ)

/-- The statements of a text, and the hex SHA-256 of it. -/
structure Engine (σ : Type) where
  statements : String → List (Stmt σ)
  sha256 : String → String

/-- One migration file. -/
structure Migration where
  version : ℤ
  name : String
  sql : String
deriving DecidableEq

inductive MigrateError where
  | cannotCreate
  | cannotRead
  | cannotList
  | noVersion (name : String)
  | cannotReadFile (name : String)
  | sharedVersion (first second : String) (version : ℤ)
  | modified (name : String)
  | failed (name : String)
deriving DecidableEq

/-! ## The directory -/

/-- What reading the directory finds: names with their texts, `none` for a text that cannot be
read. -/
inductive Listing where
  | missing
  | unreadable
  | files (entries : List (String × Option String))

/-- `path.extension()` is `sql`. -/
def hasSqlExtension (name : String) : Bool :=
  (name.toList.rsplitOnce '.').any fun parts => parts.1 ≠ [] && parts.2 = ['s', 'q', 'l']

/-- The number a name starts with. -/
def parseVersion (name : String) : Option ℤ :=
  let digits := name.toList.takeWhile Char.isDigit
  let value := digits.foldl (fun n c => n * 10 + (c.toNat - '0'.toNat)) 0
  if digits = [] ∨ 9223372036854775807 < value then none else some value

/-- One file of the directory. -/
def readEntry (entry : String × Option String) : Except MigrateError Migration :=
  match parseVersion entry.1 with
  | none => .error (.noVersion entry.1)
  | some version =>
      match entry.2 with
      | none => .error (.cannotReadFile entry.1)
      | some sql => .ok ⟨version, entry.1, sql⟩

/-- The order of the files. -/
def Migration.le (a b : Migration) : Prop := toLex (a.version, a.name) ≤ toLex (b.version, b.name)

instance : DecidableRel Migration.le := fun a b =>
  inferInstanceAs (Decidable (toLex (a.version, a.name) ≤ toLex (b.version, b.name)))

/-- Two neighbours of one version. -/
def findDuplicate : List Migration → Option (Migration × Migration)
  | a :: b :: rest => if a.version = b.version then some (a, b) else findDuplicate (b :: rest)
  | _ => none

def discover (listing : Listing) : Except MigrateError (List Migration) :=
  match listing with
  | .missing => .ok []
  | .unreadable => .error .cannotList
  | .files entries =>
      match (entries.filter fun e => hasSqlExtension e.1).mapM readEntry with
      | .error err => .error err
      | .ok found =>
          let found := found.insertionSort Migration.le
          match findDuplicate found with
          | some (a, b) => .error (.sharedVersion a.name b.name a.version)
          | none => .ok found

/-! ## One run -/

/-- `version → checksum` of everything applied. -/
def applied {σ : Type} (db : Db σ) : List (ℤ × String) :=
  (db.ledger.getD []).map fun row => (row.version, row.checksum)

/-- The insertion into the ledger; the version is its primary key. -/
def insertRow {σ : Type} (db : Db σ) (row : Row) : Option (Db σ) :=
  match db.ledger with
  | none => none
  | some rows =>
      if row.version ∈ rows.map Row.version then none
      else some { db with ledger := some (rows ++ [row]) }

/-- An open transaction: the number of commits it has seen and the state it works on. -/
structure Txn (σ : Type) where
  base : ℕ
  work : Db σ

/-- The variables of the loop. -/
structure Loop where
  applied : List (ℤ × String)
  todo : List Migration
  done : List String

/-- Where a run stands. -/
inductive Phase (σ : Type) where
  | ensuring
  | reading
  | listing (applied : List (ℤ × String))
  | looping (loop : Loop)
  | executing (loop : Loop) (file : Migration) (ran : ℕ) (txn : Option (Txn σ))
  | recorded (loop : Loop) (file : Migration) (ran : ℕ) (txn : Txn σ)
  | undoing (file : Migration)
  | returned (result : Except MigrateError (List String))
  | crashed

/-- What a step of a run does to the database. -/
inductive Effect (σ : Type) where
  | nothing
  | created
  | committed (work : Db σ) (file : Migration) (ran : ℕ)

section

variable {σ : Type} (engine : Engine σ)

def Migration.row (file : Migration) : Row := ⟨file.version, file.name, engine.sha256 file.sql⟩

/-- One iteration of the loop up to `BEGIN`. -/
def nextFile (loop : Loop) (fault : Bool) : Phase σ :=
  match loop.todo with
  | [] => .returned (.ok loop.done)
  | file :: rest =>
      match loop.applied.lookup file.version with
      | some recorded =>
          if recorded = engine.sha256 file.sql then .looping { loop with todo := rest }
          else .returned (.error (.modified file.name))
      | none =>
          if fault then .returned (.error (.failed file.name))
          else .executing { loop with todo := rest } file 0 none

/-- The next statement of a migration, or the row that records it. `BEGIN` is deferred: the first
statement fixes the state the transaction works on. -/
def execute (db : Db σ) (commits : ℕ) (fault : Bool) (loop : Loop) (file : Migration) (ran : ℕ)
    (txn : Option (Txn σ)) : Phase σ :=
  let txn := txn.getD ⟨commits, db⟩
  if fault then .undoing file
  else
    match (engine.statements file.sql)[ran]? with
    | some stmt =>
        match stmt txn.work with
        | some work => .executing loop file (ran + 1) (some { txn with work })
        | none => .undoing file
    | none =>
        match insertRow txn.work (file.row engine) with
        | some work => .recorded loop file ran { txn with work }
        | none => .undoing file

/-- One step of `run`. -/
def Phase.act (db : Db σ) (commits : ℕ) (fault : Bool) (listing : Listing) :
    Phase σ → Phase σ × Effect σ
  | .ensuring => if fault then (.returned (.error .cannotCreate), .nothing) else (.reading, .created)
  | .reading =>
      if fault then (.returned (.error .cannotRead), .nothing) else (.listing (applied db), .nothing)
  | .listing applied =>
      match discover listing with
      | .error err => (.returned (.error err), .nothing)
      | .ok todo => (.looping ⟨applied, todo, []⟩, .nothing)
  | .looping loop => (nextFile engine loop fault, .nothing)
  | .executing loop file ran txn => (execute engine db commits fault loop file ran txn, .nothing)
  | .recorded loop file ran txn =>
      if fault ∨ txn.base ≠ commits then (.undoing file, .nothing)
      else
        (.looping { loop with done := loop.done ++ [file.name] }, .committed txn.work file ran)
  -- A `ROLLBACK` that fails is only logged: the transaction ends with the connection.
  | .undoing file => (.returned (.error (.failed file.name)), .nothing)
  | .returned result => (.returned result, .nothing)
  | .crashed => (.crashed, .nothing)

/-- The process of a run dies; one that has returned is not affected. -/
def Phase.crash : Phase σ → Phase σ
  | .returned result => .returned result
  | _ => .crashed

/-! ## Runs that share a database -/

/-- A committed transaction: the run it belongs to, the statements of its file it executed, and
the row it inserted. -/
structure Entry where
  run : ℕ
  file : Migration
  ran : ℕ
  row : Row

structure Sys (σ : Type) where
  db : Db σ
  commits : ℕ
  log : List Entry
  runs : List (Phase σ)

inductive Event where
  | start
  | act (run : ℕ) (fault : Bool) (listing : Listing)
  | crash (run : ℕ)

/-- What an effect makes of the database and the log. -/
def Sys.apply (sys : Sys σ) (run : ℕ) : Effect σ → Sys σ
  | .nothing => sys
  | .created =>
      match sys.db.ledger with
      | some _ => sys
      | none => { sys with db := { sys.db with ledger := some [] }, commits := sys.commits + 1 }
  | .committed work file ran =>
      { sys with
        db := work
        commits := sys.commits + 1
        log := sys.log ++ [⟨run, file, ran, file.row engine⟩] }

def Sys.step (sys : Sys σ) : Event → Sys σ
  | .start => { sys with runs := sys.runs ++ [.ensuring] }
  | .act run fault listing =>
      match sys.runs[run]? with
      | none => sys
      | some phase =>
          let out := phase.act engine sys.db sys.commits fault listing
          { sys.apply engine run out.2 with runs := sys.runs.set run out.1 }
  | .crash run => { sys with runs := sys.runs.modify run Phase.crash }

/-- A database before the first migration. -/
def Sys.init (app : σ) : Sys σ := ⟨⟨app, none⟩, 0, [], []⟩

def Sys.run (app : σ) (events : List Event) : Sys σ := events.foldl (Sys.step engine) (.init app)

end

end Nitr.Migrate
