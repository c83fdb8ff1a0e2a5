import Nitr.Db.Transaction

/-! # Blocking jobs and dropped handlers

`run_blocking` hands its work to the blocking pool and awaits it. A handler that is cut off
drops its future at an await point: its guards run at once, while the jobs it has submitted
stay queued for the connection's mutex and run later. The system below takes requests of one
Lua state one after another; queued jobs take the mutex in any order. -/

namespace Nitr.Db.Jobs

/-- What a job does once it holds the connection. -/
inductive Work (W : Type) where
  | write (w : W)
  | batch (sqls : List (Sql (Option ℕ × W)))
  | rollbackIfOpen
  deriving DecidableEq, Repr

/-- A submitted job: the `db:transaction` call it belongs to (`none` for the `nitr.db`
handle), the `outer` argument of `run_blocking`, its work, and whether the future that
awaited it is gone. -/
structure Job (W : Type) where
  call : Option ℕ
  outer : Bool
  work : Work W
  abandoned : Bool
  deriving DecidableEq, Repr

/-- A `LuaTransaction` with the `db:transaction` call it belongs to. -/
structure TxScope where
  savepoints : ℕ
  alive : Bool
  call : ℕ
  deriving DecidableEq, Repr

/-- A `transaction` call on the handler's stack; `none` names the one of `nitr.db`. -/
structure Active where
  scope : ℕ
  name : Option String
  deriving DecidableEq, Repr

/-- What the handler awaits, and the result once it is there. -/
inductive Phase where
  | running
  | statements (all : Bool) (left : ℕ)
  | beginning (name : Option String) (result : Option Bool)
  | committing (result : Option Bool)
  | rollingBack (result : Option Bool)
  deriving DecidableEq, Repr

def Phase.complete (ok : Bool) : Phase → Phase
  | .running => .running
  | .statements all left => .statements all (left - 1)
  | .beginning name _ => .beginning name (some ok)
  | .committing _ => .committing (some ok)
  | .rollingBack _ => .rollingBack (some ok)

/-- A write that became durable: the call that issued it, and the call whose job made it
durable, `none` for a write that committed on its own. -/
structure Durable where
  issuer : Option ℕ
  carrier : Option ℕ
  deriving DecidableEq, Repr

structure Sys (W : Type) where
  conn : Conn (Option ℕ × W)
  inTransaction : Bool
  scopes : List TxScope
  /-- How many times `db:transaction` was called; the last call's number. -/
  call : ℕ
  calls : List Active
  phase : Phase
  queue : List (Job W)
  durable : List Durable
  deriving DecidableEq, Repr

inductive Event (W : Type) where
  /-- `db:execute`, `tx:execute` and their siblings. -/
  | stmt (origin : Origin) (w : W)
  /-- `await_all` over query handles. -/
  | awaitAll (queries : List (Origin × W))
  /-- `await_all` fails early and drops the queries it has not finished. -/
  | giveUp
  | transaction (origin : Origin)
  /-- The innermost body returns or raises. -/
  | finish (raises : Bool)
  /-- The awaited result is there and the handler goes on. -/
  | resume
  /-- The handler's timeout drops its future. -/
  | drop
  /-- The `i`-th queued job takes the mutex, and the engine accepts or refuses its
  statements. -/
  | run (i : ℕ) (stale : Reply) (oks : List Bool)
  deriving DecidableEq, Repr

variable {W : Type}

/-! ## One job under the mutex -/

/-- Statements accepted or refused one by one. -/
def answers (oks : List Bool) : List Reply :=
  oks.map fun ok => if ok then .ok else .fail

/-- `run_blocking`'s closure. The engine may refuse a statement but never rolls the
transaction back on its own. -/
def Job.exec (j : Job W) (stale : Reply) (oks : List Bool) (c : Conn (Option ℕ × W)) :
    Conn (Option ℕ × W) × Bool :=
  let replies := answers oks
  let res := match j.work with
    | .write w =>
        State.runBlocking j.outer stale (fun s => s.execute [.write (j.call, w)] replies)
          (State.new c)
    | .batch sqls => State.execBatch sqls j.outer stale replies (State.new c)
    | .rollbackIfOpen => State.rollbackIfOpen (replies.headD .ok) (State.new c)
  (res.1.conn, res.2.isOk)

/-- Who made the writes durable that a job of this kind made durable. -/
def Job.carrier (j : Job W) : Option ℕ :=
  match j.work with
  | .write _ => none
  | .batch _ => j.call
  | .rollbackIfOpen => j.call

def Job.abandon (j : Job W) : Job W :=
  { j with abandoned := true }

namespace Sys

def new (committed : List (Option ℕ × W)) : Sys W :=
  ⟨⟨committed, []⟩, false, [], 0, [], .running, [], []⟩

def alive (s : Sys W) (scope : ℕ) : Bool :=
  match s.scopes[scope]? with
  | some t => t.alive
  | none => false

/-- The checks of `tx_conn`, of the outer handle and of `QueryOrigin::check`. -/
def check (s : Sys W) : Origin → Bool
  | .outer => !s.inTransaction
  | .inner scope => s.alive scope

def callOf (s : Sys W) : Origin → Option ℕ
  | .outer => none
  | .inner scope => (s.scopes[scope]?).map TxScope.call

def submit (s : Sys W) (jobs : List (Job W)) (phase : Phase) : Sys W :=
  { s with queue := s.queue ++ jobs, phase := phase }

def query (s : Sys W) (q : Origin × W) : Job W :=
  ⟨s.callOf q.1, q.1.isOuter, .write q.2, false⟩

/-- `commit` and `rollback` of the call `c`. -/
def commitJob (s : Sys W) (c : Active) : Job W :=
  match c.name with
  | none => ⟨s.callOf (.inner c.scope), false, .batch [.commit], false⟩
  | some name => ⟨s.callOf (.inner c.scope), false, .batch [.release name], false⟩

def rollbackJob (s : Sys W) (c : Active) : Job W :=
  match c.name with
  | none => ⟨s.callOf (.inner c.scope), false, .rollbackIfOpen, false⟩
  | some name => ⟨s.callOf (.inner c.scope), false, .batch [.rollbackTo name, .release name], false⟩

def endScope (scopes : List TxScope) (c : Active) : List TxScope :=
  scopes.modify c.scope fun t => { t with alive := false }

/-- The innermost call ends: `ScopeEnd`, and `TxGuard` for the one of `nitr.db`. -/
def endCall (s : Sys W) : Sys W :=
  match s.calls with
  | [] => s
  | c :: cs =>
      { s with
        scopes := endScope s.scopes c
        calls := cs
        inTransaction := if c.name = none then false else s.inTransaction
        phase := .running }

/-! ## Steps of the handler -/

def startTransaction (s : Sys W) : Origin → Sys W
  | .outer =>
      { s.submit [⟨some (s.call + 1), true, .batch [.begin_], false⟩] (.beginning none none) with
        call := s.call + 1
        inTransaction := true }
  | .inner scope =>
      match s.scopes[scope]? with
      | none => s
      | some t =>
          let name := State.savepointName t.savepoints
          { s.submit [⟨some t.call, false, .batch [.savepoint name], false⟩]
              (.beginning (some name) none) with
            scopes := s.scopes.modify scope fun t => { t with savepoints := t.savepoints + 1 } }

def resume (s : Sys W) : Sys W :=
  match s.phase with
  | .statements _ 0 => { s with phase := .running }
  | .beginning name (some true) =>
      { s with
        scopes := s.scopes ++ [⟨0, true, s.call⟩]
        calls := ⟨s.scopes.length, name⟩ :: s.calls
        phase := .running }
  | .beginning name (some false) =>
      { s with
        inTransaction := if name = none then false else s.inTransaction
        phase := .running }
  | .committing (some true) => s.endCall
  | .committing (some false) =>
      match s.calls with
      | [] => s
      | c :: _ => s.submit [s.rollbackJob c] (.rollingBack none)
  | .rollingBack (some _) => s.endCall
  | _ => s

/-- Every guard of the dropped future runs; what it submitted stays queued. -/
def drop (s : Sys W) : Sys W :=
  { s with
    queue := s.queue.map Job.abandon
    scopes := s.calls.foldl endScope s.scopes
    calls := []
    inTransaction := false
    phase := .running }

def runJob (s : Sys W) (i : ℕ) (stale : Reply) (oks : List Bool) : Sys W :=
  match s.queue[i]? with
  | none => s
  | some j =>
      let res := j.exec stale oks s.conn
      { s with
        conn := res.1
        queue := s.queue.eraseIdx i
        phase := if j.abandoned then s.phase else s.phase.complete res.2
        durable := s.durable ++
          (res.1.committed.drop s.conn.committed.length).map fun t => ⟨t.1, j.carrier⟩ }

def step (s : Sys W) : Event W → Sys W
  | .stmt origin w =>
      if s.phase = .running ∧ s.check origin = true then
        s.submit [s.query (origin, w)] (.statements false 1)
      else s
  | .awaitAll queries =>
      if s.phase = .running ∧ ∀ q ∈ queries, s.check q.1 = true then
        s.submit (queries.map s.query) (.statements true queries.length)
      else s
  | .giveUp =>
      match s.phase with
      | .statements true _ => { s with queue := s.queue.map Job.abandon, phase := .running }
      | _ => s
  | .transaction origin =>
      if s.phase = .running ∧ s.check origin = true then s.startTransaction origin else s
  | .finish raises =>
      match s.phase, s.calls with
      | .running, c :: _ =>
          if raises then s.submit [s.rollbackJob c] (.rollingBack none)
          else s.submit [s.commitJob c] (.committing none)
      | _, _ => s
  | .resume => s.resume
  | .drop => s.drop
  | .run i stale oks => s.runJob i stale oks

def run : Sys W → List (Event W) → Sys W
  | s, [] => s
  | s, e :: es => (s.step e).run es

end Sys

/-! ## Orderly runs -/

/-- A job that takes the mutex overtakes no job whose future is gone. -/
def Event.Orderly (s : Sys W) : Event W → Prop
  | .run i _ _ => ∀ j ∈ s.queue.take i, j.abandoned = false
  | _ => True

/-- Every job left behind takes the mutex before any job submitted after it. -/
def Orderly : Sys W → List (Event W) → Prop
  | _, [] => True
  | s, e :: es => e.Orderly s ∧ Orderly (s.step e) es

/-- No write of a `tx` is made durable by anything but its own `db:transaction` call. -/
def NoLeak (s : Sys W) : Prop :=
  ∀ d ∈ s.durable, d.carrier = d.issuer

/-- A handler is dropped while its write waits for the mutex. The `BEGIN` of the next
request overtakes it, the write joins the new transaction and is committed with it; or an
outer statement overtakes it and the write commits on its own. -/
theorem overtaken_write_leaks :
    let cut : List (Event ℕ) := [.transaction .outer, .run 0 .ok [], .resume,
      .stmt (.inner 0) 10, .drop]
    let joined := (Sys.new []).run (cut ++ [.transaction .outer, .run 1 .ok [], .resume,
      .run 0 .ok [], .finish false, .run 0 .ok [], .resume])
    let alone := (Sys.new []).run (cut ++ [.stmt .outer 11, .run 1 .ok [], .resume,
      .run 0 .ok []])
    joined.durable = [⟨some 1, some 2⟩] ∧ joined.conn.committed = [(some 1, 10)] ∧
      alone.durable = [⟨none, none⟩, ⟨some 1, none⟩] ∧ ¬ NoLeak joined ∧ ¬ NoLeak alone := by
  intro cut joined alone
  have hjoined : joined.durable = [⟨some 1, some 2⟩] := by decide
  have halone : alone.durable = [⟨none, none⟩, ⟨some 1, none⟩] := by decide
  refine ⟨hjoined, by decide, halone, ?_, ?_⟩
  · intro h
    have hd := h ⟨some 1, some 2⟩ (by simp [hjoined])
    simp at hd
  · intro h
    have hd := h ⟨some 1, none⟩ (by simp [halone])
    simp at hd

end Nitr.Db.Jobs
