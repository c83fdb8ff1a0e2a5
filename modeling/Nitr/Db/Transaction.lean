import Nitr.Db.Engine

/-! # Statements, query handles and transaction scopes

The `nitr.db` handle and the `tx` handles of its transactions, as `State` passing. A Lua
function handed to `transaction` is a function on states; what it may do is spelled out by
the programs of the later modules. -/

namespace Nitr.Db

/-- What a database call can raise. -/
inductive Error where
  /-- `{kind} failed (stmt {tag}): {err}`. -/
  | engine
  | abandonedRollback
  | txEnded
  | queryInTransaction
  | queryTxEnded
  | alreadyAwaited
  | useTx
  | useTxQuery
  | alreadyOpen
  /-- The body's own error value. -/
  | raised
  deriving DecidableEq, Repr

/-- The fixed texts; the engine's and the script's own are theirs. -/
def Error.message : Error → Option String
  | .engine => none
  | .abandonedRollback => none
  | .txEnded =>
      some ("this transaction has ended: a `tx` handle is only valid inside the " ++
        "db:transaction(function(tx) ... end) body that received it")
  | .queryInTransaction =>
      some ("a transaction is open on this connection: a `nitr.db:query_async` handle " ++
        "cannot run inside db:transaction(...); use `tx:query_async` instead")
  | .queryTxEnded =>
      some "this transaction has ended: the `tx:query_async` handle can no longer run"
  | .alreadyAwaited => some "this query handle has already been awaited; build a new one"
  | .useTx =>
      some ("a transaction is open on this connection: use the `tx` handle passed " ++
        "to db:transaction(function(tx) ... end), not `nitr.db`. Statements " ++
        "on the outer handle would join the transaction without saying so.")
  | .useTxQuery => some "a transaction is open on this connection: use the `tx` handle"
  | .alreadyOpen =>
      some ("a transaction is already open on this connection; nest with " ++
        "tx:transaction(...) instead")
  | .raised => none

abbrev Outcome := Except Error Unit

/-- A `LuaTransaction`: the counter that names its savepoints and its `alive` flag. -/
structure Scope where
  savepoints : ℕ
  alive : Bool
  deriving DecidableEq, Repr

/-- `QueryOrigin`: the handle a statement comes from. Scopes are numbered in the order
they are opened. -/
inductive Origin where
  | outer
  | inner (scope : ℕ)
  deriving DecidableEq, Repr

def Origin.isOuter : Origin → Bool
  | .outer => true
  | .inner _ => false

/-- `PendingQuery`. -/
structure Pending (W : Type) where
  origin : Origin
  sql : W
  deriving DecidableEq, Repr

/-- What happens at the connection: a statement reaches the engine (with the query handle
that sent it, if one did), a scope opens, a `transaction` call ends. -/
inductive Mark where
  | stmt (origin : Origin) (query : Option ℕ)
  | began
  | ended
  deriving DecidableEq, Repr

structure Event (W : Type) where
  mark : Mark
  conn : Conn W
  inTransaction : Bool
  calls : List ℕ
  deriving DecidableEq, Repr

/-- One Lua state's database. `calls` are the scopes of the `transaction` calls now on
the Lua stack, innermost first, and `history` what happened so far; the code reads
neither. -/
structure State (W : Type) where
  conn : Conn W
  inTransaction : Bool
  scopes : List Scope
  queries : List (Option (Pending W))
  calls : List ℕ
  history : List (Event W)
  deriving DecidableEq, Repr

/-- The engine's answers during one `transaction` call. -/
structure Replies where
  stale : Reply
  begin_ : Reply
  commit : Reply
  undo : Undo
  deriving DecidableEq, Repr

namespace State

variable {W : Type}

/-- A database handle just created on a connection. -/
def new (conn : Conn W) : State W :=
  ⟨conn, false, [], [], [], []⟩

def note (s : State W) (mark : Mark) : State W :=
  { s with history := s.history ++ [⟨mark, s.conn, s.inTransaction, s.calls⟩] }

def alive (s : State W) (scope : ℕ) : Bool :=
  match s.scopes[scope]? with
  | some t => t.alive
  | none => false

def savepoints (s : State W) (scope : ℕ) : ℕ :=
  match s.scopes[scope]? with
  | some t => t.savepoints
  | none => 0

/-- `tx_conn`: an ended scope is refused. -/
def txConn (s : State W) (scope : ℕ) : Outcome :=
  if s.alive scope then .ok () else .error .txEnded

/-- `QueryOrigin::check`. -/
def check (s : State W) : Origin → Outcome
  | .outer => if s.inTransaction then .error .queryInTransaction else .ok ()
  | .inner scope => if s.alive scope then .ok () else .error .queryTxEnded

/-- The engine runs a script on the locked connection. -/
def execute (s : State W) (sqls : List (Sql W)) (replies : List Reply) : State W × Outcome :=
  match s.conn.execute sqls replies with
  | (c, true) => ({ s with conn := c }, .ok ())
  | (c, false) => ({ s with conn := c }, .error .engine)

/-- `run_blocking`: an outer statement first rolls back a transaction left open. -/
def runBlocking (outer : Bool) (stale : Reply) (f : State W → State W × Outcome)
    (s : State W) : State W × Outcome :=
  if outer && !s.conn.isAutocommit then
    match s.execute [.rollback] [stale] with
    | (s', .error _) => (s', .error .abandonedRollback)
    | (s', .ok _) => f s'
  else f s

def execBatch (sqls : List (Sql W)) (outer : Bool) (stale : Reply) (replies : List Reply)
    (s : State W) : State W × Outcome :=
  runBlocking outer stale (fun s => s.execute sqls replies) s

/-- One statement of a handle, directly or through a query handle. -/
def statement (origin : Origin) (query : Option ℕ) (w : W) (stale reply : Reply)
    (s : State W) : State W × Outcome :=
  runBlocking origin.isOuter stale
    (fun s => (s.note (.stmt origin query)).execute [.write w] [reply]) s

/-! ## Handles -/

/-- `db:execute` and its siblings. -/
def outerStmt (w : W) (stale reply : Reply) (s : State W) : State W × Outcome :=
  if s.inTransaction then (s, .error .useTx) else statement .outer none w stale reply s

/-- `tx:execute` and its siblings. -/
def txStmt (scope : ℕ) (w : W) (reply : Reply) (s : State W) : State W × Outcome :=
  match s.txConn scope with
  | .error e => (s, .error e)
  | .ok _ => statement (.inner scope) none w .ok reply s

/-- `db:query_async` and `tx:query_async` build a handle and send nothing. -/
def queryAsync (origin : Origin) (w : W) (s : State W) : State W × Outcome :=
  match origin with
  | .outer =>
      if s.inTransaction then (s, .error .useTxQuery)
      else ({ s with queries := s.queries ++ [some ⟨.outer, w⟩] }, .ok ())
  | .inner scope =>
      match s.txConn scope with
      | .error e => (s, .error e)
      | .ok _ => ({ s with queries := s.queries ++ [some ⟨.inner scope, w⟩] }, .ok ())

/-- `LuaPendingQuery::take`, then `PendingQuery::run`. -/
def send (query : ℕ) (stale reply : Reply) (s : State W) : State W × Outcome :=
  match s.queries[query]? with
  | some (some pending) =>
      let s := { s with queries := s.queries.set query none }
      match s.check pending.origin with
      | .error e => (s, .error e)
      | .ok _ => statement pending.origin (some query) pending.sql stale reply s
  | _ => (s, .error .alreadyAwaited)

/-! ## Scopes -/

/-- `rollback_if_open`. -/
def rollbackIfOpen (reply : Reply) (s : State W) : State W × Outcome :=
  runBlocking false .ok
    (fun s => if s.conn.isAutocommit then (s, .ok ()) else s.execute [.rollback] [reply]) s

/-- `ScopeEnd`. -/
def endScope (s : State W) (scope : ℕ) : State W :=
  { s with scopes := s.scopes.modify scope fun t => { t with alive := false } }

/-- The first half of `run_transaction`: `begin`, then a fresh scope for the body. -/
def openScope (begin_ : List (Sql W)) (outer : Bool) (r : Replies) (s : State W) :
    State W × Outcome :=
  match execBatch begin_ outer r.stale [r.begin_] s with
  | (s, .error e) => (s, .error e)
  | (s, .ok _) =>
      (note { s with scopes := s.scopes ++ [⟨0, true⟩], calls := s.scopes.length :: s.calls }
        .began, .ok ())

/-- The second half: commit what the body returned from, roll back what it raised from,
and roll back a commit that failed. -/
def closeScope (commit rollback : List (Sql W)) (outer : Bool) (r : Replies)
    (result : Outcome) (s : State W) : State W × Outcome :=
  let rollBack (s : State W) : State W :=
    if outer then (rollbackIfOpen r.undo.rollback s).1
    else (execBatch rollback false .ok r.undo.replies s).1
  match result with
  | .ok _ =>
      match execBatch commit false .ok [r.commit] s with
      | (s, .ok _) => (s, .ok ())
      | (s, .error e) => (rollBack s, .error e)
  | .error e => (rollBack s, .error e)

/-- `run_transaction`: the body runs between the two halves, and the scope is invalidated
on the way out. -/
def runTransaction (begin_ commit rollback : List (Sql W)) (outer : Bool) (r : Replies)
    (body : State W → State W × Outcome) (s : State W) : State W × Outcome :=
  match openScope begin_ outer r s with
  | (s', .error e) => (s', .error e)
  | (s', .ok _) =>
      let ran := body s'
      let closed := closeScope commit rollback outer r ran.2 ran.1
      ({ closed.1.endScope s.scopes.length with calls := s.calls }, closed.2)

/-- `run_outer_transaction`: refused while one is open; `TxGuard` clears the flag on
every exit. -/
def runOuterTransaction (r : Replies) (body : State W → State W × Outcome) (s : State W) :
    State W × Outcome :=
  if s.inTransaction then (s, .error .alreadyOpen)
  else
    let ran := runTransaction [.begin_] [.commit] [.rollback] true r body
      { s with inTransaction := true }
    (note { ran.1 with inTransaction := false } .ended, ran.2)

def savepointName (n : ℕ) : String :=
  "nitr_sp_" ++ toString n

/-- `run_savepoint`: the name is drawn before the savepoint is set. -/
def runSavepoint (scope : ℕ) (r : Replies) (body : State W → State W × Outcome)
    (s : State W) : State W × Outcome :=
  match s.txConn scope with
  | .error e => (s, .error e)
  | .ok _ =>
      let name := savepointName (s.savepoints scope)
      let s := { s with
        scopes := s.scopes.modify scope fun t => { t with savepoints := t.savepoints + 1 } }
      let ran := runTransaction [.savepoint name] [.release name]
        [.rollbackTo name, .release name] false r body s
      (note ran.1 .ended, ran.2)

end State

end Nitr.Db
