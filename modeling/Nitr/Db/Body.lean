import Nitr.Db.Transaction

/-! # Transaction bodies

A body is what a Lua function handed to `transaction` does in one run: its statements and
nested `tx:transaction` calls in order, each with the engine's answers and whether a
`pcall` swallows its error. A handle is named by its distance from the innermost open
scope; a distance beyond the open scopes names a handle whose scope has ended. -/

namespace Nitr.Db

inductive Body (W : Type) where
  | done (raises : Bool)
  | stmt (tx : ℕ) (w : W) (reply : Reply) (pcall : Bool) (rest : Body W)
  | transaction (tx : ℕ) (r : Replies) (inner : Body W) (pcall : Bool) (rest : Body W)
  deriving DecidableEq, Repr

/-- After a call that raised, the function goes on only if a `pcall` caught the error. -/
def andThen {W : Type} (pcall : Bool) (k : State W → State W × Outcome) :
    State W × Outcome → State W × Outcome
  | (s, .ok _) => k s
  | (s, .error e) => if pcall then k s else (s, .error e)

/-- A call on a handle: an ended scope's handle refuses. -/
def onHandle {W : Type} (tx : ℕ) (call : ℕ → State W → State W × Outcome) (s : State W) :
    State W × Outcome :=
  match s.calls[tx]? with
  | some scope => call scope s
  | none => (s, .error .txEnded)

def Body.run {W : Type} : Body W → State W → State W × Outcome
  | .done false, s => (s, .ok ())
  | .done true, s => (s, .error .raised)
  | .stmt tx w reply pcall rest, s =>
      andThen pcall rest.run (onHandle tx (fun scope => State.txStmt scope w reply) s)
  | .transaction tx r inner pcall rest, s =>
      andThen pcall rest.run (onHandle tx (fun scope => State.runSavepoint scope r inner.run) s)

/-- `db:transaction(body)`. -/
def Body.transact {W : Type} (b : Body W) (r : Replies) (s : State W) : State W × Outcome :=
  State.runOuterTransaction r b.run s

namespace State

variable {W : Type}

/-! ## Single statements -/

theorem runBlocking_false (stale : Reply) (f : State W → State W × Outcome) (s : State W) :
    runBlocking false stale f s = f s := rfl

/-- A transaction left open is rolled back before an outer statement runs. -/
theorem runBlocking_idle {stale : Reply} {s : State W}
    (h : (s.conn.isAutocommit || stale = .ok) = true) (f : State W → State W × Outcome) :
    runBlocking true stale f s = f { s with conn := ⟨s.conn.committed, []⟩ } := by
  rcases s with ⟨⟨ws, frames⟩, flag, scopes, queries, calls, history⟩
  cases frames with
  | nil => simp [runBlocking, Conn.isAutocommit]
  | cons g gs =>
      have hst : stale = .ok := by simpa [Conn.isAutocommit] using h
      simp [runBlocking, Conn.isAutocommit, hst, execute, Conn.execute_one, Conn.step, Conn.apply]

/-- Where that fails, the statement does not run. -/
theorem runBlocking_refused {stale : Reply} {s : State W}
    (h : (s.conn.isAutocommit || stale = .ok) = false) (f : State W → State W × Outcome) :
    ∃ c, (c = s.conn ∨ c = ⟨s.conn.committed, []⟩) ∧
      runBlocking true stale f s = ({ s with conn := c }, .error .abandonedRollback) := by
  have hac : s.conn.isAutocommit = false := by
    cases hac : s.conn.isAutocommit with
    | true => simp [hac] at h
    | false => rfl
  cases hst : stale with
  | ok => simp [hst] at h
  | fail =>
      exact ⟨s.conn, .inl rfl, by simp [runBlocking, hac, execute, Conn.execute_one, Conn.step]⟩
  | abort =>
      refine ⟨⟨s.conn.committed, []⟩, .inr rfl, ?_⟩
      simp [runBlocking, hac, execute, Conn.execute_one, Conn.step]

theorem execBatch_false (sqls : List (Sql W)) (stale : Reply) (replies : List Reply)
    (s : State W) : execBatch sqls false stale replies s = s.execute sqls replies := rfl

theorem execute_of_true {s : State W} {sqls : List (Sql W)} {replies : List Reply} {c : Conn W}
    (h : s.conn.execute sqls replies = (c, true)) :
    s.execute sqls replies = ({ s with conn := c }, .ok ()) := by
  simp [execute, h]

theorem execute_of_false {s : State W} {sqls : List (Sql W)} {replies : List Reply} {c : Conn W}
    (h : s.conn.execute sqls replies = (c, false)) :
    s.execute sqls replies = ({ s with conn := c }, .error .engine) := by
  simp [execute, h]

theorem execute_fst (s : State W) (sqls : List (Sql W)) (replies : List Reply) :
    (s.execute sqls replies).1 = { s with conn := (s.conn.execute sqls replies).1 } := by
  rcases h : s.conn.execute sqls replies with ⟨c, ok⟩
  cases ok with
  | true => rw [execute_of_true h]
  | false => rw [execute_of_false h]

theorem txStmt_of_alive {s : State W} {scope : ℕ} (h : s.alive scope = true) (w : W)
    (reply : Reply) :
    txStmt scope w reply s =
      (s.note (.stmt (.inner scope) none)).execute [.write w] [reply] := by
  simp [txStmt, txConn, h, statement, Origin.isOuter, runBlocking_false]

/-! ## Closing a savepoint

Whatever its result, closing a savepoint changes nothing but the connection. -/

section CloseSavepoint

variable (name : String) (r : Replies)

/-- The three ways `run_savepoint` ends a scope. -/
abbrev closeSavepoint (result : Outcome) (s : State W) : State W × Outcome :=
  closeScope [.release name] [.rollbackTo name, .release name] false r result s

theorem closeSavepoint_fst (result : Outcome) (s : State W) :
    ∃ c, (closeSavepoint name r result s).1 = { s with conn := c } := by
  cases result with
  | error e => exact ⟨_, execute_fst s _ _⟩
  | ok u =>
      rcases h : s.conn.execute [.release name] [r.commit] with ⟨c, ok⟩
      cases ok with
      | true =>
          refine ⟨c, ?_⟩
          simp [closeScope, execBatch_false, execute_of_true h]
      | false =>
          simp only [closeSavepoint, closeScope, execBatch_false, execute_of_false h]
          exact ⟨_, execute_fst _ _ _⟩

variable {name r} {ws vs : List W} {fs : List (Frame W)} {s : State W}

theorem undo_top (undo : Undo) (hs : s.conn = ⟨ws, ⟨some name, vs⟩ :: fs⟩) :
    (s.execute [.rollbackTo name, .release name] undo.replies).1 =
      { s with conn := Conn.undone undo ws ⟨some name, vs⟩ fs } := by
  rw [execute_fst, hs, Conn.execute_undo_top]

/-- A body that raised has its scope undone. -/
theorem closeSavepoint_error (e : Error) (hs : s.conn = ⟨ws, ⟨some name, vs⟩ :: fs⟩) :
    closeSavepoint name r (.error e) s =
      ({ s with conn := Conn.undone r.undo ws ⟨some name, vs⟩ fs }, .error e) := by
  simp [closeScope, execBatch_false, undo_top r.undo hs]

/-- A body that returned hands its writes to the scope around it. -/
theorem closeSavepoint_ok (u : Unit) (hs : s.conn = ⟨ws, ⟨some name, vs⟩ :: fs⟩)
    (hr : r.commit = .ok) :
    closeSavepoint name r (.ok u) s =
      ({ s with conn := Conn.append ⟨ws, fs⟩ vs }, .ok ()) := by
  have h : s.conn.execute [.release name] [r.commit] = (Conn.append ⟨ws, fs⟩ vs, true) := by
    rw [Conn.execute_one, hs, hr, Conn.step_release_top]
  simp [closeScope, execBatch_false, execute_of_true h]

/-- A release that failed has the scope undone. -/
theorem closeSavepoint_fail (u : Unit) (hs : s.conn = ⟨ws, ⟨some name, vs⟩ :: fs⟩)
    (hr : r.commit = .fail) :
    closeSavepoint name r (.ok u) s =
      ({ s with conn := Conn.undone r.undo ws ⟨some name, vs⟩ fs }, .error .engine) := by
  have h : s.conn.execute [.release name] [r.commit] = (s.conn, false) := by
    rw [Conn.execute_one, hr, Conn.step]
  simp [closeScope, execBatch_false, execute_of_false h, undo_top r.undo hs]

/-- With nothing open, a scope ends with an error and no effect. -/
theorem closeSavepoint_nil (result : Outcome) (hs : s.conn = ⟨ws, []⟩) :
    ∃ e, closeSavepoint name r result s = (s, .error e) := by
  have hundo : (s.execute [.rollbackTo name, .release name] r.undo.replies).1 = s := by
    rw [execute_fst, hs, (Conn.execute_scope_nil name ws _ _).2, ← hs]
  cases result with
  | error e =>
      refine ⟨e, ?_⟩
      simp [closeScope, execBatch_false, hundo]
  | ok u =>
      refine ⟨.engine, ?_⟩
      have h := (Conn.execute_scope_nil name ws [] [r.commit]).1
      rw [← hs] at h
      simp [closeScope, execBatch_false, execute_of_false h, hundo]

/-- A release the engine answers by giving up the transaction leaves nothing open. -/
theorem closeSavepoint_abort (u : Unit) (hs : s.conn = ⟨ws, ⟨some name, vs⟩ :: fs⟩)
    (hr : r.commit = .abort) :
    closeSavepoint name r (.ok u) s = ({ s with conn := ⟨ws, []⟩ }, .error .engine) := by
  have h : s.conn.execute [.release name] [r.commit] = (⟨ws, []⟩, false) := by
    rw [Conn.execute_one, hr, hs, Conn.step]
  have hundo : (execute { s with conn := ⟨ws, []⟩ } [.rollbackTo name, .release name]
      r.undo.replies).1 = { s with conn := ⟨ws, []⟩ } := by
    rw [execute_fst, (Conn.execute_scope_nil name ws _ _).2]
  simp [closeScope, execBatch_false, execute_of_false h, hundo]

end CloseSavepoint

/-! ## What a call leaves alone -/

/-- `s'` has the calls and the flag of `s`, and every scope known to `s` is as alive. -/
structure Keeps (s s' : State W) : Prop where
  calls : s'.calls = s.calls
  inTransaction : s'.inTransaction = s.inTransaction
  length_le : s.scopes.length ≤ s'.scopes.length
  alive : ∀ scope < s.scopes.length, s'.alive scope = s.alive scope

theorem Keeps.refl (s : State W) : Keeps s s :=
  ⟨rfl, rfl, le_rfl, fun _ _ => rfl⟩

theorem Keeps.trans {s₁ s₂ s₃ : State W} (h : Keeps s₁ s₂) (h' : Keeps s₂ s₃) :
    Keeps s₁ s₃ := by
  refine ⟨h'.calls.trans h.calls, h'.inTransaction.trans h.inTransaction,
    h.length_le.trans h'.length_le, ?_⟩
  intro scope hlt
  rw [h'.alive scope (lt_of_lt_of_le hlt h.length_le), h.alive scope hlt]

/-- The scopes of the calls on the stack are alive. -/
def Live (s : State W) : Prop :=
  ∀ scope ∈ s.calls, s.alive scope = true

theorem lt_of_alive {s : State W} {scope : ℕ} (h : s.alive scope = true) :
    scope < s.scopes.length := by
  by_contra hle
  simp [alive, List.getElem?_eq_none (Nat.le_of_not_lt hle)] at h

theorem Live.keeps {s s' : State W} (h : s.Live) (hk : Keeps s s') : s'.Live := by
  intro scope hmem
  rw [hk.calls] at hmem
  rw [hk.alive scope (lt_of_alive (h scope hmem))]
  exact h scope hmem

theorem keeps_conn (s : State W) (c : Conn W) : Keeps s { s with conn := c } :=
  ⟨rfl, rfl, le_rfl, fun _ _ => rfl⟩

theorem keeps_note (s : State W) (mark : Mark) : Keeps s (s.note mark) :=
  ⟨rfl, rfl, le_rfl, fun _ _ => rfl⟩

theorem keeps_execute (s : State W) (sqls : List (Sql W)) (replies : List Reply) :
    Keeps s (s.execute sqls replies).1 := by
  rw [execute_fst]
  exact keeps_conn s _

theorem keeps_txStmt (scope : ℕ) (w : W) (reply : Reply) (s : State W) :
    Keeps s (txStmt scope w reply s).1 := by
  cases h : s.alive scope with
  | true =>
      rw [txStmt_of_alive h]
      exact (keeps_note s _).trans (keeps_execute _ _ _)
  | false =>
      simp only [txStmt, txConn, h]
      exact Keeps.refl s

theorem alive_modify (s : State W) (f : Scope → Scope) (i scope : ℕ)
    (hf : ∀ t, (f t).alive = t.alive) :
    alive { s with scopes := s.scopes.modify i f } scope = s.alive scope := by
  simp only [alive, List.getElem?_modify]
  cases s.scopes[scope]? with
  | none => rfl
  | some t =>
      by_cases hi : i = scope
      · simp [hi, hf]
      · simp [hi]

theorem alive_endScope_of_ne (s : State W) {scope other : ℕ} (h : other ≠ scope) :
    (s.endScope scope).alive other = s.alive other := by
  simp [alive, endScope, Ne.symm h]

theorem alive_push (s : State W) (scope : ℕ) (cs : List ℕ) :
    alive { s with scopes := s.scopes ++ [⟨0, true⟩], calls := cs } scope =
      if scope = s.scopes.length then true else s.alive scope := by
  by_cases h : scope = s.scopes.length
  · simp [alive, h]
  · rcases Nat.lt_or_ge scope s.scopes.length with hlt | hge
    · simp [alive, h, List.getElem?_append_left hlt]
    · have hlt : s.scopes.length + 1 ≤ scope := by omega
      have h₁ : (s.scopes ++ [(⟨0, true⟩ : Scope)])[scope]? = none :=
        List.getElem?_eq_none (by simpa using hlt)
      simp [alive, h, h₁, List.getElem?_eq_none hge]

/-! ## Entering and leaving a savepoint -/

/-- The handle's counter moves on before the savepoint is set. -/
def draw (s : State W) (scope : ℕ) : State W :=
  { s with scopes := s.scopes.modify scope fun t => { t with savepoints := t.savepoints + 1 } }

/-- What the body of `tx:transaction` starts from. -/
def entered (s : State W) (scope : ℕ) : State W :=
  note { s.draw scope with
    conn := ⟨s.conn.committed, ⟨some (savepointName (s.savepoints scope)), []⟩ :: s.conn.frames⟩
    scopes := (s.draw scope).scopes ++ [⟨0, true⟩]
    calls := s.scopes.length :: s.calls } .began

/-- What is left when the call of `tx:transaction` made from `s` ends on `s'`. -/
def left (s s' : State W) : State W :=
  note { s'.endScope s.scopes.length with calls := s.calls } .ended

theorem alive_draw (s : State W) (scope other : ℕ) :
    (s.draw scope).alive other = s.alive other :=
  alive_modify s _ scope other fun _ => rfl

theorem length_draw (s : State W) (scope : ℕ) :
    (s.draw scope).scopes.length = s.scopes.length := by
  simp [draw]

section Savepoint

variable {s : State W} {scope : ℕ} {r : Replies} {body : State W → State W × Outcome}

theorem runSavepoint_of_begun (h : s.alive scope = true) (hb : r.begin_ = .ok) :
    runSavepoint scope r body s =
      let ran := body (s.entered scope)
      let closed := closeSavepoint (savepointName (s.savepoints scope)) r ran.2 ran.1
      (s.left closed.1, closed.2) := by
  simp [runSavepoint, txConn, h, runTransaction, openScope, execBatch_false, execute, hb,
    Conn.execute_one, Conn.step, Conn.apply, entered, left, draw]

theorem runSavepoint_of_fail (h : s.alive scope = true) (hb : r.begin_ = .fail) :
    runSavepoint scope r body s = ((s.draw scope).note .ended, .error .engine) := by
  simp [runSavepoint, txConn, h, runTransaction, openScope, execBatch_false, execute, hb,
    Conn.execute_one, Conn.step, draw]

theorem runSavepoint_of_abort (h : s.alive scope = true) (hb : r.begin_ = .abort) :
    runSavepoint scope r body s =
      (note { s.draw scope with conn := ⟨s.conn.committed, []⟩ } .ended, .error .engine) := by
  simp [runSavepoint, txConn, h, runTransaction, openScope, execBatch_false, execute, hb,
    Conn.execute_one, Conn.step, draw]

theorem keeps_draw (s : State W) (scope : ℕ) : Keeps s (s.draw scope) := by
  refine ⟨rfl, rfl, ?_, ?_⟩
  · exact (length_draw s scope).ge
  · intro other _
    exact alive_draw s scope other

theorem alive_entered (s : State W) (scope other : ℕ) :
    (s.entered scope).alive other =
      if other = s.scopes.length then true else s.alive other := by
  have h := alive_push (s.draw scope) other (s.scopes.length :: s.calls)
  rw [length_draw] at h
  rw [← alive_draw s scope other]
  exact h

theorem Live.entered (h : s.Live) (scope : ℕ) : (s.entered scope).Live := by
  intro other hmem
  rw [alive_entered]
  rcases List.mem_cons.mp hmem with rfl | hmem
  · simp
  · simp [h other hmem]

/-- A call that kept its own entry state keeps the caller's. -/
theorem keeps_left {s' : State W} (h : Keeps (s.entered scope) s') : Keeps s (s.left s') := by
  have hlen : (s.entered scope).scopes.length = s.scopes.length + 1 := by
    simp [State.entered, note, length_draw]
  have hle := h.length_le
  rw [hlen] at hle
  refine ⟨rfl, h.inTransaction, ?_, ?_⟩
  · simp only [left, note, endScope, List.length_modify]
    omega
  · intro other hlt
    have hne : other ≠ s.scopes.length := hlt.ne
    have hend : (s.left s').alive other = s'.alive other := alive_endScope_of_ne s' hne
    rw [hend, h.alive other (by omega), alive_entered, if_neg hne]

theorem keeps_runSavepoint (hbody : Keeps (s.entered scope) (body (s.entered scope)).1) :
    Keeps s (runSavepoint scope r body s).1 := by
  cases ha : s.alive scope with
  | false =>
      simp only [runSavepoint, txConn, ha]
      exact Keeps.refl s
  | true =>
      cases hb : r.begin_ with
      | ok =>
          rw [runSavepoint_of_begun ha hb]
          obtain ⟨c, hc⟩ := closeSavepoint_fst (savepointName (s.savepoints scope)) r
            (body (s.entered scope)).2 (body (s.entered scope)).1
          apply keeps_left
          rw [hc]
          exact hbody.trans (keeps_conn _ c)
      | fail =>
          rw [runSavepoint_of_fail ha hb]
          exact (keeps_draw s scope).trans (keeps_note _ _)
      | abort =>
          rw [runSavepoint_of_abort ha hb]
          exact ((keeps_draw s scope).trans (keeps_conn _ _)).trans (keeps_note _ _)

end Savepoint

theorem keeps_onHandle {tx : ℕ} {call : ℕ → State W → State W × Outcome} {s : State W}
    (h : ∀ scope, Keeps s (call scope s).1) : Keeps s (onHandle tx call s).1 := by
  simp only [onHandle]
  cases s.calls[tx]? with
  | none => exact Keeps.refl s
  | some scope => exact h scope

theorem keeps_andThen {pcall : Bool} {k : State W → State W × Outcome} {s : State W}
    {res : State W × Outcome} (h : Keeps s res.1) (hk : ∀ s', Keeps s' (k s').1) :
    Keeps s (andThen pcall k res).1 := by
  rcases res with ⟨s', out⟩
  cases out with
  | ok u => exact h.trans (hk s')
  | error e =>
      cases pcall with
      | true => exact h.trans (hk s')
      | false => exact h

end State

/-- However a body runs, it leaves the calls on the stack and their handles as they were. -/
theorem Body.keeps_run {W : Type} (b : Body W) (s : State W) :
    State.Keeps s (b.run s).1 := by
  induction b generalizing s with
  | done raises =>
      cases raises with
      | true => exact State.Keeps.refl s
      | false => exact State.Keeps.refl s
  | stmt tx w reply pcall rest ih =>
      apply State.keeps_andThen _ ih
      exact State.keeps_onHandle fun scope => State.keeps_txStmt scope w reply s
  | transaction tx r inner pcall rest ihi ihr =>
      apply State.keeps_andThen _ ihr
      exact State.keeps_onHandle fun scope => State.keeps_runSavepoint (ihi _)

end Nitr.Db
