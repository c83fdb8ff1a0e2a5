import Nitr.Db.Atomicity

/-! # Handle discipline

Whole programs on one Lua state's database: statements and query handles of `nitr.db` and
of any `tx` ever handed out, sent at any later time, and `transaction` calls of both kinds.
Every operation runs to its end before the next one starts. -/

namespace Nitr.Db

inductive Action (W : Type) where
  | stmt (origin : Origin) (w : W) (stale reply : Reply)
  | queryAsync (origin : Origin) (w : W)
  | send (query : ℕ) (stale reply : Reply)
  deriving DecidableEq, Repr

/-- What a handler does, with the engine's answers; a `tx` it stashed is named by the
number of its scope. -/
inductive Prog (W : Type) where
  | done (raises : Bool)
  | act (a : Action W) (pcall : Bool) (rest : Prog W)
  | transaction (on : Origin) (r : Replies) (inner : Prog W) (pcall : Bool) (rest : Prog W)
  deriving DecidableEq, Repr

variable {W : Type}

def Action.run : Action W → State W → State W × Outcome
  | .stmt .outer w stale reply => State.outerStmt w stale reply
  | .stmt (.inner scope) w _ reply => State.txStmt scope w reply
  | .queryAsync origin w => State.queryAsync origin w
  | .send query stale reply => State.send query stale reply

def Prog.run : Prog W → State W → State W × Outcome
  | .done false, s => (s, .ok ())
  | .done true, s => (s, .error .raised)
  | .act a pcall rest, s => andThen pcall rest.run (a.run s)
  | .transaction .outer r inner pcall rest, s =>
      andThen pcall rest.run (State.runOuterTransaction r inner.run s)
  | .transaction (.inner scope) r inner pcall rest, s =>
      andThen pcall rest.run (State.runSavepoint scope r inner.run s)

/-! ## The invariant -/

def Mark.query : Mark → Option ℕ
  | .stmt _ query => query
  | .began => none
  | .ended => none

/-- The query handles whose statement reached the engine, in order. -/
def State.sent (s : State W) : List ℕ :=
  s.history.filterMap fun e => e.mark.query

/-- What holds whenever something happens at the connection. -/
structure Event.Disciplined (e : Event W) : Prop where
  outer : ∀ query, e.mark = .stmt .outer query → e.conn.isAutocommit = true ∧ e.calls = []
  inner : ∀ scope query, e.mark = .stmt (.inner scope) query → scope ∈ e.calls
  flag : e.inTransaction = !e.calls.isEmpty

structure State.Disciplined (s : State W) : Prop where
  flag : s.inTransaction = !s.calls.isEmpty
  alive : ∀ scope, s.alive scope = true ↔ scope ∈ s.calls
  history : ∀ e ∈ s.history, e.Disciplined
  once : s.sent.Nodup
  taken : ∀ query ∈ s.sent, s.queries[query]? = some none

namespace State.Disciplined

variable {s : State W}

theorem new (conn : Conn W) : (State.new conn).Disciplined := by
  refine ⟨rfl, ?_, ?_, List.nodup_nil, ?_⟩
  · intro scope
    simp [State.alive, State.new]
  · intro e he
    cases he
  · intro query hq
    cases hq

theorem with_conn (h : s.Disciplined) (c : Conn W) : State.Disciplined { s with conn := c } :=
  ⟨h.flag, h.alive, h.history, h.once, h.taken⟩

theorem execute (h : s.Disciplined) (sqls : List (Sql W)) (replies : List Reply) :
    (s.execute sqls replies).1.Disciplined := by
  rw [execute_fst]
  exact h.with_conn _

theorem sent_note (s : State W) (mark : Mark) :
    (s.note mark).sent = s.sent ++ mark.query.toList := by
  simp only [sent, State.note, List.filterMap_append]
  cases hq : mark.query with
  | none => simp [hq]
  | some query => simp [hq]

theorem note (h : s.Disciplined) {mark : Mark}
    (hd : Event.Disciplined ⟨mark, s.conn, s.inTransaction, s.calls⟩)
    (hq : ∀ query, mark.query = some query → query ∉ s.sent ∧ s.queries[query]? = some none) :
    (s.note mark).Disciplined := by
  refine ⟨h.flag, h.alive, ?_, ?_, ?_⟩
  · intro e he
    rcases List.mem_append.mp he with he | he
    · exact h.history e he
    · rw [List.mem_singleton.mp he]
      exact hd
  · rw [sent_note]
    cases hm : mark.query with
    | none => simpa using h.once
    | some query =>
        rw [Option.toList_some, List.nodup_append]
        refine ⟨h.once, by simp, ?_⟩
        intro q hmem q' hmem' heq
        rw [List.mem_singleton.mp hmem'] at heq
        exact (hq query hm).1 (heq ▸ hmem)
  · intro query hmem
    rw [sent_note] at hmem
    rcases List.mem_append.mp hmem with hmem | hmem
    · exact h.taken query hmem
    · have hm : mark.query = some query := by simpa using hmem
      exact (hq query hm).2

/-- Opening and closing scopes send nothing. -/
theorem note_scope (h : s.Disciplined) {mark : Mark} (hm : mark = .began ∨ mark = .ended) :
    (s.note mark).Disciplined := by
  apply h.note
  · refine ⟨?_, ?_, h.flag⟩
    · intro query he
      rcases hm with rfl | rfl
      · cases he
      · cases he
    · intro scope query he
      rcases hm with rfl | rfl
      · cases he
      · cases he
  · intro query he
    rcases hm with rfl | rfl
    · cases he
    · cases he

/-- A statement reaches the engine only from a handle that may run. -/
theorem statement (h : s.Disciplined) (origin : Origin) (query : Option ℕ) (w : W)
    (stale reply : Reply) (hout : origin = .outer → s.inTransaction = false)
    (hin : ∀ scope, origin = .inner scope → s.alive scope = true)
    (hq : ∀ q, query = some q → q ∉ s.sent ∧ s.queries[q]? = some none) :
    (State.statement origin query w stale reply s).1.Disciplined := by
  cases origin with
  | inner scope =>
      apply Disciplined.execute
      refine @note W s h (.stmt (.inner scope) query) ?_ hq
      refine ⟨?_, ?_, h.flag⟩
      · intro q he
        cases he
      · intro scope' q he
        cases he
        exact (h.alive scope).mp (hin scope rfl)
  | outer =>
      have hcalls : s.calls = [] := by
        have hf := h.flag
        rw [hout rfl] at hf
        simpa using hf.symm
      cases hidle : (s.conn.isAutocommit || decide (stale = .ok)) with
      | false =>
          obtain ⟨c, -, hrun⟩ := runBlocking_refused hidle
            fun s => (s.note (.stmt .outer query)).execute [.write w] [reply]
          simp only [State.statement, Origin.isOuter, hrun]
          exact h.with_conn c
      | true =>
          simp only [State.statement, Origin.isOuter, runBlocking_idle hidle]
          apply Disciplined.execute
          refine @note W _ (h.with_conn _) (.stmt .outer query) ?_ hq
          refine ⟨?_, ?_, h.flag⟩
          · intro q _
            exact ⟨rfl, hcalls⟩
          · intro scope q he
            cases he

theorem calls_statement (origin : Origin) (query : Option ℕ) (w : W) (stale reply : Reply)
    (s : State W) :
    (State.statement origin query w stale reply s).1.calls = s.calls := by
  cases origin with
  | inner scope => exact (keeps_execute _ _ _).calls
  | outer =>
      cases hidle : (s.conn.isAutocommit || decide (stale = .ok)) with
      | false =>
          obtain ⟨c, -, hrun⟩ := runBlocking_refused hidle
            fun s => (s.note (.stmt .outer query)).execute [.write w] [reply]
          simp only [State.statement, Origin.isOuter, hrun]
      | true =>
          simp only [State.statement, Origin.isOuter, runBlocking_idle hidle]
          exact (keeps_execute _ _ _).calls

theorem with_query (h : s.Disciplined) (pending : Pending W) :
    State.Disciplined { s with queries := s.queries ++ [some pending] } := by
  refine ⟨h.flag, h.alive, h.history, h.once, ?_⟩
  intro query hmem
  have hold := h.taken query hmem
  obtain ⟨hlt, -⟩ := List.getElem?_eq_some_iff.mp hold
  simpa [List.getElem?_append_left hlt] using hold

/-- Taking a query handle leaves nothing to take again. -/
theorem take (h : s.Disciplined) (query : ℕ) :
    State.Disciplined { s with queries := s.queries.set query none } := by
  refine ⟨h.flag, h.alive, h.history, h.once, ?_⟩
  intro other hmem
  have hold := h.taken other hmem
  obtain ⟨hlt, -⟩ := List.getElem?_eq_some_iff.mp hold
  by_cases heq : query = other
  · subst heq
    simp [hlt]
  · simpa [List.getElem?_set_ne heq] using hold

theorem queryAsync (h : s.Disciplined) (origin : Origin) (w : W) :
    (State.queryAsync origin w s).1.Disciplined ∧
      (State.queryAsync origin w s).1.calls = s.calls := by
  cases origin with
  | outer =>
      simp only [State.queryAsync]
      split
      · exact ⟨h, rfl⟩
      · exact ⟨h.with_query _, rfl⟩
  | inner scope =>
      simp only [State.queryAsync]
      cases s.txConn scope with
      | error e => exact ⟨h, rfl⟩
      | ok u => exact ⟨h.with_query _, rfl⟩

theorem send (h : s.Disciplined) (query : ℕ) (stale reply : Reply) :
    (State.send query stale reply s).1.Disciplined ∧
      (State.send query stale reply s).1.calls = s.calls := by
  simp only [State.send]
  split
  next pending hget =>
    obtain ⟨hlt, -⟩ := List.getElem?_eq_some_iff.mp hget
    have hfresh : query ∉ s.sent := by
      intro hmem
      rw [h.taken query hmem] at hget
      cases hget
    cases hcheck : State.check { s with queries := s.queries.set query none } pending.origin with
    | error e => exact ⟨h.take query, rfl⟩
    | ok u =>
        refine ⟨?_, calls_statement _ _ _ _ _ _⟩
        apply (h.take query).statement
        · intro ho
          simpa [State.check, ho] using hcheck
        · intro scope ho
          cases ha : s.alive scope with
          | true => exact ha
          | false =>
              have hdead : State.alive { s with queries := s.queries.set query none } scope =
                  false := ha
              simp [State.check, ho, hdead] at hcheck
        · intro q hq
          cases hq
          exact ⟨hfresh, by simp [hlt]⟩
  next => exact ⟨h, rfl⟩

/-- Every operation keeps the discipline and the calls on the stack. -/
theorem action (h : s.Disciplined) (a : Action W) :
    (a.run s).1.Disciplined ∧ (a.run s).1.calls = s.calls := by
  cases a with
  | queryAsync origin w => exact h.queryAsync origin w
  | send query stale reply => exact h.send query stale reply
  | stmt origin w stale reply =>
      cases origin with
      | outer =>
          simp only [Action.run, State.outerStmt]
          split
          next hopen => exact ⟨h, rfl⟩
          next hopen =>
            refine ⟨h.statement _ _ _ _ _ ?_ ?_ ?_, calls_statement _ _ _ _ _ _⟩
            · intro _
              simpa using hopen
            · intro scope ho
              cases ho
            · intro q hq
              cases hq
      | inner scope =>
          simp only [Action.run, State.txStmt, State.txConn]
          cases ha : s.alive scope with
          | false => exact ⟨h, rfl⟩
          | true =>
              refine ⟨h.statement _ _ _ _ _ ?_ ?_ ?_, calls_statement _ _ _ _ _ _⟩
              · intro ho
                cases ho
              · intro other ho
                cases ho
                exact ha
              · intro q hq
                cases hq

/-! ## Scopes -/

theorem alive_endScope (s : State W) (scope : ℕ) : (s.endScope scope).alive scope = false := by
  simp only [State.alive, State.endScope, List.getElem?_modify]
  cases s.scopes[scope]? with
  | none => rfl
  | some t => simp

/-- Leaving the innermost call kills its handle and no other. -/
theorem leave {calls : List ℕ} {scope : ℕ} (h : s.Disciplined) (hcalls : s.calls = scope :: calls)
    (hnew : scope ∉ calls) (flag : Bool) (hflag : flag = !calls.isEmpty) :
    State.Disciplined { s.endScope scope with calls := calls, inTransaction := flag } := by
  refine ⟨hflag, ?_, h.history, h.once, h.taken⟩
  intro other
  have hend : State.alive { s.endScope scope with calls := calls, inTransaction := flag } other =
      (s.endScope scope).alive other := rfl
  rw [hend]
  by_cases ho : other = scope
  · subst ho
    rw [alive_endScope]
    simp [hnew]
  · rw [alive_endScope_of_ne s ho, h.alive other, hcalls]
    simp [ho]

theorem flag_of_mem (h : s.Disciplined) {scope : ℕ} (hmem : scope ∈ s.calls) :
    s.inTransaction = true ∧ (!s.calls.isEmpty) = true := by
  rw [h.flag]
  cases hcalls : s.calls with
  | nil => simp [hcalls] at hmem
  | cons i is => exact ⟨rfl, rfl⟩

theorem fresh (h : s.Disciplined) : s.scopes.length ∉ s.calls := by
  intro hmem
  exact (State.lt_of_alive ((h.alive _).mpr hmem)).false

theorem draw (h : s.Disciplined) (scope : ℕ) : (s.draw scope).Disciplined := by
  refine ⟨h.flag, ?_, h.history, h.once, h.taken⟩
  intro other
  rw [alive_draw]
  exact h.alive other

/-- A fresh scope's handle is alive from the moment its call is on the stack. -/
theorem push (h : s.Disciplined) (c : Conn W) :
    State.Disciplined { s with
      conn := c
      inTransaction := true
      scopes := s.scopes ++ [⟨0, true⟩]
      calls := s.scopes.length :: s.calls } := by
  refine ⟨rfl, ?_, h.history, h.once, h.taken⟩
  intro other
  have hal : State.alive { s with
      conn := c
      inTransaction := true
      scopes := s.scopes ++ [⟨0, true⟩]
      calls := s.scopes.length :: s.calls } other = _ :=
    alive_push s other (s.scopes.length :: s.calls)
  rw [hal]
  by_cases ho : other = s.scopes.length
  · simp [ho]
  · simp [ho, h.alive other]

theorem entered (h : s.Disciplined) {scope : ℕ} (ha : s.alive scope = true) :
    (s.entered scope).Disciplined := by
  obtain ⟨hflag, -⟩ := h.flag_of_mem ((h.alive scope).mp ha)
  have hd := (h.draw scope).push
    ⟨s.conn.committed, ⟨some (savepointName (s.savepoints scope)), []⟩ :: s.conn.frames⟩
  have heq : s.entered scope = State.note { s.draw scope with
      conn := ⟨s.conn.committed,
        ⟨some (savepointName (s.savepoints scope)), []⟩ :: s.conn.frames⟩
      inTransaction := true
      scopes := (s.draw scope).scopes ++ [⟨0, true⟩]
      calls := (s.draw scope).scopes.length :: s.calls } .began := by
    simp [State.entered, State.draw, hflag]
  rw [heq]
  exact hd.note_scope (.inl rfl)

theorem begun (h : s.Disciplined) : s.begun.Disciplined :=
  (h.push _).note_scope (.inl rfl)

/-- A scope opened on a live handle, around a body that keeps the discipline. -/
theorem runSavepoint (h : s.Disciplined) (scope : ℕ) (r : Replies)
    {body : State W → State W × Outcome}
    (hbody : ∀ s : State W, s.Disciplined →
      (body s).1.Disciplined ∧ (body s).1.calls = s.calls) :
    (State.runSavepoint scope r body s).1.Disciplined ∧
      (State.runSavepoint scope r body s).1.calls = s.calls := by
  cases ha : s.alive scope with
  | false =>
      simp only [State.runSavepoint, txConn, ha]
      exact ⟨h, rfl⟩
  | true =>
      cases hb : r.begin_ with
      | fail =>
          rw [runSavepoint_of_fail ha hb]
          exact ⟨(h.draw scope).note_scope (.inr rfl), rfl⟩
      | abort =>
          rw [runSavepoint_of_abort ha hb]
          exact ⟨((h.draw scope).with_conn _).note_scope (.inr rfl), rfl⟩
      | ok =>
          rw [runSavepoint_of_begun ha hb]
          obtain ⟨hran, hcalls⟩ := hbody _ (h.entered ha)
          obtain ⟨c, hc⟩ := closeSavepoint_fst (savepointName (s.savepoints scope)) r
            (body (s.entered scope)).2 (body (s.entered scope)).1
          refine ⟨?_, rfl⟩
          simp only [State.left]
          rw [hc]
          have hcalls' : (body (s.entered scope)).1.calls = s.scopes.length :: s.calls := hcalls
          have hflag : (body (s.entered scope)).1.inTransaction = !s.calls.isEmpty := by
            rw [hran.flag, hcalls', (h.flag_of_mem ((h.alive scope).mp ha)).2]
            rfl
          have hleft := @leave W { (body (s.entered scope)).1 with conn := c } s.calls
            s.scopes.length (hran.with_conn c) hcalls' h.fresh
            (body (s.entered scope)).1.inTransaction hflag
          exact hleft.note_scope (.inr rfl)

/-- `db:transaction` around a body that keeps the discipline, however it ends. -/
theorem runOuterTransaction (h : s.Disciplined) (r : Replies)
    {body : State W → State W × Outcome}
    (hbody : ∀ s : State W, s.Disciplined →
      (body s).1.Disciplined ∧ (body s).1.calls = s.calls) :
    (State.runOuterTransaction r body s).1.Disciplined ∧
      (State.runOuterTransaction r body s).1.calls = s.calls := by
  cases hopen : s.inTransaction with
  | true =>
      simp only [State.runOuterTransaction, hopen]
      exact ⟨h, rfl⟩
  | false =>
      have hempty : false = !s.calls.isEmpty := by
        rw [← hopen]
        exact h.flag
      rcases State.openScope_outer s r with ⟨-, he⟩ | ⟨-, c, e, -, he⟩
      · obtain ⟨hran, hcalls⟩ := hbody _ h.begun
        obtain ⟨c, out, -, hclose, -, -⟩ :=
          State.closeScope_outer (body s.begun).2 (body s.begun).1 r
        have hcalls' : (body s.begun).1.calls = s.scopes.length :: s.calls := hcalls
        simp only [State.runOuterTransaction, hopen, runTransaction, he, hclose,
          Bool.false_eq_true, if_false]
        refine ⟨?_, rfl⟩
        have hleft := @leave W { (body s.begun).1 with conn := c } s.calls s.scopes.length
          (hran.with_conn c) hcalls' h.fresh false hempty
        exact hleft.note_scope (.inr rfl)
      · simp only [State.runOuterTransaction, hopen, runTransaction, he, Bool.false_eq_true,
          if_false]
        refine ⟨?_, rfl⟩
        have hidle : State.Disciplined { s with inTransaction := false, conn := c } :=
          ⟨hempty, h.alive, h.history, h.once, h.taken⟩
        exact hidle.note_scope (.inr rfl)

end State.Disciplined

/-! ## Whole programs -/

theorem disciplined_andThen {s : State W} {res : State W × Outcome} {pcall : Bool}
    {k : State W → State W × Outcome} (h : res.1.Disciplined ∧ res.1.calls = s.calls)
    (hk : ∀ s : State W, s.Disciplined → (k s).1.Disciplined ∧ (k s).1.calls = s.calls) :
    (andThen pcall k res).1.Disciplined ∧ (andThen pcall k res).1.calls = s.calls := by
  rcases res with ⟨s', out⟩
  have hnext := hk s' h.1
  rw [h.2] at hnext
  cases out with
  | ok u => exact hnext
  | error e =>
      cases pcall with
      | true => exact hnext
      | false => exact h

theorem Prog.run_disciplined (p : Prog W) (s : State W) (h : s.Disciplined) :
    (p.run s).1.Disciplined ∧ (p.run s).1.calls = s.calls := by
  induction p generalizing s with
  | done raises =>
      cases raises with
      | true => exact ⟨h, rfl⟩
      | false => exact ⟨h, rfl⟩
  | act a pcall rest ih => exact disciplined_andThen (h.action a) ih
  | transaction on r inner pcall rest ihi ihr =>
      cases on with
      | outer => exact disciplined_andThen (h.runOuterTransaction r ihi) ihr
      | inner scope => exact disciplined_andThen (h.runSavepoint scope r ihi) ihr

/-- In every program on a connection in any state: an outer statement reaches the engine
only in autocommit mode with no transaction call on the stack, a `tx` statement only during
its own scope's call, `in_transaction` tells whether a call is on the stack, it is clear
again at the end, and no query handle reaches the engine twice. -/
theorem Prog.run_handles (p : Prog W) (conn : Conn W) :
    let s := (p.run (State.new conn)).1
    (∀ e ∈ s.history,
      (∀ query, e.mark = .stmt .outer query → e.conn.isAutocommit = true ∧ e.calls = []) ∧
      (∀ scope query, e.mark = .stmt (.inner scope) query → scope ∈ e.calls) ∧
      (e.inTransaction = true ↔ e.calls ≠ [])) ∧
    s.calls = [] ∧ s.inTransaction = false ∧ s.sent.Nodup := by
  intro s
  obtain ⟨hd, hcalls⟩ := p.run_disciplined (State.new conn) (State.Disciplined.new conn)
  have hempty : s.calls = [] := hcalls
  refine ⟨?_, hempty, ?_, hd.once⟩
  · intro e he
    have hev := hd.history e he
    refine ⟨hev.outer, hev.inner, ?_⟩
    rw [hev.flag]
    simp
  · have hf : s.inTransaction = !s.calls.isEmpty := hd.flag
    simpa [hempty] using hf

end Nitr.Db
