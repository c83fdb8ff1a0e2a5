import Nitr.Db.Course

/-! # Atomicity of `db:transaction`

A `db:transaction` that raises leaves the committed writes alone, and one that returns adds
the writes of the scopes whose calls did not raise. Two kinds of bodies break this: those
that write on after the engine has given the transaction up, and those with a nested scope
whose undoing the engine refuses, which the code only logs. -/

namespace Nitr.Db

/-! ## The outer transaction -/

/-- The `BEGIN` of `db:transaction` is reached and accepted: no transaction is active, one
left open by an earlier request could be rolled back, and the engine agrees. -/
def begins {W : Type} (s : State W) (r : Replies) : Bool :=
  !s.inTransaction && (s.conn.isAutocommit || r.stale = .ok) && r.begin_ = .ok

section Outer

variable {W : Type} {s : State W} {r : Replies}

/-- What the body of `db:transaction` starts from. -/
def State.begun (s : State W) : State W :=
  State.note { s with
    conn := ⟨s.conn.committed, [⟨none, []⟩]⟩
    inTransaction := true
    scopes := s.scopes ++ [⟨0, true⟩]
    calls := s.scopes.length :: s.calls } .began

/-- The first half of `db:transaction`: it begins, or raises with nothing committed. -/
theorem State.openScope_outer (s : State W) (r : Replies) :
    ((s.conn.isAutocommit || r.stale = .ok) && r.begin_ = .ok) = true ∧
      openScope [.begin_] true r { s with inTransaction := true } = (s.begun, .ok ()) ∨
    ((s.conn.isAutocommit || r.stale = .ok) && r.begin_ = .ok) = false ∧
      ∃ c e, c.committed = s.conn.committed ∧
        openScope [.begin_] true r { s with inTransaction := true } =
          ({ s with inTransaction := true, conn := c }, .error e) := by
  cases hidle : (s.conn.isAutocommit || decide (r.stale = .ok)) with
  | false =>
      obtain ⟨c, hc, hrun⟩ := @runBlocking_refused W r.stale { s with inTransaction := true } hidle
        fun s => s.execute [.begin_] [r.begin_]
      right
      refine ⟨by simp, c, .abandonedRollback, ?_, ?_⟩
      · rcases hc with rfl | rfl
        · rfl
        · rfl
      · simp only [openScope, execBatch, hrun]
  | true =>
      have hrun := @runBlocking_idle W r.stale { s with inTransaction := true } hidle
        fun s => s.execute [.begin_] [r.begin_]
      simp only [openScope, execBatch, hrun]
      cases hb : r.begin_ with
      | ok =>
          left
          refine ⟨by simp, ?_⟩
          rw [execute_of_true rfl]
          rfl
      | fail =>
          right
          refine ⟨by simp, ⟨s.conn.committed, []⟩, .engine, rfl, ?_⟩
          rw [execute_of_false rfl]
      | abort =>
          right
          refine ⟨by simp, ⟨s.conn.committed, []⟩, .engine, rfl, ?_⟩
          rw [execute_of_false rfl]

/-- Rolling back commits nothing, and leaves the transaction open only where the engine
refuses. -/
theorem State.rollbackIfOpen_fst (reply : Reply) (s : State W) :
    ∃ c, (rollbackIfOpen reply s).1 = { s with conn := c } ∧ c.committed = s.conn.committed ∧
      (reply ≠ .fail → c.frames = []) := by
  rcases s with ⟨⟨ws, frames⟩, flag, scopes, queries, calls, history⟩
  cases frames with
  | nil =>
      refine ⟨⟨ws, []⟩, ?_, rfl, fun _ => rfl⟩
      simp [rollbackIfOpen, runBlocking_false, Conn.isAutocommit_nil]
  | cons f fs =>
      simp only [rollbackIfOpen, runBlocking_false, Conn.isAutocommit_cons]
      cases reply with
      | ok => exact ⟨⟨ws, []⟩, rfl, rfl, fun _ => rfl⟩
      | fail => exact ⟨⟨ws, f :: fs⟩, rfl, rfl, fun h => absurd rfl h⟩
      | abort => exact ⟨⟨ws, []⟩, rfl, rfl, fun _ => rfl⟩

/-- The second half, on the connection the body left: `COMMIT` needs a transaction, and
nothing stays open unless the `ROLLBACK` is refused. -/
theorem State.closeScope_outer (result : Outcome) (s : State W) (r : Replies) :
    let failed := raisedBy result || s.conn.isAutocommit || r.commit ≠ .ok
    ∃ c out, raisedBy out = failed ∧
      closeScope [.commit] [.rollback] true r result s = ({ s with conn := c }, out) ∧
      c.committed = (if failed then s.conn.committed else s.conn.content) ∧
      (r.undo.rollback ≠ .fail → c.frames = []) := by
  intro failed
  cases result with
  | error e =>
      have hf : failed = true := rfl
      obtain ⟨c, hc, hcc, hfr⟩ := rollbackIfOpen_fst r.undo.rollback s
      refine ⟨c, .error e, hf.symm, ?_, ?_, hfr⟩
      · simp [closeScope, hc]
      · rw [hf]
        exact hcc
  | ok u =>
      cases hok : !s.conn.isAutocommit && decide (r.commit = .ok) with
      | true =>
          have hac : s.conn.isAutocommit = false := by simp_all
          have hcm : r.commit = .ok := by simp_all
          have hf : failed = false := by simp [failed, raisedBy, hac, hcm]
          have hc : s.conn.execute [.commit] [.ok] = (⟨s.conn.content, []⟩, true) := by
            simp [Conn.execute_one, Conn.step, Conn.apply, hac]
          refine ⟨⟨s.conn.content, []⟩, .ok (), hf.symm, ?_, ?_, fun _ => rfl⟩
          · simp [closeScope, execBatch_false, hcm, execute_of_true hc]
          · rw [hf]
            rfl
      | false =>
          have hf : failed = true := by
            cases hac : s.conn.isAutocommit with
            | true => simp [failed, hac]
            | false => simp_all [failed]
          obtain ⟨c, hc, hcc⟩ : ∃ c, s.conn.execute [.commit] [r.commit] = (c, false) ∧
              c.committed = s.conn.committed := by
            rw [Conn.execute_one]
            cases hcm : r.commit with
            | ok =>
                have hac : s.conn.isAutocommit = true := by simpa [hcm] using hok
                exact ⟨s.conn, by simp [Conn.step, Conn.apply, hac], rfl⟩
            | fail => exact ⟨s.conn, rfl, rfl⟩
            | abort => exact ⟨_, rfl, rfl⟩
          obtain ⟨c', hc', hcc', hfr⟩ := rollbackIfOpen_fst r.undo.rollback { s with conn := c }
          refine ⟨c', .error .engine, hf.symm, ?_, ?_, hfr⟩
          · simp [closeScope, execBatch_false, execute_of_false hc, hc']
          · rw [hf]
            exact hcc'.trans hcc

theorem State.live_begun (hs : s.calls = []) : s.begun.Live := by
  intro scope hmem
  have hscope : scope = s.scopes.length := by simpa [State.begun, note, hs] using hmem
  subst hscope
  simp [State.begun, note, alive]

/-- A `db:transaction` that does not begin raises and commits nothing. -/
theorem Body.transact_of_not_begins (b : Body W) (h : begins s r = false) :
    raisedBy (b.transact r s).2 = true ∧
      (b.transact r s).1.conn.committed = s.conn.committed := by
  cases hin : s.inTransaction with
  | true => simp [Body.transact, State.runOuterTransaction, hin, raisedBy]
  | false =>
      have hopen : ((s.conn.isAutocommit || r.stale = .ok) && r.begin_ = .ok) = false := by
        simpa [begins, hin] using h
      rcases State.openScope_outer s r with ⟨hb, -⟩ | ⟨-, c, e, hc, he⟩
      · simp [hb] at hopen
      · simp [Body.transact, State.runOuterTransaction, hin, State.runTransaction, he, raisedBy,
          State.note, hc]

/-- One that begins runs its body between the two halves. -/
theorem Body.transact_eq (b : Body W) (h : begins s r = true) :
    let ran := b.run s.begun
    let closed := State.closeScope [.commit] [.rollback] true r ran.2 ran.1
    b.transact r s =
      (State.note { closed.1.endScope s.scopes.length with
        calls := s.calls, inTransaction := false } .ended, closed.2) := by
  have hflag : s.inTransaction = false := by
    cases hf : s.inTransaction with
    | false => rfl
    | true => simp [begins, hf] at h
  have hopen : ((s.conn.isAutocommit || r.stale = .ok) && r.begin_ = .ok) = true := by
    simpa [begins, hflag] using h
  rcases State.openScope_outer s r with ⟨-, he⟩ | ⟨hb, -⟩
  · simp [Body.transact, State.runOuterTransaction, hflag, State.runTransaction, he]
  · simp [hb] at hopen

/-- Its end is what the run of the body and the answer to `COMMIT` say. -/
theorem Body.transact_of_begins (b : Body W) (h : begins s r = true) :
    let ran := b.run s.begun
    let failed := raisedBy ran.2 || ran.1.conn.isAutocommit || r.commit ≠ .ok
    raisedBy (b.transact r s).2 = failed ∧
      (b.transact r s).1.conn.committed =
        if failed then ran.1.conn.committed else ran.1.conn.content := by
  intro ran failed
  obtain ⟨c, out, hout, hclose, hc, -⟩ := State.closeScope_outer ran.2 ran.1 r
  rw [b.transact_eq h, hclose]
  exact ⟨hout, hc⟩

end Outer

/-! ## The promise -/

section Promise

variable {W : Type}

/-- The writes a run of the body from `s` makes in scopes whose calls do not raise. -/
def Body.accepted : Body W → State W → List W
  | .done _, _ => []
  | .stmt tx w reply pcall rest, s =>
      let res := onHandle tx (fun scope => State.txStmt scope w reply) s
      match res.2 with
      | .ok _ => w :: rest.accepted res.1
      | .error _ => if pcall then rest.accepted res.1 else []
  | .transaction tx r inner pcall rest, s =>
      let res := onHandle tx (fun scope => State.runSavepoint scope r inner.run) s
      match res.2 with
      | .ok _ =>
          (s.calls[tx]?.elim [] fun scope => inner.accepted (s.entered scope)) ++
            rest.accepted res.1
      | .error _ => if pcall then rest.accepted res.1 else []

/-- The transaction opened by `BEGIN` is still open. -/
def Conn.holdsBegin (c : Conn W) : Bool :=
  (c.frames.map Frame.name).getLast? = some none

/-- What a `db:transaction` from `s` that returns owes: the writes of the scopes that were
not rolled back, by their own call or by the engine. -/
def Body.owed (b : Body W) (s : State W) : List W :=
  if (b.run s.begun).1.conn.holdsBegin then b.accepted s.begun else []

/-- What `db:transaction` promises of a call from `s` that ended in `res`: an error leaves
the committed state as it was, and a return adds the writes of the scopes not rolled back. -/
def Atomic (s : State W) (b : Body W) (res : State W × Outcome) : Prop :=
  (raisedBy res.2 = true → res.1.conn.committed = s.conn.committed) ∧
  (raisedBy res.2 = false → res.1.conn.committed = s.conn.committed ++ b.owed s)

end Promise

/-! ## Undos that go through -/

section Clean

variable {W : Type} {s s' : State W} {rest : Body W}

/-- The course is that of a body which ends in its transaction and has no undo refused. -/
def Course.Clean (c : Course W) : Prop :=
  c.inTx = true ∧ c.refused = false

theorem Course.Clean.of_write {inTx : Bool} {ws : List W} {c : Course W}
    (h : (c.write inTx ws).Clean) : c.Clean := by
  rwa [Clean, inTx_write, refused_write] at h

theorem Course.Clean.of_undo {refused : Bool} {c : Course W} (h : (c.undo refused).Clean) :
    refused = false ∧ c.Clean := by
  obtain ⟨hin, hno⟩ := h
  obtain ⟨hrefused, hc⟩ := Bool.or_eq_false_iff.mp hno
  exact ⟨hrefused, hin, hc⟩

theorem Course.Clean.not_lost {pcall : Bool} {depth : ℕ}
    (h : (caught pcall false (rest.course depth)).Clean) : False := by
  rw [Clean, caught_inTx_false] at h
  exact Bool.noConfusion h.1

/-- What a body behind a call that did not lose the transaction accepts. -/
theorem Body.accepted_rest (ih : ∀ s : State W, s.Live → s.conn.isAutocommit = false →
      (rest.course s.calls.length true).Clean →
      rest.accepted s = (rest.course s.calls.length true).kept)
    (hs : s.Live) (hk : State.Keeps s s') (ha : s'.conn.isAutocommit = false)
    (hc : (rest.course s.calls.length true).Clean) :
    rest.accepted s' = (rest.course s.calls.length true).kept := by
  rw [← hk.calls] at hc ⊢
  exact ih s' (hs.keeps hk) ha hc

theorem Body.accepted_caught (ih : ∀ s : State W, s.Live → s.conn.isAutocommit = false →
      (rest.course s.calls.length true).Clean →
      rest.accepted s = (rest.course s.calls.length true).kept)
    (hs : s.Live) (hk : State.Keeps s s') (ha : s'.conn.isAutocommit = false) (pcall : Bool)
    (hc : (Course.caught pcall true (rest.course s.calls.length)).Clean) :
    (if pcall then rest.accepted s' else []) =
      (Course.caught pcall true (rest.course s.calls.length)).kept := by
  cases pcall with
  | true => exact Body.accepted_rest ih hs hk ha hc
  | false => rfl

/-- What is accepted of a savepoint and of the body behind it, by how its call ended. -/
theorem Body.accepted_savepoint {i : Course W} {r : Replies} {out : Outcome} {ws : List W}
    (ih : ∀ s : State W, s.Live → s.conn.isAutocommit = false →
      (rest.course s.calls.length true).Clean →
      rest.accepted s = (rest.course s.calls.length true).kept)
    (hs : s.Live) (hk : State.Keeps s s') (ha : s.conn.isAutocommit = false) (pcall : Bool)
    (hws : i.inTx = true → ws = i.kept) :
    let course : Course W :=
      if i.inTx && (i.raised || r.commit = .fail) then
        .caught pcall (true && !r.undo.lost) (rest.course s.calls.length)
      else if i.inTx then
        if r.commit = .abort then .caught pcall false (rest.course s.calls.length)
        else (rest.course s.calls.length true).write true i.kept
      else (Course.caught pcall false (rest.course s.calls.length)).write false i.stray
    (if i.inTx && (i.raised || r.commit = .fail) then
        s'.conn = (if r.undo.lost then ⟨s.conn.committed, []⟩ else s.conn) ∧ ∃ e, out = .error e
      else if i.inTx then
        if r.commit = .abort then s'.conn = ⟨s.conn.committed, []⟩ ∧ ∃ e, out = .error e
        else s'.conn = s.conn.append i.kept ∧ out = .ok ()
      else s'.conn = ⟨s.conn.committed ++ i.stray, []⟩ ∧ ∃ e, out = .error e) →
    course.Clean →
      (match out with
        | .ok _ => ws ++ rest.accepted s'
        | .error _ => if pcall then rest.accepted s' else []) = course.kept := by
  intro course hcase hc
  simp only [course] at hc ⊢
  split at hcase
  next hr =>
    obtain ⟨hconn, e, rfl⟩ := hcase
    rw [if_pos hr] at hc ⊢
    cases hlost : r.undo.lost with
    | true =>
        simp only [hlost, Bool.not_true, Bool.and_false] at hc
        exact hc.not_lost.elim
    | false =>
        simp only [hlost, Bool.not_false, Bool.and_true] at hc ⊢
        have hback : s'.conn.isAutocommit = false := by
          simpa [hconn, hlost] using ha
        exact Body.accepted_caught ih hs hk hback pcall hc
  next hr =>
    rw [if_neg hr] at hc ⊢
    split at hcase
    next hin =>
      rw [if_pos hin] at hc ⊢
      split at hcase
      next hab =>
        rw [if_pos hab] at hc
        exact hc.not_lost.elim
      next hab =>
        obtain ⟨hconn, rfl⟩ := hcase
        rw [if_neg hab] at hc ⊢
        have hac : s'.conn.isAutocommit = false := by
          rw [hconn, Conn.isAutocommit_append, ha]
        have hrest := Body.accepted_rest ih hs hk hac hc.of_write
        simp only [hws hin, hrest]
        rfl
    next hin =>
      rw [if_neg hin] at hc
      exact hc.of_write.not_lost.elim

/-- On a course that ends in its transaction the accepted writes are the kept ones. -/
theorem Body.accepted_eq_kept (b : Body W) (s : State W) (hs : s.Live)
    (ha : s.conn.isAutocommit = false) (hc : (b.course s.calls.length true).Clean) :
    b.accepted s = (b.course s.calls.length true).kept := by
  induction b generalizing s with
  | done raises => rfl
  | stmt tx w reply pcall rest ih =>
      simp only [Body.course] at hc ⊢
      simp only [Body.accepted]
      by_cases htx : tx < s.calls.length
      · have hget : s.calls[tx]? = some s.calls[tx] := List.getElem?_eq_getElem htx
        have halive : s.alive s.calls[tx] = true := hs _ (List.getElem_mem htx)
        have hk := State.keeps_txStmt s.calls[tx] w reply s
        simp only [htx, if_true] at hc ⊢
        simp only [onHandle, hget]
        rw [State.txStmt_of_alive halive] at hk ⊢
        cases reply with
        | ok =>
            rw [State.execute_of_true rfl] at hk ⊢
            have hac : (s.conn.append [w]).isAutocommit = false := by
              rw [Conn.isAutocommit_append, ha]
            have hrest := Body.accepted_rest ih hs hk hac hc.of_write
            exact congrArg (w :: ·) hrest
        | fail =>
            rw [State.execute_of_false rfl] at hk ⊢
            exact Body.accepted_caught ih hs hk ha pcall hc
        | abort => exact hc.not_lost.elim
      · have hget : s.calls[tx]? = none := List.getElem?_eq_none (Nat.le_of_not_lt htx)
        simp only [htx, if_false] at hc ⊢
        simp only [onHandle, hget]
        exact Body.accepted_caught ih hs (State.Keeps.refl s) ha pcall hc
  | transaction tx r inner pcall rest ihi ihr =>
      simp only [Body.course] at hc ⊢
      simp only [Body.accepted]
      by_cases htx : tx < s.calls.length
      · have hget : s.calls[tx]? = some s.calls[tx] := List.getElem?_eq_getElem htx
        have halive : s.alive s.calls[tx] = true := hs _ (List.getElem_mem htx)
        have hk : State.Keeps s (State.runSavepoint s.calls[tx] r inner.run s).1 :=
          State.keeps_runSavepoint (inner.keeps_run _)
        simp only [htx, if_true] at hc ⊢
        simp only [onHandle, hget, Option.elim]
        cases hb : r.begin_ with
        | fail =>
            simp only [hb] at hc
            rw [State.runSavepoint_of_fail halive hb] at hk ⊢
            exact Body.accepted_caught ihr hs hk ha pcall hc
        | abort =>
            simp only [hb] at hc
            exact hc.not_lost.elim
        | ok =>
            simp only [hb] at hc ⊢
            have hi : (inner.course (s.calls.length + 1) true).Describes
                (s.entered s.calls[tx]).conn (inner.run (s.entered s.calls[tx])) :=
              inner.run_describes _ (hs.entered _)
            obtain ⟨hundo, hc⟩ := Course.Clean.of_undo hc
            obtain ⟨hni, hundo⟩ := Bool.or_eq_false_iff.mp hundo
            obtain ⟨c, out, hconn, hout, hcase⟩ := State.runSavepoint_course halive hb hi hni
              fun h => by rw [h, Bool.true_and] at hundo; exact hundo
            rcases hres : State.runSavepoint s.calls[tx] r inner.run s with ⟨s', out'⟩
            rw [hres] at hk hconn hout
            simp only at hk hconn hout
            subst hconn hout
            have hws (hin : (inner.course (s.calls.length + 1) true).inTx = true) :
                inner.accepted (s.entered s.calls[tx]) =
                  (inner.course (s.calls.length + 1) true).kept :=
              ihi (s.entered s.calls[tx]) (hs.entered _) rfl ⟨hin, hni⟩
            exact Body.accepted_savepoint ihr hs hk ha pcall hws hcase hc
      · have hget : s.calls[tx]? = none := List.getElem?_eq_none (Nat.le_of_not_lt htx)
        simp only [htx, if_false] at hc ⊢
        simp only [onHandle, hget]
        exact Body.accepted_caught ihr hs (State.Keeps.refl s) ha pcall hc

end Clean

/-! ## Undos that are refused -/

section Refused

variable {W : Type} {s : State W} {rest : Body W}

/-- A call inside an open transaction leaves what lies below its own frames alone, and
raises or not as foretold. -/
structure Stays (s : State W) (res : State W × Outcome) (raised : Bool) : Prop where
  grew : s.conn.Grew res.1.conn
  raised : raisedBy res.2 = raised

/-- Closing a savepoint, whatever is left open above it. -/
theorem State.closeSavepoint_stays {name : String} {r : Replies} {c : Conn W}
    {gs : List (Frame W)} (result : Outcome) (hs : s.conn = ⟨c.committed, gs ++ c.frames⟩)
    (hname : some name ∈ gs.map Frame.name) (hc : c.frames ≠ []) (hr : r.Unaborted) :
    c.Grew (closeSavepoint name r result s).1.conn ∧
      raisedBy (closeSavepoint name r result s).2 = (raisedBy result || r.commit = .fail) := by
  obtain ⟨-, hcommit, hrollback, hrelease⟩ := hr
  have hundo : c.Grew (s.execute [.rollbackTo name, .release name] r.undo.replies).1.conn := by
    rw [execute_fst, hs]
    exact Conn.Grew.undo hname hc hrollback hrelease
  cases result with
  | error e => exact ⟨by simpa [closeScope, execBatch_false] using hundo, rfl⟩
  | ok u =>
      cases hcm : r.commit with
      | abort => exact absurd hcm hcommit
      | ok =>
          obtain ⟨c', hstep, hgrew⟩ := Conn.Grew.release hname hc
          have h : s.conn.execute [.release name] [r.commit] = (c', true) := by
            rw [Conn.execute_one, hs, hcm, hstep]
          simp only [closeSavepoint, closeScope, execBatch_false, execute_of_true h]
          exact ⟨hgrew, rfl⟩
      | fail =>
          have h : s.conn.execute [.release name] [r.commit] = (s.conn, false) := by
            rw [Conn.execute_one, hcm, Conn.step]
          simp only [closeSavepoint, closeScope, execBatch_false, execute_of_false h]
          exact ⟨hundo, rfl⟩

theorem Stays.andThen {res : State W × Outcome} {raised : Bool} (h : Stays s res raised)
    (hs : s.Live) (hne : s.conn.frames ≠ []) (hk : State.Keeps s res.1)
    (hrest : ∀ s : State W, s.Live → s.conn.frames ≠ [] →
      Stays s (rest.run s) (rest.course s.calls.length true).raised) (pcall : Bool) :
    Stays s (andThen pcall rest.run res)
      (raised && !pcall || (rest.course s.calls.length true).raised) := by
  rcases res with ⟨s', out⟩
  obtain ⟨hgrew, hraised⟩ := h
  have hlive := hrest s' (hs.keeps hk) (hgrew.frames_ne_nil hne)
  rw [hk.calls] at hlive
  have hnext : Stays s (rest.run s') (rest.course s.calls.length true).raised :=
    ⟨hgrew.trans hne hlive.grew, hlive.raised⟩
  cases out with
  | ok u =>
      have hno : raised = false := hraised.symm
      simpa [Db.andThen, hno] using hnext
  | error e =>
      have hyes : raised = true := hraised.symm
      cases pcall with
      | true => simpa [Db.andThen] using hnext
      | false =>
          refine ⟨hgrew, ?_⟩
          simp [Db.andThen, raisedBy, hyes]

theorem Stays.refl (s : State W) (e : Error) : Stays s (s, .error e) true :=
  ⟨Conn.Grew.refl _, rfl⟩

theorem State.txStmt_stays {scope : ℕ} (hne : s.conn.frames ≠ []) (ha : s.alive scope = true)
    (w : W) {reply : Reply} (hr : reply ≠ .abort) :
    Stays s (txStmt scope w reply s) (reply = .fail) := by
  rw [txStmt_of_alive ha]
  cases reply with
  | ok =>
      rw [execute_of_true rfl]
      exact ⟨(Conn.Grew.refl _).append hne [w], rfl⟩
  | fail =>
      rw [execute_of_false rfl]
      exact ⟨Conn.Grew.refl _, rfl⟩
  | abort => exact absurd rfl hr

theorem State.runSavepoint_stays {scope : ℕ} {r : Replies} {body : State W → State W × Outcome}
    {raised : Bool} (hne : s.conn.frames ≠ []) (ha : s.alive scope = true) (hr : r.Unaborted)
    (hbody : Stays (s.entered scope) (body (s.entered scope)) raised) :
    Stays s (runSavepoint scope r body s)
      (r.begin_ = .fail || raised || r.commit = .fail) := by
  cases hb : r.begin_ with
  | abort => exact absurd hb hr.1
  | fail =>
      rw [runSavepoint_of_fail ha hb]
      exact ⟨Conn.Grew.refl _, rfl⟩
  | ok =>
      rw [runSavepoint_of_begun ha hb]
      obtain ⟨⟨gs, ws, hconn⟩, hraised⟩ := hbody
      -- the scope's own frame lies above those of the scopes around it
      have hs₂ : (body (s.entered scope)).1.conn = ⟨s.conn.committed,
          (gs ++ [⟨some (savepointName (s.savepoints scope)), ws⟩]) ++ s.conn.frames⟩ := by
        rw [hconn, List.append_assoc]
        rfl
      have hmem : some (savepointName (s.savepoints scope)) ∈
          (gs ++ [(⟨some (savepointName (s.savepoints scope)), ws⟩ : Frame W)]).map Frame.name := by
        simp
      obtain ⟨hgrew, hout⟩ :=
        closeSavepoint_stays (body (s.entered scope)).2 hs₂ hmem hne hr
      refine ⟨hgrew, ?_⟩
      rw [← hraised]
      simpa using hout

/-- As long as the engine never rolls back on its own, a body raises as its course says and
leaves what lay below it alone, refused undos or not. -/
theorem Body.run_stays (b : Body W) (hb : b.Unaborted) (s : State W) (hs : s.Live)
    (hne : s.conn.frames ≠ []) : Stays s (b.run s) (b.course s.calls.length true).raised := by
  induction b generalizing s with
  | done raises =>
      cases raises with
      | true => exact ⟨Conn.Grew.refl _, rfl⟩
      | false => exact ⟨Conn.Grew.refl _, rfl⟩
  | stmt tx w reply pcall rest ih =>
      simp only [Body.course, Body.run]
      by_cases htx : tx < s.calls.length
      · have hget : s.calls[tx]? = some s.calls[tx] := List.getElem?_eq_getElem htx
        have halive : s.alive s.calls[tx] = true := hs _ (List.getElem_mem htx)
        have h := (State.txStmt_stays hne halive w hb.1).andThen hs hne
          (State.keeps_txStmt _ w reply s) (ih hb.2) pcall
        simp only [htx, if_true, onHandle, hget]
        cases reply with
        | ok => simpa [Course.raised_write] using h
        | fail => simpa [Course.raised_caught] using h
        | abort => exact absurd rfl hb.1
      · have hget : s.calls[tx]? = none := List.getElem?_eq_none (Nat.le_of_not_lt htx)
        have h := (Stays.refl s .txEnded).andThen hs hne (State.Keeps.refl s) (ih hb.2) pcall
        simp only [htx, if_false, onHandle, hget]
        simpa [Course.raised_caught] using h
  | transaction tx r inner pcall rest ihi ihr =>
      obtain ⟨hr, hinner, hafter⟩ := hb
      simp only [Body.course, Body.run]
      by_cases htx : tx < s.calls.length
      · have hget : s.calls[tx]? = some s.calls[tx] := List.getElem?_eq_getElem htx
        have halive : s.alive s.calls[tx] = true := hs _ (List.getElem_mem htx)
        have hi : Stays (s.entered s.calls[tx]) (inner.run (s.entered s.calls[tx]))
            (inner.course (s.calls.length + 1) true).raised :=
          ihi hinner (s.entered s.calls[tx]) (hs.entered _) (by simp [State.entered, State.note])
        have h := (State.runSavepoint_stays hne halive hr hi).andThen hs hne
          (State.keeps_runSavepoint (inner.keeps_run _)) (ihr hafter) pcall
        simp only [htx, if_true, onHandle, hget]
        cases hbg : r.begin_ with
        | abort => exact absurd hbg hr.1
        | fail => simpa [hbg, Course.raised_caught] using h
        | ok =>
            have hlost := Undo.lost_eq_false hr.2.2.1 hr.2.2.2
            simp only [hlost, inner.inTx_of_unaborted hinner, Course.undo, Bool.true_and]
            split
            next hundone =>
              rw [hbg] at h
              simpa [Course.raised_caught, hundone] using h
            next hundone =>
              rw [hbg] at h
              simpa [Course.raised_write, hr.2.1, hundone] using h
      · have hget : s.calls[tx]? = none := List.getElem?_eq_none (Nat.le_of_not_lt htx)
        have h := (Stays.refl s .txEnded).andThen hs hne (State.Keeps.refl s) (ihr hafter) pcall
        simp only [htx, if_false, onHandle, hget]
        simpa [Course.raised_caught] using h

end Refused

/-! ## Exactly when the promise is kept -/

section Kept

variable {W : Type} {s : State W} {r : Replies}

/-- No nested scope that is to be undone is left open, unless the engine never rolls back on
its own and the whole transaction raises in the end. -/
def Body.Undoes (b : Body W) (r : Replies) : Prop :=
  (b.course 1 true).refused = false ∨
    b.Unaborted ∧ ((b.course 1 true).raised = true ∨ r.commit ≠ .ok)

theorem State.length_calls_begun (hs : s.calls = []) : s.begun.calls.length = 1 := by
  simp [begun, note, hs]

/-- A body that ends in its transaction owes what its course keeps. -/
theorem Body.owed_eq_kept (b : Body W) (hs : s.calls = []) (hc : (b.course 1 true).Clean)
    (hconn : (b.run s.begun).1.conn = (b.course 1 true).effect s.begun.conn) :
    b.owed s = (b.course 1 true).kept := by
  have hbegin : (b.run s.begun).1.conn.holdsBegin = true := by
    rw [hconn, Course.effect, if_pos hc.1]
    rfl
  have h := b.accepted_eq_kept s.begun (State.live_begun hs) rfl
  rw [State.length_calls_begun hs] at h
  rw [owed, if_pos hbegin, h hc]

/-- With every undo accepted, the end of a transaction is the one its course announces. -/
theorem Body.transact_of_clean (b : Body W) (hs : s.calls = []) (h : begins s r = true)
    (hno : (b.course 1 true).refused = false) :
    let c := b.course 1 true
    raisedBy (b.transact r s).2 = (c.raised || !c.inTx || r.commit ≠ .ok) ∧
      (b.transact r s).1.conn.committed =
        if c.inTx then
          if c.raised || r.commit ≠ .ok then s.conn.committed else s.conn.committed ++ b.owed s
        else s.conn.committed ++ c.stray := by
  intro c
  have hd := b.run_describes s.begun (State.live_begun hs)
  rw [State.length_calls_begun hs] at hd
  have hconn : (b.run s.begun).1.conn = c.effect ⟨s.conn.committed, [⟨none, []⟩]⟩ := hd.conn hno
  have hraised : raisedBy (b.run s.begun).2 = c.raised := hd.raised hno
  obtain ⟨hr, hcommitted⟩ := b.transact_of_begins h
  rw [hr, hcommitted, hconn, hraised]
  cases hin : c.inTx with
  | true =>
      rw [b.owed_eq_kept hs ⟨hin, hno⟩ hconn]
      simp [Course.effect, hin, Conn.append_cons, Conn.isAutocommit_cons, Conn.content,
        Conn.pending, c]
  | false => simp [Course.effect, hin, Conn.isAutocommit_nil]

/-- A transaction the engine never gives up and that raises in the end commits nothing. -/
theorem Body.transact_of_unaborted (b : Body W) (hs : s.calls = []) (h : begins s r = true)
    (hb : b.Unaborted) (hend : (b.course 1 true).raised = true ∨ r.commit ≠ .ok) :
    raisedBy (b.transact r s).2 = true ∧
      (b.transact r s).1.conn.committed = s.conn.committed := by
  have hstays := b.run_stays hb s.begun (State.live_begun hs) (List.cons_ne_nil _ _)
  rw [State.length_calls_begun hs] at hstays
  obtain ⟨⟨gs, ws, hconn⟩, hraised⟩ := hstays
  obtain ⟨hr, hcommitted⟩ := b.transact_of_begins h
  have hfailed : (raisedBy (b.run s.begun).2 || (b.run s.begun).1.conn.isAutocommit ||
      decide (r.commit ≠ .ok)) = true := by
    rcases hend with hend | hend
    · simp [hraised, hend]
    · simp [hend]
  rw [hr, hcommitted, hfailed, hconn]
  exact ⟨rfl, rfl⟩

/-- Where no undo is refused, or nothing is committed in the end, `db:transaction` keeps its
promise on exactly the bodies that write nothing after the engine has given the transaction
up, except in scopes opened since that are undone. -/
theorem Body.transact_atomic_iff (b : Body W) (r : Replies) (s : State W) (hs : s.calls = [])
    (hundo : begins s r = true → b.Undoes r) :
    Atomic s b (b.transact r s) ↔ (begins s r = true → (b.course 1 true).stray = []) := by
  cases hb : begins s r with
  | false =>
      obtain ⟨hr, hc⟩ := b.transact_of_not_begins hb
      simp [Atomic, hr, hc]
  | true =>
      rcases hundo hb with hno | ⟨hu, hend⟩
      · obtain ⟨hr, hc⟩ := b.transact_of_clean hs hb hno
        rw [Atomic, hr, hc]
        cases hin : (b.course 1 true).inTx with
        | true =>
            have hstray := b.stray_of_inTx 1 true hin
            cases (b.course 1 true).raised with
            | true => simp [hstray]
            | false =>
                cases r.commit with
                | ok => simp [hstray]
                | fail => simp [hstray]
                | abort => simp [hstray]
        | false => simp
      · obtain ⟨hr, hc⟩ := b.transact_of_unaborted hs hb hu hend
        have hstray := b.stray_of_inTx 1 true (b.inTx_of_unaborted hu 1)
        simp [Atomic, hr, hc, hstray]

end Kept

/-- The engine gives the transaction up, the body catches the error and writes on. -/
theorem Body.transact_atomic_iff_contained :
    let b : Body ℕ := .stmt 0 1 .abort true (.transaction 0 ⟨.ok, .ok, .fail, .clean⟩
      (.stmt 1 2 .ok false (.done false)) true (.done true))
    Atomic (State.new ⟨[7], []⟩) b (b.transact ⟨.ok, .ok, .ok, .clean⟩ (State.new ⟨[7], []⟩)) := by
  intro b
  exact (b.transact_atomic_iff ⟨.ok, .ok, .ok, .clean⟩ (State.new ⟨[7], []⟩) rfl
    fun _ => Or.inl (by decide)).mpr fun _ => by decide

/-- After a swallowed engine rollback a later write of the body is committed although
`db:transaction` raises; and a nested scope that raises, with its `ROLLBACK TO` refused, has
its write committed by a `db:transaction` that returns. -/
theorem Body.transact_not_atomic :
    let b : Body ℕ := .stmt 0 1 .abort true (.stmt 0 2 .ok false (.done false))
    let res := b.transact ⟨.ok, .ok, .ok, .clean⟩ (State.new ⟨[7], []⟩)
    let b' : Body ℕ := .transaction 0 ⟨.ok, .ok, .ok, ⟨.fail, .ok⟩⟩
      (.stmt 0 1 .ok false (.done true)) true (.done false)
    let res' := b'.transact ⟨.ok, .ok, .ok, .clean⟩ (State.new ⟨[7], []⟩)
    (raisedBy res.2 = true ∧ res.1.conn.committed = [7, 2] ∧
      ¬ Atomic (State.new ⟨[7], []⟩) b res) ∧
    raisedBy res'.2 = false ∧ res'.1.conn.committed = [7, 1] ∧ b'.owed (State.new ⟨[7], []⟩) = [] ∧
      ¬ Atomic (State.new ⟨[7], []⟩) b' res' := by
  intro b res b' res'
  have hr : raisedBy res.2 = true := by decide
  have hc : res.1.conn.committed = [7, 2] := by decide
  have hr' : raisedBy res'.2 = false := by decide
  have hc' : res'.1.conn.committed = [7, 1] := by decide
  have ho' : b'.owed (State.new ⟨[7], []⟩) = [] := by decide
  refine ⟨⟨hr, hc, fun h => ?_⟩, hr', hc', ho', fun h => ?_⟩
  · have hold := h.1 hr
    rw [hc] at hold
    simp [State.new] at hold
  · have hnew := h.2 hr'
    rw [hc', ho'] at hnew
    simp [State.new] at hnew

end Nitr.Db
