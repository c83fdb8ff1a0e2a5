import Nitr.Db.Body

/-! # The course of a transaction body

SQLite may roll a whole transaction back on its own. A body whose `pcall` swallows that
error goes on, and its statements then run in autocommit mode: they are durable at once,
whatever the transaction does later. The course of a body separates the writes that end in
its scope from those that stray, as long as no statement that undoes a scope is refused. -/

namespace Nitr.Db

/-- What the calls and answers of a body amount to. -/
structure Course (W : Type) where
  raised : Bool
  /-- A transaction is still open around the body at its end. -/
  inTx : Bool
  /-- The writes made in the body's scope and not undone since. -/
  kept : List W
  /-- The writes made after the engine gave the transaction up, outside of any scope
  opened since that was undone. -/
  stray : List W
  /-- A nested scope was to be undone and its savepoint was left open instead. -/
  refused : Bool
  deriving DecidableEq, Repr

namespace Course

variable {W : Type}

/-- Adds writes at the front: to the scope, or to the stray ones when nothing is open. -/
def write (inTx : Bool) (ws : List W) (c : Course W) : Course W :=
  if inTx then { c with kept := ws ++ c.kept } else { c with stray := ws ++ c.stray }

/-- The course after an error: the function goes on behind a `pcall` and ends otherwise. -/
def caught (pcall inTx : Bool) (k : Bool → Course W) : Course W :=
  if pcall then k inTx else ⟨true, inTx, [], [], false⟩

/-- The course of a body that comes to an undo first. -/
def undo (refused : Bool) (c : Course W) : Course W :=
  { c with refused := refused || c.refused }

/-- What a body of this course does to the connection it starts on. -/
def effect (c : Course W) (conn : Conn W) : Conn W :=
  if c.inTx then conn.append c.kept else ⟨conn.committed ++ c.stray, []⟩

end Course

/-- The course of a body inside `depth` open scopes, started in a transaction or (after
the engine gave it up) outside of one. -/
def Body.course {W : Type} : Body W → ℕ → Bool → Course W
  | .done raises, _, inTx => ⟨raises, inTx, [], [], false⟩
  | .stmt tx w reply pcall rest, depth, inTx =>
      if tx < depth then
        match reply with
        | .ok => (rest.course depth inTx).write inTx [w]
        | .fail => .caught pcall inTx (rest.course depth)
        | .abort => .caught pcall false (rest.course depth)
      else .caught pcall inTx (rest.course depth)
  | .transaction tx r inner pcall rest, depth, inTx =>
      if tx < depth then
        match r.begin_ with
        | .fail => .caught pcall inTx (rest.course depth)
        | .abort => .caught pcall false (rest.course depth)
        | .ok =>
            -- `SAVEPOINT` opens a transaction of its own when none is open
            let i := inner.course (depth + 1) true
            let undone := i.inTx && (i.raised || r.commit = .fail)
            .undo (i.refused || undone && r.undo.refused) <|
              if undone then .caught pcall (inTx && !r.undo.lost) (rest.course depth)
              else if i.inTx then
                if r.commit = .abort then .caught pcall false (rest.course depth)
                else (rest.course depth inTx).write inTx i.kept
              else (Course.caught pcall false (rest.course depth)).write false i.stray
      else .caught pcall inTx (rest.course depth)

/-- Whether a call ended by raising. -/
def raisedBy : Outcome → Bool
  | .ok _ => false
  | .error _ => true

namespace Course

variable {W : Type}

theorem inTx_write (inTx : Bool) (ws : List W) (c : Course W) :
    (c.write inTx ws).inTx = c.inTx := by
  cases inTx with
  | true => rfl
  | false => rfl

theorem raised_write (inTx : Bool) (ws : List W) (c : Course W) :
    (c.write inTx ws).raised = c.raised := by
  cases inTx with
  | true => rfl
  | false => rfl

theorem refused_write (inTx : Bool) (ws : List W) (c : Course W) :
    (c.write inTx ws).refused = c.refused := by
  cases inTx with
  | true => rfl
  | false => rfl

theorem inTx_caught {pcall inTx : Bool} {k : Bool → Course W} (h : (k inTx).inTx = inTx) :
    (caught pcall inTx k).inTx = inTx := by
  cases pcall with
  | true => exact h
  | false => rfl

/-- Writes at the front may as well have been made before. -/
theorem effect_write {c : Course W} {conn : Conn W} (ws : List W)
    (h : conn.isAutocommit = true → c.inTx = false) :
    (c.write (!conn.isAutocommit) ws).effect conn = c.effect (conn.append ws) := by
  rcases conn with ⟨committed, frames⟩
  cases frames with
  | nil =>
      have hc : c.inTx = false := h rfl
      simp [write, effect, Conn.isAutocommit, Conn.append_nil_frames, hc]
  | cons f fs =>
      cases hc : c.inTx with
      | true => simp [write, effect, Conn.isAutocommit_cons, hc]
      | false => simp [write, effect, Conn.isAutocommit_cons, Conn.append_cons, hc]

/-- A course outside of a transaction only reads the committed writes. -/
theorem effect_stray {c : Course W} (h : c.inTx = false) (ws : List W) (conn : Conn W) :
    (c.write false ws).effect conn = c.effect ⟨conn.committed ++ ws, []⟩ := by
  simp [write, effect, h]

/-- The result of running a body from a connection is the one its course announces, unless
an undo was refused on the way. -/
structure Describes (c : Course W) (conn : Conn W) (res : State W × Outcome) : Prop where
  conn : c.refused = false → res.1.conn = c.effect conn
  raised : c.refused = false → raisedBy res.2 = c.raised

theorem Describes.write {c : Course W} {conn : Conn W} {res : State W × Outcome}
    {ws : List W} (h : c.Describes (conn.append ws) res)
    (hc : conn.isAutocommit = true → c.inTx = false) :
    (c.write (!conn.isAutocommit) ws).Describes conn res := by
  refine ⟨?_, ?_⟩
  · rw [refused_write, effect_write ws hc]
    exact h.conn
  · rw [refused_write, raised_write]
    exact h.raised

theorem Describes.undo {c : Course W} {conn : Conn W} {res : State W × Outcome}
    {refused : Bool} (h : refused = false → c.Describes conn res) :
    (c.undo refused).Describes conn res := by
  cases refused with
  | false => exact h rfl
  | true => exact ⟨fun h => Bool.noConfusion h, fun h => Bool.noConfusion h⟩

/-- After an error the connection stands as the failed call left it. -/
theorem Describes.caught {k : Bool → Course W} {run : State W → State W × Outcome}
    {s : State W} (h : (k (!s.conn.isAutocommit)).Describes s.conn (run s)) (pcall : Bool)
    (e : Error) :
    (Course.caught pcall (!s.conn.isAutocommit) k).Describes s.conn
      (andThen pcall run (s, .error e)) := by
  cases pcall with
  | true => exact h
  | false =>
      refine ⟨fun _ => ?_, fun _ => rfl⟩
      rcases hs : s.conn with ⟨committed, frames⟩
      cases frames with
      | nil => simp [andThen, Course.caught, effect, Conn.isAutocommit, hs]
      | cons f fs => simp [andThen, Course.caught, effect, Conn.isAutocommit, hs]

end Course

/-- Once the transaction is gone it stays gone. -/
theorem Body.course_inTx_false {W : Type} (b : Body W) (depth : ℕ) :
    (b.course depth false).inTx = false := by
  induction b generalizing depth with
  | done raises => rfl
  | stmt tx w reply pcall rest ih =>
      have hk := @Course.inTx_caught W pcall false _ (ih depth)
      simp only [Body.course]
      split
      · cases reply with
        | ok => rw [Course.inTx_write]; exact ih depth
        | fail => exact hk
        | abort => exact hk
      · exact hk
  | transaction tx r inner pcall rest ihi ihr =>
      have hk := @Course.inTx_caught W pcall false _ (ihr depth)
      simp only [Body.course]
      split
      · cases r.begin_ with
        | fail => exact hk
        | abort => exact hk
        | ok =>
            simp only [Course.undo]
            split
            · exact hk
            · split
              · split
                · exact hk
                · rw [Course.inTx_write]; exact ihr depth
              · rw [Course.inTx_write]; exact hk
      · exact hk

/-! ## Running a body -/

theorem Conn.isAutocommit_append {W : Type} (c : Conn W) (ws : List W) :
    (c.append ws).isAutocommit = c.isAutocommit := by
  rcases c with ⟨committed, frames⟩
  cases frames with
  | nil => rfl
  | cons f fs => rfl

theorem Course.caught_inTx_false {W : Type} (pcall : Bool) (rest : Body W) (depth : ℕ) :
    (Course.caught pcall false (rest.course depth)).inTx = false :=
  Course.inTx_caught (rest.course_inTx_false depth)

section Run

variable {W : Type} {rest : Body W} {depth : ℕ} {s s' : State W}

/-- Outside of a transaction, what a course announces holds behind stray writes too. -/
theorem Course.Describes.stray {c : Course W} {conn : Conn W} {res : State W × Outcome}
    {ws : List W} (h : c.Describes ⟨conn.committed ++ ws, []⟩ res) (hc : c.inTx = false) :
    (c.write false ws).Describes conn res := by
  refine ⟨?_, ?_⟩
  · rw [Course.refused_write, Course.effect_stray hc]
    exact h.conn
  · rw [Course.refused_write, Course.raised_write]
    exact h.raised

/-- A failed call leaves the connection as it was or without its transaction. -/
theorem Course.Describes.after_error
    (h : (rest.course depth (!s'.conn.isAutocommit)).Describes s'.conn (rest.run s'))
    (pcall lost : Bool) (e : Error)
    (hc : s'.conn = if lost then ⟨s.conn.committed, []⟩ else s.conn) :
    (Course.caught pcall (!s.conn.isAutocommit && !lost) (rest.course depth)).Describes
      s.conn (andThen pcall rest.run (s', .error e)) := by
  have hd := h.caught pcall e
  cases lost with
  | false =>
      have hs : s'.conn = s.conn := hc
      rw [hs] at hd
      simpa using hd
  | true =>
      have hs : s'.conn = ⟨s.conn.committed ++ [], []⟩ := by simpa using hc
      rw [hs] at hd
      have hd' : (Course.caught pcall false (rest.course depth)).Describes s.conn
          (andThen pcall rest.run (s', .error e)) :=
        hd.stray (Course.caught_inTx_false pcall rest depth)
      simpa using hd'

/-- A statement of an open scope, in the three ways the engine may answer it. -/
theorem Body.describes_stmt (hrest : ∀ s : State W, s.Live →
      (rest.course s.calls.length (!s.conn.isAutocommit)).Describes s.conn (rest.run s))
    (hs : s.Live) (tx : ℕ) (w : W) (reply : Reply) (pcall : Bool) :
    ((Body.stmt tx w reply pcall rest).course s.calls.length
      (!s.conn.isAutocommit)).Describes s.conn ((Body.stmt tx w reply pcall rest).run s) := by
  simp only [Body.course, Body.run]
  by_cases htx : tx < s.calls.length
  · have hget : s.calls[tx]? = some s.calls[tx] := List.getElem?_eq_getElem htx
    have halive : s.alive s.calls[tx] = true := hs _ (List.getElem_mem htx)
    have hk : State.Keeps s (State.txStmt s.calls[tx] w reply s).1 :=
      State.keeps_txStmt _ w reply s
    have hlive := hrest _ (hs.keeps hk)
    rw [hk.calls] at hlive
    simp only [htx, if_true, onHandle, hget]
    rw [State.txStmt_of_alive halive] at hlive ⊢
    cases reply with
    | ok =>
        have hc : State.execute (s.note (.stmt (.inner s.calls[tx]) none)) [.write w] [.ok] =
            ({ s.note (.stmt (.inner s.calls[tx]) none) with conn := s.conn.append [w] },
              .ok ()) := State.execute_of_true rfl
        rw [hc] at hlive ⊢
        simp only [Conn.isAutocommit_append] at hlive
        apply hlive.write
        intro ha
        rw [ha]
        exact rest.course_inTx_false _
    | fail =>
        rw [State.execute_of_false rfl] at hlive ⊢
        have hd := @Course.Describes.after_error W rest _ s _ hlive pcall false .engine rfl
        simpa using hd
    | abort =>
        rw [State.execute_of_false rfl] at hlive ⊢
        have hd := @Course.Describes.after_error W rest _ s _ hlive pcall true .engine rfl
        simpa using hd
  · have hget : s.calls[tx]? = none := List.getElem?_eq_none (Nat.le_of_not_lt htx)
    simp only [htx, if_false, onHandle, hget]
    exact (hrest s hs).caught pcall .txEnded

/-- How a scope that began ends, in terms of its body's course. -/
theorem State.runSavepoint_course {scope : ℕ} {r : Replies} {body : State W → State W × Outcome}
    {i : Course W} (ha : s.alive scope = true) (hb : r.begin_ = .ok)
    (hi : i.Describes (s.entered scope).conn (body (s.entered scope)))
    (hr : i.refused = false)
    (hundo : (i.inTx && (i.raised || r.commit = .fail)) = true → r.undo.refused = false) :
    ∃ c out, (runSavepoint scope r body s).1.conn = c ∧ (runSavepoint scope r body s).2 = out ∧
      if i.inTx && (i.raised || r.commit = .fail) then
        c = (if r.undo.lost then ⟨s.conn.committed, []⟩ else s.conn) ∧ ∃ e, out = .error e
      else if i.inTx then
        if r.commit = .abort then c = ⟨s.conn.committed, []⟩ ∧ ∃ e, out = .error e
        else c = s.conn.append i.kept ∧ out = .ok ()
      else c = ⟨s.conn.committed ++ i.stray, []⟩ ∧ ∃ e, out = .error e := by
  rw [runSavepoint_of_begun ha hb]
  refine ⟨_, _, rfl, rfl, ?_⟩
  rcases hran : body (s.entered scope) with ⟨s₂, result⟩
  rw [hran] at hi
  have hconn := hi.conn hr
  have hraised := hi.raised hr
  simp only [Course.effect] at hconn
  cases hin : i.inTx with
  | false =>
      simp only [hin] at hconn
      obtain ⟨e, he⟩ := @closeSavepoint_nil W (savepointName (s.savepoints scope)) r _ _ result hconn
      simp only [he]
      exact ⟨hconn, e, rfl⟩
  | true =>
      have hc : s₂.conn = ⟨s.conn.committed,
          ⟨some (savepointName (s.savepoints scope)), i.kept⟩ :: s.conn.frames⟩ := by
        rw [if_pos hin] at hconn
        exact hconn
      have hback (h : (i.raised || r.commit = .fail) = true) :
          Conn.undone r.undo s.conn.committed
            ⟨some (savepointName (s.savepoints scope)), i.kept⟩ s.conn.frames =
          if r.undo.lost then ⟨s.conn.committed, []⟩ else s.conn := by
        have hno := hundo (by rw [hin, h]; rfl)
        cases hlost : r.undo.lost with
        | true => exact Conn.undone_lost hlost _ _ _
        | false => exact Conn.undone_clean hno hlost _ _ _
      cases result with
      | error e =>
          have hr : i.raised = true := hraised.symm
          simp only [closeSavepoint_error e hc, hr]
          exact ⟨hback (by rw [hr]; rfl), e, rfl⟩
      | ok u =>
          have hr : i.raised = false := hraised.symm
          cases hcm : r.commit with
          | ok =>
              simp only [closeSavepoint_ok u hc hcm, hr]
              exact ⟨rfl, trivial⟩
          | fail =>
              simp only [closeSavepoint_fail u hc hcm, hr]
              exact ⟨hback (by rw [hcm, hr]; rfl), _, rfl⟩
          | abort =>
              simp only [closeSavepoint_abort u hc hcm, hr]
              exact ⟨rfl, _, rfl⟩

/-- A nested scope: it may not begin, lose the transaction, be undone, or hand its writes
to the scope around it. -/
theorem Body.describes_transaction {inner : Body W}
    (hinner : ∀ s : State W, s.Live →
      (inner.course s.calls.length (!s.conn.isAutocommit)).Describes s.conn (inner.run s))
    (hrest : ∀ s : State W, s.Live →
      (rest.course s.calls.length (!s.conn.isAutocommit)).Describes s.conn (rest.run s))
    (hs : s.Live) (tx : ℕ) (r : Replies) (pcall : Bool) :
    ((Body.transaction tx r inner pcall rest).course s.calls.length
      (!s.conn.isAutocommit)).Describes s.conn
        ((Body.transaction tx r inner pcall rest).run s) := by
  simp only [Body.course, Body.run]
  by_cases htx : tx < s.calls.length
  · have hget : s.calls[tx]? = some s.calls[tx] := List.getElem?_eq_getElem htx
    have halive : s.alive s.calls[tx] = true := hs _ (List.getElem_mem htx)
    have hk : State.Keeps s (State.runSavepoint s.calls[tx] r inner.run s).1 :=
      State.keeps_runSavepoint (inner.keeps_run _)
    have hlive := hrest _ (hs.keeps hk)
    rw [hk.calls] at hlive
    simp only [htx, if_true, onHandle, hget]
    cases hb : r.begin_ with
    | fail =>
        rw [State.runSavepoint_of_fail halive hb] at hlive ⊢
        have hd := @Course.Describes.after_error W rest _ s _ hlive pcall false .engine rfl
        simpa using hd
    | abort =>
        rw [State.runSavepoint_of_abort halive hb] at hlive ⊢
        have hd := @Course.Describes.after_error W rest _ s _ hlive pcall true .engine rfl
        simpa using hd
    | ok =>
        have hi : (inner.course (s.calls.length + 1) true).Describes (s.entered s.calls[tx]).conn
            (inner.run (s.entered s.calls[tx])) := hinner _ (hs.entered _)
        apply Course.Describes.undo
        intro hno
        obtain ⟨hni, hundo⟩ := Bool.or_eq_false_iff.mp hno
        obtain ⟨c, out, hc, hout, hcase⟩ := State.runSavepoint_course halive hb hi hni
          fun h => by rw [h, Bool.true_and] at hundo; exact hundo
        rcases hres : State.runSavepoint s.calls[tx] r inner.run s with ⟨s', out'⟩
        rw [hres] at hlive hc hout
        simp only at hlive hc hout
        subst hc hout
        have hauto (ha : s.conn.isAutocommit = true) :
            (rest.course s.calls.length (!s.conn.isAutocommit)).inTx = false := by
          rw [ha]
          exact rest.course_inTx_false _
        split at hcase
        next hr =>
          obtain ⟨hc, e, rfl⟩ := hcase
          rw [if_pos hr]
          exact hlive.after_error pcall r.undo.lost e hc
        next hr =>
          rw [if_neg hr]
          split at hcase
          next hin =>
            rw [if_pos hin]
            split at hcase
            next hab =>
              obtain ⟨hc, e, rfl⟩ := hcase
              rw [if_pos hab]
              simpa using hlive.after_error pcall true e hc
            next hab =>
              obtain ⟨hc, rfl⟩ := hcase
              rw [if_neg hab]
              rw [hc, Conn.isAutocommit_append] at hlive
              exact hlive.write hauto
          next hin =>
            obtain ⟨hc, e, rfl⟩ := hcase
            rw [if_neg hin]
            have hd := hlive.caught pcall e
            rw [hc] at hd
            exact hd.stray (Course.caught_inTx_false pcall rest _)
  · have hget : s.calls[tx]? = none := List.getElem?_eq_none (Nat.le_of_not_lt htx)
    simp only [htx, if_false, onHandle, hget]
    exact (hrest s hs).caught pcall .txEnded

end Run

/-- Every run of a body, from inside any stack of open scopes, is what its course says. -/
theorem Body.run_describes {W : Type} (b : Body W) (s : State W) (hs : s.Live) :
    (b.course s.calls.length (!s.conn.isAutocommit)).Describes s.conn (b.run s) := by
  induction b generalizing s with
  | done raises =>
      have hend : (⟨raises, !s.conn.isAutocommit, [], [], false⟩ : Course W).effect s.conn =
          s.conn := by
        rcases s.conn with ⟨committed, frames⟩
        cases frames with
        | nil => simp [Course.effect, Conn.isAutocommit]
        | cons f fs => simp [Course.effect, Conn.isAutocommit]
      cases raises with
      | true => exact ⟨fun _ => hend.symm, fun _ => rfl⟩
      | false => exact ⟨fun _ => hend.symm, fun _ => rfl⟩
  | stmt tx w reply pcall rest ih => exact Body.describes_stmt ih hs tx w reply pcall
  | transaction tx r inner pcall rest ihi ihr =>
      exact Body.describes_transaction ihi ihr hs tx r pcall

/-! ## Bodies that stay inside their transaction -/

theorem Course.stray_caught {W : Type} {pcall inTx : Bool} {k : Bool → Course W}
    (hk : (k inTx).inTx = true → (k inTx).stray = [])
    (h : (caught pcall inTx k).inTx = true) : (caught pcall inTx k).stray = [] := by
  cases pcall with
  | true => exact hk h
  | false => rfl

theorem Course.stray_write {W : Type} {inTx : Bool} {ws : List W} {c : Course W}
    (hc : inTx = false → c.inTx = false) (hk : c.inTx = true → c.stray = [])
    (h : (c.write inTx ws).inTx = true) : (c.write inTx ws).stray = [] := by
  rw [inTx_write] at h
  cases inTx with
  | true => exact hk h
  | false => simp [hc rfl] at h

/-- A body that ends inside its transaction has let nothing stray. -/
theorem Body.stray_of_inTx {W : Type} (b : Body W) (depth : ℕ) (inTx : Bool)
    (h : (b.course depth inTx).inTx = true) : (b.course depth inTx).stray = [] := by
  induction b generalizing depth inTx with
  | done raises => rfl
  | stmt tx w reply pcall rest ih =>
      have hfalse (hf : inTx = false) : (rest.course depth inTx).inTx = false := by
        rw [hf]
        exact rest.course_inTx_false depth
      simp only [Body.course] at h ⊢
      split at h
      next htx =>
        rw [if_pos htx]
        cases reply with
        | ok => exact Course.stray_write hfalse (ih depth inTx) h
        | fail => exact Course.stray_caught (ih depth inTx) h
        | abort => exact Course.stray_caught (ih depth false) h
      next htx =>
        rw [if_neg htx]
        exact Course.stray_caught (ih depth inTx) h
  | transaction tx r inner pcall rest ihi ihr =>
      have hfalse (hf : inTx = false) : (rest.course depth inTx).inTx = false := by
        rw [hf]
        exact rest.course_inTx_false depth
      simp only [Body.course] at h ⊢
      split at h
      next htx =>
        rw [if_pos htx]
        cases hb : r.begin_ with
        | fail =>
            simp only [hb] at h
            exact Course.stray_caught (ihr depth inTx) h
        | abort =>
            simp only [hb] at h
            exact Course.stray_caught (ihr depth false) h
        | ok =>
            simp only [hb, Course.undo] at h ⊢
            split at h
            next hr =>
              rw [if_pos hr]
              exact Course.stray_caught (ihr depth _) h
            next hr =>
              rw [if_neg hr]
              split at h
              next hin =>
                rw [if_pos hin]
                split at h
                next hab =>
                  rw [if_pos hab]
                  exact Course.stray_caught (ihr depth false) h
                next hab =>
                  rw [if_neg hab]
                  exact Course.stray_write hfalse (ihr depth inTx) h
              next hin =>
                have hlost := Course.caught_inTx_false pcall rest depth
                rw [Course.inTx_write, hlost] at h
                cases h
      next htx =>
        rw [if_neg htx]
        exact Course.stray_caught (ihr depth inTx) h

theorem Course.raised_caught {W : Type} (pcall inTx : Bool) (k : Bool → Course W) :
    (caught pcall inTx k).raised = (!pcall || (k inTx).raised) := by
  cases pcall with
  | true => rfl
  | false => rfl

/-- The engine never rolls the transaction back on its own. -/
def Replies.Unaborted (r : Replies) : Prop :=
  r.begin_ ≠ .abort ∧ r.commit ≠ .abort ∧ r.undo.rollback ≠ .abort ∧ r.undo.release ≠ .abort

def Body.Unaborted {W : Type} : Body W → Prop
  | .done _ => True
  | .stmt _ _ reply _ rest => reply ≠ .abort ∧ rest.Unaborted
  | .transaction _ r inner _ rest => r.Unaborted ∧ inner.Unaborted ∧ rest.Unaborted

theorem Undo.lost_eq_false {undo : Undo} (hrollback : undo.rollback ≠ .abort)
    (hrelease : undo.release ≠ .abort) : undo.lost = false := by
  simp [Undo.lost, hrollback, hrelease]

/-- A transaction nobody gives up is open at the body's end. -/
theorem Body.inTx_of_unaborted {W : Type} (b : Body W) (hb : b.Unaborted) (depth : ℕ) :
    (b.course depth true).inTx = true := by
  induction b generalizing depth with
  | done raises => rfl
  | stmt tx w reply pcall rest ih =>
      have hrest := ih hb.2 depth
      have hk := @Course.inTx_caught W pcall true _ hrest
      simp only [Body.course]
      split
      · cases reply with
        | ok => rw [Course.inTx_write]; exact hrest
        | fail => exact hk
        | abort => exact absurd rfl hb.1
      · exact hk
  | transaction tx r inner pcall rest ihi ihr =>
      obtain ⟨⟨hbegin, hcommit, hrollback, hrelease⟩, hinner, hafter⟩ := hb
      have hrest := ihr hafter depth
      have hk := @Course.inTx_caught W pcall true _ hrest
      simp only [Body.course]
      split
      · cases hbg : r.begin_ with
        | fail => exact hk
        | abort => exact absurd hbg hbegin
        | ok =>
            simp only [Course.undo, Undo.lost_eq_false hrollback hrelease, ihi hinner]
            split
            · exact hk
            · rw [if_pos trivial, Course.inTx_write]
              exact hrest
      · exact hk

end Nitr.Db
