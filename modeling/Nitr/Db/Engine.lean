import Mathlib.Data.List.Basic
import Mathlib.Order.Nat
import Mathlib.Tactic.Common

/-! # The SQLite connection

A connection holds its committed writes and the stack of open scopes, the innermost first.
The bottom of the stack is the frame of `BEGIN`, or of the savepoint that opened the
transaction from autocommit mode. `RELEASE` and `ROLLBACK TO` act on the most recent
savepoint of the given name; releasing the bottom savepoint commits. -/

namespace Nitr.Db

/-- How the engine answers a statement: it runs it, refuses it and leaves the transaction
open, or refuses it and rolls the whole transaction back. -/
inductive Reply where
  | ok
  | fail
  | abort
  deriving DecidableEq, Repr

/-- How the engine answers the statements that undo a scope: `ROLLBACK` or `ROLLBACK TO`, and
for a savepoint the `RELEASE` behind it. -/
structure Undo where
  rollback : Reply
  release : Reply
  deriving DecidableEq, Repr

namespace Undo

def clean : Undo := ⟨.ok, .ok⟩

def replies (undo : Undo) : List Reply := [undo.rollback, undo.release]

/-- A savepoint is left open, with its writes or without. -/
def refused (undo : Undo) : Bool :=
  undo.rollback = .fail || undo.rollback = .ok && undo.release = .fail

/-- The whole transaction is gone. -/
def lost (undo : Undo) : Bool :=
  undo.rollback = .abort || undo.rollback = .ok && undo.release = .abort

end Undo

/-- An open scope: its savepoint name (`none` for `BEGIN`) and the writes made since. -/
structure Frame (W : Type) where
  name : Option String
  writes : List W
  deriving DecidableEq, Repr

structure Conn (W : Type) where
  committed : List W
  frames : List (Frame W)
  deriving DecidableEq, Repr

/-- The statements the database module sends. -/
inductive Sql (W : Type) where
  | write (w : W)
  | begin_
  | commit
  | rollback
  | savepoint (name : String)
  | release (name : String)
  | rollbackTo (name : String)
  deriving DecidableEq, Repr

namespace Conn

variable {W : Type}

def isAutocommit (c : Conn W) : Bool :=
  c.frames.isEmpty

/-- The writes of a stack of frames, in the order they were made. -/
def pending : List (Frame W) → List W
  | [] => []
  | f :: fs => pending fs ++ f.writes

/-- What a statement on this connection reads. -/
def content (c : Conn W) : List W :=
  c.committed ++ pending c.frames

/-- Takes the frames down to the most recent savepoint called `name` off the stack,
with all their writes. -/
def takeTo (name : String) : List (Frame W) → Option (List W × List (Frame W))
  | [] => none
  | f :: fs =>
      if f.name = some name then some (f.writes, fs)
      else
        match takeTo name fs with
        | none => none
        | some (ws, rest) => some (ws ++ f.writes, rest)

/-- Drops the frames above the most recent savepoint called `name` and empties it. -/
def cutTo (name : String) : List (Frame W) → Option (List (Frame W))
  | [] => none
  | f :: fs => if f.name = some name then some ({ f with writes := [] } :: fs) else cutTo name fs

/-- Adds writes to the innermost scope, or to the committed state when none is open. -/
def append (c : Conn W) (ws : List W) : Conn W :=
  match c.frames with
  | [] => { c with committed := c.committed ++ ws }
  | f :: fs => { c with frames := { f with writes := f.writes ++ ws } :: fs }

/-- One statement the engine accepts to run; `none` when it does not apply here
(`no transaction is active`, `no such savepoint`, a `BEGIN` inside a transaction). -/
def apply (c : Conn W) : Sql W → Option (Conn W)
  | .write w => some (c.append [w])
  | .begin_ => if c.isAutocommit then some { c with frames := [⟨none, []⟩] } else none
  | .commit => if c.isAutocommit then none else some ⟨c.content, []⟩
  | .rollback => if c.isAutocommit then none else some { c with frames := [] }
  | .savepoint name => some { c with frames := ⟨some name, []⟩ :: c.frames }
  | .release name =>
      match takeTo name c.frames with
      | none => none
      | some (ws, rest) => some (append { c with frames := rest } ws)
  | .rollbackTo name =>
      match cutTo name c.frames with
      | none => none
      | some frames => some { c with frames := frames }

/-- The engine runs one statement, answering as `reply` says. -/
def step (c : Conn W) (sql : Sql W) : Reply → Conn W × Bool
  | .ok =>
      match c.apply sql with
      | none => (c, false)
      | some c' => (c', true)
  | .fail => (c, false)
  | .abort => ({ c with frames := [] }, false)

/-- `execute_batch`: statement by statement, up to the first that fails. -/
def execute (c : Conn W) : List (Sql W) → List Reply → Conn W × Bool
  | [], _ => (c, true)
  | sql :: rest, replies =>
      match c.step sql (replies.headD .ok) with
      | (c', true) => c'.execute rest replies.tail
      | (c', false) => (c', false)

/-! ## The innermost scope -/

theorem isAutocommit_nil (ws : List W) : isAutocommit ⟨ws, []⟩ = true := rfl

theorem isAutocommit_cons (ws : List W) (f : Frame W) (fs : List (Frame W)) :
    isAutocommit ⟨ws, f :: fs⟩ = false := rfl

theorem append_nil_frames (ws vs : List W) : append ⟨ws, []⟩ vs = ⟨ws ++ vs, []⟩ := rfl

theorem append_cons (ws vs : List W) (f : Frame W) (fs : List (Frame W)) :
    append ⟨ws, f :: fs⟩ vs = ⟨ws, ⟨f.name, f.writes ++ vs⟩ :: fs⟩ := rfl

@[simp] theorem append_nil (c : Conn W) : c.append [] = c := by
  rcases c with ⟨ws, fs⟩
  cases fs with
  | nil => simp [append]
  | cons f fs => simp [append]

@[simp] theorem append_append (c : Conn W) (vs us : List W) :
    (c.append vs).append us = c.append (vs ++ us) := by
  rcases c with ⟨ws, fs⟩
  cases fs with
  | nil => simp [append]
  | cons f fs => simp [append]

@[simp] theorem content_append (c : Conn W) (vs : List W) :
    (c.append vs).content = c.content ++ vs := by
  rcases c with ⟨ws, fs⟩
  cases fs with
  | nil => simp [append, content, pending]
  | cons f fs => simp [append, content, pending]

theorem takeTo_top (name : String) (ws : List W) (fs : List (Frame W)) :
    takeTo name (⟨some name, ws⟩ :: fs) = some (ws, fs) := by
  simp [takeTo]

theorem cutTo_top (name : String) (ws : List W) (fs : List (Frame W)) :
    cutTo name (⟨some name, ws⟩ :: fs) = some (⟨some name, []⟩ :: fs) := by
  simp [cutTo]

theorem execute_single (c : Conn W) (sql : Sql W) (replies : List Reply) :
    c.execute [sql] replies = c.step sql (replies.headD .ok) := by
  simp only [execute]
  rcases c.step sql (replies.headD .ok) with ⟨c', ok⟩
  cases ok with
  | true => rfl
  | false => rfl

theorem execute_one (c : Conn W) (sql : Sql W) (reply : Reply) :
    c.execute [sql] [reply] = c.step sql reply :=
  execute_single c sql [reply]

/-- Releasing the innermost savepoint hands its writes to the scope below. -/
theorem step_release_top (name : String) (ws vs : List W) (fs : List (Frame W)) :
    step ⟨ws, ⟨some name, vs⟩ :: fs⟩ (.release name) .ok = (append ⟨ws, fs⟩ vs, true) := by
  simp [step, apply, takeTo_top]

/-- The connection after undoing the innermost scope. -/
def undone (undo : Undo) (ws : List W) (f : Frame W) (fs : List (Frame W)) : Conn W :=
  match undo.rollback, undo.release with
  | .ok, .ok => ⟨ws, fs⟩
  | .ok, .fail => ⟨ws, { f with writes := [] } :: fs⟩
  | .ok, .abort => ⟨ws, []⟩
  | .fail, _ => ⟨ws, f :: fs⟩
  | .abort, _ => ⟨ws, []⟩

theorem execute_undo_top (name : String) (undo : Undo) (ws vs : List W) (fs : List (Frame W)) :
    (execute ⟨ws, ⟨some name, vs⟩ :: fs⟩ [.rollbackTo name, .release name] undo.replies).1 =
      undone undo ws ⟨some name, vs⟩ fs := by
  rcases undo with ⟨rollback, release⟩
  cases rollback with
  | ok =>
      cases release with
      | ok => simp [execute, step, apply, cutTo_top, takeTo_top, Undo.replies, undone]
      | fail => simp [execute, step, apply, cutTo_top, Undo.replies, undone]
      | abort => simp [execute, step, apply, cutTo_top, Undo.replies, undone]
  | fail => rfl
  | abort => rfl

theorem undone_clean {undo : Undo} (hrefused : undo.refused = false) (hlost : undo.lost = false)
    (ws : List W) (f : Frame W) (fs : List (Frame W)) : undone undo ws f fs = ⟨ws, fs⟩ := by
  rcases undo with ⟨rollback, release⟩
  cases rollback with
  | ok =>
      cases release with
      | ok => rfl
      | fail => cases hrefused
      | abort => cases hlost
  | fail => cases hrefused
  | abort => cases hlost

theorem undone_lost {undo : Undo} (hlost : undo.lost = true) (ws : List W) (f : Frame W)
    (fs : List (Frame W)) : undone undo ws f fs = ⟨ws, []⟩ := by
  rcases undo with ⟨rollback, release⟩
  cases rollback with
  | ok =>
      cases release with
      | ok => cases hlost
      | fail => cases hlost
      | abort => rfl
  | fail => cases hlost
  | abort => rfl

/-- In autocommit mode no savepoint can be released or undone. -/
theorem execute_scope_nil (name : String) (ws : List W) (rest : List (Sql W))
    (replies : List Reply) :
    execute ⟨ws, []⟩ (.release name :: rest) replies = (⟨ws, []⟩, false) ∧
    execute ⟨ws, []⟩ (.rollbackTo name :: rest) replies = (⟨ws, []⟩, false) := by
  constructor
  · simp only [execute]
    cases replies.headD .ok with
    | ok => rfl
    | fail => rfl
    | abort => rfl
  · simp only [execute]
    cases replies.headD .ok with
    | ok => rfl
    | fail => rfl
    | abort => rfl

/-! ## Frames above others -/

/-- A savepoint of this name among the frames on top is the one that is taken. -/
theorem takeTo_append {name : String} {gs : List (Frame W)} (h : some name ∈ gs.map Frame.name)
    (fs : List (Frame W)) :
    ∃ ws rest, takeTo name (gs ++ fs) = some (ws, rest ++ fs) := by
  induction gs with
  | nil => cases h
  | cons g gs ih =>
      by_cases hg : g.name = some name
      · exact ⟨g.writes, gs, by simp [takeTo, hg]⟩
      · have hmem : some name ∈ gs.map Frame.name :=
          (List.mem_cons.mp h).resolve_left fun heq => hg heq.symm
        obtain ⟨ws, rest, happ⟩ := ih hmem
        exact ⟨ws ++ g.writes, rest, by simp [takeTo, hg, happ]⟩

theorem cutTo_append {name : String} {gs : List (Frame W)} (h : some name ∈ gs.map Frame.name)
    (fs : List (Frame W)) :
    ∃ rest, some name ∈ rest.map Frame.name ∧ cutTo name (gs ++ fs) = some (rest ++ fs) := by
  induction gs with
  | nil => cases h
  | cons g gs ih =>
      by_cases hg : g.name = some name
      · exact ⟨{ g with writes := [] } :: gs, by simp [hg], by simp [cutTo, hg]⟩
      · have hmem : some name ∈ gs.map Frame.name :=
          (List.mem_cons.mp h).resolve_left fun heq => hg heq.symm
        obtain ⟨rest, hname, happ⟩ := ih hmem
        exact ⟨rest, hname, by simp [cutTo, hg, happ]⟩

/-- `c'` is `c` with writes added to its innermost scope and frames put on top. -/
def Grew (c c' : Conn W) : Prop :=
  ∃ gs ws, c' = ⟨c.committed, gs ++ (c.append ws).frames⟩

theorem frames_append_ne_nil {c : Conn W} (h : c.frames ≠ []) (ws : List W) :
    (c.append ws).committed = c.committed ∧ (c.append ws).frames ≠ [] := by
  rcases c with ⟨committed, frames⟩
  cases frames with
  | nil => exact absurd rfl h
  | cons f fs => simp [append]

namespace Grew

variable {c c' c'' : Conn W} {gs : List (Frame W)} {name : String}

theorem above (c : Conn W) (gs : List (Frame W)) : c.Grew ⟨c.committed, gs ++ c.frames⟩ :=
  ⟨gs, [], by simp⟩

theorem refl (c : Conn W) : c.Grew c :=
  above c []

theorem frames_ne_nil (h : c.Grew c') (hc : c.frames ≠ []) : c'.frames ≠ [] := by
  obtain ⟨gs, ws, rfl⟩ := h
  simp [(frames_append_ne_nil hc ws).2]

theorem append (h : c.Grew c') (hc : c.frames ≠ []) (vs : List W) : c.Grew (c'.append vs) := by
  obtain ⟨gs, ws, rfl⟩ := h
  cases gs with
  | nil =>
      have hs : (⟨c.committed, [] ++ (c.append ws).frames⟩ : Conn W) = c.append ws := by
        rw [← (frames_append_ne_nil hc ws).1]
        rfl
      refine ⟨[], ws ++ vs, ?_⟩
      rw [hs, append_append]
      rw [← (frames_append_ne_nil hc (ws ++ vs)).1]
      rfl
  | cons g gs => exact ⟨⟨g.name, g.writes ++ vs⟩ :: gs, ws, rfl⟩

theorem trans (h : c.Grew c') (hc : c.frames ≠ []) (h' : c'.Grew c'') : c.Grew c'' := by
  obtain ⟨gs', ws', rfl⟩ := h'
  have hcommitted := (frames_append_ne_nil (h.frames_ne_nil hc) ws').1
  obtain ⟨gs, ws, heq⟩ := h.append hc ws'
  refine ⟨gs' ++ gs, ws, ?_⟩
  rw [← hcommitted, heq, List.append_assoc]

/-- Releasing a savepoint above `c` hands its writes to what is above `c`, or to `c`. -/
theorem release (h : some name ∈ gs.map Frame.name) (hc : c.frames ≠ []) :
    ∃ c', step ⟨c.committed, gs ++ c.frames⟩ (.release name) .ok = (c', true) ∧ c.Grew c' := by
  obtain ⟨ws, rest, htake⟩ := takeTo_append h c.frames
  refine ⟨Conn.append ⟨c.committed, rest ++ c.frames⟩ ws, ?_, (above c rest).append hc ws⟩
  simp [step, apply, htake]

/-- Undoing a savepoint above `c` leaves `c` as it is, whatever the engine refuses of it. -/
theorem undo (h : some name ∈ gs.map Frame.name) (hc : c.frames ≠ []) {undo : Undo}
    (hrollback : undo.rollback ≠ .abort) (hrelease : undo.release ≠ .abort) :
    c.Grew (execute ⟨c.committed, gs ++ c.frames⟩ [.rollbackTo name, .release name]
      undo.replies).1 := by
  rcases undo with ⟨rollback, release⟩
  cases rollback with
  | fail => exact above c gs
  | abort => exact absurd rfl hrollback
  | ok =>
      obtain ⟨rest, hmem, hcut⟩ := cutTo_append h c.frames
      have hroll : (execute ⟨c.committed, gs ++ c.frames⟩ [.rollbackTo name, .release name]
          (Undo.replies ⟨.ok, release⟩)) =
          step ⟨c.committed, rest ++ c.frames⟩ (.release name) release := by
        rw [← execute_one]
        simp [execute, Undo.replies, step, apply, hcut]
      rw [hroll]
      cases release with
      | ok =>
          obtain ⟨c', hstep, hgrew⟩ := Grew.release hmem hc
          rwa [hstep]
      | fail => exact above c rest
      | abort => exact absurd rfl hrelease

end Grew

end Conn

end Nitr.Db
