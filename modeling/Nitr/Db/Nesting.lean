import Nitr.Db.Atomicity

/-! # Savepoints as nested scopes

Savepoint names are counted per scope, so equal names are open at different depths. The
reference semantics below knows no names to act on: a scope that fails puts back the
content from before it, a scope that succeeds leaves what it wrote. As long as the engine
rolls nothing back on its own and refuses no undo, the connection shows the reference's
content and its stack of open scopes after every operation. -/

namespace Nitr.Db

/-! ## The reference semantics -/

/-- An open scope of the reference: what it is called and how many scopes its handle
has opened. -/
structure RefScope where
  name : Option String
  savepoints : ℕ
  deriving DecidableEq, Repr

/-- The database as seen from inside a transaction: content, open scopes with the
innermost first, and what was seen of both after each operation. -/
structure Ref (W : Type) where
  content : List W
  scopes : List RefScope
  seen : List (List W × List (Option String))
  deriving DecidableEq, Repr

namespace Ref

variable {W : Type}

def stack (R : Ref W) : List (Option String) :=
  R.scopes.map RefScope.name

def note (R : Ref W) : Ref W :=
  { R with seen := R.seen ++ [(R.content, R.stack)] }

def draw (R : Ref W) (tx : ℕ) : Ref W :=
  { R with scopes := R.scopes.modify tx fun t => { t with savepoints := t.savepoints + 1 } }

def push (R : Ref W) (name : Option String) : Ref W :=
  { R with scopes := ⟨name, 0⟩ :: R.scopes }

/-- A scope opened on `R` ends on `R'`: its writes stay, or the content goes back to what
it was. -/
def pop (R R' : Ref W) (failed : Bool) : Ref W :=
  { R' with
    content := if failed then R.content else R'.content
    scopes := R'.scopes.tail }

def andThen (pcall : Bool) (k : Ref W → Ref W × Bool) : Ref W × Bool → Ref W × Bool
  | (R, false) => k R
  | (R, true) => if pcall then k R else (R, true)

end Ref

def Body.refRun {W : Type} : Body W → Ref W → Ref W × Bool
  | .done raises, R => (R, raises)
  | .stmt tx w reply pcall rest, R =>
      Ref.andThen pcall rest.refRun <|
        if tx < R.scopes.length then
          if reply = .ok then ({ R.note with content := R.content ++ [w] }, false)
          else (R.note, true)
        else (R, true)
  | .transaction tx r inner pcall rest, R =>
      Ref.andThen pcall rest.refRun <|
        match R.scopes[tx]? with
        | none => (R, true)
        | some t =>
            if r.begin_ = .ok then
              let ran := inner.refRun
                ((R.draw tx).push (some (State.savepointName t.savepoints))).note
              let failed := ran.2 || r.commit ≠ .ok
              ((R.pop ran.1 failed).note, failed)
            else ((R.draw tx).note, true)

/-- The whole of `db:transaction` on an idle connection. -/
def Body.refTransact {W : Type} (b : Body W) (r : Replies) (R : Ref W) : Ref W × Bool :=
  let ran := b.refRun (R.push none).note
  let failed := ran.2 || r.commit ≠ .ok
  ((R.pop ran.1 failed).note, failed)

/-- The engine rolls nothing back on its own and undoes what it is asked to undo. -/
def Replies.Steady (r : Replies) : Prop :=
  r.begin_ ≠ .abort ∧ r.commit ≠ .abort ∧ r.undo = .clean

def Body.Steady {W : Type} : Body W → Prop
  | .done _ => True
  | .stmt _ _ reply _ rest => reply ≠ .abort ∧ rest.Steady
  | .transaction _ r inner _ rest => r.Steady ∧ inner.Steady ∧ rest.Steady

/-! ## The simulation -/

variable {W : Type}

def Event.seen (e : Event W) : List W × List (Option String) :=
  (e.conn.content, e.conn.frames.map Frame.name)

/-- The database `s`, inside its open scopes, shows what the reference says. -/
structure Matches (s : State W) (R : Ref W) : Prop where
  content : s.conn.content = R.content
  stack : s.conn.frames.map Frame.name = R.stack
  length : s.calls.length = R.scopes.length
  handles : ∀ (i : ℕ) scope t, s.calls[i]? = some scope → R.scopes[i]? = some t →
    s.alive scope = true ∧ s.savepoints scope = t.savepoints
  nodup : s.calls.Nodup
  seen : s.history.map Event.seen = R.seen

theorem Conn.names_append (c : Conn W) (ws : List W) :
    (c.append ws).frames.map Frame.name = c.frames.map Frame.name := by
  rcases c with ⟨committed, frames⟩
  cases frames with
  | nil => rfl
  | cons f fs => rfl

theorem Conn.append_frames_ne_nil {c : Conn W} (h : c.frames ≠ []) (ws : List W) :
    (c.append ws).frames ≠ [] := by
  have hn := Conn.names_append c ws
  intro hnil
  rw [hnil] at hn
  exact h (List.map_eq_nil_iff.mp hn.symm)

theorem Ref.stack_draw (R : Ref W) (tx : ℕ) : (R.draw tx).stack = R.stack := by
  apply List.ext_getElem?
  intro i
  simp only [Ref.stack, Ref.draw, List.getElem?_map, List.getElem?_modify]
  cases R.scopes[i]? with
  | none => rfl
  | some t =>
      by_cases hi : tx = i
      · simp [hi]
      · simp [hi]

namespace State

theorem savepoints_draw (s : State W) (scope other : ℕ) (h : scope < s.scopes.length) :
    (s.draw scope).savepoints other =
      if scope = other then s.savepoints other + 1 else s.savepoints other := by
  by_cases ho : scope = other
  · subst ho
    simp [savepoints, draw, List.getElem?_eq_getElem h]
  · simp [savepoints, draw, ho]

theorem savepoints_entered (s : State W) (scope other : ℕ) (h : other < s.scopes.length) :
    (s.entered scope).savepoints other = (s.draw scope).savepoints other := by
  have hlt : other < (s.draw scope).scopes.length := by rwa [length_draw]
  simp [savepoints, entered, note, List.getElem?_append_left hlt]

theorem savepoints_left {s s' : State W} {other : ℕ} (h : other ≠ s.scopes.length) :
    (s.left s').savepoints other = s'.savepoints other := by
  simp [savepoints, left, note, endScope, Ne.symm h]

end State

namespace Matches

variable {s : State W} {R : Ref W}

theorem alive (h : Matches s R) {scope : ℕ} (hmem : scope ∈ s.calls) : s.alive scope = true := by
  obtain ⟨i, hi, rfl⟩ := List.getElem_of_mem hmem
  have hr : i < R.scopes.length := h.length ▸ hi
  exact (h.handles i _ _ (List.getElem?_eq_getElem hi) (List.getElem?_eq_getElem hr)).1

theorem note (h : Matches s R) (mark : Mark) : Matches (s.note mark) R.note := by
  refine ⟨h.content, h.stack, h.length, h.handles, h.nodup, ?_⟩
  simp [State.note, Ref.note, Event.seen, h.seen, h.content, h.stack]

theorem write (h : Matches s R) (ws : List W) :
    Matches { s with conn := s.conn.append ws } { R with content := R.content ++ ws } := by
  refine ⟨?_, ?_, h.length, h.handles, h.nodup, h.seen⟩
  · rw [Conn.content_append, h.content]
  · rw [Conn.names_append, h.stack]
    rfl

theorem draw (h : Matches s R) {tx scope : ℕ} (htx : s.calls[tx]? = some scope) :
    Matches (s.draw scope) (R.draw tx) := by
  have hmem : scope ∈ s.calls := List.mem_of_getElem? htx
  have hlt := State.lt_of_alive (h.alive hmem)
  refine ⟨h.content, ?_, ?_, ?_, h.nodup, h.seen⟩
  · rw [Ref.stack_draw]
    exact h.stack
  · simpa [Ref.draw, State.draw] using h.length
  · intro i other t hi ht
    have hi' : s.calls[i]? = some other := hi
    simp only [Ref.draw, List.getElem?_modify, Option.map_eq_map, Option.map_eq_some_iff] at ht
    obtain ⟨t₀, ht₀, rfl⟩ := ht
    have hold := h.handles i other t₀ hi' ht₀
    refine ⟨(State.alive_draw s scope other).trans hold.1, ?_⟩
    rw [State.savepoints_draw s scope other hlt, hold.2]
    by_cases heq : tx = i
    · have : scope = other := by
        rw [heq, hi'] at htx
        exact (Option.some.inj htx).symm
      simp [heq, this]
    · have hne : scope ≠ other := by
        rintro rfl
        obtain ⟨h₁, -⟩ := List.getElem?_eq_some_iff.mp htx
        exact heq ((List.getElem?_inj h₁ h.nodup).mp (htx.trans hi'.symm))
      simp [heq, hne]

/-- The body of a nested scope starts from a matching state. -/
theorem entered (h : Matches s R) {tx scope : ℕ} {t : RefScope} (htx : s.calls[tx]? = some scope)
    (ht : R.scopes[tx]? = some t) :
    Matches (s.entered scope)
      ((R.draw tx).push (some (State.savepointName t.savepoints))).note := by
  have hlt : ∀ other ∈ s.calls, other < s.scopes.length := fun other hmem =>
    State.lt_of_alive (h.alive hmem)
  have hname := (h.handles tx scope t htx ht).2
  have hd := h.draw htx
  rw [← hname]
  generalize hn : some (State.savepointName (s.savepoints scope)) = name
  suffices hm : Matches { s.draw scope with
      conn := ⟨s.conn.committed, ⟨name, []⟩ :: s.conn.frames⟩
      scopes := (s.draw scope).scopes ++ [⟨0, true⟩]
      calls := s.scopes.length :: s.calls } ((R.draw tx).push name) by
    subst hn
    exact hm.note .began
  refine ⟨?_, ?_, ?_, ?_, ?_, h.seen⟩
  · have hcontent : Conn.content ⟨s.conn.committed, ⟨name, []⟩ :: s.conn.frames⟩ =
        s.conn.content := by
      simp [Conn.content, Conn.pending]
    exact hcontent.trans h.content
  · have hstack := h.stack
    rw [← Ref.stack_draw R tx] at hstack
    simp only [List.map_cons, hstack]
    rfl
  · have hlen := hd.length
    simpa [Ref.push, State.draw] using hlen
  · intro i other u hi hu
    have halive := State.alive_entered s scope other
    cases i with
    | zero =>
        have hother : other = s.scopes.length := by simpa using hi.symm
        have hu' : u = ⟨name, 0⟩ := by simpa [Ref.push] using hu.symm
        subst hother hu'
        simp at halive
        refine ⟨halive, ?_⟩
        simp [State.savepoints, State.length_draw]
    | succ i =>
        have hi' : s.calls[i]? = some other := by simpa using hi
        have hu' : (R.draw tx).scopes[i]? = some u := by simpa [Ref.push] using hu
        have hold := hd.handles i other u hi' hu'
        have hlo := hlt other (List.mem_of_getElem? hi')
        rw [if_neg hlo.ne] at halive
        rw [State.alive_draw] at hold
        exact ⟨halive.trans hold.1, (State.savepoints_entered s scope other hlo).trans hold.2⟩
  · refine List.nodup_cons.mpr ⟨?_, h.nodup⟩
    intro hmem
    exact (hlt _ hmem).false

/-- Leaving a nested scope with the right connection gives back a matching state. -/
theorem left {s₂ : State W} {R₂ : Ref W} {c : Conn W} {failed : Bool} (h : Matches s R)
    (h₂ : Matches s₂ R₂) (hcalls : s₂.calls = s.scopes.length :: s.calls)
    (hcontent : c.content = if failed then R.content else R₂.content)
    (hstack : c.frames.map Frame.name = R₂.stack.tail) :
    Matches (s.left { s₂ with conn := c }) (R.pop R₂ failed).note := by
  have hlt : ∀ other ∈ s.calls, other < s.scopes.length := fun other hmem =>
    State.lt_of_alive (h.alive hmem)
  suffices hm : Matches
      { State.endScope { s₂ with conn := c } s.scopes.length with calls := s.calls }
      (R.pop R₂ failed) from hm.note .ended
  refine ⟨hcontent, ?_, ?_, ?_, h.nodup, h₂.seen⟩
  · rw [Ref.stack, ← List.map_tail] at hstack
    exact hstack
  · have hlen := h₂.length
    rw [hcalls] at hlen
    simp only [Ref.pop, List.length_tail]
    simp only [List.length_cons] at hlen
    omega
  · intro i other t hi ht
    have hi' : s₂.calls[i + 1]? = some other := by
      rw [hcalls]
      simpa using hi
    have ht' : R₂.scopes[i + 1]? = some t := by simpa [Ref.pop] using ht
    have hold := h₂.handles (i + 1) other t hi' ht'
    have hne := (hlt other (List.mem_of_getElem? hi)).ne
    refine ⟨?_, ?_⟩
    · rw [← hold.1]
      exact State.alive_endScope_of_ne { s₂ with conn := c } hne
    · rw [← hold.2]
      exact @State.savepoints_left W s { s₂ with conn := c } other hne

end Matches

/-! ## Running a body -/

/-- A run from `s` agrees with a reference run: matching ends, the same outcome, and
nothing changed below the innermost scope. -/
structure Agrees (s : State W) (res : State W × Outcome) (ref : Ref W × Bool) : Prop where
  ends : Matches res.1 ref.1
  raised : raisedBy res.2 = ref.2
  grows : ∃ ws, res.1.conn = s.conn.append ws

section Run

variable {s : State W} {R : Ref W} {rest : Body W}

theorem Agrees.andThen {res : State W × Outcome} {ref : Ref W × Bool} (pcall : Bool)
    {k : State W → State W × Outcome} {k' : Ref W → Ref W × Bool} (h : Agrees s res ref)
    (hne : s.conn.frames ≠ [])
    (hk : ∀ s R, Matches s R → s.conn.frames ≠ [] → Agrees s (k s) (k' R)) :
    Agrees s (Db.andThen pcall k res) (Ref.andThen pcall k' ref) := by
  rcases res with ⟨s', out⟩
  rcases ref with ⟨R', raised⟩
  obtain ⟨hends, hraised, ws, hws⟩ := h
  have hne' : s'.conn.frames ≠ [] := by
    have := Conn.append_frames_ne_nil hne ws
    rwa [← hws] at this
  have hnext : Agrees s (k s') (k' R') := by
    obtain ⟨he, hr, vs, hvs⟩ := hk s' R' hends hne'
    refine ⟨he, hr, ws ++ vs, ?_⟩
    rw [hvs, hws, Conn.append_append]
  cases out with
  | ok u =>
      have : raised = false := hraised.symm
      subst this
      exact hnext
  | error e =>
      have : raised = true := hraised.symm
      subst this
      cases pcall with
      | true => exact hnext
      | false => exact ⟨hends, rfl, ws, hws⟩

theorem Agrees.stmt (h : Matches s R) (tx : ℕ) (w : W) {reply : Reply} (hr : reply ≠ .abort) :
    Agrees s (onHandle tx (fun scope => State.txStmt scope w reply) s)
      (if tx < R.scopes.length then
        if reply = .ok then ({ R.note with content := R.content ++ [w] }, false)
        else (R.note, true)
      else (R, true)) := by
  by_cases htx : tx < s.calls.length
  · have hget : s.calls[tx]? = some s.calls[tx] := List.getElem?_eq_getElem htx
    have halive := h.alive (List.getElem_mem htx)
    rw [if_pos (h.length ▸ htx)]
    simp only [onHandle, hget]
    rw [State.txStmt_of_alive halive]
    cases reply with
    | ok =>
        rw [State.execute_of_true rfl]
        exact ⟨(h.note _).write [w], rfl, [w], rfl⟩
    | fail =>
        rw [State.execute_of_false rfl]
        exact ⟨h.note _, rfl, [], (Conn.append_nil _).symm⟩
    | abort => exact absurd rfl hr
  · have hget : s.calls[tx]? = none := List.getElem?_eq_none (Nat.le_of_not_lt htx)
    rw [if_neg (h.length ▸ htx)]
    simp only [onHandle, hget]
    exact ⟨h, rfl, [], (Conn.append_nil _).symm⟩

/-- A nested scope: after it ends the stack is the one it was opened on. -/
theorem Agrees.transaction {inner : Body W} (h : Matches s R) (tx : ℕ) {r : Replies}
    (hr : r.Steady)
    (hinner : ∀ s R, Matches s R → s.conn.frames ≠ [] → Agrees s (inner.run s) (inner.refRun R)) :
    Agrees s (onHandle tx (fun scope => State.runSavepoint scope r inner.run) s)
      (match R.scopes[tx]? with
        | none => (R, true)
        | some t =>
            if r.begin_ = .ok then
              let ran := inner.refRun
                ((R.draw tx).push (some (State.savepointName t.savepoints))).note
              let failed := ran.2 || r.commit ≠ .ok
              ((R.pop ran.1 failed).note, failed)
            else ((R.draw tx).note, true)) := by
  by_cases htx : tx < s.calls.length
  · have hget : s.calls[tx]? = some s.calls[tx] := List.getElem?_eq_getElem htx
    have hrx : tx < R.scopes.length := h.length ▸ htx
    have hget' : R.scopes[tx]? = some R.scopes[tx] := List.getElem?_eq_getElem hrx
    have halive := h.alive (List.getElem_mem htx)
    simp only [onHandle, hget, hget']
    cases hb : r.begin_ with
    | abort => exact absurd hb hr.1
    | fail =>
        rw [State.runSavepoint_of_fail halive hb, if_neg (by simp)]
        exact ⟨(h.draw hget).note _, rfl, [], (Conn.append_nil _).symm⟩
    | ok =>
        rw [State.runSavepoint_of_begun halive hb, if_pos rfl]
        obtain ⟨hends, hraised, ws, hws⟩ := hinner _ _ (h.entered hget hget')
          (by simp [State.entered, State.note])
        have hkeeps := inner.keeps_run (s.entered s.calls[tx])
        have hcalls : (inner.run (s.entered s.calls[tx])).1.calls = s.scopes.length :: s.calls :=
          hkeeps.calls
        -- the scope's own frame is on top again, whatever its name
        have hc : (inner.run (s.entered s.calls[tx])).1.conn = ⟨s.conn.committed,
            ⟨some (State.savepointName (s.savepoints s.calls[tx])), ws⟩ :: s.conn.frames⟩ := hws
        generalize inner.run (s.entered s.calls[tx]) = ran at *
        generalize inner.refRun ((R.draw tx).push
          (some (State.savepointName R.scopes[tx].savepoints))).note = ref at *
        rcases ran with ⟨s₂, result⟩
        have hstack : s.conn.frames.map Frame.name = ref.1.stack.tail := by
          rw [← hends.stack, hc]
          rfl
        have hundone : Matches (s.left { s₂ with conn := s.conn }) (R.pop ref.1 true).note :=
          h.left hends hcalls h.content hstack
        have hclean : Conn.undone r.undo s.conn.committed
            ⟨some (State.savepointName (s.savepoints s.calls[tx])), ws⟩ s.conn.frames = s.conn := by
          rw [hr.2.2]
          rfl
        cases result with
        | error e =>
            have hraise : ref.2 = true := hraised.symm
            simp only [State.closeSavepoint_error e hc, hclean, hraise, Bool.true_or]
            exact ⟨hundone, rfl, [], (Conn.append_nil _).symm⟩
        | ok u =>
            have hraise : ref.2 = false := hraised.symm
            cases hcm : r.commit with
            | abort => exact absurd hcm hr.2.1
            | fail =>
                simp only [State.closeSavepoint_fail u hc hcm, hclean, hraise]
                exact ⟨hundone, rfl, [], (Conn.append_nil _).symm⟩
            | ok =>
                simp only [State.closeSavepoint_ok u hc hcm, hraise]
                have hcontent : (s.conn.append ws).content = ref.1.content := by
                  rw [← hends.content, hc, Conn.content_append]
                  simp [Conn.content, Conn.pending]
                have hnames : (s.conn.append ws).frames.map Frame.name = ref.1.stack.tail := by
                  rw [Conn.names_append, hstack]
                refine ⟨?_, rfl, ws, rfl⟩
                exact @Matches.left W s R s₂ ref.1 _ false h hends hcalls hcontent hnames
  · have hget : s.calls[tx]? = none := List.getElem?_eq_none (Nat.le_of_not_lt htx)
    have hget' : R.scopes[tx]? = none :=
      List.getElem?_eq_none (h.length ▸ Nat.le_of_not_lt htx)
    simp only [onHandle, hget, hget']
    exact ⟨h, rfl, [], (Conn.append_nil _).symm⟩

end Run

/-- Inside any open scopes, a body of steady answers runs as the reference says. -/
theorem Body.run_agrees (b : Body W) (hb : b.Steady) (s : State W) (R : Ref W)
    (h : Matches s R) (hne : s.conn.frames ≠ []) : Agrees s (b.run s) (b.refRun R) := by
  induction b generalizing s R with
  | done raises =>
      cases raises with
      | true => exact ⟨h, rfl, [], (Conn.append_nil _).symm⟩
      | false => exact ⟨h, rfl, [], (Conn.append_nil _).symm⟩
  | stmt tx w reply pcall rest ih =>
      exact (Agrees.stmt h tx w hb.1).andThen pcall hne (ih hb.2)
  | transaction tx r inner pcall rest ihi ihr =>
      exact (Agrees.transaction h tx hb.1 (ihi hb.2.1)).andThen pcall hne (ihr hb.2.2)

/-! ## The whole transaction -/

/-- `R'` has the open scopes of `R`, and everything seen in between lay above them. -/
structure Ref.Above (R R' : Ref W) : Prop where
  stack : R'.stack = R.stack
  seen : ∃ new, R'.seen = R.seen ++ new ∧ ∀ o ∈ new, R.stack <:+ o.2

namespace Ref.Above

variable {R R' R'' : Ref W}

theorem refl (R : Ref W) : Above R R :=
  ⟨rfl, [], by simp, by simp⟩

theorem trans (h : Above R R') (h' : Above R' R'') : Above R R'' := by
  obtain ⟨hs, new, hseen, hnew⟩ := h
  obtain ⟨hs', new', hseen', hnew'⟩ := h'
  refine ⟨hs'.trans hs, new ++ new', by rw [hseen', hseen, List.append_assoc], ?_⟩
  intro o ho
  rcases List.mem_append.mp ho with ho | ho
  · exact hnew o ho
  · rw [← hs]
    exact hnew' o ho

theorem note (R : Ref W) : Above R R.note := by
  refine ⟨rfl, [(R.content, R.stack)], rfl, ?_⟩
  intro o ho
  obtain rfl := List.mem_singleton.mp ho
  exact List.suffix_rfl

theorem draw (R : Ref W) (tx : ℕ) : Above R (R.draw tx) :=
  ⟨R.stack_draw tx, [], by simp [Ref.draw], by simp⟩

/-- What is seen inside a scope lies above the scopes around it. -/
theorem pop {name : Option String} {failed : Bool} (h : Above (R.push name).note R') :
    Above R (Ref.pop R R' failed) := by
  obtain ⟨hs, new, hseen, hnew⟩ := h
  have hpush : (R.push name).note.stack = name :: R.stack := rfl
  rw [hpush] at hs hnew
  refine ⟨?_, (R.content, name :: R.stack) :: new, ?_, ?_⟩
  · have htail : (Ref.pop R R' failed).stack = R'.stack.tail := by
      simp [Ref.stack, Ref.pop, List.map_tail]
    rw [htail, hs, List.tail_cons]
  · have hcontent : (Ref.pop R R' failed).seen = R'.seen := rfl
    rw [hcontent, hseen]
    simp [Ref.note, Ref.push, Ref.stack]
  · intro o ho
    rcases List.mem_cons.mp ho with rfl | ho
    · exact List.suffix_cons name R.stack
    · exact (List.suffix_cons name R.stack).trans (hnew o ho)

theorem andThen {pcall : Bool} {k : Ref W → Ref W × Bool} {ref : Ref W × Bool}
    (h : Above R ref.1) (hk : ∀ R', Above R' (k R').1) :
    Above R (Ref.andThen pcall k ref).1 := by
  rcases ref with ⟨R', raised⟩
  cases raised with
  | false => exact h.trans (hk R')
  | true =>
      cases pcall with
      | true => exact h.trans (hk R')
      | false => exact h

end Ref.Above

theorem Body.refRun_above (b : Body W) (R : Ref W) : Ref.Above R (b.refRun R).1 := by
  induction b generalizing R with
  | done raises => exact Ref.Above.refl R
  | stmt tx w reply pcall rest ih =>
      apply Ref.Above.andThen _ ih
      split
      · split
        · obtain ⟨hs, new, hseen, hnew⟩ := Ref.Above.note R
          exact ⟨hs, new, hseen, hnew⟩
        · exact Ref.Above.note R
      · exact Ref.Above.refl R
  | transaction tx r inner pcall rest ihi ihr =>
      apply Ref.Above.andThen _ ihr
      cases R.scopes[tx]? with
      | none => exact Ref.Above.refl R
      | some t =>
          simp only
          split
          · have hin := ihi ((R.draw tx).push (some (State.savepointName t.savepoints))).note
            exact ((Ref.Above.draw R tx).trans (Ref.Above.pop hin)).trans (Ref.Above.note _)
          · exact (Ref.Above.draw R tx).trans (Ref.Above.note _)

/-- The database before a transaction, as the reference sees it. -/
def State.ref (s : State W) : Ref W :=
  ⟨s.conn.committed, [], s.history.map Event.seen⟩

theorem Matches.begun {s : State W} (hs : s.calls = []) :
    Matches s.begun (s.ref.push none).note := by
  suffices hm : Matches { s with
      conn := ⟨s.conn.committed, [⟨none, []⟩]⟩
      inTransaction := true
      scopes := s.scopes ++ [⟨0, true⟩]
      calls := s.scopes.length :: s.calls } (s.ref.push none) from hm.note .began
  refine ⟨?_, rfl, ?_, ?_, ?_, rfl⟩
  · simp [Conn.content, Conn.pending, Ref.push, State.ref]
  · simp [hs, Ref.push, State.ref]
  · intro i scope t hi ht
    cases i with
    | zero =>
        have hscope : scope = s.scopes.length := by simpa using hi.symm
        have ht' : t = ⟨none, 0⟩ := by simpa [Ref.push] using ht.symm
        subst hscope ht'
        simp [State.alive, State.savepoints]
    | succ i => simp [hs] at hi
  · simp [hs]

/-- As long as the engine rolls nothing back on its own and refuses no undo, a
`db:transaction` with all its nested scopes shows after every operation the content and the
open scopes of the reference, ends with the reference's outcome and content and nothing
open; and until its own end its `BEGIN` scope stays open at the bottom. -/
theorem Body.transact_refines (b : Body W) (r : Replies) (s : State W) (hs : s.calls = [])
    (hbegins : begins s r = true) (hrollback : r.undo.rollback ≠ .fail) (hb : b.Steady) :
    let res := b.transact r s
    let ref := b.refTransact r s.ref
    res.1.conn = ⟨ref.1.content, []⟩ ∧ raisedBy res.2 = ref.2 ∧
      res.1.history.map Event.seen = ref.1.seen ∧
      ∀ e ∈ (res.1.history.drop s.history.length).dropLast,
        [none] <:+ e.conn.frames.map Frame.name := by
  intro res ref
  obtain ⟨hends, hraised, ws, hws⟩ := b.run_agrees hb s.begun _ (Matches.begun hs)
    (by simp [State.begun, State.note])
  obtain ⟨hstack, new, hseen, hnew⟩ := b.refRun_above (s.ref.push none).note
  obtain ⟨c, out, hout, hclose, hcommitted, hframes⟩ :=
    State.closeScope_outer (b.run s.begun).2 (b.run s.begun).1 r
  have hc : (b.run s.begun).1.conn = ⟨s.conn.committed, [⟨none, ws⟩]⟩ := hws
  have hres : res = _ := b.transact_eq hbegins
  rw [hclose] at hres
  have hac : (b.run s.begun).1.conn.isAutocommit = false := by rw [hc]; rfl
  have hold : (b.run s.begun).1.conn.committed = s.conn.committed := by rw [hc]
  simp only [hac, hraised, Bool.or_false] at hout hcommitted
  rw [hold, hends.content] at hcommitted
  have hend : c = ⟨ref.1.content, []⟩ := by
    rcases c with ⟨committed, frames⟩
    exact congrArg₂ Conn.mk hcommitted (hframes hrollback)
  rw [hend] at hres
  have hpop : ref.1.stack = [] := by
    have htail : ref.1.stack = (b.refRun (s.ref.push none).note).1.stack.tail := by
      simp [ref, Body.refTransact, Ref.stack, Ref.note, Ref.pop, List.map_tail]
    rw [htail, hstack]
    rfl
  have hconn : res.1.conn = ⟨ref.1.content, []⟩ := by
    rw [hres]
    rfl
  have hlast : ref.1.seen = (b.refRun (s.ref.push none).note).1.seen ++ [(ref.1.content, [])] := by
    have hnote : ref.1.seen = (b.refRun (s.ref.push none).note).1.seen ++
        [(ref.1.content, ref.1.stack)] := rfl
    rw [hnote, hpop]
  have hhist : res.1.history.map Event.seen = ref.1.seen := by
    have hend : res.1.history.map Event.seen =
        (b.run s.begun).1.history.map Event.seen ++ [(ref.1.content, [])] := by
      rw [hres]
      simp [State.note, State.endScope, Event.seen, Conn.content, Conn.pending, ref,
        Body.refTransact, Ref.note, Ref.pop, State.ref]
    rw [hend, hends.seen, hlast]
  refine ⟨hconn, ?_, hhist, ?_⟩
  · rw [hres]
    exact hout
  · intro e he
    have hmem : e.seen ∈ ((res.1.history.map Event.seen).drop s.history.length).dropLast := by
      rw [← List.map_drop, ← List.map_dropLast]
      exact List.mem_map_of_mem he
    have hsplit : (res.1.history.map Event.seen).drop s.history.length =
        ((s.conn.committed, [none]) :: new) ++ [(ref.1.content, [])] := by
      rw [hhist, hlast, hseen]
      have hstart : (s.ref.push none).note.seen =
          s.history.map Event.seen ++ [(s.conn.committed, [none])] := rfl
      rw [hstart, List.append_assoc, List.append_assoc, List.drop_left' (List.length_map _)]
      rfl
    rw [hsplit, List.dropLast_concat] at hmem
    rcases List.mem_cons.mp hmem with hfirst | hlater
    · have hbottom : e.conn.frames.map Frame.name = [none] := congrArg Prod.snd hfirst
      exact hbottom.symm ▸ List.suffix_rfl
    · exact hnew _ hlater

/-- Two savepoints called `nitr_sp_0` at once: undoing the inner one keeps the outer one's
writes. -/
theorem Body.transact_refines_equal_names :
    let inner : Body ℕ := .transaction 0 ⟨.ok, .ok, .fail, .clean⟩
      (.stmt 0 2 .ok false (.done false)) true (.stmt 0 3 .ok false (.done false))
    let b : Body ℕ := .stmt 0 1 .ok false
      (.transaction 0 ⟨.ok, .ok, .ok, .clean⟩ inner false (.done false))
    (b.transact ⟨.ok, .ok, .ok, .clean⟩ (State.new ⟨[], []⟩)).1.conn = ⟨[1, 3], []⟩ := by
  intro inner b
  have hsteady : b.Steady := by simp [b, inner, Body.Steady, Replies.Steady]
  have h := b.transact_refines ⟨.ok, .ok, .ok, .clean⟩ (State.new ⟨[], []⟩) rfl (by decide)
    (by decide) hsteady
  exact h.1.trans (by rfl)

/-- When the `RELEASE` that ends the undoing of the inner one is refused, the outer one is
undone no more: its `ROLLBACK TO nitr_sp_0` finds the savepoint left open. -/
theorem Body.transact_release_refused :
    let inner : Body ℕ := .transaction 0 ⟨.ok, .ok, .ok, ⟨.ok, .fail⟩⟩
      (.stmt 0 2 .ok false (.done true)) true (.done true)
    let b : Body ℕ := .transaction 0 ⟨.ok, .ok, .ok, .clean⟩
      (.stmt 0 1 .ok false inner) true (.done false)
    let r : Replies := ⟨.ok, .ok, .ok, .clean⟩
    let s : State ℕ := State.new ⟨[], []⟩
    b.Unaborted ∧ (b.transact r s).1.conn = ⟨[1], []⟩ ∧
      (b.refTransact r s.ref).1.content = [] ∧
      (b.transact r s).1.history.map Event.seen ≠ (b.refTransact r s.ref).1.seen := by
  intro inner b r s
  exact ⟨by simp [b, inner, Body.Unaborted, Replies.Unaborted, Undo.clean], by decide,
    by decide, by decide⟩

end Nitr.Db
