import Nitr.Db.Body
import Nitr.Db.Jobs

/-! # Who owns the open transaction

The connection's open transaction has an owner: the `db:transaction` call whose `BEGIN`
opened it. Each kind of job counts on an owner and leaves one behind; a queue is good when
every job of it finds the owner it counts on. -/

namespace Nitr.Db.Jobs

variable {W : Type}

/-! ## Owners -/

/-- The transaction open on the connection was begun by this call and holds only its
writes; `none` for a connection in autocommit mode. -/
def Owned (c : Conn (Option ℕ × W)) : Option ℕ → Prop
  | none => c.frames = []
  | some k => (c.frames.getLast?).map Frame.name = some none ∧
      ∀ t ∈ Conn.pending c.frames, t.1 = some k

/-- The statements that stay within the transaction of call `k`. -/
def Stays (k : ℕ) : Sql (Option ℕ × W) → Prop
  | .write t => t.1 = some k
  | .savepoint _ => True
  | .release _ => True
  | .rollbackTo _ => True
  | .begin_ => False
  | .commit => False
  | .rollback => False

/-- Taking frames down to a savepoint keeps their writes and leaves the `BEGIN` frame. -/
theorem takeTo_spec {V : Type} {name : String} {fs rest : List (Frame V)} {ws : List V}
    (h : Conn.takeTo name fs = some (ws, rest))
    (hlast : (fs.getLast?).map Frame.name = some none) :
    Conn.pending fs = Conn.pending rest ++ ws ∧
      (rest.getLast?).map Frame.name = some none := by
  induction fs generalizing ws with
  | nil => simp [Conn.takeTo] at h
  | cons f fs ih =>
      have hne : f.name = some name → fs ≠ [] := by
        intro hf hnil
        simp [hnil, hf] at hlast
      simp only [Conn.takeTo] at h
      split at h
      next hf =>
        obtain ⟨rfl, rfl⟩ : f.writes = ws ∧ fs = rest := by simpa using h
        have := hne hf
        refine ⟨rfl, ?_⟩
        rwa [List.getLast?_cons_of_ne_nil this] at hlast
      next hf =>
        cases ht : Conn.takeTo name fs with
        | none => simp [ht] at h
        | some p =>
            obtain ⟨us, r⟩ := p
            obtain ⟨rfl, rfl⟩ : us ++ f.writes = ws ∧ r = rest := by simpa [ht] using h
            have hfs : fs ≠ [] := by
              intro hnil
              simp [hnil, Conn.takeTo] at ht
            rw [List.getLast?_cons_of_ne_nil hfs] at hlast
            obtain ⟨hp, hl⟩ := ih ht hlast
            refine ⟨?_, hl⟩
            rw [Conn.pending, hp, List.append_assoc]

/-- Cutting back to a savepoint only loses writes and leaves the `BEGIN` frame. -/
theorem cutTo_spec {V : Type} {name : String} {fs rest : List (Frame V)}
    (h : Conn.cutTo name fs = some rest)
    (hlast : (fs.getLast?).map Frame.name = some none) :
    (∀ t ∈ Conn.pending rest, t ∈ Conn.pending fs) ∧
      (rest.getLast?).map Frame.name = some none := by
  induction fs with
  | nil => simp [Conn.cutTo] at h
  | cons f fs ih =>
      simp only [Conn.cutTo] at h
      split at h
      next hf =>
        obtain rfl : ({ f with writes := [] } : Frame V) :: fs = rest := by simpa using h
        have hfs : fs ≠ [] := by
          intro hnil
          simp [hnil, hf] at hlast
        rw [List.getLast?_cons_of_ne_nil hfs] at hlast ⊢
        refine ⟨?_, hlast⟩
        intro t ht
        have ht' : t ∈ Conn.pending fs := by simpa [Conn.pending] using ht
        exact List.mem_append_left _ ht'
      next hf =>
        have hfs : fs ≠ [] := by
          intro hnil
          simp [hnil, Conn.cutTo] at h
        rw [List.getLast?_cons_of_ne_nil hfs] at hlast
        obtain ⟨hp, hl⟩ := ih h hlast
        refine ⟨?_, hl⟩
        intro t ht
        exact List.mem_append_left _ (hp t ht)

theorem headD_answers (oks : List Bool) : (answers oks).headD .ok ≠ .abort := by
  rcases oks with _ | ⟨ok, oks⟩
  · simp [answers]
  · cases ok with
    | true => simp [answers]
    | false => simp [answers]

theorem tail_answers (oks : List Bool) : (answers oks).tail = answers oks.tail := by
  simp [answers, List.map_tail]

theorem Owned.append {c : Conn (Option ℕ × W)} {k : ℕ} {ws : List (Option ℕ × W)}
    (hlast : (c.frames.getLast?).map Frame.name = some none)
    (hp : ∀ t ∈ Conn.pending c.frames ++ ws, t.1 = some k) :
    Owned (c.append ws) (some k) ∧ (c.append ws).committed = c.committed := by
  rcases c with ⟨committed, frames⟩
  cases frames with
  | nil => simp at hlast
  | cons f fs =>
      refine ⟨⟨?_, ?_⟩, rfl⟩
      · rw [Conn.append_cons]
        cases fs with
        | nil => simpa using hlast
        | cons g gs =>
            rw [List.getLast?_cons_of_ne_nil (by simp)] at hlast ⊢
            exact hlast
      · intro t ht
        apply hp t
        simpa [Conn.append_cons, Conn.pending] using ht

theorem Owned.apply {c c' : Conn (Option ℕ × W)} {k : ℕ} {sql : Sql (Option ℕ × W)}
    (h : Owned c (some k)) (hs : Stays k sql) (ha : c.apply sql = some c') :
    Owned c' (some k) ∧ c'.committed = c.committed := by
  obtain ⟨hlast, hp⟩ := h
  cases sql with
  | write t =>
      have hc : c.append [t] = c' := by simpa [Conn.apply] using ha
      subst hc
      apply Owned.append hlast
      intro u hu
      rcases List.mem_append.mp hu with hu | hu
      · exact hp u hu
      · rw [List.mem_singleton.mp hu]
        exact hs
  | savepoint name =>
      obtain rfl : (⟨c.committed, ⟨some name, []⟩ :: c.frames⟩ : Conn (Option ℕ × W)) = c' := by
        simpa [Conn.apply] using ha
      have hne : c.frames ≠ [] := by
        intro hnil
        simp [hnil] at hlast
      refine ⟨⟨?_, ?_⟩, rfl⟩
      · rw [List.getLast?_cons_of_ne_nil hne]
        exact hlast
      · intro t ht
        exact hp t (by simpa [Conn.pending] using ht)
  | release name =>
      simp only [Conn.apply] at ha
      cases ht : Conn.takeTo name c.frames with
      | none => simp [ht] at ha
      | some p =>
          obtain ⟨ws, rest⟩ := p
          obtain rfl : Conn.append { c with frames := rest } ws = c' := by simpa [ht] using ha
          obtain ⟨hpend, hl⟩ := takeTo_spec ht hlast
          rw [hpend] at hp
          exact @Owned.append W { c with frames := rest } k ws hl hp
  | rollbackTo name =>
      simp only [Conn.apply] at ha
      cases ht : Conn.cutTo name c.frames with
      | none => simp [ht] at ha
      | some rest =>
          obtain rfl : ({ c with frames := rest } : Conn (Option ℕ × W)) = c' := by
            simpa [ht] using ha
          obtain ⟨hsub, hl⟩ := cutTo_spec ht hlast
          exact ⟨⟨hl, fun t hmem => hp t (hsub t hmem)⟩, rfl⟩
  | begin_ => cases hs
  | commit => cases hs
  | rollback => cases hs

theorem Owned.step {c : Conn (Option ℕ × W)} {k : ℕ} (h : Owned c (some k))
    {sql : Sql (Option ℕ × W)} (hs : Stays k sql) {reply : Reply} (hr : reply ≠ .abort) :
    Owned (c.step sql reply).1 (some k) ∧ (c.step sql reply).1.committed = c.committed := by
  cases reply with
  | abort => exact absurd rfl hr
  | fail => exact ⟨h, rfl⟩
  | ok =>
      simp only [Conn.step]
      cases ha : c.apply sql with
      | none => exact ⟨h, rfl⟩
      | some c' => exact h.apply hs ha

theorem Owned.execute {c : Conn (Option ℕ × W)} {k : ℕ} (h : Owned c (some k))
    (sqls : List (Sql (Option ℕ × W))) (hs : ∀ q ∈ sqls, Stays k q) (oks : List Bool) :
    Owned (c.execute sqls (answers oks)).1 (some k) ∧
      (c.execute sqls (answers oks)).1.committed = c.committed := by
  induction sqls generalizing c oks with
  | nil => exact ⟨h, rfl⟩
  | cons q qs ih =>
      have hone := h.step (hs q List.mem_cons_self) (headD_answers oks)
      simp only [Conn.execute]
      rcases hres : c.step q ((answers oks).headD .ok) with ⟨c', ok⟩
      rw [hres] at hone
      cases ok with
      | false => exact hone
      | true =>
          rw [tail_answers]
          obtain ⟨ho, hc⟩ := ih hone.1 (fun q' hq => hs q' (List.mem_cons_of_mem q hq)) oks.tail
          exact ⟨ho, hc.trans hone.2⟩

/-! ## Jobs under the mutex -/

namespace Job

/-- A job of call `k` that stays within its transaction. -/
def Inner (k : ℕ) (j : Job W) : Prop :=
  j.call = some k ∧ j.outer = false ∧
    match j.work with
    | .write _ => True
    | .batch sqls => ∀ q ∈ sqls, Stays k q
    | .rollbackIfOpen => False

/-- The job that ends the transaction of call `k`. -/
def Ending (k : ℕ) (j : Job W) : Prop :=
  j.call = some k ∧ j.outer = false ∧ (j.work = .batch [.commit] ∨ j.work = .rollbackIfOpen)

/-- A statement of the `nitr.db` handle. -/
def Statement (j : Job W) : Prop :=
  j.call = none ∧ j.outer = true ∧ ∃ w, j.work = .write w

def Begins (k : ℕ) (j : Job W) : Prop :=
  j.call = some k ∧ j.outer = true ∧ j.work = .batch [.begin_]

/-- What the job made durable, it made durable for the right call. -/
def Rightful (j : Job W) (c c' : Conn (Option ℕ × W)) : Prop :=
  ∀ t ∈ c'.committed.drop c.committed.length, j.carrier = t.1

theorem rightful_of_eq {j : Job W} {c c' : Conn (Option ℕ × W)}
    (h : c'.committed = c.committed) : j.Rightful c c' := by
  intro t ht
  simp [h] at ht

variable {j : Job W} {k : ℕ} {o : Option ℕ} {c : Conn (Option ℕ × W)} {stale : Reply}
  {oks : List Bool}

theorem execute_snd_isOk (s : State (Option ℕ × W)) (sqls : List (Sql (Option ℕ × W)))
    (replies : List Reply) : (s.execute sqls replies).2.isOk = (s.conn.execute sqls replies).2 := by
  rcases h : s.conn.execute sqls replies with ⟨c, b⟩
  cases b with
  | true => rw [State.execute_of_true h]; rfl
  | false => rw [State.execute_of_false h]; rfl

theorem exec_inner (h : Owned c (some k)) (hj : j.Inner k) :
    Owned (j.exec stale oks c).1 (some k) ∧ (j.exec stale oks c).1.committed = c.committed := by
  obtain ⟨hcall, hout, hwork⟩ := hj
  have hexec (sqls : List (Sql (Option ℕ × W))) (hs : ∀ q ∈ sqls, Stays k q) :
      Owned ((State.new c).execute sqls (answers oks)).1.conn (some k) ∧
        ((State.new c).execute sqls (answers oks)).1.conn.committed = c.committed := by
    rw [State.execute_fst]
    exact h.execute sqls hs oks
  cases hw : j.work with
  | write w =>
      simp only [exec, hw, hout, State.runBlocking_false]
      apply hexec
      intro q hq
      rw [List.mem_singleton.mp hq]
      exact hcall
  | batch sqls =>
      simp only [exec, hw, hout, State.execBatch_false]
      simp only [hw] at hwork
      exact hexec sqls hwork
  | rollbackIfOpen => simp [hw] at hwork

/-- After the end of its transaction the connection is idle, or the transaction is still
the call's own; a `COMMIT` or `ROLLBACK` that failed leaves it open. -/
theorem exec_ending (h : Owned c (some k)) (hj : j.Ending k) :
    j.Rightful c (j.exec stale oks c).1 ∧
      ((j.exec stale oks c).2 = false ∧ Owned (j.exec stale oks c).1 (some k) ∨
        (j.exec stale oks c).2 = true ∧ Owned (j.exec stale oks c).1 none) := by
  obtain ⟨hcall, hout, hwork⟩ := hj
  have hac : c.isAutocommit = false := by
    rcases hc : c.frames with _ | ⟨f, fs⟩
    · simp [Owned, hc] at h
    · simp [Conn.isAutocommit, hc]
  have hreply := headD_answers oks
  rcases hwork with hw | hw
  · simp only [exec, hw, hout, State.execBatch_false, execute_snd_isOk, State.execute_fst,
      Conn.execute_single]
    cases hr : (answers oks).headD .ok with
    | abort => exact absurd hr hreply
    | fail => exact ⟨rightful_of_eq rfl, .inl ⟨rfl, h⟩⟩
    | ok =>
        have hc : (State.new c).conn.step .commit .ok = (⟨c.content, []⟩, true) := by
          simp [State.new, Conn.step, Conn.apply, hac]
        rw [hc]
        refine ⟨?_, .inr ⟨rfl, rfl⟩⟩
        intro t ht
        have ht' : t ∈ Conn.pending c.frames := by simpa [Conn.content] using ht
        rw [h.2 t ht', carrier, hw]
        exact hcall
  · have hac' : (State.new c).conn.isAutocommit = false := hac
    simp only [exec, hw, State.rollbackIfOpen, State.runBlocking_false, hac', Bool.false_eq_true,
      if_false, execute_snd_isOk, State.execute_fst, Conn.execute_one]
    cases hr : (answers oks).headD .ok with
    | abort => exact absurd hr hreply
    | fail => exact ⟨rightful_of_eq rfl, .inl ⟨rfl, h⟩⟩
    | ok =>
        have hc : (State.new c).conn.step .rollback .ok = ({ c with frames := [] }, true) := by
          simp [State.new, Conn.step, Conn.apply, hac]
        rw [hc]
        exact ⟨rightful_of_eq rfl, .inr ⟨rfl, rfl⟩⟩

/-- A transaction found open whose `ROLLBACK` is refused keeps its owner. -/
theorem refused_owned {c' : Conn (Option ℕ × W)} (h : Owned c o)
    (hc : c' = c ∨ c' = ⟨c.committed, []⟩) :
    c'.committed = c.committed ∧ ∃ o', Owned c' o' := by
  rcases hc with rfl | rfl
  · exact ⟨rfl, o, h⟩
  · exact ⟨rfl, none, rfl⟩

theorem exec_statement (h : Owned c o) (hj : j.Statement) :
    j.Rightful c (j.exec stale oks c).1 ∧ ∃ o', Owned (j.exec stale oks c).1 o' := by
  obtain ⟨hcall, hout, w, hw⟩ := hj
  cases hidle : ((State.new c).conn.isAutocommit || decide (stale = .ok)) with
  | false =>
      obtain ⟨c', hc', hrun⟩ := State.runBlocking_refused hidle
        fun s => s.execute [.write (j.call, w)] (answers oks)
      obtain ⟨heq, ho⟩ := refused_owned h hc'
      simp only [exec, hw, hout, hrun]
      exact ⟨rightful_of_eq heq, ho⟩
  | true =>
      have hreply := headD_answers oks
      simp only [exec, hw, hout, State.runBlocking_idle hidle, State.execute_fst,
        Conn.execute_single]
      cases hr : (answers oks).headD .ok with
      | abort => exact absurd hr hreply
      | fail => exact ⟨rightful_of_eq rfl, none, rfl⟩
      | ok =>
          refine ⟨?_, none, rfl⟩
          intro t ht
          have ht' : t = (j.call, w) := by
            simpa [Conn.step, Conn.apply, Conn.append, State.new] using ht
          rw [ht', hcall, carrier, hw]

theorem exec_begins (h : Owned c o) (hj : j.Begins k) :
    j.Rightful c (j.exec stale oks c).1 ∧
      ((j.exec stale oks c).2 = false ∧ (∃ o', Owned (j.exec stale oks c).1 o') ∨
        (j.exec stale oks c).2 = true ∧ Owned (j.exec stale oks c).1 (some k)) := by
  obtain ⟨hcall, hout, hw⟩ := hj
  cases hidle : ((State.new c).conn.isAutocommit || decide (stale = .ok)) with
  | false =>
      obtain ⟨c', hc', hrun⟩ := State.runBlocking_refused hidle
        fun s => s.execute [.begin_] (answers oks)
      obtain ⟨heq, ho⟩ := refused_owned h hc'
      simp only [exec, hw, hout, State.execBatch, hrun]
      exact ⟨rightful_of_eq heq, .inl ⟨rfl, ho⟩⟩
  | true =>
      have hreply := headD_answers oks
      simp only [exec, hw, hout, State.execBatch, State.runBlocking_idle hidle, execute_snd_isOk,
        State.execute_fst, Conn.execute_single]
      cases hr : (answers oks).headD .ok with
      | abort => exact absurd hr hreply
      | fail => exact ⟨rightful_of_eq rfl, .inl ⟨rfl, none, rfl⟩⟩
      | ok =>
          refine ⟨rightful_of_eq rfl, .inr ⟨rfl, rfl, ?_⟩⟩
          intro t ht
          simp [Conn.step, Conn.apply, Conn.isAutocommit, Conn.pending] at ht

end Job

/-! ## Queues -/

/-- Run in this order from a connection of this owner, every job finds the owner it
counts on, whatever the engine answers. -/
def Good : Option ℕ → List (Job W) → Prop
  | _, [] => True
  | o, j :: js =>
      (∃ k, j.Inner k ∧ o = some k ∧ Good o js) ∨
      (∃ k, j.Ending k ∧ o = some k ∧ Good o js ∧ Good none js) ∨
      ((j.Statement ∨ ∃ k, j.Begins k) ∧ ∀ o, Good o js)

theorem good_of_statements {L : List (Job W)} (h : ∀ j ∈ L, j.Statement) (o : Option ℕ) :
    Good o L := by
  induction L generalizing o with
  | nil => trivial
  | cons j js ih =>
      have hj := h j List.mem_cons_self
      exact .inr (.inr ⟨.inl hj, ih fun j' hj' => h j' (List.mem_cons_of_mem j hj')⟩)

/-- Jobs of the `nitr.db` handle may follow any good queue. -/
theorem Good.append {o : Option ℕ} {q L : List (Job W)} (h : Good o q)
    (hL : ∀ o, Good o L) : Good o (q ++ L) := by
  induction q generalizing o with
  | nil => exact hL o
  | cons j js ih =>
      rcases h with ⟨k, hj, ho, hg⟩ | ⟨k, hj, ho, hg, hg'⟩ | ⟨hj, hg⟩
      · exact .inl ⟨k, hj, ho, ih hg⟩
      · exact .inr (.inl ⟨k, hj, ho, ih hg, ih hg'⟩)
      · exact .inr (.inr ⟨hj, fun o => ih (hg o)⟩)

/-- Within the call that owns the transaction, inner jobs may precede any good queue. -/
theorem good_inner {k : ℕ} {q L : List (Job W)} (h : ∀ j ∈ q, j.Inner k)
    (hL : Good (some k) L) : Good (some k) (q ++ L) := by
  induction q with
  | nil => exact hL
  | cons j js ih =>
      refine .inl ⟨k, h j List.mem_cons_self, rfl, ?_⟩
      exact ih fun j' hj' => h j' (List.mem_cons_of_mem j hj')

theorem Good.abandon {o : Option ℕ} {q : List (Job W)} (h : Good o q) :
    Good o (q.map Job.abandon) := by
  induction q generalizing o with
  | nil => trivial
  | cons j js ih =>
      rcases h with ⟨k, hj, ho, hg⟩ | ⟨k, hj, ho, hg, hg'⟩ | ⟨hj, hg⟩
      · exact .inl ⟨k, hj, ho, ih hg⟩
      · exact .inr (.inl ⟨k, hj, ho, ih hg, ih hg'⟩)
      · exact .inr (.inr ⟨hj, fun o => ih (hg o)⟩)

/-- The first job of a good queue does no harm and leaves a good queue. -/
theorem Good.head {o : Option ℕ} {j : Job W} {js : List (Job W)} {c : Conn (Option ℕ × W)}
    (h : Good o (j :: js)) (hc : Owned c o) (stale : Reply) (oks : List Bool) :
    j.Rightful c (j.exec stale oks c).1 ∧
      ∃ o', Owned (j.exec stale oks c).1 o' ∧ Good o' js := by
  rcases h with ⟨k, hj, rfl, hg⟩ | ⟨k, hj, rfl, hg, hg'⟩ | ⟨hj | ⟨k, hj⟩, hg⟩
  · obtain ⟨ho, heq⟩ := @Job.exec_inner W j k c stale oks hc hj
    exact ⟨Job.rightful_of_eq heq, some k, ho, hg⟩
  · obtain ⟨hr, ⟨-, ho⟩ | ⟨-, ho⟩⟩ := @Job.exec_ending W j k c stale oks hc hj
    · exact ⟨hr, some k, ho, hg⟩
    · exact ⟨hr, none, ho, hg'⟩
  · obtain ⟨hr, o', ho⟩ := @Job.exec_statement W j o c stale oks hc hj
    exact ⟨hr, o', ho, hg o'⟩
  · obtain ⟨hr, ⟨-, o', ho⟩ | ⟨-, ho⟩⟩ := @Job.exec_begins W j k o c stale oks hc hj
    · exact ⟨hr, o', ho, hg o'⟩
    · exact ⟨hr, some k, ho, hg (some k)⟩

end Nitr.Db.Jobs
