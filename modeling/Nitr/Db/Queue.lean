import Nitr.Db.Owner

/-! # The queue of an orderly handler

Every job finds the owner it counts on: what a handler queues, awaits and leaves behind
keeps the queue in one of a few shapes. -/

namespace Nitr.Db.Jobs

variable {W : Type}

/-! ## The invariant -/

/-- Only the outermost call is one of `nitr.db`. -/
def Stack : List Active → Prop
  | [] => True
  | c :: cs => c.name = none ∧ cs = [] ∨ c.name ≠ none ∧ cs ≠ [] ∧ Stack cs

/-- The live handles are those of the calls on the stack, all within the last
`db:transaction` call. -/
structure Handles (s : Sys W) : Prop where
  alive : ∀ i, s.alive i = true → ∃ c ∈ s.calls, c.scope = i
  calls : ∀ c ∈ s.calls, s.callOf (.inner c.scope) = some s.call
  stack : Stack s.calls

/-- What a handler inside a transaction still has queued, by what it awaits. -/
def Waits : Phase → List Active → List (Job W) → Prop
  | .running, _, L => L = []
  | .statements _ left, _, L => left = L.length
  | .beginning (some _) none, _, L => ∃ j, L = [j]
  | .beginning (some _) (some _), _, L => L = []
  | .committing none, c :: _, L => c.name ≠ none ∧ ∃ j, L = [j]
  | .committing (some _), c :: _, L => c.name ≠ none ∧ L = []
  | .rollingBack none, c :: _, L => c.name ≠ none ∧ ∃ j, L = [j]
  | .rollingBack (some _), c :: _, L => c.name ≠ none ∧ L = []
  | .beginning none _, _, _ => False
  | .committing _, [], _ => False
  | .rollingBack _, [], _ => False

/-- A queue of abandoned jobs followed by awaited ones. -/
structure Split (q A L : List (Job W)) : Prop where
  queue : q = A ++ L
  abandoned : ∀ j ∈ A, j.abandoned = true
  awaited : ∀ j ∈ L, j.abandoned = false

/-- Where the handler stands, on a connection of owner `o`. -/
inductive Mode (s : Sys W) (o : Option ℕ) : Prop where
  | idle (hcalls : s.calls = []) (hflag : s.inTransaction = false) (hphase : s.phase = .running)
      (hq : ∀ j ∈ s.queue, j.abandoned = true) (hgood : Good o s.queue)
  | statements (A L : List (Job W)) (all : Bool) (left : ℕ) (hcalls : s.calls = [])
      (hflag : s.inTransaction = false) (hphase : s.phase = .statements all left)
      (hleft : left = L.length) (hq : Split s.queue A L) (hL : ∀ j ∈ L, j.Statement)
      (hgood : Good o s.queue)
  | beginning (A : List (Job W)) (j : Job W) (hcalls : s.calls = [])
      (hflag : s.inTransaction = true) (hphase : s.phase = .beginning none none)
      (hq : Split s.queue A [j]) (hj : j.Begins s.call) (hgood : Good o s.queue)
  | begun (r : Bool) (hcalls : s.calls = []) (hflag : s.inTransaction = true)
      (hphase : s.phase = .beginning none (some r)) (hq : s.queue = [])
      (ho : r = true → o = some s.call)
  | inside (A L : List (Job W)) (hcalls : s.calls ≠ []) (hflag : s.inTransaction = true)
      (hq : Split s.queue A L) (ho : o = some s.call) (hinner : ∀ j ∈ s.queue, j.Inner s.call)
      (hwaits : Waits s.phase s.calls L)
  | closing (A : List (Job W)) (j : Job W) (c : Active) (hcalls : s.calls = [c])
      (hname : c.name = none) (hflag : s.inTransaction = true)
      (hphase : s.phase = .committing none ∨ s.phase = .rollingBack none)
      (hq : Split s.queue A [j]) (ho : o = some s.call) (hinner : ∀ j ∈ A, j.Inner s.call)
      (hj : j.Ending s.call)
  | closed (c : Active) (r : Bool) (hcalls : s.calls = [c]) (hname : c.name = none)
      (hflag : s.inTransaction = true)
      (hphase : s.phase = .committing (some r) ∧ (r = false → o = some s.call) ∨
        s.phase = .rollingBack (some r))
      (hq : s.queue = [])

structure Inv (s : Sys W) : Prop where
  noLeak : NoLeak s
  handles : Handles s
  owner : ∃ o, Owned s.conn o ∧ Mode s o

theorem Inv.new (committed : List (Option ℕ × W)) : Inv (Sys.new committed) := by
  refine ⟨?_, ⟨?_, ?_, trivial⟩, none, rfl, ?_⟩
  · intro d hd
    cases hd
  · intro i hi
    simp [Sys.alive, Sys.new] at hi
  · intro c hc
    cases hc
  · exact .idle rfl rfl rfl (by simp [Sys.new]) trivial

/-- Whatever mode the handler is in, the queue is good. -/
theorem Mode.good {s : Sys W} {o : Option ℕ} (h : Mode s o) : Good o s.queue := by
  cases h with
  | idle hcalls hflag hphase hq hgood => exact hgood
  | statements A L all left hcalls hflag hphase hleft hq hL hgood => exact hgood
  | beginning A j hcalls hflag hphase hq hj hgood => exact hgood
  | begun r hcalls hflag hphase hq ho =>
      rw [hq]
      trivial
  | inside A L hcalls hflag hq ho hinner hwaits =>
      rw [ho]
      have h := @good_inner W s.call s.queue [] hinner trivial
      rwa [List.append_nil] at h
  | closing A j c hcalls hname hflag hphase hq ho hinner hj =>
      rw [hq.queue, ho]
      apply good_inner hinner
      exact .inr (.inl ⟨s.call, hj, rfl, trivial, trivial⟩)
  | closed c r hcalls hname hflag hphase hq =>
      rw [hq]
      trivial

/-! ## Steps of the handler -/

theorem Handles.callOf_of_alive {s : Sys W} (h : Handles s) {scope : ℕ}
    (ha : s.alive scope = true) : s.callOf (.inner scope) = some s.call := by
  obtain ⟨c, hc, rfl⟩ := h.alive scope ha
  exact h.calls c hc

theorem Split.abandon (q : List (Job W)) : Split (q.map Job.abandon) (q.map Job.abandon) [] := by
  refine ⟨by simp, ?_, by simp⟩
  intro j hj
  obtain ⟨j', -, rfl⟩ := List.mem_map.mp hj
  rfl

theorem Split.submit {q L : List (Job W)} (hq : ∀ j ∈ q, j.abandoned = true)
    (hL : ∀ j ∈ L, j.abandoned = false) : Split (q ++ L) q L :=
  ⟨rfl, hq, hL⟩

section Handler

variable {s : Sys W}

/-- A running handler inside a transaction has only abandoned jobs queued. -/
theorem Split.abandoned_of_nil {q A : List (Job W)} (h : Split q A []) :
    ∀ j ∈ q, j.abandoned = true := by
  rw [h.queue, List.append_nil]
  exact h.abandoned

theorem Inv.submit_queries (h : Inv s) (qs : List (Origin × W)) (all : Bool)
    (hrun : s.phase = .running) (hcheck : ∀ q ∈ qs, s.check q.1 = true) :
    Inv (s.submit (qs.map s.query) (.statements all qs.length)) := by
  obtain ⟨hleak, hh, o, hown, hmode⟩ := h
  refine ⟨hleak, ⟨hh.alive, hh.calls, hh.stack⟩, o, hown, ?_⟩
  have hlive : ∀ j ∈ qs.map s.query, j.abandoned = false := by
    intro j hj
    obtain ⟨q, -, rfl⟩ := List.mem_map.mp hj
    rfl
  cases hmode with
  | idle hcalls hflag hphase hq hgood =>
      have hstmt : ∀ j ∈ qs.map s.query, j.Statement := by
        intro j hj
        obtain ⟨⟨origin, w⟩, hmem, rfl⟩ := List.mem_map.mp hj
        cases origin with
        | outer => exact ⟨rfl, rfl, w, rfl⟩
        | inner scope =>
            obtain ⟨c, hc, -⟩ := hh.alive scope (hcheck _ hmem)
            rw [hcalls] at hc
            cases hc
      exact .statements s.queue _ all _ hcalls hflag rfl (by simp) (Split.submit hq hlive) hstmt
        (hgood.append (good_of_statements hstmt))
  | inside A L hcalls hflag hq ho hinner hwaits =>
      rw [hrun] at hwaits
      obtain rfl : L = [] := hwaits
      refine .inside s.queue _ hcalls hflag (Split.submit hq.abandoned_of_nil hlive) ho ?_
        (by simp [Sys.submit, Waits])
      intro j hj
      rcases List.mem_append.mp hj with hj | hj
      · exact hinner j hj
      · obtain ⟨⟨origin, w⟩, hmem, rfl⟩ := List.mem_map.mp hj
        cases origin with
        | outer =>
            have := hcheck _ hmem
            simp [Sys.check, hflag] at this
        | inner scope => exact ⟨hh.callOf_of_alive (hcheck _ hmem), rfl, trivial⟩
  | statements A L all' left' hcalls hflag hphase hleft hq hL hgood => simp [hrun] at hphase
  | beginning A j hcalls hflag hphase hq hj hgood => simp [hrun] at hphase
  | begun r hcalls hflag hphase hq ho => simp [hrun] at hphase
  | closing A j c hcalls hname hflag hphase hq ho hinner hj => simp [hrun] at hphase
  | closed c r hcalls hname hflag hphase hq => simp [hrun] at hphase

/-- Dropping awaited queries leaves them behind in the queue. -/
theorem Inv.giveUp (h : Inv s) : Inv (s.step .giveUp) := by
  simp only [Sys.step]
  split
  next left hphase' =>
    obtain ⟨hleak, hh, o, hown, hmode⟩ := h
    refine ⟨hleak, ⟨hh.alive, hh.calls, hh.stack⟩, o, hown, ?_⟩
    have hall : ∀ j ∈ s.queue.map Job.abandon, j.abandoned = true := (Split.abandon s.queue).abandoned
    have hgood := hmode.good
    cases hmode with
    | statements A L all' left' hcalls hflag hphase hleft hq hL _ =>
        exact .idle hcalls hflag rfl hall hgood.abandon
    | inside A L hcalls hflag hq ho hinner hwaits =>
        refine .inside _ [] hcalls hflag (Split.abandon s.queue) ho ?_ rfl
        intro j hj
        obtain ⟨j', hj', rfl⟩ := List.mem_map.mp hj
        exact hinner j' hj'
    | idle hcalls hflag hphase hq _ => simp [hphase'] at hphase
    | beginning A j hcalls hflag hphase hq hj _ => simp [hphase'] at hphase
    | begun r hcalls hflag hphase hq ho => simp [hphase'] at hphase
    | closing A j c hcalls hname hflag hphase hq ho hinner hj => simp [hphase'] at hphase
    | closed c r hcalls hname hflag hphase hq => simp [hphase'] at hphase
  next => exact h

theorem alive_endScope {scopes : List TxScope} {c : Active} {s : Sys W} (i : ℕ)
    (h : Sys.alive { s with scopes := Sys.endScope scopes c } i = true) :
    Sys.alive { s with scopes := scopes } i = true ∧ i ≠ c.scope := by
  simp only [Sys.alive, Sys.endScope, List.getElem?_modify] at h ⊢
  cases hi : scopes[i]? with
  | none => simp [hi] at h
  | some t =>
      by_cases hc : c.scope = i
      · simp [hi, hc] at h
      · simp [hi, hc] at h
        exact ⟨h, Ne.symm hc⟩

theorem alive_endScopes (cs : List Active) (scopes : List TxScope) (i : ℕ)
    (h : Sys.alive { s with scopes := cs.foldl Sys.endScope scopes } i = true) :
    Sys.alive { s with scopes := scopes } i = true ∧ ∀ c ∈ cs, c.scope ≠ i := by
  induction cs generalizing scopes with
  | nil => exact ⟨h, by simp⟩
  | cons c cs ih =>
      obtain ⟨ha, hcs⟩ := ih (Sys.endScope scopes c) h
      obtain ⟨ha', hne⟩ := alive_endScope i ha
      refine ⟨ha', ?_⟩
      intro c' hc'
      rcases List.mem_cons.mp hc' with rfl | hc'
      · exact hne.symm
      · exact hcs c' hc'

/-- A dropped handler leaves an idle state behind, with its jobs still queued. -/
theorem Inv.drop (h : Inv s) : Inv s.drop := by
  obtain ⟨hleak, hh, o, hown, hmode⟩ := h
  refine ⟨hleak, ⟨?_, ?_, trivial⟩, o, hown, ?_⟩
  · intro i hi
    have hi' : Sys.alive { s with scopes := s.calls.foldl Sys.endScope s.scopes } i = true := hi
    obtain ⟨ha, hne⟩ := alive_endScopes s.calls s.scopes i hi'
    obtain ⟨c, hc, hci⟩ := hh.alive i ha
    exact absurd hci (hne c hc)
  · intro c hc
    cases hc
  · exact .idle rfl rfl rfl (Split.abandon s.queue).abandoned hmode.good.abandon

theorem alive_modify {s' : Sys W} {f : TxScope → TxScope} {i : ℕ}
    (hs : s'.scopes = s.scopes.modify i f) (hf : ∀ t, (f t).alive = t.alive) (scope : ℕ) :
    s'.alive scope = s.alive scope := by
  simp only [Sys.alive, hs, List.getElem?_modify]
  cases s.scopes[scope]? with
  | none => rfl
  | some t =>
      by_cases hi : i = scope
      · simp [hi, hf]
      · simp [hi]

theorem callOf_modify {s' : Sys W} {f : TxScope → TxScope} {i : ℕ}
    (hs : s'.scopes = s.scopes.modify i f) (hf : ∀ t, (f t).call = t.call) (scope : ℕ) :
    s'.callOf (.inner scope) = s.callOf (.inner scope) := by
  simp only [Sys.callOf, hs, List.getElem?_modify]
  cases s.scopes[scope]? with
  | none => rfl
  | some t =>
      by_cases hi : i = scope
      · simp [hi, hf]
      · simp [hi]

/-- `BEGIN` and `SAVEPOINT` are submitted behind whatever was left in the queue. -/
theorem Inv.startTransaction (h : Inv s) (origin : Origin) (hrun : s.phase = .running)
    (hcheck : s.check origin = true) : Inv (s.startTransaction origin) := by
  obtain ⟨hleak, hh, o, hown, hmode⟩ := h
  cases origin with
  | outer =>
      have hflag' : s.inTransaction = false := by simpa [Sys.check] using hcheck
      cases hmode with
      | idle hcalls hflag hphase hq hgood =>
          refine ⟨hleak, ⟨hh.alive, ?_, hh.stack⟩, o, hown, ?_⟩
          · intro c hc
            have hc' : c ∈ s.calls := hc
            rw [hcalls] at hc'
            cases hc'
          · refine .beginning s.queue ⟨some (s.call + 1), true, .batch [.begin_], false⟩ hcalls
              rfl rfl (Split.submit hq (by simp)) ⟨rfl, rfl, rfl⟩ ?_
            apply hgood.append
            intro o
            exact .inr (.inr ⟨.inr ⟨s.call + 1, rfl, rfl, rfl⟩, fun _ => trivial⟩)
      | inside A L hcalls hflag hq ho hinner hwaits => simp [hflag] at hflag'
      | statements A L all' left' hcalls hflag hphase hleft hq hL hgood => simp [hrun] at hphase
      | beginning A j hcalls hflag hphase hq hj hgood => simp [hrun] at hphase
      | begun r hcalls hflag hphase hq ho => simp [hrun] at hphase
      | closing A j c hcalls hname hflag hphase hq ho hinner hj => simp [hrun] at hphase
      | closed c r hcalls hname hflag hphase hq => simp [hrun] at hphase
  | inner scope =>
      have hcall := hh.callOf_of_alive hcheck
      cases ht : s.scopes[scope]? with
      | none => simp [Sys.callOf, ht] at hcall
      | some t =>
          have htc : t.call = s.call := by simpa [Sys.callOf, ht] using hcall
          simp only [Sys.startTransaction, ht]
          have hne : s.calls ≠ [] := by
            obtain ⟨c, hc, -⟩ := hh.alive scope hcheck
            exact List.ne_nil_of_mem hc
          let bump (t : TxScope) : TxScope := { t with savepoints := t.savepoints + 1 }
          refine ⟨hleak, ⟨?_, ?_, hh.stack⟩, o, hown, ?_⟩
          · intro i hi
            have hi' : s.alive i = true := by
              rw [← hi]
              exact (alive_modify (f := bump) rfl (fun _ => rfl) i).symm
            exact hh.alive i hi'
          · intro c hc
            exact (callOf_modify (f := bump) rfl (fun _ => rfl) c.scope).trans (hh.calls c hc)
          · cases hmode with
            | inside A L hcalls hflag hq ho hinner hwaits =>
                rw [hrun] at hwaits
                obtain rfl : L = [] := hwaits
                refine .inside s.queue _ hcalls hflag
                  (Split.submit hq.abandoned_of_nil (by simp)) ho ?_ ⟨_, rfl⟩
                intro j hj
                rcases List.mem_append.mp hj with hj | hj
                · exact hinner j hj
                · rw [List.mem_singleton.mp hj]
                  exact ⟨congrArg some htc, rfl, by simp [Stays]⟩
            | idle hcalls hflag hphase hq hgood => exact absurd hcalls hne
            | statements A L all' left' hcalls hflag hphase hleft hq hL hgood =>
                exact absurd hcalls hne
            | beginning A j hcalls hflag hphase hq hj hgood => exact absurd hcalls hne
            | begun r hcalls hflag hphase hq ho => exact absurd hcalls hne
            | closing A j c hcalls hname hflag hphase hq ho hinner hj => simp [hrun] at hphase
            | closed c r hcalls hname hflag hphase hq => simp [hrun] at hphase

theorem Handles.endCall (h : Handles s) {c : Active} {cs : List Active}
    (hcalls : s.calls = c :: cs) : Handles s.endCall ∧ s.endCall.calls = cs := by
  have hstack := h.stack
  rw [hcalls] at hstack
  have hend : s.endCall = { s with
      scopes := Sys.endScope s.scopes c
      calls := cs
      inTransaction := if c.name = none then false else s.inTransaction
      phase := .running } := by
    simp [Sys.endCall, hcalls]
  rw [hend]
  refine ⟨⟨?_, ?_, ?_⟩, rfl⟩
  · intro i hi
    have hi' : Sys.alive { s with scopes := Sys.endScope s.scopes c } i = true := hi
    obtain ⟨ha, hne⟩ := alive_endScope i hi'
    obtain ⟨c', hc', rfl⟩ := h.alive i ha
    rw [hcalls] at hc'
    rcases List.mem_cons.mp hc' with rfl | hc'
    · exact absurd rfl hne
    · exact ⟨c', hc', rfl⟩
  · intro c' hc'
    have hmem : c' ∈ s.calls := by
      rw [hcalls]
      exact List.mem_cons_of_mem c hc'
    let kill (t : TxScope) : TxScope := { t with alive := false }
    exact (callOf_modify (f := kill) rfl (fun _ => rfl) c'.scope).trans (h.calls c' hmem)
  · rcases hstack with ⟨-, rfl⟩ | ⟨-, -, hcs⟩
    · trivial
    · exact hcs

/-- The innermost call of a nested scope ends inside the same transaction. -/
theorem Inv.endCall_inside {o : Option ℕ} {A : List (Job W)} {c : Active} {cs : List Active}
    (hleak : NoLeak s) (hh : Handles s) (hown : Owned s.conn o) (hcalls : s.calls = c :: cs)
    (hflag : s.inTransaction = true) (hq : Split s.queue A []) (ho : o = some s.call)
    (hinner : ∀ j ∈ s.queue, j.Inner s.call) (hname : c.name ≠ none) : Inv s.endCall := by
  have hstack := hh.stack
  rw [hcalls] at hstack
  rcases hstack with ⟨hnone, -⟩ | ⟨-, hcs, -⟩
  · exact absurd hnone hname
  · obtain ⟨hh', hcalls'⟩ := hh.endCall hcalls
    have hend : s.endCall.phase = .running ∧ s.endCall.inTransaction = true ∧
        s.endCall.queue = s.queue ∧ s.endCall.call = s.call ∧ s.endCall.conn = s.conn ∧
        s.endCall.durable = s.durable := by
      simp [Sys.endCall, hcalls, hname, hflag]
    obtain ⟨hphase, hflag', hqueue, hcall, hconn, hdur⟩ := hend
    refine ⟨?_, hh', o, ?_, .inside A [] ?_ hflag' ?_ ?_ ?_ ?_⟩
    · rwa [NoLeak, hdur]
    · rwa [hconn]
    · rwa [hcalls']
    · rwa [hqueue]
    · rwa [hcall]
    · rwa [hqueue, hcall]
    · rw [hphase]
      rfl

/-- The call of `nitr.db` ends with an empty queue. -/
theorem Inv.endCall_closed {o : Option ℕ} {c : Active} (hleak : NoLeak s) (hh : Handles s)
    (hown : Owned s.conn o) (hcalls : s.calls = [c]) (hname : c.name = none)
    (hq : s.queue = []) : Inv s.endCall := by
  obtain ⟨hh', hcalls'⟩ := hh.endCall hcalls
  have hend : s.endCall.phase = .running ∧ s.endCall.inTransaction = false ∧
      s.endCall.queue = s.queue ∧ s.endCall.conn = s.conn ∧ s.endCall.durable = s.durable := by
    simp [Sys.endCall, hcalls, hname]
  obtain ⟨hphase, hflag, hqueue, hconn, hdur⟩ := hend
  refine ⟨?_, hh', o, ?_, .idle hcalls' hflag hphase ?_ ?_⟩
  · rwa [NoLeak, hdur]
  · rwa [hconn]
  · simp [hqueue, hq]
  · rw [hqueue, hq]
    trivial

/-- `commit` and `rollback` end the transaction for the call of `nitr.db` and stay within it
for a nested one. -/
theorem Handles.endingJobs (h : Handles s) {c : Active} (hc : c ∈ s.calls) (j : Job W)
    (hj : j = s.commitJob c ∨ j = s.rollbackJob c) :
    j.abandoned = false ∧ (c.name = none → j.Ending s.call) ∧
      (c.name ≠ none → j.Inner s.call) := by
  have hcall := h.calls c hc
  cases hname : c.name with
  | none =>
      rcases hj with rfl | rfl
      · simp [Sys.commitJob, hname, Job.Ending, hcall]
      · simp [Sys.rollbackJob, hname, Job.Ending, hcall]
  | some name =>
      rcases hj with rfl | rfl
      · simp [Sys.commitJob, hname, Job.Inner, hcall, Stays]
      · simp [Sys.rollbackJob, hname, Job.Inner, hcall, Stays]

theorem Inv.submit_end {o : Option ℕ} {c : Active} {cs : List Active} {j : Job W} {p : Phase}
    (hleak : NoLeak s) (hh : Handles s) (hown : Owned s.conn o) (ho : o = some s.call)
    (hcalls : s.calls = c :: cs) (hflag : s.inTransaction = true)
    (hq : ∀ j ∈ s.queue, j.abandoned = true) (hinner : ∀ j ∈ s.queue, j.Inner s.call)
    (hj : j = s.commitJob c ∨ j = s.rollbackJob c)
    (hp : p = .committing none ∨ p = .rollingBack none) : Inv (s.submit [j] p) := by
  have hmem : c ∈ s.calls := by
    rw [hcalls]
    exact List.mem_cons_self
  obtain ⟨hlive, hending, hin⟩ := hh.endingJobs hmem j hj
  have hsplit : Split (s.queue ++ [j]) s.queue [j] := Split.submit hq (by simpa using hlive)
  refine ⟨hleak, ⟨hh.alive, hh.calls, hh.stack⟩, o, hown, ?_⟩
  have hstack := hh.stack
  rw [hcalls] at hstack
  rcases hstack with ⟨hname, rfl⟩ | ⟨hname, -, -⟩
  · exact .closing s.queue j c hcalls hname hflag hp hsplit ho hinner (hending hname)
  · refine .inside s.queue [j] ?_ hflag hsplit ho ?_ ?_
    · simp [Sys.submit, hcalls]
    · intro j' hj'
      rcases List.mem_append.mp hj' with hj' | hj'
      · exact hinner j' hj'
      · rw [List.mem_singleton.mp hj']
        exact hin hname
    · rcases hp with rfl | rfl
      · simp [Sys.submit, hcalls, Waits, hname]
      · simp [Sys.submit, hcalls, Waits, hname]

theorem Inv.finish (h : Inv s) (raises : Bool) : Inv (s.step (.finish raises)) := by
  cases hcalls' : s.calls with
  | nil => simpa [Sys.step, hcalls'] using h
  | cons c cs =>
      by_cases hrun : s.phase = .running
      · obtain ⟨hleak, hh, o, hown, hmode⟩ := h
        cases hmode with
        | inside A L hcalls hflag hq ho hinner hwaits =>
            rw [hrun] at hwaits
            obtain rfl : L = [] := hwaits
            cases raises with
            | true =>
                have hend := Inv.submit_end hleak hh hown ho hcalls' hflag hq.abandoned_of_nil
                  hinner (.inr rfl) (.inr rfl)
                simpa [Sys.step, hrun, hcalls'] using hend
            | false =>
                have hend := Inv.submit_end hleak hh hown ho hcalls' hflag hq.abandoned_of_nil
                  hinner (.inl rfl) (.inl rfl)
                simpa [Sys.step, hrun, hcalls'] using hend
        | idle hcalls hflag hphase hq hgood => simp [hcalls'] at hcalls
        | statements A L all' left' hcalls hflag hphase hleft hq hL hgood =>
            simp [hcalls'] at hcalls
        | beginning A j hcalls hflag hphase hq hj hgood => simp [hcalls'] at hcalls
        | begun r hcalls hflag hphase hq ho => simp [hcalls'] at hcalls
        | closing A j c' hcalls hname hflag hphase hq ho hinner hj => simp [hrun] at hphase
        | closed c' r hcalls hname hflag hphase hq => simp [hrun] at hphase
      · have hskip : s.step (.finish raises) = s := by
          simp only [Sys.step]
          split
          next hrun' _ => exact absurd hrun' hrun
          next => rfl
        rwa [hskip]

/-- A fresh scope goes on top of the stack. -/
theorem Handles.push (h : Handles s) (name : Option String)
    (hname : name = none ∧ s.calls = [] ∨ name ≠ none ∧ s.calls ≠ []) :
    Handles { s with
      scopes := s.scopes ++ [⟨0, true, s.call⟩]
      calls := ⟨s.scopes.length, name⟩ :: s.calls
      phase := .running } := by
  refine ⟨?_, ?_, ?_⟩
  · intro i hi
    by_cases hlt : i < s.scopes.length
    · have hi' : s.alive i = true := by
        simpa [Sys.alive, List.getElem?_append_left hlt] using hi
      obtain ⟨c, hc, hci⟩ := h.alive i hi'
      exact ⟨c, List.mem_cons_of_mem _ hc, hci⟩
    · by_cases heq : i = s.scopes.length
      · exact ⟨_, List.mem_cons_self, heq.symm⟩
      · have hnone : (s.scopes ++ [(⟨0, true, s.call⟩ : TxScope)])[i]? = none := by
          apply List.getElem?_eq_none
          simp only [List.length_append, List.length_singleton]
          omega
        simp [Sys.alive, hnone] at hi
  · intro c hc
    rcases List.mem_cons.mp hc with rfl | hc
    · simp [Sys.callOf]
    · have hold := h.calls c hc
      have hlt : c.scope < s.scopes.length := by
        by_contra hle
        simp [Sys.callOf, List.getElem?_eq_none (Nat.le_of_not_lt hle)] at hold
      simpa [Sys.callOf, List.getElem?_append_left hlt] using hold
  · rcases hname with ⟨rfl, hnil⟩ | ⟨hne, hcs⟩
    · exact .inl ⟨rfl, hnil⟩
    · exact .inr ⟨hne, hcs, h.stack⟩

theorem Inv.resume (h : Inv s) : Inv s.resume := by
  obtain ⟨hleak, hh, o, hown, hmode⟩ := h
  have hstay : Inv s := ⟨hleak, hh, o, hown, hmode⟩
  cases hmode with
  | idle hcalls hflag hphase hq hgood => simpa [Sys.resume, hphase] using hstay
  | statements A L all left hcalls hflag hphase hleft hq hL hgood =>
      cases left with
      | succ n => simpa [Sys.resume, hphase] using hstay
      | zero =>
          simp only [Sys.resume, hphase]
          obtain rfl : L = [] := List.eq_nil_of_length_eq_zero hleft.symm
          exact ⟨hleak, ⟨hh.alive, hh.calls, hh.stack⟩, o, hown,
            .idle hcalls hflag rfl hq.abandoned_of_nil hgood⟩
  | beginning A j hcalls hflag hphase hq hj hgood => simpa [Sys.resume, hphase] using hstay
  | begun r hcalls hflag hphase hq ho =>
      cases r with
      | true =>
          simp only [Sys.resume, hphase]
          refine ⟨hleak, hh.push none (.inl ⟨rfl, hcalls⟩), o, hown, ?_⟩
          refine .inside [] [] (by simp) hflag ⟨hq, by simp, by simp⟩ (ho rfl) ?_ rfl
          simp [hq]
      | false =>
          simp only [Sys.resume, hphase]
          refine ⟨hleak, ⟨hh.alive, hh.calls, hh.stack⟩, o, hown, .idle hcalls rfl rfl ?_ ?_⟩
          · simp [hq]
          · simp [hq, Good]
  | inside A L hcalls hflag hq ho hinner hwaits =>
      obtain ⟨c, cs, hcons⟩ := List.exists_cons_of_ne_nil hcalls
      cases hphase : s.phase with
      | running => simpa [Sys.resume, hphase] using hstay
      | statements all left =>
          cases left with
          | succ n => simpa [Sys.resume, hphase] using hstay
          | zero =>
              rw [hphase] at hwaits
              obtain rfl : L = [] := List.eq_nil_of_length_eq_zero hwaits.symm
              simp only [Sys.resume, hphase]
              exact ⟨hleak, ⟨hh.alive, hh.calls, hh.stack⟩, o, hown,
                .inside A [] hcalls hflag hq ho hinner rfl⟩
      | beginning name result =>
          rw [hphase] at hwaits
          cases name with
          | none => cases hwaits
          | some name =>
              cases result with
              | none => simpa [Sys.resume, hphase] using hstay
              | some r =>
                  obtain rfl : L = [] := hwaits
                  cases r with
                  | true =>
                      simp only [Sys.resume, hphase]
                      exact ⟨hleak, hh.push (some name) (.inr ⟨by simp, hcalls⟩), o, hown,
                        .inside A [] (by simp) hflag hq ho hinner rfl⟩
                  | false =>
                      simp only [Sys.resume, hphase]
                      exact ⟨hleak, ⟨hh.alive, hh.calls, hh.stack⟩, o, hown,
                        .inside A [] hcalls (by simpa using hflag) hq ho hinner rfl⟩
      | committing result =>
          rw [hphase, hcons] at hwaits
          cases result with
          | none => simpa [Sys.resume, hphase] using hstay
          | some r =>
              obtain ⟨hname, rfl⟩ := hwaits
              cases r with
              | true =>
                  simp only [Sys.resume, hphase]
                  exact Inv.endCall_inside hleak hh hown hcons hflag hq ho hinner hname
              | false =>
                  simp only [Sys.resume, hphase, hcons]
                  exact Inv.submit_end hleak hh hown ho hcons hflag hq.abandoned_of_nil hinner
                    (.inr rfl) (.inr rfl)
      | rollingBack result =>
          rw [hphase, hcons] at hwaits
          cases result with
          | none => simpa [Sys.resume, hphase] using hstay
          | some r =>
              obtain ⟨hname, rfl⟩ := hwaits
              simp only [Sys.resume, hphase]
              exact Inv.endCall_inside hleak hh hown hcons hflag hq ho hinner hname
  | closing A j c hcalls hname hflag hphase hq ho hinner hj =>
      rcases hphase with hphase | hphase
      · simpa [Sys.resume, hphase] using hstay
      · simpa [Sys.resume, hphase] using hstay
  | closed c r hcalls hname hflag hphase hq =>
      rcases hphase with ⟨hphase, ho⟩ | hphase
      · cases r with
        | true =>
            simp only [Sys.resume, hphase]
            exact Inv.endCall_closed hleak hh hown hcalls hname hq
        | false =>
            simp only [Sys.resume, hphase, hcalls]
            exact Inv.submit_end hleak hh hown (ho rfl) hcalls hflag (by simp [hq])
              (by simp [hq]) (.inr rfl) (.inr rfl)
      · simp only [Sys.resume, hphase]
        exact Inv.endCall_closed hleak hh hown hcalls hname hq

end Handler

end Nitr.Db.Jobs
