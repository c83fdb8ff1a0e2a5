import Nitr.Db.Queue

/-! # Abandoned transactions

In an orderly run every job finds the owner it counts on, so a write is made durable by
its own call or not at all. -/

namespace Nitr.Db.Jobs

variable {W : Type}

/-! ## A job takes the mutex -/

/-- An orderly job is the first abandoned one, or an awaited one with no abandoned jobs
left before it. -/
theorem Split.take {q A L : List (Job W)} {i : ℕ} {j : Job W} (h : Split q A L)
    (hi : q[i]? = some j) (horder : ∀ j ∈ q.take i, j.abandoned = false) :
    (∃ A', i = 0 ∧ j.abandoned = true ∧ q = j :: (A' ++ L) ∧ Split (q.eraseIdx i) A' L) ∨
    (A = [] ∧ q = L ∧ j.abandoned = false ∧ j ∈ L ∧ i < L.length ∧
      Split (q.eraseIdx i) [] (L.eraseIdx i)) := by
  obtain ⟨rfl, hA, hL⟩ := h
  cases A with
  | nil =>
      right
      have hmem : j ∈ L := List.mem_of_getElem? hi
      obtain ⟨hlt, -⟩ := List.getElem?_eq_some_iff.mp hi
      refine ⟨rfl, rfl, hL j hmem, hmem, hlt, rfl, by simp, ?_⟩
      intro j' hj'
      exact hL j' (List.mem_of_mem_eraseIdx hj')
  | cons a A' =>
      have ha : a.abandoned = true := hA a List.mem_cons_self
      cases i with
      | succ n =>
          have hfirst := horder a (by simp)
          rw [ha] at hfirst
          cases hfirst
      | zero =>
          left
          obtain rfl : a = j := by simpa using hi
          refine ⟨A', rfl, ha, rfl, rfl, ?_, hL⟩
          intro j' hj'
          exact hA j' (List.mem_cons_of_mem a hj')

theorem Waits.complete {p : Phase} {cs : List Active} {L : List (Job W)} {i : ℕ} (ok : Bool)
    (h : Waits p cs L) (hi : i < L.length) : Waits (p.complete ok) cs (L.eraseIdx i) := by
  have hone (hL : ∃ j, L = [j]) : L.eraseIdx i = [] := by
    obtain ⟨j, rfl⟩ := hL
    obtain rfl : i = 0 := by simpa using hi
    rfl
  have hnone (hL : L = []) : False := by
    rw [hL] at hi
    exact absurd hi (Nat.not_lt_zero i)
  cases p with
  | running => exact (hnone h).elim
  | statements all left =>
      obtain rfl : left = L.length := h
      simp [Phase.complete, Waits, List.length_eraseIdx, hi]
  | beginning name result =>
      cases name with
      | none => exact h.elim
      | some name =>
          cases result with
          | none => exact hone h
          | some r => exact (hnone h).elim
  | committing result =>
      cases result with
      | none =>
          cases cs with
          | nil => exact h.elim
          | cons c cs => exact ⟨h.1, hone h.2⟩
      | some r =>
          cases cs with
          | nil => exact h.elim
          | cons c cs => exact (hnone h.2).elim
  | rollingBack result =>
      cases result with
      | none =>
          cases cs with
          | nil => exact h.elim
          | cons c cs => exact ⟨h.1, hone h.2⟩
      | some r =>
          cases cs with
          | nil => exact h.elim
          | cons c cs => exact (hnone h.2).elim

theorem NoLeak.extend {s s' : Sys W} {c c' : Conn (Option ℕ × W)} {j : Job W} (h : NoLeak s)
    (hr : j.Rightful c c') (hd : s'.durable = s.durable ++
      (c'.committed.drop c.committed.length).map fun t => ⟨t.1, j.carrier⟩) : NoLeak s' := by
  intro d hmem
  rw [hd] at hmem
  rcases List.mem_append.mp hmem with hmem | hmem
  · exact h d hmem
  · obtain ⟨t, ht, rfl⟩ := List.mem_map.mp hmem
    exact hr t ht

/-- Inside a transaction every queued job is one of its own. -/
theorem Mode.run_inside {s : Sys W} {A L : List (Job W)} {i : ℕ} {j : Job W} (stale : Reply)
    (oks : List Bool) (hown : Owned s.conn (some s.call)) (hcalls : s.calls ≠ [])
    (hflag : s.inTransaction = true) (hq : Split s.queue A L)
    (hinner : ∀ j ∈ s.queue, j.Inner s.call) (hwaits : Waits s.phase s.calls L)
    (hi : s.queue[i]? = some j) (horder : ∀ j ∈ s.queue.take i, j.abandoned = false) :
    j.Rightful s.conn (j.exec stale oks s.conn).1 ∧
      ∃ o, Owned (s.runJob i stale oks).conn o ∧ Mode (s.runJob i stale oks) o := by
  obtain ⟨ho, heq⟩ := @Job.exec_inner W j s.call s.conn stale oks hown
    (hinner j (List.mem_of_getElem? hi))
  have hrest : ∀ j' ∈ s.queue.eraseIdx i, j'.Inner s.call := fun j' hj' =>
    hinner j' (List.mem_of_mem_eraseIdx hj')
  refine ⟨Job.rightful_of_eq heq, some s.call, ?_, ?_⟩
  · simpa only [Sys.runJob, hi] using ho
  · simp only [Sys.runJob, hi]
    rcases hq.take hi horder with ⟨A', -, hab, -, hq'⟩ | ⟨-, -, hlive, -, hlt, hq'⟩
    · refine .inside A' L hcalls hflag hq' rfl hrest ?_
      simpa [hab] using hwaits
    · refine .inside [] (L.eraseIdx i) hcalls hflag hq' rfl hrest ?_
      simpa [hlive] using hwaits.complete _ hlt

/-- An abandoned job at the head of the queue runs before anything else. -/
theorem Good.run_head {s : Sys W} {o : Option ℕ} {j : Job W} {rest : List (Job W)}
    (hgood : Good o s.queue) (hown : Owned s.conn o) (hq : s.queue = j :: rest) (stale : Reply)
    (oks : List Bool) :
    j.Rightful s.conn (j.exec stale oks s.conn).1 ∧
      ∃ o', Owned (s.runJob 0 stale oks).conn o' ∧ Good o' (s.runJob 0 stale oks).queue := by
  rw [hq] at hgood
  obtain ⟨hr, o', hown', hgood'⟩ := hgood.head hown stale oks
  refine ⟨hr, o', ?_, ?_⟩
  · simpa [Sys.runJob, hq] using hown'
  · simpa [Sys.runJob, hq] using hgood'

/-- The `BEGIN` of a call runs once nothing abandoned is left before it. -/
theorem Mode.run_beginning {s : Sys W} {o : Option ℕ} {A : List (Job W)} {i : ℕ} {j b : Job W}
    (stale : Reply) (oks : List Bool) (hown : Owned s.conn o) (hcalls : s.calls = [])
    (hflag : s.inTransaction = true) (hphase : s.phase = .beginning none none)
    (hq : Split s.queue A [b]) (hb : b.Begins s.call) (hgood : Good o s.queue)
    (hi : s.queue[i]? = some j) (horder : ∀ j ∈ s.queue.take i, j.abandoned = false) :
    j.Rightful s.conn (j.exec stale oks s.conn).1 ∧
      ∃ o, Owned (s.runJob i stale oks).conn o ∧ Mode (s.runJob i stale oks) o := by
  rcases hq.take hi horder with ⟨A', rfl, hab, hqueue, hq'⟩ | ⟨-, hqueue, hlive, hmem, hlt, -⟩
  · obtain ⟨hr, o', hown', hgood'⟩ := hgood.run_head hown hqueue stale oks
    refine ⟨hr, o', hown', ?_⟩
    have hsame : s.runJob 0 stale oks = { s with
        conn := (s.runJob 0 stale oks).conn
        queue := s.queue.eraseIdx 0
        durable := (s.runJob 0 stale oks).durable } := by
      simp [Sys.runJob, hqueue, hab]
    rw [hsame] at hgood' ⊢
    exact .beginning A' b hcalls hflag hphase hq' hb hgood'
  · obtain rfl : j = b := List.mem_singleton.mp hmem
    obtain rfl : i = 0 := by simpa using hlt
    obtain ⟨hr, hcase⟩ := @Job.exec_begins W j s.call o s.conn stale oks hown hb
    refine ⟨hr, ?_⟩
    simp only [Sys.runJob, hi]
    rcases hcase with ⟨hres, o', hown'⟩ | ⟨hres, hown'⟩
    · refine ⟨o', hown', .begun false hcalls hflag ?_ (by simp [hqueue]) (by simp)⟩
      simp [hlive, hphase, hres, Phase.complete]
    · refine ⟨some s.call, hown', .begun true hcalls hflag ?_ (by simp [hqueue]) (by simp)⟩
      simp [hlive, hphase, hres, Phase.complete]

/-- The job that ends the transaction runs once nothing abandoned is left before it. -/
theorem Mode.run_closing {s : Sys W} {A : List (Job W)} {i : ℕ} {j e : Job W} {c : Active}
    (stale : Reply) (oks : List Bool) (hown : Owned s.conn (some s.call)) (hcalls : s.calls = [c])
    (hname : c.name = none) (hflag : s.inTransaction = true)
    (hphase : s.phase = .committing none ∨ s.phase = .rollingBack none)
    (hq : Split s.queue A [e]) (hinner : ∀ j ∈ A, j.Inner s.call) (he : e.Ending s.call)
    (hi : s.queue[i]? = some j) (horder : ∀ j ∈ s.queue.take i, j.abandoned = false) :
    j.Rightful s.conn (j.exec stale oks s.conn).1 ∧
      ∃ o, Owned (s.runJob i stale oks).conn o ∧ Mode (s.runJob i stale oks) o := by
  rcases hq.take hi horder with ⟨A', rfl, hab, hqueue, hq'⟩ | ⟨hA, hqueue, hlive, hmem, hlt, -⟩
  · have hA : A = j :: A' := by
      have hsplit := hq.queue
      rw [hqueue, ← List.cons_append] at hsplit
      exact (List.append_cancel_right hsplit).symm
    rw [hA] at hinner
    obtain ⟨ho, heq⟩ := @Job.exec_inner W j s.call s.conn stale oks hown
      (hinner j List.mem_cons_self)
    refine ⟨Job.rightful_of_eq heq, some s.call, ?_, ?_⟩
    · simpa only [Sys.runJob, hi] using ho
    · simp only [Sys.runJob, hi, hab]
      refine .closing A' e c hcalls hname hflag hphase hq' rfl ?_ he
      intro j' hj'
      exact hinner j' (List.mem_cons_of_mem j hj')
  · obtain rfl : j = e := List.mem_singleton.mp hmem
    obtain rfl : i = 0 := by simpa using hlt
    obtain ⟨hr, hcase⟩ := @Job.exec_ending W j s.call s.conn stale oks hown he
    refine ⟨hr, ?_⟩
    simp only [Sys.runJob, hi]
    rcases hcase with ⟨hres, hown'⟩ | ⟨hres, hown'⟩
    · refine ⟨some s.call, hown', .closed c false hcalls hname hflag ?_ (by simp [hqueue])⟩
      rcases hphase with hphase | hphase
      · exact .inl ⟨by simp [hlive, hphase, hres, Phase.complete], by simp⟩
      · exact .inr (by simp [hlive, hphase, hres, Phase.complete])
    · refine ⟨none, hown', .closed c true hcalls hname hflag ?_ (by simp [hqueue])⟩
      rcases hphase with hphase | hphase
      · exact .inl ⟨by simp [hlive, hphase, hres, Phase.complete], by simp⟩
      · exact .inr (by simp [hlive, hphase, hres, Phase.complete])

/-- Statements of the `nitr.db` handle may run in any order. -/
theorem Mode.run_statements {s : Sys W} {o : Option ℕ} {A L : List (Job W)} {i : ℕ} {j : Job W}
    {all : Bool} (stale : Reply) (oks : List Bool) (hown : Owned s.conn o) (hcalls : s.calls = [])
    (hflag : s.inTransaction = false) (hphase : s.phase = .statements all L.length)
    (hq : Split s.queue A L) (hL : ∀ j ∈ L, j.Statement) (hgood : Good o s.queue)
    (hi : s.queue[i]? = some j) (horder : ∀ j ∈ s.queue.take i, j.abandoned = false) :
    j.Rightful s.conn (j.exec stale oks s.conn).1 ∧
      ∃ o, Owned (s.runJob i stale oks).conn o ∧ Mode (s.runJob i stale oks) o := by
  rcases hq.take hi horder with ⟨A', rfl, hab, hqueue, hq'⟩ | ⟨-, hqueue, hlive, hmem, hlt, hq'⟩
  · obtain ⟨hr, o', hown', hgood'⟩ := hgood.run_head hown hqueue stale oks
    refine ⟨hr, o', hown', ?_⟩
    have hsame : s.runJob 0 stale oks = { s with
        conn := (s.runJob 0 stale oks).conn
        queue := s.queue.eraseIdx 0
        durable := (s.runJob 0 stale oks).durable } := by
      simp [Sys.runJob, hqueue, hab]
    rw [hsame] at hgood' ⊢
    exact .statements A' L all L.length hcalls hflag hphase rfl hq' hL hgood'
  · obtain ⟨hr, o', hown'⟩ := @Job.exec_statement W j o s.conn stale oks hown (hL j hmem)
    have hL' : ∀ j' ∈ L.eraseIdx i, j'.Statement := fun j' hj' =>
      hL j' (List.mem_of_mem_eraseIdx hj')
    refine ⟨hr, o', ?_, ?_⟩
    · simpa only [Sys.runJob, hi] using hown'
    · simp only [Sys.runJob, hi, hlive, hphase]
      refine .statements [] (L.eraseIdx i) all (L.length - 1) hcalls hflag rfl ?_ hq' hL' ?_
      · rw [List.length_eraseIdx, if_pos hlt]
      · rw [hqueue]
        exact good_of_statements hL' o'

theorem Inv.runJob {s : Sys W} (h : Inv s) (i : ℕ) (stale : Reply) (oks : List Bool)
    (horder : ∀ j ∈ s.queue.take i, j.abandoned = false) : Inv (s.runJob i stale oks) := by
  cases hi : s.queue[i]? with
  | none => simpa only [Sys.runJob, hi] using h
  | some j =>
      obtain ⟨hleak, hh, o, hown, hmode⟩ := h
      suffices hstep : j.Rightful s.conn (j.exec stale oks s.conn).1 ∧
          ∃ o, Owned (s.runJob i stale oks).conn o ∧ Mode (s.runJob i stale oks) o by
        refine ⟨hleak.extend hstep.1 (by simp only [Sys.runJob, hi]), ?_, hstep.2⟩
        simp only [Sys.runJob, hi]
        exact ⟨hh.alive, hh.calls, hh.stack⟩
      cases hmode with
      | idle hcalls hflag hphase hq hgood =>
          have hsplit : Split s.queue s.queue [] := ⟨by simp, hq, by simp⟩
          rcases hsplit.take hi horder with ⟨A', rfl, hab, hqueue, hq'⟩ | ⟨-, -, -, hmem, -, -⟩
          · obtain ⟨hr, o', hown', hgood'⟩ := hgood.run_head hown hqueue stale oks
            refine ⟨hr, o', hown', .idle ?_ ?_ ?_ ?_ hgood'⟩
            · simpa only [Sys.runJob, hi] using hcalls
            · simpa only [Sys.runJob, hi] using hflag
            · simpa only [Sys.runJob, hi, hab, if_true] using hphase
            · simpa only [Sys.runJob, hi] using hq'.abandoned_of_nil
          · cases hmem
      | statements A L all left hcalls hflag hphase hleft hq hL hgood =>
          subst hleft
          exact Mode.run_statements stale oks hown hcalls hflag hphase hq hL hgood hi horder
      | beginning A b hcalls hflag hphase hq hb hgood =>
          exact Mode.run_beginning stale oks hown hcalls hflag hphase hq hb hgood hi horder
      | begun r hcalls hflag hphase hq ho => simp [hq] at hi
      | inside A L hcalls hflag hq ho hinner hwaits =>
          subst ho
          exact Mode.run_inside stale oks hown hcalls hflag hq hinner hwaits hi horder
      | closing A e c hcalls hname hflag hphase hq ho hinner he =>
          subst ho
          exact Mode.run_closing stale oks hown hcalls hname hflag hphase hq hinner he hi horder
      | closed c r hcalls hname hflag hphase hq => simp [hq] at hi

/-! ## Whole runs -/

theorem Inv.step {s : Sys W} (h : Inv s) (e : Event W) (he : e.Orderly s) : Inv (s.step e) := by
  cases e with
  | stmt origin w =>
      simp only [Sys.step]
      split
      next hrun =>
        exact h.submit_queries [(origin, w)] false hrun.1 (by simpa using hrun.2)
      next => exact h
  | awaitAll queries =>
      simp only [Sys.step]
      split
      next hrun => exact h.submit_queries queries true hrun.1 hrun.2
      next => exact h
  | giveUp => exact h.giveUp
  | transaction origin =>
      simp only [Sys.step]
      split
      next hrun => exact h.startTransaction origin hrun.1 hrun.2
      next => exact h
  | finish raises => exact h.finish raises
  | resume => exact h.resume
  | drop => exact h.drop
  | run i stale oks => exact h.runJob i stale oks he

theorem Inv.run {s : Sys W} (h : Inv s) (es : List (Event W)) (hes : Orderly s es) :
    Inv (s.run es) := by
  induction es generalizing s with
  | nil => exact h
  | cons e es ih => exact ih (h.step e hes.1) hes.2

/-- In every run in which no job overtakes one whose handler was dropped, each write made
durable for a `db:transaction` call was made durable by that call's own transaction: no
later transaction carries it and it does not commit on its own. -/
theorem Orderly.no_leak (committed : List (Option ℕ × W)) (es : List (Event W))
    (h : Orderly (Sys.new committed) es) : NoLeak ((Sys.new committed).run es) :=
  ((Inv.new committed).run es h).noLeak

/-- The write of a dropped handler runs first and is rolled back by the next `BEGIN`. -/
theorem Orderly.no_leak_dropped :
    let es : List (Event ℕ) := [.transaction .outer, .run 0 .ok [], .resume,
      .stmt (.inner 0) 10, .drop, .transaction .outer, .run 0 .ok [], .run 0 .ok [],
      .resume, .stmt (.inner 1) 11, .run 0 .ok [], .resume, .finish false,
      .run 0 .ok [], .resume]
    ((Sys.new []).run es).conn.committed = [(some 2, 11)] ∧ NoLeak ((Sys.new []).run es) := by
  intro es
  refine ⟨by decide, ?_⟩
  apply Orderly.no_leak [] es
  simp [es, Orderly, Event.Orderly]

end Nitr.Db.Jobs
