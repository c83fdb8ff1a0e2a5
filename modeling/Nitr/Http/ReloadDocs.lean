import Nitr.Http.Reload

/-! # The document of a request is not older than its pool

The document is replaced while the pool's lock is held, and a request reads the pool first. So
whatever reloads run in between, the document a request is answered with describes the pool it
runs on or a later one. -/

namespace Nitr.Http.Reload

open Actions

/-- The document describes the pool or a later one. -/
structure Pool.Covered (pool : Pool) (docs : Docs) : Prop where
  gen : pool.gen ≤ docs.gen
  same : pool.gen = docs.gen → docs = pool.docs

theorem Pool.covered_docs (pool : Pool) : pool.Covered pool.docs :=
  ⟨Nat.le_refl _, fun _ => rfl⟩

theorem Pool.Covered.later {pool : Pool} {docs docs' : Docs} (h : pool.Covered docs)
    (hlt : docs.gen < docs'.gen) : pool.Covered docs' :=
  ⟨Nat.le_of_lt (Nat.lt_of_le_of_lt h.gen hlt),
    fun heq => absurd (heq ▸ h.gen) (Nat.not_le_of_lt hlt)⟩

/-- What holds of the pool and the document in every interleaving. -/
structure Consistent (s : State) : Prop where
  /-- One task holds the lock. -/
  one : s.tasks.countP Task.writing ≤ 1
  swapped : ∀ pool, .swapped pool ∈ s.tasks → pool = s.pool ∧ s.docs.gen < s.pool.gen
  settled : (∀ pool, .swapped pool ∉ s.tasks) → s.docs = s.pool.docs
  documented : ∀ since, .documented since ∈ s.tasks → since = s.pool.since
  held : ∀ pool, .holding pool ∈ s.requests → pool.Covered s.docs
  served : ∀ pool docs, .served pool docs ∈ s.requests → pool.Covered docs

section Tasks

variable {workers : ℕ} {s s' : State} {before after : List Task} {task : Task} {move : Move}

theorem mem_tasks_of_mem (htasks : s.tasks = before ++ task :: after) {t : Task}
    (ht : t ∈ before ++ after) : t ∈ s.tasks := by
  rw [htasks]
  rw [List.mem_append] at ht ⊢
  exact ht.imp_right (List.mem_cons_of_mem _)

theorem mem_replaced {t u : Task} :
    u ∈ before ++ t :: after ↔ u = t ∨ u ∈ before ++ after := by
  simp only [List.mem_append, List.mem_cons]
  exact or_left_comm

theorem countP_replaced (t : Task) :
    (before ++ t :: after).countP Task.writing =
      (before ++ after).countP Task.writing + if t.writing then 1 else 0 := by
  rw [List.countP_append, List.countP_cons, List.countP_append, Nat.add_assoc]

theorem not_locked_iff : s.locked = false ↔ ∀ t ∈ s.tasks, t.writing = false := by
  simp [State.locked, List.any_eq_false]

/-- While one task holds the lock, no other does. -/
theorem Consistent.others (h : Consistent s) (htasks : s.tasks = before ++ task :: after)
    (hwriting : task.writing = true) : ∀ t ∈ before ++ after, t.writing = false := by
  have hone := h.one
  rw [htasks, countP_replaced, if_pos hwriting] at hone
  have hzero : (before ++ after).countP Task.writing = 0 := by omega
  intro t ht
  exact Bool.eq_false_iff.mpr (List.countP_eq_zero.mp hzero t ht)

/-- Where no other task holds the lock, the one that does is the one that moved. -/
theorem eq_of_writing (hnone : ∀ t ∈ before ++ after, t.writing = false) {t u : Task}
    (hu : u ∈ before ++ t :: after) (hwriting : u.writing = true) : u = t := by
  obtain heq | hmem := mem_replaced.mp hu
  · exact heq
  · rw [hnone u hmem] at hwriting
    cases hwriting

/-- A task that goes on without the lock and without the pool. -/
theorem Consistent.quiet (h : Consistent s) (htasks : s.tasks = before ++ task :: after)
    {t : Task} (hquiet : task.writing = false) (hquiet' : t.writing = false)
    (hpool : s'.pool = s.pool) (hdocs : s'.docs = s.docs) (hrequests : s'.requests = s.requests)
    (htasks' : s'.tasks = before ++ t :: after ∨ s'.tasks = before ++ after) :
    Consistent s' := by
  have hold : ∀ u ∈ s'.tasks, u.writing = true → u ∈ before ++ after := by
    intro u hu hwriting
    obtain htasks' | htasks' := htasks'
    · rw [htasks', mem_replaced] at hu
      obtain rfl | hu := hu
      · rw [hquiet'] at hwriting
        cases hwriting
      · exact hu
    · rwa [htasks'] at hu
  refine ⟨?_, fun pool hmem => ?_, fun hno => ?_, fun since hmem => ?_, ?_, ?_⟩
  · have hone := h.one
    rw [htasks, countP_replaced, hquiet] at hone
    obtain htasks' | htasks' := htasks'
    · rw [htasks', countP_replaced, hquiet']
      exact hone
    · rw [htasks']
      exact hone
  · rw [hpool, hdocs]
    exact h.swapped pool (mem_tasks_of_mem htasks (hold _ hmem rfl))
  · rw [hpool, hdocs]
    refine h.settled fun pool hmem => ?_
    rw [htasks, mem_replaced] at hmem
    obtain rfl | hmem := hmem
    · cases hquiet
    · refine hno pool ?_
      obtain htasks' | htasks' := htasks'
      · rw [htasks', mem_replaced]
        exact .inr hmem
      · rwa [htasks']
  · rw [hpool]
    exact h.documented since (mem_tasks_of_mem htasks (hold _ hmem rfl))
  · rw [hrequests, hdocs]
    exact h.held
  · rw [hrequests]
    exact h.served

theorem Consistent.taskMoves (h : Consistent s) (htasks : s.tasks = before ++ task :: after)
    (hmove : TaskMoves workers s before after task move s') : Consistent s' := by
  cases hmove with
  | begin => exact h.quiet htasks rfl rfl rfl rfl rfl (.inl rfl)
  | load since states hlen => exact h.quiet htasks rfl rfl rfl rfl rfl (.inl rfl)
  | fail since states => exact h.quiet htasks rfl rfl rfl rfl rfl (.inl rfl)
  | close hstatus => exact h.quiet htasks rfl rfl rfl rfl rfl (.inl rfl)
  | refuse hstatus => exact h.quiet htasks rfl rfl rfl rfl rfl (.inl rfl)
  | restart => exact h.quiet htasks rfl rfl rfl rfl rfl (.inl rfl)
  | reset => exact h.quiet (t := .waiting) htasks rfl rfl rfl rfl rfl (.inr rfl)
  | swap since states hlen hfree =>
      have hnone : ∀ t ∈ before ++ after, t.writing = false := fun t ht =>
        not_locked_iff.mp hfree t (mem_tasks_of_mem htasks ht)
      have hdocs : s.docs = s.pool.docs := h.settled fun pool hmem => by
        have hquiet := not_locked_iff.mp hfree _ hmem
        cases hquiet
      refine ⟨?_, fun pool hmem => ?_, fun hno => ?_, fun since' hmem => ?_, h.held, h.served⟩
      · have hzero : (before ++ after).countP Task.writing = 0 :=
          List.countP_eq_zero.mpr fun t ht => Bool.eq_false_iff.mp (hnone t ht)
        show (before ++ _ :: after).countP Task.writing ≤ 1
        rw [countP_replaced, hzero]
        exact Nat.le_refl _
      · cases eq_of_writing hnone hmem rfl
        refine ⟨rfl, ?_⟩
        rw [hdocs]
        exact Nat.lt_succ_self _
      · exact absurd (mem_replaced.mpr (.inl rfl)) (hno _)
      · cases eq_of_writing hnone hmem rfl
  | document pool =>
      have hnone := h.others htasks rfl
      obtain ⟨rfl, hlt⟩ := h.swapped pool (htasks ▸ mem_replaced.mpr (.inl rfl))
      refine ⟨?_, fun pool hmem => ?_, fun hno => rfl, fun since hmem => ?_, fun pool hmem => ?_,
        h.served⟩
      · have hone := h.one
        rw [htasks, countP_replaced] at hone
        show (before ++ _ :: after).countP Task.writing ≤ 1
        rw [countP_replaced]
        exact hone
      · cases eq_of_writing hnone hmem rfl
      · cases eq_of_writing hnone hmem rfl
        rfl
      · exact (h.held pool hmem).later hlt
  | unlock since =>
      have hnone := h.others htasks rfl
      have hdocs : s.docs = s.pool.docs := h.settled fun pool hmem => by
        cases eq_of_writing hnone (htasks ▸ hmem) rfl
      refine ⟨?_, fun pool hmem => ?_, fun _ => hdocs, fun since' hmem => ?_, h.held, h.served⟩
      · have hone := h.one
        rw [htasks, countP_replaced] at hone
        show (before ++ _ :: after).countP Task.writing ≤ 1
        rw [countP_replaced]
        exact Nat.le_trans (Nat.le_add_right _ _) (Nat.le_trans (Nat.add_le_add_left
          (Nat.zero_le _) _) hone)
      · cases eq_of_writing hnone hmem rfl
      · cases eq_of_writing hnone hmem rfl

end Tasks

variable {workers version : ℕ} {s s' : State}

theorem Consistent.moves {a : Action} (h : Consistent s) (hmove : Moves workers s a s') :
    Consistent s' := by
  cases hmove with
  | edit => exact ⟨h.one, h.swapped, h.settled, h.documented, h.held, h.served⟩
  | signal => exact ⟨h.one, h.swapped, h.settled, h.documented, h.held, h.served⟩
  | grant hfull haway hidle =>
      exact ⟨h.one, h.swapped, h.settled, h.documented, h.held, h.served⟩
  | refuse hfull haway hbusy =>
      exact ⟨h.one, h.swapped, h.settled, h.documented, h.held, h.served⟩
  | mark hrefused => exact ⟨h.one, h.swapped, h.settled, h.documented, h.held, h.served⟩
  | spawn hgranted =>
      refine ⟨?_, fun pool hmem => ?_, fun hno => ?_, fun since hmem => ?_, h.held, h.served⟩
      · show (s.tasks ++ [Task.waiting]).countP Task.writing ≤ 1
        rw [List.countP_append]
        exact h.one
      · refine h.swapped pool ?_
        simpa using hmem
      · refine h.settled fun pool hmem => hno pool ?_
        exact List.mem_append_left _ hmem
      · refine h.documented since ?_
        simpa using hmem
  | task i before after hi htasks hmove => exact h.taskMoves htasks hmove
  | arrive =>
      refine ⟨h.one, h.swapped, h.settled, h.documented, fun pool hmem => ?_,
        fun pool docs hmem => ?_⟩
      · refine h.held pool ?_
        simpa using hmem
      · refine h.served pool docs ?_
        simpa using hmem
  | readPool r harrived hfree =>
      have hdocs : s.docs = s.pool.docs := h.settled fun pool hmem => by
        have hquiet := not_locked_iff.mp hfree _ hmem
        cases hquiet
      refine ⟨h.one, h.swapped, h.settled, h.documented, fun pool hmem => ?_,
        fun pool docs hmem => ?_⟩
      · obtain hmem | heq := List.mem_or_eq_of_mem_set hmem
        · exact h.held pool hmem
        · cases heq
          show s.pool.Covered s.docs
          rw [hdocs]
          exact s.pool.covered_docs
      · obtain hmem | heq := List.mem_or_eq_of_mem_set hmem
        · exact h.served pool docs hmem
        · cases heq
  | readDocs r pool hholds =>
      refine ⟨h.one, h.swapped, h.settled, h.documented, fun pool' hmem => ?_,
        fun pool' docs hmem => ?_⟩
      · obtain hmem | heq := List.mem_or_eq_of_mem_set hmem
        · exact h.held pool' hmem
        · cases heq
      · obtain hmem | heq := List.mem_or_eq_of_mem_set hmem
        · exact h.served pool' docs hmem
        · cases heq
          exact h.held pool (List.mem_of_getElem? hholds)

theorem consistent_boot (workers version : ℕ) : Consistent (boot workers version) := by
  refine ⟨Nat.zero_le _, ?_, fun _ => ?_, ?_, ?_, ?_⟩
  · intro pool hmem
    cases hmem
  · show (⟨0, some version⟩ : Docs) = ⟨0, (List.replicate (max workers 1) version).head?⟩
    have hpos : max workers 1 ≠ 0 := by omega
    rw [List.head?_replicate, if_neg hpos]
  · intro since hmem
    cases hmem
  · intro pool hmem
    cases hmem
  · intro pool docs hmem
    cases hmem

theorem consistent_run {acts : List Action}
    (h : runFrom (step workers) (boot workers version) acts = some s) : Consistent s :=
  runFrom_keeps (fun _ _ _ hinv hstep => hinv.moves (step_moves hstep))
    (consistent_boot workers version) h

/-! ## A request between its reads -/

theorem TaskMoves.requests_eq {before after : List Task} {task : Task} {move : Move}
    (h : TaskMoves workers s before after task move s') : s'.requests = s.requests := by
  cases h <;> rfl

/-- Only a task replaces the document. -/
theorem Moves.docs_eq {a : Action} (h : Moves workers s a s') (ha : ∀ i, a ≠ .task i .document) :
    s'.docs = s.docs := by
  cases h with
  | task i before after hi htasks hmove =>
      cases hmove with
      | document pool => exact absurd rfl (ha i)
      | _ => rfl
  | _ => rfl

theorem getElem?_set_of_ne {requests : List Request} {r r' : ℕ} {request request' other : Request}
    (h : requests[r]? = some request) (h' : requests[r']? = some request')
    (hne : request' ≠ request) : (requests.set r' other)[r]? = some request := by
  rw [List.getElem?_set_ne]
  · exact h
  · rintro rfl
    rw [h] at h'
    exact hne (Option.some.inj h').symm

theorem getElem?_concat_of_eq_some {requests : List Request} {r : ℕ} {request other : Request}
    (h : requests[r]? = some request) : (requests ++ [other])[r]? = some request := by
  rw [List.getElem?_append_left (List.getElem?_eq_some_iff.mp h).1]
  exact h

/-- A request that holds a pool goes on holding it until it is answered with the document. -/
theorem Moves.holding {a : Action} {r : ℕ} {pool : Pool} (h : Moves workers s a s')
    (hholds : s.requests[r]? = some (.holding pool)) :
    s'.requests[r]? = some (.holding pool) ∨
      a = .readDocs r ∧ s'.requests[r]? = some (.served pool s.docs) := by
  cases h with
  | task i before after hi htasks hmove =>
      rw [hmove.requests_eq]
      exact .inl hholds
  | arrive => exact .inl (getElem?_concat_of_eq_some hholds)
  | readPool r' harrived hfree => exact .inl (getElem?_set_of_ne hholds harrived (by simp))
  | readDocs r' pool' hholds' =>
      by_cases hr : r' = r
      · subst hr
        rw [hholds] at hholds'
        cases hholds'
        refine .inr ⟨rfl, ?_⟩
        exact List.getElem?_set_self (List.getElem?_eq_some_iff.mp hholds).1
      · refine .inl ?_
        rw [List.getElem?_set_ne hr]
        exact hholds
  | _ => exact .inl hholds

/-- A request that was answered stays answered. -/
theorem Moves.served {a : Action} {r : ℕ} {pool : Pool} {docs : Docs} (h : Moves workers s a s')
    (hserved : s.requests[r]? = some (.served pool docs)) :
    s'.requests[r]? = some (.served pool docs) := by
  cases h with
  | task i before after hi htasks hmove =>
      rw [hmove.requests_eq]
      exact hserved
  | arrive => exact getElem?_concat_of_eq_some hserved
  | readPool r' harrived hfree => exact getElem?_set_of_ne hserved harrived (by simp)
  | readDocs r' pool' hholds => exact getElem?_set_of_ne hserved hholds (by simp)
  | _ => exact hserved

theorem Consistent.docs_eq (h : Consistent s) (hfree : s.locked = false) :
    s.docs = s.pool.docs := by
  refine h.settled fun pool hmem => ?_
  have hquiet := not_locked_iff.mp hfree _ hmem
  cases hquiet

/-- The document is still the same, and the request holds its pool or was answered. -/
def Reading (docs : Docs) (r : ℕ) (pool : Pool) (s : State) : Prop :=
  s.docs = docs ∧ (s.requests[r]? = some (.holding pool) ∨
    ∃ docs, s.requests[r]? = some (.served pool docs))

theorem Reading.moves {docs : Docs} {r : ℕ} {pool : Pool} {a : Action} (h : Reading docs r pool s)
    (ha : ∀ i, a ≠ .task i .document) (hmove : Moves workers s a s') : Reading docs r pool s' := by
  refine ⟨(hmove.docs_eq ha).trans h.1, ?_⟩
  obtain hholds | ⟨docs', hserved⟩ := h.2
  · exact (hmove.holding hholds).imp_right fun hserved => ⟨_, hserved.2⟩
  · exact .inr ⟨docs', hmove.served hserved⟩

theorem Reading.run {between : List Action} {docs : Docs} {r : ℕ} {pool : Pool}
    (h : Reading docs r pool s) (hdocuments : ∀ i, .task i .document ∉ between)
    (hrun : runFrom (step workers) s between = some s') : Reading docs r pool s' := by
  have halong : Along (step workers) (fun _ a => ∀ i, a ≠ .task i .document) s between := by
    refine Along.of_forall fun a ha i heq => hdocuments i ?_
    rw [← heq]
    exact ha
  exact runFrom_keeps_along (fun _ _ _ h ha hstep => h.moves ha (step_moves hstep)) h halong hrun

theorem served_run {acts : List Action} {r : ℕ} {pool : Pool} {docs : Docs}
    (hserved : s.requests[r]? = some (.served pool docs))
    (hrun : runFrom (step workers) s acts = some s') :
    s'.requests[r]? = some (.served pool docs) :=
  @runFrom_keeps _ _ (step workers) _ _ _ (fun t => t.requests[r]? = some (.served pool docs))
    (fun _ _ _ hserved hstep => (step_moves hstep).served hserved) hserved hrun

/-- In every interleaving of reloads and requests: while the pool can be read the document is
that of the pool; every answered request was shown the document of its own pool or of a later
one, and that of its own where the document was not replaced between its two reads. -/
theorem request_documents {acts : List Action}
    (h : runFrom (step workers) (boot workers version) acts = some s) :
    (s.locked = false → s.docs = s.pool.docs) ∧
      (∀ pool docs, .served pool docs ∈ s.requests →
        pool.gen ≤ docs.gen ∧ (pool.gen = docs.gen → docs = pool.docs)) ∧
      ∀ before between after r,
        acts = before ++ .readPool r :: (between ++ .readDocs r :: after) →
        (∀ i, .task i .document ∉ between) →
          ∃ read, runFrom (step workers) (boot workers version) before = some read ∧
            s.requests[r]? = some (.served read.pool read.pool.docs) := by
  have hc := consistent_run h
  refine ⟨fun hfree => hc.docs_eq hfree, fun pool docs hmem => ?_, ?_⟩
  · have hcovered := hc.served pool docs hmem
    exact ⟨hcovered.gen, hcovered.same⟩
  · rintro before between after r rfl hdocuments
    obtain ⟨read, hread, h⟩ := runFrom_append_eq_some.mp h
    obtain ⟨first, hfirst, h⟩ := runFrom_cons_eq_some.mp h
    obtain ⟨last, hlast, h⟩ := runFrom_append_eq_some.mp h
    obtain ⟨done, hdone, h⟩ := runFrom_cons_eq_some.mp h
    refine ⟨read, hread, ?_⟩
    have hc := consistent_run hread
    cases step_moves hfirst with
    | readPool _ harrived hfree =>
        have hholds : (read.requests.set r (.holding read.pool))[r]? = some (.holding read.pool) :=
          List.getElem?_set_self (List.getElem?_eq_some_iff.mp harrived).1
        obtain ⟨hdocs, hrequest⟩ := Reading.run ⟨rfl, .inl hholds⟩ hdocuments hlast
        cases step_moves hdone with
        | readDocs _ pool hholds' =>
            obtain rfl : pool = read.pool := by
              obtain hrequest | ⟨docs, hserved⟩ := hrequest
              · rw [hrequest] at hholds'
                cases hholds'
                rfl
              · rw [hserved] at hholds'
                cases hholds'
            refine served_run ?_ h
            rw [← hc.docs_eq hfree, ← hdocs]
            exact List.getElem?_set_self (List.getElem?_eq_some_iff.mp hholds').1

/-- A request that a whole rebuild overtakes between its two reads. -/
def overtaken : List Action :=
  [.arrive, .readPool 0, .edit, .signal, .receive, .spawn, .task 0 .begin, .task 0 .load,
    .task 0 .swap, .task 0 .document, .readDocs 0]

def overtaking : State where
  disk := 1
  asked := 1
  tried := 0
  signals := 1
  rebuilds := 1
  begun := 1
  channel := false
  status := .running
  caller := .away
  tasks := [.documented 1]
  pool := ⟨1, 1, [1]⟩
  docs := ⟨1, some 1⟩
  requests := [.served ⟨0, 0, [0]⟩ ⟨1, some 1⟩]

theorem request_documents_overtaken :
    overtaking.docs = overtaking.pool.docs ∧ ∀ pool docs, .served pool docs ∈ overtaking.requests →
      pool.gen ≤ docs.gen ∧ (pool.gen = docs.gen → docs = pool.docs) := by
  have hrun : runFrom (step 1) (boot 1 0) overtaken = some overtaking := by decide
  exact ⟨rfl, (request_documents hrun).2.1⟩

end Nitr.Http.Reload
