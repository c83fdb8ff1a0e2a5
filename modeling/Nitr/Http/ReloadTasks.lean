import Nitr.Http.ReloadDocs

/-! # What becomes of a reload request

Two windows can be split between the accept loop and a task: from the loop's refused
`compare_exchange` to its store of `RELOAD_PENDING`, and from the task's last
`compare_exchange` to the drop of `ReloadReset`. Where neither is split no request is lost and
one task at most runs. Where the last task is gone in the first window, no reload ever runs
again. -/

namespace Nitr.Http.Reload

open Actions

/-- A step that splits neither window: the task does not give up the state between the loop's
refusal and its mark, and the loop does not claim the state before the drop. -/
def Calm (s : State) : Action → Prop
  | .receive => .leaving ∉ s.tasks
  | .task _ move => move = .close → s.status = .running → s.caller ≠ .refused
  | _ => True

instance decidableCalm (s : State) : ∀ a, Decidable (Calm s a)
  | .receive => inferInstanceAs (Decidable (.leaving ∉ s.tasks))
  | .task _ move =>
    inferInstanceAs (Decidable (move = .close → s.status = .running → s.caller ≠ .refused))
  | .edit => isTrue trivial
  | .signal => isTrue trivial
  | .mark => isTrue trivial
  | .spawn => isTrue trivial
  | .arrive => isTrue trivial
  | .readPool _ => isTrue trivial
  | .readDocs _ => isTrue trivial

/-- Whether the task has read, or will read, all that was on disk at that version. -/
def Task.Hears (version : ℕ) : Task → Prop
  | .waiting => True
  | .building since _ => version ≤ since
  | .swapped pool => version ≤ pool.since
  | .documented since => version ≤ since
  | .finished => False
  | .refused => True
  | .leaving => False

/-- What the one task says about the atomic state and the accept loop. -/
def Task.Fits (status : Status) (caller : Caller) : Task → Prop
  | .leaving => caller = .away ∧ status = .idle
  | .refused => caller ≠ .granted ∧ status = .pending
  | _ => caller ≠ .granted ∧ status ≠ .idle

/-- How the atomic state and the accept loop stand to the tasks. -/
def Shape (status : Status) (caller : Caller) : List Task → Prop
  | [] => caller = .away ∧ status = .idle ∨ caller = .granted ∧ status = .running
  | [task] => task.Fits status caller
  | _ :: _ :: _ => False

/-- The requests that no rebuild has begun for yet. -/
def State.debt (s : State) : ℕ :=
  s.channel.toNat + (if s.caller = .away then 0 else 1) +
    (if s.status = .pending then 1 else 0) + s.tasks.countP (· = .waiting)

/-- What holds while no window is split. -/
structure Sound (s : State) : Prop where
  shape : Shape s.status s.caller s.tasks
  /-- The last request is still to be taken up, or was. -/
  heard : s.channel = true ∨ s.caller ≠ .away ∨ s.status = .pending ∨ s.asked ≤ s.tried ∨
    ∃ t ∈ s.tasks, t.Hears s.asked
  /-- The rebuild for the last signal has begun, or is still to begin. -/
  begun : s.channel = true ∨ s.caller ≠ .away ∨ s.status = .pending ∨ .waiting ∈ s.tasks ∨
    s.begun = s.signals
  asked : s.asked ≤ s.disk
  pool : s.pool.since ≤ s.disk
  states : ∀ v ∈ s.pool.states, s.pool.since ≤ v
  building : ∀ since states, .building since states ∈ s.tasks →
    s.pool.since ≤ since ∧ since ≤ s.disk ∧ ∀ v ∈ states, since ≤ v
  count : s.rebuilds + s.debt ≤ s.signals

variable {workers version : ℕ} {s s' : State}

theorem Shape.alone {status : Status} {caller : Caller} {before after : List Task} {task : Task}
    (h : Shape status caller (before ++ task :: after)) : before = [] ∧ after = [] := by
  cases before with
  | nil =>
      cases after with
      | nil => exact ⟨rfl, rfl⟩
      | cons t after => cases h
  | cons b before =>
      cases before with
      | nil => cases h
      | cons b' before => cases h

/-- A step of the one task that reads no scripts and replaces no pool. -/
theorem Sound.goes_on (h : Sound s) (task' : Task)
    (hshape : Shape s'.status s'.caller s'.tasks) (htasks' : s'.tasks = [task'] ∨ s'.tasks = [])
    (hbuilding : ∀ since states, task' ≠ .building since states)
    (hheard : s'.channel = true ∨ s'.caller ≠ .away ∨ s'.status = .pending ∨
      s'.asked ≤ s'.tried ∨ ∃ t ∈ s'.tasks, t.Hears s'.asked)
    (hbegun : s'.channel = true ∨ s'.caller ≠ .away ∨ s'.status = .pending ∨ .waiting ∈ s'.tasks ∨
      s'.begun = s'.signals)
    (hasked : s'.asked = s.asked) (hdisk : s'.disk = s.disk) (hpool : s'.pool = s.pool)
    (hcount : s'.rebuilds + s'.debt ≤ s'.signals) : Sound s' := by
  refine ⟨hshape, hheard, hbegun, ?_, ?_, ?_, fun since states hmem => ?_, hcount⟩
  · rw [hasked, hdisk]
    exact h.asked
  · rw [hpool, hdisk]
    exact h.pool
  · rw [hpool]
    exact h.states
  · obtain htasks' | htasks' := htasks'
    · rw [htasks', List.mem_singleton] at hmem
      exact absurd hmem.symm (hbuilding since states)
    · rw [htasks'] at hmem
      cases hmem

/-- A rebuild that is over has tried what it began with. -/
theorem heard_of_over {asked tried since : ℕ} {p q r : Prop} {tasks : List Task}
    (h : p ∨ q ∨ r ∨ asked ≤ tried ∨ asked ≤ since) :
    p ∨ q ∨ r ∨ asked ≤ max tried since ∨ ∃ t ∈ tasks, t.Hears asked := by
  refine h.imp_right (Or.imp_right (Or.imp_right fun h => .inl ?_))
  omega

theorem Sound.taskMoves {task : Task} {move : Move} (h : Sound s)
    (htasks : s.tasks = [task])
    (hcalm : move = .close → s.status = .running → s.caller ≠ .refused)
    (hmove : TaskMoves workers s [] [] task move s') : Sound s' := by
  have hshape := h.shape
  have hcount := h.count
  have hheard := h.heard
  have hbegun := h.begun
  rw [htasks] at hshape
  simp only [State.debt, htasks] at hcount
  simp only [htasks, List.mem_singleton, exists_eq_left] at hheard
  rw [htasks, List.mem_singleton] at hbegun
  cases hmove with
  | begin =>
      refine ⟨hshape, ?_, .inr (.inr (.inr (.inr rfl))), h.asked, h.pool, h.states, ?_, ?_⟩
      · exact .inr (.inr (.inr (.inr ⟨_, List.mem_singleton_self _, h.asked⟩)))
      · intro since states hmem
        cases List.mem_singleton.mp hmem
        exact ⟨h.pool, Nat.le_refl _, by simp⟩
      · simp only [State.debt, List.nil_append, List.countP_cons, List.countP_nil] at hcount ⊢
        simp at hcount ⊢
        omega
  | load since states hlen =>
      have hold := h.building since states (htasks ▸ List.mem_singleton_self _)
      refine ⟨hshape, ?_, ?_, h.asked, h.pool, h.states, ?_, ?_⟩
      · simpa [Task.Hears] using hheard
      · simpa using hbegun
      · intro since' states' hmem
        cases List.mem_singleton.mp hmem
        refine ⟨hold.1, hold.2.1, fun v hv => ?_⟩
        obtain hv | hv := List.mem_append.mp hv
        · exact hold.2.2 v hv
        · cases List.mem_singleton.mp hv
          exact hold.2.1
      · simpa [State.debt] using hcount
  | fail since states =>
      refine h.goes_on .finished hshape (.inl rfl) (by simp) ?_ (by simpa using hbegun) rfl rfl rfl ?_
      · exact heard_of_over hheard
      · simpa [State.debt] using hcount
  | swap since states hlen hfree =>
      have hold := h.building since states (htasks ▸ List.mem_singleton_self _)
      refine ⟨hshape, ?_, ?_, h.asked, hold.2.1, hold.2.2, ?_, ?_⟩
      · simpa [Task.Hears] using hheard
      · simpa using hbegun
      · intro since' states' hmem
        cases List.mem_singleton.mp hmem
      · simpa [State.debt] using hcount
  | document pool =>
      refine h.goes_on (.documented pool.since) hshape (.inl rfl) (by simp) ?_
        (by simpa using hbegun) rfl rfl rfl ?_
      · simpa [Task.Hears] using hheard
      · simpa [State.debt] using hcount
  | unlock since =>
      refine h.goes_on .finished hshape (.inl rfl) (by simp) ?_ (by simpa using hbegun) rfl rfl rfl ?_
      · exact heard_of_over hheard
      · simpa [State.debt] using hcount
  | close hstatus =>
      have haway : s.caller = .away := by
        cases hcaller : s.caller with
        | away => rfl
        | granted => exact absurd hcaller hshape.1
        | refused => exact absurd hcaller (hcalm rfl hstatus)
      refine h.goes_on .leaving ⟨haway, rfl⟩ (.inl rfl) (by simp) ?_
        (by simpa [haway, hstatus] using hbegun) rfl rfl rfl ?_
      · simp only [haway, hstatus, Task.Hears, ne_eq, not_true_eq_false, reduceCtorEq, or_false,
          false_or] at hheard
        exact hheard.imp_right fun htried => .inr (.inr (.inl htried))
      · simp [State.debt, hstatus] at hcount ⊢
        exact hcount
  | refuse hstatus =>
      have hpending : s.status = .pending := by
        cases hcase : s.status with
        | idle => exact absurd hcase hshape.2
        | running => exact absurd hcase hstatus
        | pending => rfl
      refine h.goes_on .refused ⟨hshape.1, hpending⟩ (.inl rfl) (by simp) ?_
        (.inr (.inr (.inl hpending))) rfl rfl rfl ?_
      · exact .inr (.inr (.inl hpending))
      · simpa [State.debt] using hcount
  | restart =>
      refine h.goes_on .waiting ⟨hshape.1, by simp⟩ (.inl rfl) (by simp) ?_
        (.inr (.inr (.inr (.inl (List.mem_singleton_self _))))) rfl rfl rfl ?_
      · exact .inr (.inr (.inr (.inr ⟨.waiting, List.mem_singleton_self _, trivial⟩)))
      · simp [State.debt, hshape.2] at hcount ⊢
        omega
  | reset =>
      refine h.goes_on .waiting (.inl ⟨hshape.1, rfl⟩) (.inr rfl) (by simp) ?_
        (by simpa [hshape.1, hshape.2] using hbegun) rfl rfl rfl ?_
      · simp only [hshape.1, hshape.2, Task.Hears, ne_eq, not_true_eq_false, reduceCtorEq, or_false,
          false_or] at hheard
        exact hheard.imp_right fun htried => .inr (.inr (.inl htried))
      · simp [State.debt, hshape.2] at hcount ⊢
        exact hcount

section Shapes

variable {status : Status} {caller : Caller} {tasks : List Task}

/-- The loop may claim an idle state unless a task is leaving. -/
theorem Shape.grant (h : Shape .idle .away tasks) (hleaving : .leaving ∉ tasks) : tasks = [] := by
  cases tasks with
  | nil => rfl
  | cons task tasks =>
      cases tasks with
      | nil => cases task <;> simp [Shape, Task.Fits] at h hleaving
      | cons task' tasks => exact h.elim

theorem Shape.refuse (h : Shape status .away tasks) (hbusy : status ≠ .idle) :
    Shape status .refused tasks := by
  cases tasks with
  | nil => simp [Shape, hbusy] at h
  | cons task tasks =>
      cases tasks with
      | nil => cases task <;> simp_all [Shape, Task.Fits]
      | cons task' tasks => exact h

theorem Shape.mark (h : Shape status .refused tasks) : Shape .pending .away tasks := by
  cases tasks with
  | nil => simp [Shape] at h
  | cons task tasks =>
      cases tasks with
      | nil => cases task <;> simp_all [Shape, Task.Fits]
      | cons task' tasks => exact h

theorem Shape.spawn (h : Shape status .granted tasks) : tasks = [] ∧ status = .running := by
  cases tasks with
  | nil => simpa [Shape] using h
  | cons task tasks =>
      cases tasks with
      | nil => cases task <;> simp [Shape, Task.Fits] at h
      | cons task' tasks => exact h.elim

theorem Shape.length_le (h : Shape status caller tasks) : tasks.length ≤ 1 := by
  cases tasks with
  | nil => exact Nat.zero_le _
  | cons task tasks =>
      cases tasks with
      | nil => exact Nat.le_refl _
      | cons task' tasks => exact h.elim

end Shapes

theorem Sound.moves {a : Action} (h : Sound s) (hcalm : Calm s a)
    (hmove : Moves workers s a s') : Sound s' := by
  have hcount := h.count
  unfold State.debt at hcount
  cases hmove with
  | edit =>
      refine ⟨h.shape, h.heard, h.begun, Nat.le_succ_of_le h.asked, Nat.le_succ_of_le h.pool, h.states,
        fun since states hmem => ?_, h.count⟩
      have hold := h.building since states hmem
      exact ⟨hold.1, Nat.le_succ_of_le hold.2.1, hold.2.2⟩
  | signal =>
      refine ⟨h.shape, .inl rfl, .inl rfl, Nat.le_refl _, h.pool, h.states, h.building, ?_⟩
      have hle := s.channel.toNat_le
      simp only [State.debt, Bool.toNat_true]
      omega
  | grant hfull haway hidle =>
      have hshape := h.shape
      rw [hidle, haway] at hshape
      have hrest : s.tasks = [] := hshape.grant hcalm
      refine ⟨?_, .inr (.inl (by simp)), .inr (.inl (by simp)), h.asked, h.pool, h.states, h.building,
        ?_⟩
      · show Shape .running .granted s.tasks
        rw [hrest]
        exact .inr ⟨rfl, rfl⟩
      · simp [State.debt, hfull, haway, hidle] at hcount ⊢
        omega
  | refuse hfull haway hbusy =>
      have hshape := h.shape
      rw [haway] at hshape
      refine ⟨hshape.refuse hbusy, .inr (.inl (by simp)), .inr (.inl (by simp)), h.asked, h.pool,
        h.states, h.building, ?_⟩
      · simp [State.debt, hfull, haway] at hcount ⊢
        omega
  | mark hrefused =>
      have hshape := h.shape
      rw [hrefused] at hshape
      refine ⟨hshape.mark, .inr (.inr (.inl rfl)), .inr (.inr (.inl rfl)), h.asked, h.pool, h.states,
        h.building, ?_⟩
      · simp [State.debt, hrefused] at hcount ⊢
        omega
  | spawn hgranted =>
      have hshape := h.shape
      rw [hgranted] at hshape
      obtain ⟨hrest, hrunning⟩ := hshape.spawn
      refine ⟨?_, ?_, .inr (.inr (.inr (.inl (by simp)))), h.asked, h.pool, h.states,
        fun since states hmem => ?_, ?_⟩
      · show Shape s.status .away (s.tasks ++ [.waiting])
        rw [hrest, hrunning]
        exact ⟨by simp, by simp⟩
      · exact .inr (.inr (.inr (.inr ⟨.waiting, by simp, trivial⟩)))
      · refine h.building since states ?_
        simpa using hmem
      · simp [State.debt, hgranted, hrest, hrunning] at hcount ⊢
        omega
  | task i before after hi htasks hmove =>
      have hshape := h.shape
      rw [htasks] at hshape
      obtain ⟨rfl, rfl⟩ := hshape.alone
      exact h.taskMoves htasks hcalm hmove
  | arrive => exact ⟨h.shape, h.heard, h.begun, h.asked, h.pool, h.states, h.building, h.count⟩
  | readPool r harrived hfree =>
      exact ⟨h.shape, h.heard, h.begun, h.asked, h.pool, h.states, h.building, h.count⟩
  | readDocs r pool hholds =>
      exact ⟨h.shape, h.heard, h.begun, h.asked, h.pool, h.states, h.building, h.count⟩

theorem sound_boot (workers version : ℕ) : Sound (boot workers version) := by
  refine ⟨.inl ⟨rfl, rfl⟩, .inr (.inr (.inr (.inl (Nat.le_refl _)))),
    .inr (.inr (.inr (.inr rfl))), Nat.le_refl _, Nat.le_refl _, fun v hv => ?_, fun since states hmem => ?_, Nat.le_refl _⟩
  · rw [List.eq_of_mem_replicate hv]
    exact Nat.le_refl _
  · cases hmem

/-- What holds besides while no rebuild fails: what was tried is in the pool. -/
structure Fresh (s : State) : Prop where
  consistent : Consistent s
  sound : Sound s
  tried : s.tried ≤ s.pool.since

theorem Fresh.moves {a : Action} (h : Fresh s) (hcalm : Calm s a) (hfail : ∀ i, a ≠ .task i .fail)
    (hmove : Moves workers s a s') : Fresh s' := by
  refine ⟨h.consistent.moves hmove, h.sound.moves hcalm hmove, ?_⟩
  cases hmove with
  | task i before after hi htasks hmove =>
      have hself : ∀ t, s.tasks = before ++ t :: after → t ∈ s.tasks := by
        intro t ht
        rw [ht]
        exact mem_replaced.mpr (.inl rfl)
      cases hmove with
      | fail since states => exact absurd rfl (hfail i)
      | swap since states hlen hfree =>
          exact Nat.le_trans h.tried (h.sound.building since states (hself _ htasks)).1
      | unlock since =>
          have hsince := h.consistent.documented since (hself _ htasks)
          exact Nat.max_le.mpr ⟨h.tried, Nat.le_of_eq hsince⟩
      | _ => exact h.tried
  | _ => exact h.tried

/-- Where no window is split, one rebuild at most runs at a time and no more begin than there
were signals; and at rest the last rebuild began after the last signal, so that, if none failed,
every state of the pool loaded what was on disk then. -/
theorem reload_heard {acts : List Action}
    (h : runFrom (step workers) (boot workers version) acts = some s)
    (hcalm : Along (step workers) Calm (boot workers version) acts) :
    s.tasks.length ≤ 1 ∧ s.rebuilds ≤ s.signals ∧
      (s.channel = false → s.caller = .away → s.tasks = [] →
        s.status = .idle ∧ s.begun = s.signals ∧ s.asked ≤ s.tried ∧
          ((∀ i, .task i .fail ∉ acts) → ∀ v ∈ s.pool.states, s.asked ≤ v)) := by
  have hsound : Sound s := runFrom_keeps_along
    (fun _ _ _ hinv hok hstep => hinv.moves hok (step_moves hstep)) (sound_boot _ _) hcalm h
  refine ⟨hsound.shape.length_le, Nat.le_trans (Nat.le_add_right _ _) hsound.count,
    fun hchannel haway hrest => ?_⟩
  have hidle : s.status = .idle := by
    have hshape := hsound.shape
    rw [haway, hrest] at hshape
    simpa [Shape] using hshape
  have htried : s.asked ≤ s.tried := by
    simpa [hchannel, haway, hrest, hidle] using hsound.heard
  have hbegun : s.begun = s.signals := by
    simpa [hchannel, haway, hrest, hidle] using hsound.begun
  refine ⟨hidle, hbegun, htried, fun hnofail v hv => ?_⟩
  have hfresh : Fresh s := by
    have halong := hcalm.and_of_forall (q := fun a => ∀ i, a ≠ .task i .fail)
      fun a ha i heq => hnofail i (heq ▸ ha)
    exact runFrom_keeps_along (fun _ _ _ hinv hok hstep => hinv.moves hok.1 hok.2 (step_moves hstep))
      ⟨consistent_boot _ _, sound_boot _ _, Nat.le_refl _⟩ halong h
  exact Nat.le_trans htried (Nat.le_trans hfresh.tried (hsound.states v hv))

/-- A second signal during the rebuild: two rebuilds, the second of the later scripts. -/
def twiceSignalled : List Action :=
  [.edit, .signal, .receive, .spawn, .task 0 .begin, .edit, .signal, .receive, .mark,
    .task 0 .load, .task 0 .swap, .task 0 .document, .task 0 .unlock, .task 0 .close,
    .task 0 .restart, .task 0 .begin, .task 0 .load, .task 0 .swap, .task 0 .document,
    .task 0 .unlock, .task 0 .close, .task 0 .reset]

def twiceReloaded : State where
  disk := 2
  asked := 2
  tried := 2
  signals := 2
  rebuilds := 2
  begun := 2
  channel := false
  status := .idle
  caller := .away
  tasks := []
  pool := ⟨2, 2, [2]⟩
  docs := ⟨2, some 2⟩
  requests := []

theorem reload_heard_twice : twiceReloaded.begun = twiceReloaded.signals ∧
    ∀ v ∈ twiceReloaded.pool.states, twiceReloaded.asked ≤ v := by
  have hrun : runFrom (step 1) (boot 1 0) twiceSignalled = some twiceReloaded := by decide
  have hcalm : Along (step 1) Calm (boot 1 0) twiceSignalled := by decide
  obtain ⟨-, hbegun, -, hfresh⟩ := (reload_heard hrun hcalm).2.2 rfl rfl rfl
  exact ⟨hbegun, hfresh (by simp [twiceSignalled])⟩

/-! ## The reloads that end all reloads -/

/-- No task is left to see the mark that was or will be stored. -/
def Doomed (s : State) : Prop :=
  s.tasks = [] ∧ (s.caller = .refused ∨ s.caller = .away ∧ s.status = .pending)

instance (s : State) : Decidable (Doomed s) :=
  inferInstanceAs (Decidable (s.tasks = [] ∧ _))

theorem Doomed.moves {a : Action} (h : Doomed s) (hmove : Moves workers s a s') : Doomed s' := by
  obtain ⟨hrest, hcase⟩ := h
  cases hmove with
  | grant hfull haway hidle => simp [haway, hidle] at hcase
  | refuse hfull haway hbusy => exact ⟨hrest, .inl rfl⟩
  | mark hrefused => exact ⟨hrest, .inr ⟨rfl, rfl⟩⟩
  | spawn hgranted => simp [hgranted] at hcase
  | task i before after hi htasks hmove => simp [hrest] at htasks
  | _ => exact ⟨hrest, hcase⟩

/-- Without a task the state is running only where the loop is about to spawn one. -/
def Claimed (s : State) : Prop := s.tasks = [] → s.status = .running → s.caller = .granted

theorem Claimed.moves {a : Action} (h : Claimed s) (hmove : Moves workers s a s') :
    Claimed s' := by
  cases hmove with
  | grant hfull haway hidle => exact fun _ _ => rfl
  | refuse hfull haway hbusy =>
      intro hrest hrunning
      have hgranted := h hrest hrunning
      rw [haway] at hgranted
      cases hgranted
  | mark hrefused =>
      intro hrest hrunning
      cases hrunning
  | spawn hgranted =>
      intro hrest
      simp at hrest
  | task i before after hi htasks hmove =>
      intro hrest hrunning
      cases hmove with
      | reset => cases hrunning
      | _ => simp at hrest
  | _ => exact h

/-- The step that dooms a run leaves the loop before its mark. -/
theorem Doomed.entered {a : Action} (h : Doomed s') (hnot : ¬Doomed s)
    (hmove : Moves workers s a s') : s'.caller = .refused := by
  obtain ⟨hrest, hrefused | ⟨haway, hpending⟩⟩ := h
  · exact hrefused
  cases hmove with
  | grant hfull haway' hidle => cases haway
  | refuse hfull haway' hbusy => rfl
  | mark hrefused => exact absurd ⟨hrest, .inl hrefused⟩ hnot
  | spawn hgranted => simp at hrest
  | task i before after hi htasks hmove =>
      cases hmove with
      | reset => cases hpending
      | _ => simp at hrest
  | _ => exact absurd ⟨hrest, .inr ⟨haway, hpending⟩⟩ hnot

/-- A run that is not doomed can go on to a rebuild. -/
theorem exists_rebuild (hclaimed : Claimed s) (h : ¬Doomed s) :
    ∃ later s', runFrom (step workers) s later = some s' ∧ s'.tasks ≠ [] := by
  by_cases hrest : s.tasks = []
  · cases hcaller : s.caller with
    | refused => exact absurd ⟨hrest, .inl hcaller⟩ h
    | granted =>
        refine ⟨[.spawn], { s with caller := .away, tasks := s.tasks ++ [.waiting] }, ?_, ?_⟩
        · rw [runFrom, step, if_pos hcaller]
          rfl
        · simp
    | away =>
        have hidle : s.status = .idle := by
          cases hstatus : s.status with
          | idle => rfl
          | running =>
              have hgranted := hclaimed hrest hstatus
              rw [hcaller] at hgranted
              cases hgranted
          | pending => exact absurd ⟨hrest, .inr ⟨hcaller, hstatus⟩⟩ h
        refine ⟨[.signal, .receive, .spawn], { s with
          channel := false, asked := s.disk, signals := s.signals + 1, status := .running,
          caller := .away, tasks := s.tasks ++ [.waiting] }, ?_, ?_⟩
        · simp [runFrom, step, hcaller, hidle]
        · simp
  · exact ⟨[], s, rfl, hrest⟩

/-- A run came to where no later run rebuilds anything exactly if, at some point of it, the
last task was gone between the loop's refused `compare_exchange` and its mark. -/
theorem reloads_dead_iff {acts : List Action}
    (h : runFrom (step workers) (boot workers version) acts = some s) :
    (∀ later s', runFrom (step workers) s later = some s' → s'.tasks = []) ↔
      ∃ before after mid, acts = before ++ after ∧
        runFrom (step workers) (boot workers version) before = some mid ∧
        mid.tasks = [] ∧ mid.caller = .refused := by
  have hdoomed : ∀ {t t' : State} {acts : List Action}, Doomed t →
      runFrom (step workers) t acts = some t' → Doomed t' := fun hd hrun =>
    runFrom_keeps (fun _ _ _ hinv hstep => hinv.moves (step_moves hstep)) hd hrun
  have hclaimed : ∀ {t : State} {acts : List Action},
      runFrom (step workers) (boot workers version) acts = some t → Claimed t := fun hrun =>
    runFrom_keeps (fun _ _ _ hinv hstep => hinv.moves (step_moves hstep))
      (fun _ hrunning => by cases hrunning) hrun
  constructor
  · intro hdead
    have hs : ¬¬Doomed s := by
      intro hnot
      obtain ⟨later, s', hrun, htasks⟩ := exists_rebuild (hclaimed h) hnot
      exact htasks (hdead later s' hrun)
    have hboot : ¬Doomed (boot workers version) := by
      rintro ⟨-, hcase | ⟨-, hcase⟩⟩ <;> cases hcase
    obtain ⟨before, a, after, mid, mid', rfl, hbefore, hnot, hstep, hd, hafter⟩ :=
      exists_exit (p := fun s => ¬Doomed s) hboot hs h
    have hd := Classical.not_not.mp hd
    refine ⟨before ++ [a], after, mid', by simp, ?_, hd.1, ?_⟩
    · exact runFrom_append_eq_some.mpr ⟨mid, hbefore, runFrom_cons_eq_some.mpr ⟨_, hstep, rfl⟩⟩
    · exact hd.entered hnot (step_moves hstep)
  · rintro ⟨before, after, mid, rfl, hbefore, hrest, hrefused⟩ later s' hlater
    obtain ⟨mid', hbefore', hafter⟩ := runFrom_append_eq_some.mp h
    rw [hbefore] at hbefore'
    cases hbefore'
    exact (hdoomed (hdoomed ⟨hrest, .inl hrefused⟩ hafter) hlater).1

/-- A signal whose refusal is marked after the task has left. -/
def markedLate : List Action :=
  [.signal, .receive, .spawn, .task 0 .begin, .task 0 .load, .task 0 .swap, .task 0 .document,
    .task 0 .unlock, .signal, .receive, .task 0 .close, .task 0 .reset, .mark]

def unmarked : State where
  disk := 0
  asked := 0
  tried := 0
  signals := 2
  rebuilds := 1
  begun := 1
  channel := false
  status := .idle
  caller := .refused
  tasks := []
  pool := ⟨1, 0, [0]⟩
  docs := ⟨1, some 0⟩
  requests := []

theorem reloads_dead_iff_marked_late : unmarked.status = .idle ∧
    ∀ later s', runFrom (step 1) { unmarked with status := .pending, caller := .away } later =
      some s' → s'.tasks = [] := by
  have hrun : runFrom (step 1) (boot 1 0) markedLate =
      some { unmarked with status := .pending, caller := .away } := by decide
  have hbefore : runFrom (step 1) (boot 1 0) markedLate.dropLast = some unmarked := by decide
  refine ⟨rfl, (reloads_dead_iff hrun).mpr ?_⟩
  exact ⟨markedLate.dropLast, [.mark], unmarked, rfl, hbefore, rfl, rfl⟩

end Nitr.Http.Reload
