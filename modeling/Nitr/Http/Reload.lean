import Nitr.Lib.Actions

/-! # Reloads

`Server::reload` and the task it spawns, which share one atomic state and swap the pool and the
document under the pool's lock, step by step beside the requests that read both. The accept loop
is the only caller of `reload`; the tasks run on other threads, so any step of one may fall
between two of another. -/

namespace Nitr.Http.Reload

/-- The values of `reloading`. -/
inductive Status where
  | idle
  | running
  | pending
deriving DecidableEq

/-- A pool of states, each of which loaded the scripts at some version: `gen` counts the pools
that came before, `since` is the version on disk when its build began. -/
structure Pool where
  gen : ℕ
  since : ℕ
  states : List ℕ
deriving DecidableEq

/-- The document, built from the bootstrap state of one pool. -/
structure Docs where
  gen : ℕ
  version : Option ℕ
deriving DecidableEq

/-- `build_docs`: of the first state. -/
def Pool.docs (pool : Pool) : Docs := ⟨pool.gen, pool.states.head?⟩

/-- Where the accept loop is in `reload`. -/
inductive Caller where
  | away
  /-- Its `compare_exchange` succeeded: the task is to be spawned. -/
  | granted
  /-- Its `compare_exchange` failed: `RELOAD_PENDING` is to be stored. -/
  | refused
deriving DecidableEq

/-- Where a spawned task is. -/
inductive Task where
  /-- At the top of its loop. -/
  | waiting
  /-- In `build_runtimes`, with the states that are loaded. -/
  | building (since : ℕ) (states : List ℕ)
  /-- It holds the pool's lock and replaced the pool. -/
  | swapped (pool : Pool)
  /-- It holds the lock and replaced the document as well. -/
  | documented (since : ℕ)
  /-- `rebuild_pool` returned, or its panic was caught. -/
  | finished
  /-- Its `compare_exchange` failed: `RELOAD_RUNNING` is to be stored. -/
  | refused
  /-- Its `compare_exchange` succeeded: `ReloadReset` is to be dropped. -/
  | leaving
deriving DecidableEq

/-- Whether the task holds the write lock of the pool. -/
def Task.writing : Task → Bool
  | .swapped _ => true
  | .documented _ => true
  | _ => false

/-- A request, which reads the pool before the document. -/
inductive Request where
  | arrived
  | holding (pool : Pool)
  | served (pool : Pool) (docs : Docs)
deriving DecidableEq

structure State where
  /-- The version of the scripts on disk. -/
  disk : ℕ
  /-- The version on disk at the last signal. -/
  asked : ℕ
  /-- The newest version that was on disk when a rebuild began that is over. -/
  tried : ℕ
  signals : ℕ
  rebuilds : ℕ
  /-- The signals there had been when the last rebuild began. -/
  begun : ℕ
  /-- Whether the reload channel, which holds one message, is full. -/
  channel : Bool
  status : Status
  caller : Caller
  tasks : List Task
  pool : Pool
  docs : Docs
  requests : List Request
deriving DecidableEq

/-- The server as it was built, from the scripts at one version. -/
def boot (workers version : ℕ) : State where
  disk := version
  asked := version
  tried := version
  signals := 0
  rebuilds := 0
  begun := 0
  channel := false
  status := .idle
  caller := .away
  tasks := []
  pool := ⟨0, version, List.replicate (max workers 1) version⟩
  docs := ⟨0, some version⟩
  requests := []

/-- Whether a task holds the write lock of the pool. -/
def State.locked (s : State) : Bool := s.tasks.any Task.writing

/-- The steps of a task. -/
inductive Move where
  | begin
  | load
  | fail
  | swap
  | document
  | unlock
  | close
  | restart
  | reset
deriving DecidableEq

inductive Action where
  /-- The scripts change on disk. -/
  | edit
  /-- `SIGHUP` or the watcher: `try_send`, which is dropped where the channel is full. -/
  | signal
  /-- The accept loop takes the message and tries to claim the state. -/
  | receive
  /-- The accept loop, refused, stores `RELOAD_PENDING`. -/
  | mark
  /-- The accept loop, granted, spawns the task. -/
  | spawn
  | task (i : ℕ) (move : Move)
  | arrive
  /-- `current_pool`. -/
  | readPool (r : ℕ)
  /-- `protection.docs()`. -/
  | readDocs (r : ℕ)
deriving DecidableEq

/-- The `i`th task goes on as another. -/
def State.setTask (s : State) (i : ℕ) (task : Task) : State :=
  { s with tasks := s.tasks.set i task }

/-- One step of the task spawned by `reload`. A build that fails, a document that fails and a
panic leave the pool and the document alone. -/
def State.taskStep (workers : ℕ) (s : State) (i : ℕ) : Task → Move → Option State
  | .waiting, .begin =>
    some { s.setTask i (.building s.disk []) with rebuilds := s.rebuilds + 1, begun := s.signals }
  | .building since states, .load =>
    if states.length < max workers 1 then
      some (s.setTask i (.building since (states ++ [s.disk])))
    else none
  | .building since _, .fail =>
    some { s.setTask i .finished with tried := max s.tried since }
  | .building since states, .swap =>
    if states.length = max workers 1 ∧ s.locked = false then
      some { s.setTask i (.swapped ⟨s.pool.gen + 1, since, states⟩) with
        pool := ⟨s.pool.gen + 1, since, states⟩ }
    else none
  | .swapped pool, .document =>
    some { s.setTask i (.documented pool.since) with docs := pool.docs }
  | .documented since, .unlock =>
    some { s.setTask i .finished with tried := max s.tried since }
  | .finished, .close =>
    if s.status = .running then some { s.setTask i .leaving with status := .idle }
    else some (s.setTask i .refused)
  | .refused, .restart => some { s.setTask i .waiting with status := .running }
  | .leaving, .reset => some { s with tasks := s.tasks.eraseIdx i, status := .idle }
  | _, _ => none

def step (workers : ℕ) (s : State) : Action → Option State
  | .edit => some { s with disk := s.disk + 1 }
  | .signal => some { s with channel := true, asked := s.disk, signals := s.signals + 1 }
  | .receive =>
    if s.channel = true ∧ s.caller = .away then
      if s.status = .idle then
        some { s with channel := false, status := .running, caller := .granted }
      else some { s with channel := false, caller := .refused }
    else none
  | .mark =>
    if s.caller = .refused then some { s with status := .pending, caller := .away } else none
  | .spawn =>
    if s.caller = .granted then
      some { s with caller := .away, tasks := s.tasks ++ [.waiting] }
    else none
  | .task i move => s.tasks[i]?.bind fun task => s.taskStep workers i task move
  | .arrive => some { s with requests := s.requests ++ [.arrived] }
  | .readPool r =>
    if s.requests[r]? = some .arrived ∧ s.locked = false then
      some { s with requests := s.requests.set r (.holding s.pool) }
    else none
  | .readDocs r =>
    match s.requests[r]? with
    | some (.holding pool) => some { s with requests := s.requests.set r (.served pool s.docs) }
    | _ => none

/-! ## What one step does -/

/-- One step of the task that stands between others. -/
inductive TaskMoves (workers : ℕ) (s : State) (before after : List Task) :
    Task → Move → State → Prop where
  | begin : TaskMoves workers s before after .waiting .begin
      { s with
        tasks := before ++ .building s.disk [] :: after
        rebuilds := s.rebuilds + 1
        begun := s.signals }
  | load (since : ℕ) (states : List ℕ) (hlen : states.length < max workers 1) :
      TaskMoves workers s before after (.building since states) .load
        { s with tasks := before ++ .building since (states ++ [s.disk]) :: after }
  | fail (since : ℕ) (states : List ℕ) :
      TaskMoves workers s before after (.building since states) .fail
        { s with tasks := before ++ .finished :: after, tried := max s.tried since }
  | swap (since : ℕ) (states : List ℕ) (hlen : states.length = max workers 1)
      (hfree : s.locked = false) :
      TaskMoves workers s before after (.building since states) .swap
        { s with
          tasks := before ++ .swapped ⟨s.pool.gen + 1, since, states⟩ :: after
          pool := ⟨s.pool.gen + 1, since, states⟩ }
  | document (pool : Pool) : TaskMoves workers s before after (.swapped pool) .document
      { s with tasks := before ++ .documented pool.since :: after, docs := pool.docs }
  | unlock (since : ℕ) : TaskMoves workers s before after (.documented since) .unlock
      { s with tasks := before ++ .finished :: after, tried := max s.tried since }
  | close (hstatus : s.status = .running) : TaskMoves workers s before after .finished .close
      { s with tasks := before ++ .leaving :: after, status := .idle }
  | refuse (hstatus : s.status ≠ .running) : TaskMoves workers s before after .finished .close
      { s with tasks := before ++ .refused :: after }
  | restart : TaskMoves workers s before after .refused .restart
      { s with tasks := before ++ .waiting :: after, status := .running }
  | reset : TaskMoves workers s before after .leaving .reset
      { s with tasks := before ++ after, status := .idle }

/-- One step of the system. -/
inductive Moves (workers : ℕ) (s : State) : Action → State → Prop where
  | edit : Moves workers s .edit { s with disk := s.disk + 1 }
  | signal : Moves workers s .signal
      { s with channel := true, asked := s.disk, signals := s.signals + 1 }
  | grant (hfull : s.channel = true) (haway : s.caller = .away) (hidle : s.status = .idle) :
      Moves workers s .receive { s with channel := false, status := .running, caller := .granted }
  | refuse (hfull : s.channel = true) (haway : s.caller = .away) (hbusy : s.status ≠ .idle) :
      Moves workers s .receive { s with channel := false, caller := .refused }
  | mark (hrefused : s.caller = .refused) :
      Moves workers s .mark { s with status := .pending, caller := .away }
  | spawn (hgranted : s.caller = .granted) :
      Moves workers s .spawn { s with caller := .away, tasks := s.tasks ++ [.waiting] }
  | task {s' : State} {task : Task} {move : Move} (i : ℕ) (before after : List Task)
      (hi : before.length = i) (htasks : s.tasks = before ++ task :: after)
      (hmove : TaskMoves workers s before after task move s') : Moves workers s (.task i move) s'
  | arrive : Moves workers s .arrive { s with requests := s.requests ++ [.arrived] }
  | readPool (r : ℕ) (harrived : s.requests[r]? = some .arrived) (hfree : s.locked = false) :
      Moves workers s (.readPool r) { s with requests := s.requests.set r (.holding s.pool) }
  | readDocs (r : ℕ) (pool : Pool) (hholds : s.requests[r]? = some (.holding pool)) :
      Moves workers s (.readDocs r) { s with requests := s.requests.set r (.served pool s.docs) }

variable {workers : ℕ} {s s' : State}

theorem taskStep_moves {before after : List Task} {task : Task} {move : Move}
    (htasks : s.tasks = before ++ task :: after)
    (h : s.taskStep workers before.length task move = some s') :
    TaskMoves workers s before after task move s' := by
  have hset : ∀ t, s.setTask before.length t = { s with tasks := before ++ t :: after } := by
    intro t
    rw [State.setTask, htasks, List.set_append_right _ _ (Nat.le_refl _), Nat.sub_self, List.set_cons_zero]
  have herase : s.tasks.eraseIdx before.length = before ++ after := by
    rw [htasks, List.eraseIdx_append_of_length_le (Nat.le_refl _), Nat.sub_self, List.eraseIdx_cons_zero]
  unfold State.taskStep at h
  simp only [hset, herase] at h
  split at h
  · cases h
    exact .begin
  · rw [Option.ite_none_right_eq_some] at h
    obtain ⟨hlen, h⟩ := h
    cases h
    exact .load _ _ hlen
  · cases h
    exact .fail _ _
  · rw [Option.ite_none_right_eq_some] at h
    obtain ⟨hready, h⟩ := h
    cases h
    exact .swap _ _ hready.1 hready.2
  · cases h
    exact .document _
  · cases h
    exact .unlock _
  · split at h
    · cases h
      exact .close ‹_›
    · cases h
      exact .refuse ‹_›
  · cases h
    exact .restart
  · cases h
    exact .reset
  · cases h

theorem step_moves {a : Action} (h : step workers s a = some s') : Moves workers s a s' := by
  cases a with
  | edit =>
      cases h
      exact .edit
  | signal =>
      cases h
      exact .signal
  | receive =>
      rw [step, Option.ite_none_right_eq_some] at h
      obtain ⟨⟨hfull, haway⟩, h⟩ := h
      split at h
      · cases h
        exact .grant hfull haway ‹_›
      · cases h
        exact .refuse hfull haway ‹_›
  | mark =>
      rw [step, Option.ite_none_right_eq_some] at h
      obtain ⟨hrefused, h⟩ := h
      cases h
      exact .mark hrefused
  | spawn =>
      rw [step, Option.ite_none_right_eq_some] at h
      obtain ⟨hgranted, h⟩ := h
      cases h
      exact .spawn hgranted
  | task i move =>
      rw [step, Option.bind_eq_some_iff] at h
      obtain ⟨task, htask, h⟩ := h
      obtain ⟨hi, rfl⟩ := List.getElem?_eq_some_iff.mp htask
      have hlen : (s.tasks.take i).length = i := List.length_take_of_le (Nat.le_of_lt hi)
      have htasks : s.tasks = s.tasks.take i ++ s.tasks[i] :: s.tasks.drop (i + 1) := by
        rw [List.getElem_cons_drop, List.take_append_drop]
      refine .task i _ _ hlen htasks (taskStep_moves htasks ?_)
      rw [hlen]
      exact h
  | arrive =>
      cases h
      exact .arrive
  | readPool r =>
      rw [step, Option.ite_none_right_eq_some] at h
      obtain ⟨⟨harrived, hfree⟩, h⟩ := h
      cases h
      exact .readPool r harrived hfree
  | readDocs r =>
      rw [step] at h
      split at h
      · rename_i pool hr
        cases h
        exact .readDocs r pool hr
      · cases h

end Nitr.Http.Reload
