import Nitr.Lib.Actions

/-! # Jobs in a window

Jobs are started in their order, so many at once, the finished ones that wait to be collected
counted among them. They finish in any order; their results are collected in order, up to the
first error. -/

open Actions

namespace Window

variable {ε α : Type}

structure State (ε α : Type) where
  /-- The values collected so far. -/
  values : List α
  /-- Whether each job that is started and not collected is done. -/
  slots : List Bool
  /-- The number of jobs started. -/
  started : ℕ
  outcome : Option (Except ε (List α))

def start : State ε α := ⟨[], [], 0, none⟩

inductive Action where
  | launch
  | finish (slot : ℕ)
  | collect
deriving DecidableEq

section

variable (jobs : List (Except ε α)) (width : ℕ)

/-- One step; `jobs` is what each job comes to. -/
def step (s : State ε α) : Action → Option (State ε α)
  | .launch =>
    if s.outcome.isNone ∧ s.slots.length < width ∧ s.started < jobs.length then
      some { s with slots := s.slots ++ [false], started := s.started + 1 }
    else none
  | .finish slot =>
    if s.outcome.isNone ∧ s.slots[slot]? = some false then
      some { s with slots := s.slots.set slot true }
    else none
  | .collect =>
    if s.outcome.isNone then
      match s.slots, jobs[s.values.length]? with
      | true :: slots, some (.ok a) => some { s with values := s.values ++ [a], slots }
      | true :: _, some (.error e) => some { s with slots := [], outcome := some (.error e) }
      | [], none => some { s with outcome := some (.ok s.values) }
      | _, _ => none
    else none

inductive Moves (s : State ε α) : State ε α → Prop where
  | launch (hroom : s.slots.length < width) (hjobs : s.started < jobs.length) :
      Moves s { s with slots := s.slots ++ [false], started := s.started + 1 }
  | finish (slot : ℕ) (hslot : s.slots[slot]? = some false) :
      Moves s { s with slots := s.slots.set slot true }
  | collect (slots : List Bool) (a : α) (hslots : s.slots = true :: slots)
      (hjob : jobs[s.values.length]? = some (.ok a)) :
      Moves s { s with values := s.values ++ [a], slots }
  | fail (slots : List Bool) (e : ε) (hslots : s.slots = true :: slots)
      (hjob : jobs[s.values.length]? = some (.error e)) :
      Moves s { s with slots := [], outcome := some (.error e) }
  | finishAll (hslots : s.slots = []) (hjob : jobs[s.values.length]? = none) :
      Moves s { s with outcome := some (.ok s.values) }

variable {jobs width} {s s' : State ε α}

theorem step_moves {a : Action} (h : step jobs width s a = some s') :
    s.outcome = none ∧ Moves jobs width s s' := by
  cases a with
  | launch =>
      rw [step, Option.ite_none_right_eq_some] at h
      obtain ⟨⟨hnone, hroom, hjobs⟩, h⟩ := h
      cases h
      exact ⟨Option.isNone_iff_eq_none.mp hnone, .launch hroom hjobs⟩
  | finish slot =>
      rw [step, Option.ite_none_right_eq_some] at h
      obtain ⟨⟨hnone, hslot⟩, h⟩ := h
      cases h
      exact ⟨Option.isNone_iff_eq_none.mp hnone, .finish slot hslot⟩
  | collect =>
      rw [step, Option.ite_none_right_eq_some] at h
      obtain ⟨hnone, h⟩ := h
      refine ⟨Option.isNone_iff_eq_none.mp hnone, ?_⟩
      split at h
      · cases h
        exact .collect _ _ ‹_› ‹_›
      · cases h
        exact .fail _ _ ‹_› ‹_›
      · cases h
        exact .finishAll ‹_› ‹_›
      · cases h

end

/-! ## Job after job -/

/-- The values of the jobs run one after another, or the first error. -/
def inOrder (jobs : List (Except ε α)) : Except ε (List α) := jobs.mapM id

theorem inOrder_append (jobs more : List (Except ε α)) :
    inOrder (jobs ++ more) = do return (← inOrder jobs) ++ (← inOrder more) :=
  List.mapM_append

variable {jobs : List (Except ε α)} {width : ℕ} {s s' : State ε α}

theorem inOrder_take_succ {values : List α} {a : α} {n : ℕ}
    (h : inOrder (jobs.take n) = .ok values) (ha : jobs[n]? = some (.ok a)) :
    inOrder (jobs.take (n + 1)) = .ok (values ++ [a]) := by
  rw [List.take_add_one, ha, inOrder_append, h]
  rfl

theorem inOrder_of_error {values : List α} {e : ε} {n : ℕ}
    (h : inOrder (jobs.take n) = .ok values) (he : jobs[n]? = some (.error e)) :
    inOrder jobs = .error e := by
  obtain ⟨hn, hget⟩ := List.getElem?_eq_some_iff.mp he
  rw [← List.take_append_drop n jobs, List.drop_eq_getElem_cons hn, hget, inOrder_append, h]
  rfl

/-! ## The invariant -/

structure Sound (jobs : List (Except ε α)) (width : ℕ) (s : State ε α) : Prop where
  room : s.slots.length ≤ width
  within : s.started ≤ jobs.length
  ahead : s.started ≤ s.values.length + width
  values : inOrder (jobs.take s.values.length) = .ok s.values
  count : s.outcome = none → s.started = s.values.length + s.slots.length
  settled : ∀ o, s.outcome = some o → o = inOrder jobs
  failed : ∀ e, s.outcome = some (.error e) → jobs[s.values.length]? = some (.error e)

theorem sound_start : Sound jobs width (start : State ε α) where
  room := Nat.zero_le _
  within := Nat.zero_le _
  ahead := Nat.zero_le _
  values := rfl
  count _ := rfl
  settled _ h := nomatch h
  failed _ h := nomatch h

theorem Sound.moves (h : Sound jobs width s) (hnone : s.outcome = none)
    (hmoves : Moves jobs width s s') : Sound jobs width s' := by
  have hcount := h.count hnone
  have hrunning : ∀ {o : Except ε (List α)} {p : Prop}, s.outcome = some o → p := by
    intro o p ho
    rw [hnone] at ho
    cases ho
  cases hmoves with
  | launch hroom hjobs =>
      refine ⟨?_, hjobs, ?_, h.values, fun _ => ?_, fun _ => hrunning, fun _ => hrunning⟩ <;>
        simp only [List.length_append, List.length_singleton] <;> omega
  | finish slot hslot =>
      refine ⟨?_, h.within, h.ahead, h.values, fun _ => ?_, fun _ => hrunning,
        fun _ => hrunning⟩ <;> rw [List.length_set]
      · exact h.room
      · exact hcount
  | collect slots a hslots hjob =>
      have hlength : s.slots.length = slots.length + 1 := by rw [hslots, List.length_cons]
      have hroom := h.room
      refine ⟨by simp only; omega, h.within, ?_, ?_, fun _ => ?_, fun _ => hrunning,
        fun _ => hrunning⟩
      · have := h.ahead
        simp only [List.length_append, List.length_singleton]
        omega
      · rw [List.length_append, List.length_singleton]
        exact inOrder_take_succ h.values hjob
      · simp only [List.length_append, List.length_singleton]
        omega
  | fail slots e hslots hjob =>
      refine ⟨Nat.zero_le _, h.within, h.ahead, h.values, fun hn => (nomatch hn), fun o ho => ?_,
        fun e' he => ?_⟩
      · cases ho
        exact (inOrder_of_error h.values hjob).symm
      · cases he
        exact hjob
  | finishAll hslots hjob =>
      refine ⟨h.room, h.within, h.ahead, h.values, fun hn => (nomatch hn), fun o ho => ?_,
        fun _ ho => (nomatch ho)⟩
      cases ho
      have htake := h.values
      rw [List.take_of_length_le (List.getElem?_eq_none_iff.mp hjob)] at htake
      exact htake.symm

theorem sound_run {acts : List Action} (h : runFrom (step jobs width) start acts = some s) :
    Sound jobs width s :=
  runFrom_keeps (fun _ _ _ hs hstep => hs.moves (step_moves hstep).1 (step_moves hstep).2)
    sound_start h

/-! ## Progress -/

/-- The steps that are left. -/
def State.left (jobs : List (Except ε α)) (s : State ε α) : ℕ :=
  3 * (jobs.length - s.started) + s.slots.length + s.slots.count false +
    if s.outcome.isNone then 1 else 0

end Window
