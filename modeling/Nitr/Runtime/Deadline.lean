import Nitr.Lib.Actions

/-! # The execution deadline

The deadline of a Lua state in `runtime/mod.rs`, and the streams of `stream.rs` that extend it.
A script may keep the writer of a stream and write to it in any later call; calls may be dropped
at any point. An instant is the nanoseconds since the state was made. -/

open Actions

namespace Nitr.Runtime.Deadline

/-- `u64::MAX`: no deadline. -/
def never : ℕ := 18446744073709551615

/-- What goes on in the state, and since when. -/
inductive Phase where
  | idle
  /-- `call_function`. -/
  | calling (since : ℕ)
  /-- Work under `arm`: the load of a script. -/
  | loading (since : ℕ)
  /-- `call_function_streaming`. -/
  | streaming (since : ℕ)
deriving DecidableEq

structure State where
  now : ℕ
  deadline : ℕ
  phase : Phase
  /-- Whether the channel of each stream so far is open. -/
  channels : List Bool
  /-- The stream whose task holds the state. -/
  stream : Option ℕ
  /-- The chunks a channel took: the stream and the instant. -/
  delivered : List (ℕ × ℕ)
  /-- A deadline was armed that nothing lifted: by a call that was dropped or that failed before it
  ran, or by a chunk sent between two calls. -/
  abandoned : Bool

def start : State := ⟨0, never, .idle, [], none, [], false⟩

inductive Action where
  | tick (elapsed : ℕ)
  | call
  | load
  /-- `stream_response`. -/
  | openStream
  | callStream
  /-- A call fails before Lua runs: at its coroutine, or at its arguments with the deadline
  armed. -/
  | fail (armed : Bool)
  /-- The call or the load ends, with a value or an error. -/
  | finish
  /-- The outer timeout of a call. -/
  | timeout
  /-- The future of a call is dropped. -/
  | drop
  /-- `writer:write` on the writer of a stream, once it went through or failed. -/
  | write (stream : ℕ)
  /-- The task sends a chunk of an iterator. -/
  | emit
  | disconnect (stream : ℕ)
  /-- The task ends and closes the channel. -/
  | closeStream
deriving DecidableEq

section

variable (budget : Option ℕ)

/-- The grace of the outer timeout: 100 ms. -/
def grace : ℕ := 100000000

/-- A full budget from now, where there is one. -/
def State.extend (s : State) : State :=
  match budget with
  | some budget => { s with deadline := (s.now + budget) % 18446744073709551616 }
  | none => s

/-- `clear_deadline`, at the end of a call or a load. -/
def State.lift (s : State) : State :=
  { s with deadline := never, phase := .idle, abandoned := false }

/-- What the hook and `tripped` ask. -/
def State.over (s : State) : Bool := s.deadline < s.now % 18446744073709551616

/-- Whether the outer timeout of a call has run out. -/
def State.expired (s : State) : Bool :=
  match s.phase, budget with
  | .calling since, some budget => since + budget + grace ≤ s.now
  | _, _ => false

def State.take (s : State) (stream : ℕ) : State :=
  { s with delivered := s.delivered ++ [(stream, s.now)] }.extend budget

def step (s : State) : Action → Option State
  | .tick elapsed => some { s with now := s.now + elapsed }
  | .call =>
    if s.phase = .idle ∧ s.stream = none then
      some ({ s with phase := .calling s.now }.extend budget)
    else none
  | .load =>
    if s.phase = .idle ∧ s.stream = none then
      some ({ s with phase := .loading s.now }.extend budget)
    else none
  | .openStream =>
    if s.phase = .idle ∧ s.stream = none then
      some { s with channels := s.channels ++ [true], stream := some s.channels.length }
    else none
  | .callStream =>
    if s.phase = .idle ∧ s.stream.isSome then
      some ({ s with phase := .streaming s.now }.extend budget)
    else none
  | .fail armed =>
    if s.phase = .idle then
      some (if armed then { s with abandoned := true }.extend budget else s)
    else none
  | .finish => if s.phase ≠ .idle then some s.lift else none
  | .timeout => if s.expired budget then some s.lift else none
  | .drop =>
    match s.phase with
    | .calling _ => some { s with phase := .idle, abandoned := true }
    | _ => none
  | .write stream =>
    match s.phase with
    | .calling _ | .streaming _ =>
      match s.channels[stream]? with
      | some true => some (s.take budget stream)
      | some false => some s
      | none => none
    | _ => none
  | .emit =>
    match s.phase, s.stream with
    | .idle, some stream =>
      if s.channels[stream]? = some true then
        some ({ s with abandoned := true }.take budget stream)
      else none
    | _, _ => none
  | .disconnect stream =>
    if s.channels[stream]? = some true then
      some { s with channels := s.channels.set stream false }
    else none
  | .closeStream =>
    match s.phase, s.stream with
    | .idle, some stream =>
      some { s with channels := s.channels.set stream false, stream := none }
    | _, _ => none

end

/-! ## The last grant -/

/-- The last instant from one on at which a chunk of a stream was taken. -/
def lastGrant (delivered : List (ℕ × ℕ)) (stream since : ℕ) : ℕ :=
  delivered.foldl (fun last chunk => if chunk.1 = stream then max last chunk.2 else last) since

theorem lastGrant_append (delivered : List (ℕ × ℕ)) (stream since other instant : ℕ) :
    lastGrant (delivered ++ [(other, instant)]) stream since =
      if other = stream then max (lastGrant delivered stream since) instant
      else lastGrant delivered stream since := by
  rw [lastGrant, List.foldl_append]
  rfl

/-- Nothing was taken since. -/
theorem lastGrant_of_le {delivered : List (ℕ × ℕ)} {stream since : ℕ}
    (h : ∀ chunk ∈ delivered, chunk.2 ≤ since) : lastGrant delivered stream since = since := by
  induction delivered with
  | nil => rfl
  | cons chunk delivered ih =>
      have hchunk : (if chunk.1 = stream then max since chunk.2 else since) = since := by
        have := h chunk List.mem_cons_self
        split <;> omega
      rw [lastGrant, List.foldl_cons, hchunk]
      exact ih fun other hother => h other (List.mem_cons_of_mem _ hother)

theorem lastGrant_le {delivered : List (ℕ × ℕ)} {stream since now : ℕ} (hsince : since ≤ now)
    (h : ∀ chunk ∈ delivered, chunk.2 ≤ now) : lastGrant delivered stream since ≤ now := by
  induction delivered generalizing since with
  | nil => exact hsince
  | cons chunk delivered ih =>
      rw [lastGrant, List.foldl_cons]
      refine ih ?_ fun other hother => h other (List.mem_cons_of_mem _ hother)
      have := h chunk List.mem_cons_self
      split <;> omega

/-! ## The invariant -/

/-- The word stored for a grant. -/
def granted (budget : Option ℕ) (instant : ℕ) : ℕ :=
  match budget with
  | some budget => (instant + budget) % 18446744073709551616
  | none => never

/-- What the deadline is. -/
def Kept (budget : Option ℕ) (s : State) : Prop :=
  match s.phase with
  | .idle => s.deadline = never ∨ s.abandoned = true
  | .calling since => s.stream = none ∧ since ≤ s.now ∧ s.deadline = granted budget since
  | .loading since => s.stream = none ∧ since ≤ s.now ∧ s.deadline = granted budget since
  | .streaming since => ∃ stream, s.stream = some stream ∧ since ≤ s.now ∧
      s.deadline = granted budget (lastGrant s.delivered stream since)

/-- What holds between the stores of one step, too. -/
structure Steady (budget : Option ℕ) (s : State) : Prop where
  /-- Only the stream at work takes chunks. -/
  channel : ∀ stream, s.channels[stream]? = some true → s.stream = some stream
  past : ∀ chunk ∈ s.delivered, chunk.2 ≤ s.now
  unarmed : budget = none → s.deadline = never

structure Sound (budget : Option ℕ) (s : State) : Prop extends Steady budget s where
  kept : Kept budget s

variable {budget : Option ℕ} {s s' : State}

@[simp] theorem extend_now : (s.extend budget).now = s.now := by
  cases budget <;> rfl

@[simp] theorem extend_phase : (s.extend budget).phase = s.phase := by
  cases budget <;> rfl

@[simp] theorem extend_channels : (s.extend budget).channels = s.channels := by
  cases budget <;> rfl

@[simp] theorem extend_stream : (s.extend budget).stream = s.stream := by
  cases budget <;> rfl

@[simp] theorem extend_delivered : (s.extend budget).delivered = s.delivered := by
  cases budget <;> rfl

@[simp] theorem extend_abandoned : (s.extend budget).abandoned = s.abandoned := by
  cases budget <;> rfl

theorem extend_deadline (h : budget = none → s.deadline = never) :
    (s.extend budget).deadline = granted budget s.now := by
  cases budget with
  | none => exact h rfl
  | some budget => rfl

theorem kept_idle (hphase : s.phase = .idle) (h : s.deadline = never ∨ s.abandoned = true) :
    Kept budget s := by
  rw [Kept, hphase]
  exact h

/-- Closing a channel opens no other. -/
theorem open_of_set {channels : List Bool} {closed stream : ℕ}
    (h : (channels.set closed false)[stream]? = some true) : channels[stream]? = some true := by
  rw [List.getElem?_set] at h
  split at h
  · split at h <;> cases h
  · exact h

theorem not_open_set_self (channels : List Bool) (stream : ℕ) :
    (channels.set stream false)[stream]? ≠ some true := by
  rw [List.getElem?_set, if_pos rfl]
  split <;> nofun

theorem Steady.extended (h : Steady budget s) : Steady budget (s.extend budget) := by
  refine ⟨?_, ?_, fun hnone => ?_⟩
  · simpa using h.channel
  · simpa using h.past
  · rw [extend_deadline h.unarmed, hnone]
    rfl

theorem sound_start : Sound budget start :=
  ⟨⟨nofun, nofun, fun _ => rfl⟩, .inl rfl⟩

theorem Sound.tick (h : Sound budget s) (elapsed : ℕ) :
    Sound budget { s with now := s.now + elapsed } := by
  have hlater : s.now ≤ s.now + elapsed := Nat.le_add_right ..
  refine ⟨⟨h.channel, fun chunk hchunk => Nat.le_trans (h.past chunk hchunk) hlater,
    h.unarmed⟩, ?_⟩
  have hkept := h.kept
  unfold Kept at hkept ⊢
  cases hphase : s.phase with
  | idle =>
      rw [hphase] at hkept
      exact hkept
  | calling since =>
      rw [hphase] at hkept
      exact ⟨hkept.1, Nat.le_trans hkept.2.1 hlater, hkept.2.2⟩
  | loading since =>
      rw [hphase] at hkept
      exact ⟨hkept.1, Nat.le_trans hkept.2.1 hlater, hkept.2.2⟩
  | streaming since =>
      rw [hphase] at hkept
      obtain ⟨stream, hstream, hsince, hdeadline⟩ := hkept
      exact ⟨stream, hstream, Nat.le_trans hsince hlater, hdeadline⟩

theorem Sound.lift (h : Sound budget s) : Sound budget s.lift :=
  ⟨⟨h.channel, h.past, fun _ => rfl⟩, .inl rfl⟩

/-- A stretch of work begins. -/
theorem Sound.begin (h : Sound budget s) {phase : Phase}
    (hphase : (s.stream = none ∧ (phase = .calling s.now ∨ phase = .loading s.now)) ∨
      s.stream.isSome ∧ phase = .streaming s.now) :
    Sound budget ({ s with phase }.extend budget) := by
  have hsteady : Steady budget { s with phase } := ⟨h.channel, h.past, h.unarmed⟩
  have hdeadline := extend_deadline hsteady.unarmed
  refine ⟨hsteady.extended, ?_⟩
  rcases hphase with ⟨hstream, rfl | rfl⟩ | ⟨hstream, rfl⟩
  · simp only [Kept, extend_phase, extend_stream, extend_now]
    exact ⟨hstream, Nat.le_refl _, hdeadline⟩
  · simp only [Kept, extend_phase, extend_stream, extend_now]
    exact ⟨hstream, Nat.le_refl _, hdeadline⟩
  · obtain ⟨stream, hstream⟩ := Option.isSome_iff_exists.mp hstream
    simp only [Kept, extend_phase, extend_stream, extend_now, extend_delivered]
    refine ⟨stream, hstream, Nat.le_refl _, ?_⟩
    rw [lastGrant_of_le h.past]
    exact hdeadline

/-- The channel of the stream at work takes a chunk. -/
theorem Sound.take (h : Sound budget s) {stream : ℕ} (hstream : s.stream = some stream)
    (hphase : (s.phase = .idle ∧ s.abandoned = true) ∨ ∃ since, s.phase = .streaming since) :
    Sound budget (s.take budget stream) := by
  have hpast : ∀ chunk ∈ s.delivered ++ [(stream, s.now)], chunk.2 ≤ s.now := by
    intro chunk hchunk
    rcases List.mem_append.mp hchunk with hchunk | hchunk
    · exact h.past chunk hchunk
    · exact Nat.le_of_eq (congrArg Prod.snd (List.mem_singleton.mp hchunk))
  have hsteady : Steady budget { s with delivered := s.delivered ++ [(stream, s.now)] } :=
    ⟨h.channel, hpast, h.unarmed⟩
  have hdeadline := extend_deadline hsteady.unarmed
  refine ⟨hsteady.extended, ?_⟩
  rcases hphase with ⟨hphase, habandoned⟩ | ⟨since, hphase⟩
  · simp only [Kept, State.take, extend_phase, extend_abandoned, hphase]
    exact .inr habandoned
  · have hkept := h.kept
    rw [Kept, hphase] at hkept
    obtain ⟨other, hother, hsince, -⟩ := hkept
    simp only [Kept, State.take, extend_phase, hphase, extend_stream, extend_now,
      extend_delivered]
    refine ⟨stream, hstream, hsince, ?_⟩
    rw [lastGrant_append, if_pos rfl, Nat.max_eq_right (lastGrant_le hsince h.past), ← hdeadline,
      hphase]

theorem Sound.step {a : Action} (h : Sound budget s) (hstep : step budget s a = some s') :
    Sound budget s' := by
  have hkept := h.kept
  cases a with
  | tick elapsed =>
      cases hstep
      exact h.tick elapsed
  | call =>
      rw [Deadline.step, Option.ite_none_right_eq_some] at hstep
      obtain ⟨⟨-, hstream⟩, hstep⟩ := hstep
      cases hstep
      exact h.begin (.inl ⟨hstream, .inl rfl⟩)
  | load =>
      rw [Deadline.step, Option.ite_none_right_eq_some] at hstep
      obtain ⟨⟨-, hstream⟩, hstep⟩ := hstep
      cases hstep
      exact h.begin (.inl ⟨hstream, .inr rfl⟩)
  | openStream =>
      rw [Deadline.step, Option.ite_none_right_eq_some] at hstep
      obtain ⟨⟨hphase, hstream⟩, hstep⟩ := hstep
      cases hstep
      refine ⟨⟨fun stream hopen => ?_, h.past, h.unarmed⟩, ?_⟩
      · rw [List.getElem?_append] at hopen
        split at hopen
        · have := h.channel stream hopen
          rw [hstream] at this
          cases this
        · obtain ⟨hlt, -⟩ := List.getElem?_eq_some_iff.mp hopen
          rw [List.length_singleton] at hlt
          refine congrArg some ?_
          omega
      · rw [Kept, hphase] at hkept ⊢
        exact hkept
  | callStream =>
      rw [Deadline.step, Option.ite_none_right_eq_some] at hstep
      obtain ⟨⟨-, hstream⟩, hstep⟩ := hstep
      cases hstep
      exact h.begin (.inr ⟨hstream, rfl⟩)
  | fail armed =>
      rw [Deadline.step, Option.ite_none_right_eq_some] at hstep
      obtain ⟨hphase, hstep⟩ := hstep
      cases armed with
      | false =>
          cases hstep
          exact h
      | true =>
          cases hstep
          have hsteady : Steady budget { s with abandoned := true } :=
            ⟨h.channel, h.past, h.unarmed⟩
          refine ⟨hsteady.extended, ?_⟩
          exact kept_idle (extend_phase.trans hphase) (.inr extend_abandoned)
  | finish =>
      rw [Deadline.step, Option.ite_none_right_eq_some] at hstep
      cases hstep.2
      exact h.lift
  | timeout =>
      rw [Deadline.step, Option.ite_none_right_eq_some] at hstep
      cases hstep.2
      exact h.lift
  | drop =>
      rw [Deadline.step] at hstep
      split at hstep
      · cases hstep
        exact ⟨⟨h.channel, h.past, h.unarmed⟩, .inr rfl⟩
      · cases hstep
  | write stream =>
      rw [Deadline.step] at hstep
      split at hstep
      · rename_i since hphase
        split at hstep
        · -- A call finds the channels of all streams closed.
          rename_i hopen
          rw [Kept, hphase] at hkept
          have hstream := h.channel stream hopen
          rw [hkept.1] at hstream
          cases hstream
        · cases hstep
          exact h
        · cases hstep
      · rename_i since hphase
        split at hstep
        · rename_i hopen
          cases hstep
          exact h.take (h.channel stream hopen) (.inr ⟨since, hphase⟩)
        · cases hstep
          exact h
        · cases hstep
      · cases hstep
  | emit =>
      rw [Deadline.step] at hstep
      split at hstep
      · rename_i stream hphase hstream
        rw [Option.ite_none_right_eq_some] at hstep
        obtain ⟨-, hstep⟩ := hstep
        cases hstep
        have habandoned : Sound budget { s with abandoned := true } :=
          ⟨⟨h.channel, h.past, h.unarmed⟩, kept_idle hphase (.inr rfl)⟩
        exact habandoned.take hstream (.inl ⟨hphase, rfl⟩)
      · cases hstep
  | disconnect stream =>
      rw [Deadline.step, Option.ite_none_right_eq_some] at hstep
      obtain ⟨-, hstep⟩ := hstep
      cases hstep
      exact ⟨⟨fun other hopen => h.channel other (open_of_set hopen), h.past, h.unarmed⟩, hkept⟩
  | closeStream =>
      rw [Deadline.step] at hstep
      split at hstep
      · rename_i stream hphase hstream
        cases hstep
        refine ⟨⟨fun other hopen => ?_, h.past, h.unarmed⟩, ?_⟩
        · have hsome := h.channel other (open_of_set hopen)
          rw [hstream] at hsome
          cases hsome
          exact absurd hopen (not_open_set_self _ _)
        · rw [Kept, hphase] at hkept ⊢
          exact hkept
      · cases hstep

theorem sound_run {acts : List Action} (h : runFrom (step budget) start acts = some s) :
    Sound budget s :=
  runFrom_keeps (fun _ _ _ hs hstep => hs.step hstep) sound_start h

/-! ## Running over -/

theorem over_iff {instant : ℕ} (hdeadline : s.deadline = granted budget instant)
    (hinstant : instant ≤ s.now) (hfit : s.now + budget.getD 0 < never) :
    s.over = true ↔ ∃ budget', budget = some budget' ∧ instant + budget' < s.now := by
  have hword : s.now % 18446744073709551616 = s.now :=
    Nat.mod_eq_of_lt (by simp only [never] at hfit; omega)
  rw [State.over, decide_eq_true_eq, hdeadline, hword]
  cases budget with
  | none =>
      simp only [granted, never, Option.getD_none] at hfit ⊢
      simp
      omega
  | some budget =>
      have hgrant : (instant + budget) % 18446744073709551616 = instant + budget :=
        Nat.mod_eq_of_lt (by simp only [never, Option.getD_some] at hfit; omega)
      simp [granted, hgrant]

/-- However calls, loads and streams follow one another, fail, run out of time or are dropped, and
whatever writers a script kept: Lua in a call or a load is over its budget exactly if the budget
has passed since that call or load began; in a call of a stream, exactly if it has passed since
the call began and since the stream last took a chunk; at rest nothing is over but a deadline that
was left armed, and only the stream at work takes chunks. -/
theorem deadline_kept {acts : List Action} (hrun : runFrom (step budget) start acts = some s)
    (hfit : s.now + budget.getD 0 < never) :
    (∀ since, s.phase = .calling since ∨ s.phase = .loading since →
        (s.over = true ↔ ∃ budget', budget = some budget' ∧ since + budget' < s.now)) ∧
      (∀ since, s.phase = .streaming since → ∃ stream, s.stream = some stream ∧
        (s.over = true ↔ ∃ budget', budget = some budget' ∧
          lastGrant s.delivered stream since + budget' < s.now)) ∧
      (s.phase = .idle → s.over = true → s.abandoned = true) ∧
      ∀ stream, s.channels[stream]? = some true → s.stream = some stream := by
  have hsound := sound_run hrun
  have hkept := hsound.kept
  refine ⟨fun since hphase => ?_, fun since hphase => ?_, fun hphase hover => ?_, hsound.channel⟩
  · rcases hphase with hphase | hphase <;> rw [Kept, hphase] at hkept <;>
      exact over_iff hkept.2.2 hkept.2.1 hfit
  · rw [Kept, hphase] at hkept
    obtain ⟨stream, hstream, hsince, hdeadline⟩ := hkept
    exact ⟨stream, hstream, over_iff hdeadline (lastGrant_le hsince hsound.past) hfit⟩
  · rw [Kept, hphase] at hkept
    refine hkept.resolve_left fun hnever => ?_
    rw [State.over, decide_eq_true_eq, hnever] at hover
    have := Nat.mod_lt s.now (by decide : 18446744073709551616 > 0)
    simp only [never] at hover
    omega

/-- A script keeps the writer of its first stream and writes to it in a later call: it is over its
budget of 5 after 6. -/
theorem deadline_kept_stale : ∃ s : State,
    runFrom (step (some 5)) start
        [.openStream, .callStream, .tick 3, .write 0, .finish, .closeStream, .call, .tick 4,
          .write 0, .tick 2] = some s ∧
      (s.over = true ↔ ∃ budget', some 5 = some budget' ∧ 3 + budget' < s.now) := by
  refine ⟨_, rfl, ?_⟩
  exact (deadline_kept (by rfl : runFrom (step (some 5)) start
    [.openStream, .callStream, .tick 3, .write 0, .finish, .closeStream, .call, .tick 4,
      .write 0, .tick 2] = some _) (by decide)).1 3 (.inl rfl)

end Nitr.Runtime.Deadline
