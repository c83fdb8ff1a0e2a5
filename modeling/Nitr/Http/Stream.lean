import Nitr.Lib.Actions

/-! # Streaming bodies

`stream_response`: a task drives the Lua body function and sends its chunks through a small
bounded channel to the client, which reads them when it likes and may go away. What the client
reads is measured against what the function writes when it is run on its own. -/

open Actions

namespace Nitr.Http.Stream

abbrev Chunk := List UInt8

/-- What a call of the body function returns. -/
inductive Ret where
  | str (chunk : Chunk)
  /-- A number, which reads as a string where one is asked for. -/
  | num (text : Chunk)
  | nil
  | other
  | error
deriving DecidableEq

/-- One call of the body function: it writes, goes on by whether the write went through, and
returns. -/
inductive Lua where
  | write (chunk : Chunk) (go : Bool → Lua)
  | ret (r : Ret)

/-- The chunk a call hands to the task. The first call decides by a string; later ones are read
as an optional string. -/
def yielded (call : ℕ) : Ret → Option Chunk
  | .str chunk => some chunk
  | .num text => if call = 0 then none else some text
  | _ => none

/-! ## The body function on its own -/

/-- What a call writes while every write goes through, and what it returns. -/
def Lua.writes : Lua → List Chunk × Ret
  | .write chunk go => (chunk :: (go true).writes.1, (go true).writes.2)
  | .ret r => ([], r)

/-- What a call wrote, and what follows it where it yielded. -/
def followed (written : List Chunk) (after : List Chunk × Bool) : Option Chunk → List Chunk × Bool
  | some chunk => (written ++ chunk :: after.1, after.2)
  | none => (written, true)

/-- The chunks of the calls from one on, of so many at most, and whether they end. -/
def output (calls : ℕ → Lua) : ℕ → ℕ → List Chunk × Bool
  | 0, _ => ([], false)
  | n + 1, call =>
    followed (calls call).writes.1 (output calls n (call + 1)) (yielded call (calls call).writes.2)

/-! ## The task and the client -/

/-- How many chunks may sit between the two. -/
def CHANNEL_CAPACITY : ℕ := 2

/-- Where the producer task is. -/
inductive Phase where
  /-- The function runs. -/
  | running (lua : Lua)
  /-- Suspended in `writer:write`. -/
  | writing (chunk : Chunk) (go : Bool → Lua)
  /-- Suspended in the send of a yielded chunk. -/
  | emitting (chunk : Chunk)
  /-- The chunk went through, and the function is to be called again. -/
  | calling
  | closing
  /-- The channel is closed, the state and the permit are given back. -/
  | closed

structure State where
  phase : Phase
  /-- The number of calls of the function before this one. -/
  call : ℕ
  queue : List Chunk
  /-- Whether the receiver is alive. -/
  connected : Bool
  /-- The chunks whose send succeeded. -/
  sent : List Chunk
  delivered : List Chunk
  /-- Whether the client saw the end of the body. -/
  ended : Bool

def start (calls : ℕ → Lua) : State := ⟨.running (calls 0), 0, [], true, [], [], false⟩

inductive Action where
  /-- The function runs up to its next suspension or its return. -/
  | lua
  /-- The suspended send goes on. -/
  | send
  /-- The next call of the function. -/
  | call
  | close
  | poll
  | disconnect
deriving DecidableEq

/-- A chunk in the channel, which has room. -/
def State.push (s : State) (chunk : Chunk) (phase : Phase) : State :=
  { s with phase, queue := s.queue ++ [chunk], sent := s.sent ++ [chunk] }

def step (calls : ℕ → Lua) (s : State) : Action → Option State
  | .lua =>
    match s.phase with
    | .running (.write chunk go) => some { s with phase := .writing chunk go }
    | .running (.ret r) =>
      match yielded s.call r with
      | some chunk => some { s with phase := .emitting chunk }
      | none => some { s with phase := .closing }
    | _ => none
  | .send =>
    match s.phase with
    | .writing chunk go =>
      if s.connected = false then some { s with phase := .running (go false) }
      else if s.queue.length < CHANNEL_CAPACITY then
        some (s.push chunk (.running (go true)))
      else none
    | .emitting chunk =>
      if s.connected = false then some { s with phase := .closing }
      else if s.queue.length < CHANNEL_CAPACITY then
        some (s.push chunk .calling)
      else none
    | _ => none
  | .call =>
    match s.phase with
    | .calling => some { s with phase := .running (calls (s.call + 1)), call := s.call + 1 }
    | _ => none
  | .close =>
    match s.phase with
    | .closing => some { s with phase := .closed }
    | _ => none
  | .poll =>
    if s.connected = true ∧ s.ended = false then
      match s.queue, s.phase with
      | chunk :: queue, _ => some { s with queue, delivered := s.delivered ++ [chunk] }
      | [], .closed => some { s with ended := true }
      | [], _ => none
    else none
  | .disconnect =>
    if s.connected = true then some { s with connected := false, queue := [] } else none

/-! ## What one step does -/

/-- One step of the system. -/
inductive Moves (calls : ℕ → Lua) (s : State) : State → Prop where
  | suspend (chunk : Chunk) (go : Bool → Lua) (hphase : s.phase = .running (.write chunk go)) :
      Moves calls s { s with phase := .writing chunk go }
  | yield (r : Ret) (chunk : Chunk) (hphase : s.phase = .running (.ret r))
      (hyield : yielded s.call r = some chunk) : Moves calls s { s with phase := .emitting chunk }
  | finish (r : Ret) (hphase : s.phase = .running (.ret r)) (hyield : yielded s.call r = none) :
      Moves calls s { s with phase := .closing }
  | write (chunk : Chunk) (go : Bool → Lua) (hphase : s.phase = .writing chunk go)
      (hconnected : s.connected = true) (hroom : s.queue.length < CHANNEL_CAPACITY) :
      Moves calls s (s.push chunk (.running (go true)))
  | refuse (chunk : Chunk) (go : Bool → Lua) (hphase : s.phase = .writing chunk go)
      (hgone : s.connected = false) : Moves calls s { s with phase := .running (go false) }
  | emit (chunk : Chunk) (hphase : s.phase = .emitting chunk) (hconnected : s.connected = true)
      (hroom : s.queue.length < CHANNEL_CAPACITY) : Moves calls s (s.push chunk .calling)
  | call (hphase : s.phase = .calling) :
      Moves calls s { s with phase := .running (calls (s.call + 1)), call := s.call + 1 }
  | stop (chunk : Chunk) (hphase : s.phase = .emitting chunk) (hgone : s.connected = false) :
      Moves calls s { s with phase := .closing }
  | close (hphase : s.phase = .closing) : Moves calls s { s with phase := .closed }
  | poll (chunk : Chunk) (queue : List Chunk) (hconnected : s.connected = true)
      (hended : s.ended = false) (hqueue : s.queue = chunk :: queue) :
      Moves calls s { s with queue, delivered := s.delivered ++ [chunk] }
  | fin (hconnected : s.connected = true) (hqueue : s.queue = []) (hphase : s.phase = .closed) :
      Moves calls s { s with ended := true }
  | disconnect (hconnected : s.connected = true) :
      Moves calls s { s with connected := false, queue := [] }

variable {calls : ℕ → Lua} {s s' : State}

theorem step_moves {a : Action} (h : step calls s a = some s') : Moves calls s s' := by
  cases a with
  | lua =>
      rw [step] at h
      split at h
      · cases h
        exact .suspend _ _ ‹_›
      · split at h
        · cases h
          exact .yield _ _ ‹_› ‹_›
        · cases h
          exact .finish _ ‹_› ‹_›
      · cases h
  | send =>
      rw [step] at h
      split at h
      · split at h
        · cases h
          exact .refuse _ _ ‹_› ‹_›
        · rw [Option.ite_none_right_eq_some] at h
          obtain ⟨hroom, h⟩ := h
          cases h
          exact .write _ _ ‹_› (Bool.not_eq_false _ ▸ ‹_›) hroom
      · split at h
        · cases h
          exact .stop _ ‹_› ‹_›
        · rw [Option.ite_none_right_eq_some] at h
          obtain ⟨hroom, h⟩ := h
          cases h
          exact .emit _ ‹_› (Bool.not_eq_false _ ▸ ‹_›) hroom
      · cases h
  | call =>
      rw [step] at h
      split at h
      · cases h
        exact .call ‹_›
      · cases h
  | close =>
      rw [step] at h
      split at h
      · cases h
        exact .close ‹_›
      · cases h
  | poll =>
      rw [step, Option.ite_none_right_eq_some] at h
      obtain ⟨⟨hconnected, hended⟩, h⟩ := h
      split at h
      · cases h
        exact .poll _ _ hconnected hended ‹_›
      · cases h
        exact .fin hconnected ‹_› ‹_›
      · cases h
  | disconnect =>
      rw [step, Option.ite_none_right_eq_some] at h
      obtain ⟨hconnected, h⟩ := h
      cases h
      exact .disconnect hconnected

/-! ## What the client reads -/

/-- What is still to come of the body when a call is that far, while every write goes
through. -/
def Lua.rest (calls : ℕ → Lua) (n call : ℕ) (lua : Lua) : List Chunk × Bool :=
  followed lua.writes.1 (output calls n (call + 1)) (yielded call lua.writes.2)

def Phase.rest (calls : ℕ → Lua) (n call : ℕ) : Phase → List Chunk × Bool
  | .running lua => lua.rest calls n call
  | .writing chunk go => (chunk :: ((go true).rest calls n call).1, ((go true).rest calls n call).2)
  | .emitting chunk => (chunk :: (output calls n (call + 1)).1, (output calls n (call + 1)).2)
  | .calling => output calls n (call + 1)
  | .closing => ([], true)
  | .closed => ([], true)

theorem output_succ (n call : ℕ) : output calls (n + 1) call = (calls call).rest calls n call := rfl

theorem rest_write (n call : ℕ) (chunk : Chunk) (go : Bool → Lua) :
    (Lua.write chunk go).rest calls n call =
      (chunk :: ((go true).rest calls n call).1, ((go true).rest calls n call).2) := by
  unfold Lua.rest
  rw [Lua.writes]
  cases yielded call (go true).writes.2 with
  | none => rfl
  | some chunk' => rfl

/-- What holds in every state. -/
structure Sound (calls : ℕ → Lua) (s : State) : Prop where
  room : s.queue.length ≤ CHANNEL_CAPACITY
  order : s.connected = true → s.sent = s.delivered ++ s.queue
  reads : s.delivered <+: s.sent
  /-- While the client is there, the chunks sent and those to come are those of the function on
  its own. -/
  whole : s.connected = true → ∀ n, output calls (s.call + 1 + n) 0 =
    (s.sent ++ (s.phase.rest calls n s.call).1, (s.phase.rest calls n s.call).2)
  sent : ∃ n, s.sent <+: (output calls n 0).1
  ended : s.ended = true → ∃ calls', ∀ n, output calls (calls' + n) 0 = (s.delivered, true)
  closed : s.ended = true → s.phase = .closed

theorem Sound.start (calls : ℕ → Lua) : Sound calls (start calls) := by
  refine ⟨Nat.zero_le _, fun _ => rfl, List.prefix_refl _, fun _ n => ?_, ⟨0, List.nil_prefix⟩,
    by simp [Stream.start], by simp [Stream.start]⟩
  show output calls (0 + 1 + n) 0 = _
  rw [Nat.zero_add, Nat.add_comm, output_succ]
  rfl

/-- A step of the task that sends nothing and leaves what is to come. -/
theorem Sound.go_on (h : Sound calls s) {phase : Phase} (hopen : s.phase ≠ .closed)
    (hrest : s.connected = true → ∀ n, phase.rest calls n s.call = s.phase.rest calls n s.call) :
    Sound calls { s with phase } := by
  refine ⟨h.room, h.order, h.reads, fun hconnected n => ?_, h.sent, h.ended,
    fun hended => absurd (h.closed hended) hopen⟩
  rw [hrest hconnected n]
  exact h.whole hconnected n

/-- A chunk that is sent is the next to come. -/
theorem Sound.push (h : Sound calls s) {chunk : Chunk} {phase : Phase}
    (hopen : s.phase ≠ .closed) (hconnected : s.connected = true)
    (hroom : s.queue.length < CHANNEL_CAPACITY)
    (hwhole : ∀ n, output calls (s.call + 1 + n) 0 =
      (s.sent ++ chunk :: (phase.rest calls n s.call).1, (phase.rest calls n s.call).2)) :
    Sound calls (s.push chunk phase) := by
  refine ⟨?_, fun _ => ?_, h.reads.trans (List.prefix_append _ _), fun _ n => ?_,
    ⟨s.call + 1, ?_⟩, h.ended, fun hended => absurd (h.closed hended) hopen⟩
  · show (s.queue ++ [chunk]).length ≤ CHANNEL_CAPACITY
    rw [List.length_append]
    exact hroom
  · show s.sent ++ [chunk] = s.delivered ++ (s.queue ++ [chunk])
    rw [h.order hconnected, List.append_assoc]
  · show output calls (s.call + 1 + n) 0 = (s.sent ++ [chunk] ++ _, _)
    rw [hwhole n, List.append_assoc]
    rfl
  · show s.sent ++ [chunk] <+: _
    rw [← Nat.add_zero (s.call + 1), hwhole 0]
    exact ⟨(phase.rest calls 0 s.call).1, by rw [List.append_assoc]; rfl⟩

theorem Sound.moves (h : Sound calls s) (hmove : Moves calls s s') : Sound calls s' := by
  cases hmove with
  | suspend chunk go hphase =>
      refine h.go_on (by simp [hphase]) fun _ n => ?_
      rw [hphase]
      exact (rest_write n s.call chunk go).symm
  | yield r chunk hphase hyield =>
      refine h.go_on (by simp [hphase]) fun _ n => ?_
      rw [hphase, Phase.rest, Phase.rest, Lua.rest, Lua.writes, hyield]
      rfl
  | finish r hphase hyield =>
      refine h.go_on (by simp [hphase]) fun _ n => ?_
      rw [hphase, Phase.rest, Phase.rest, Lua.rest, Lua.writes, hyield]
      rfl
  | write chunk go hphase hconnected hroom =>
      refine h.push (by simp [hphase]) hconnected hroom fun n => ?_
      rw [h.whole hconnected n, hphase]
      rfl
  | refuse chunk go hphase hgone =>
      refine h.go_on (by simp [hphase]) fun hconnected => ?_
      rw [hgone] at hconnected
      cases hconnected
  | emit chunk hphase hconnected hroom =>
      refine h.push (by simp [hphase]) hconnected hroom fun n => ?_
      rw [h.whole hconnected n, hphase]
      rfl
  | call hphase =>
      refine ⟨h.room, h.order, h.reads, fun hconnected n => ?_, h.sent, h.ended, fun hended => ?_⟩
      · have hwhole := h.whole hconnected (n + 1)
        rw [hphase] at hwhole
        show output calls (s.call + 1 + 1 + n) 0 = _
        rw [Nat.add_right_comm, Nat.add_assoc]
        exact hwhole
      · rw [h.closed hended] at hphase
        cases hphase
  | stop chunk hphase hgone =>
      refine h.go_on (by simp [hphase]) fun hconnected => ?_
      rw [hgone] at hconnected
      cases hconnected
  | close hphase =>
      refine h.go_on (by simp [hphase]) fun _ n => ?_
      rw [hphase]
      rfl
  | poll chunk queue hconnected hended hqueue =>
      have horder := h.order hconnected
      rw [hqueue] at horder
      have hroom := h.room
      rw [hqueue] at hroom
      refine ⟨Nat.le_of_succ_le hroom, fun _ => ?_, ?_, h.whole, h.sent, fun h => ?_, h.closed⟩
      · show s.sent = s.delivered ++ [chunk] ++ queue
        rw [horder, List.append_assoc]
        rfl
      · show s.delivered ++ [chunk] <+: s.sent
        exact ⟨queue, by rw [horder, List.append_assoc]; rfl⟩
      · rw [hended] at h
        cases h
  | fin hconnected hqueue hphase =>
      refine ⟨h.room, h.order, h.reads, h.whole, h.sent, fun _ => ⟨s.call + 1, fun n => ?_⟩,
        fun _ => hphase⟩
      rw [h.whole hconnected n, hphase, h.order hconnected, hqueue]
      simp [Phase.rest]
  | disconnect hconnected =>
      exact ⟨Nat.zero_le _, by simp, h.reads, by simp, h.sent, h.ended, h.closed⟩

/-- The calls that are about to begin. -/
def Phase.due : Phase → ℕ
  | .calling => 1
  | _ => 0

/-- Once the client is gone no call begins that was not about to, and it reads nothing more. -/
def Gone (s s' : State) : Prop :=
  s.connected = false → s'.connected = false ∧
    s'.call + s'.phase.due = s.call + s.phase.due ∧ s'.delivered = s.delivered

theorem Moves.gone (h : Moves calls s s') : Gone s s' := by
  intro hgone
  cases h with
  | write chunk go hphase hconnected hroom => simp [hgone] at hconnected
  | emit chunk hphase hconnected hroom => simp [hgone] at hconnected
  | poll chunk queue hconnected hended hqueue => simp [hgone] at hconnected
  | disconnect hconnected => simp [hgone] at hconnected
  | fin hconnected hqueue hphase => simp [hgone] at hconnected
  | suspend chunk go hphase => exact ⟨hgone, by rw [hphase]; rfl, rfl⟩
  | yield r chunk hphase hyield => exact ⟨hgone, by rw [hphase]; rfl, rfl⟩
  | finish r hphase hyield => exact ⟨hgone, by rw [hphase]; rfl, rfl⟩
  | refuse chunk go hphase hgone => exact ⟨hgone, by rw [hphase]; rfl, rfl⟩
  | stop chunk hphase hgone => exact ⟨hgone, by rw [hphase]; rfl, rfl⟩
  | call hphase => exact ⟨hgone, by rw [hphase]; rfl, rfl⟩
  | close hphase => exact ⟨hgone, by rw [hphase]; rfl, rfl⟩

/-- The task or the client can always go on, until the body has ended or both are gone. -/
theorem exists_step (hsound : Sound calls s)
    (h : s.phase ≠ .closed ∨ s.connected = true ∧ s.ended = false) :
    ∃ a, a ≠ .disconnect ∧ (step calls s a).isSome := by
  have hsend : (s.connected = false ∨ s.queue.length < CHANNEL_CAPACITY →
      (step calls s .send).isSome) → s.phase ≠ .closed →
      ∃ a, a ≠ .disconnect ∧ (step calls s a).isSome := by
    intro hsend hopen
    by_cases hready : s.connected = false ∨ s.queue.length < CHANNEL_CAPACITY
    · exact ⟨.send, by simp, hsend hready⟩
    · -- The channel is full, and the client is there to read from it.
      rw [not_or, Bool.not_eq_false] at hready
      have hended : s.ended = false := Bool.eq_false_iff.mpr fun h => hopen (hsound.closed h)
      cases hqueue : s.queue with
      | nil => simp [hqueue, CHANNEL_CAPACITY] at hready
      | cons chunk queue => exact ⟨.poll, by simp, by simp [step, hready.1, hended, hqueue]⟩
  cases hphase : s.phase with
  | running lua =>
      refine ⟨.lua, by simp, ?_⟩
      cases lua with
      | write chunk go => simp [step, hphase]
      | ret r => cases hyield : yielded s.call r <;> simp [step, hphase, hyield]
  | writing chunk go =>
      refine hsend (fun hready => ?_) (by simp [hphase])
      cases hconnected : s.connected <;> simp_all [step]
  | emitting chunk =>
      refine hsend (fun hready => ?_) (by simp [hphase])
      cases hconnected : s.connected <;> simp_all [step]
  | calling => exact ⟨.call, by simp, by simp [step, hphase]⟩
  | closing => exact ⟨.close, by simp, by simp [step, hphase]⟩
  | closed =>
      obtain hopen | ⟨hconnected, hended⟩ := h
      · exact absurd hphase hopen
      · refine ⟨.poll, by simp, ?_⟩
        cases hqueue : s.queue <;> simp [step, hconnected, hended, hqueue, hphase]

/-- However the task and the client take turns: at most two chunks are under way; what the client
has read is, in order and without a gap, a beginning of what the function writes on its own, and
all of it once the body has ended; one of the two can always go on; and once the client is gone
the function is not called again, but for a call that was due because a chunk had gone through. -/
theorem stream_delivers {acts : List Action}
    (h : runFrom (step calls) (start calls) acts = some s) :
    s.queue.length ≤ CHANNEL_CAPACITY ∧ (s.connected = true → s.sent = s.delivered ++ s.queue) ∧
      (∃ n, s.delivered <+: (output calls n 0).1) ∧
      (s.ended = true → ∃ calls', ∀ n, output calls (calls' + n) 0 = (s.delivered, true)) ∧
      (s.phase ≠ .closed ∨ s.connected = true ∧ s.ended = false →
        ∃ a, a ≠ .disconnect ∧ (step calls s a).isSome) ∧
      (s.connected = false → ∀ later s', runFrom (step calls) s later = some s' →
        s'.call ≤ s.call + s.phase.due ∧ s'.delivered = s.delivered) := by
  have hsound : Sound calls s :=
    runFrom_keeps (fun _ _ _ hinv hstep => hinv.moves (step_moves hstep)) (.start calls) h
  obtain ⟨n, hsent⟩ := hsound.sent
  refine ⟨hsound.room, hsound.order, ⟨n, hsound.reads.trans hsent⟩, hsound.ended,
    exists_step hsound, fun hgone later s' hlater => ?_⟩
  have hrel : Gone s s' := by
    refine runFrom_related (fun _ => True) Gone (fun _ h => ⟨h, rfl, rfl⟩) ?_
      (fun _ _ _ _ hstep => ⟨trivial, (step_moves hstep).gone⟩) trivial hlater
    intro a b c hab hbc ha
    obtain ⟨hb, hcall, hdelivered⟩ := hab ha
    obtain ⟨hc, hcall', hdelivered'⟩ := hbc hb
    exact ⟨hc, hcall'.trans hcall, hdelivered'.trans hdelivered⟩
  obtain ⟨-, hcall, hdelivered⟩ := hrel hgone
  exact ⟨hcall ▸ Nat.le_add_right _ _, hdelivered⟩

/-- An iterator of two chunks. -/
def twoChunks : ℕ → Lua
  | 0 => .ret (.str [1])
  | 1 => .ret (.num [2])
  | _ => .ret .nil

theorem stream_delivers_two :
    ∃ calls', ∀ n, output twoChunks (calls' + n) 0 = ([[1], [2]], true) := by
  have hrun : runFrom (step twoChunks) (start twoChunks)
      [.lua, .send, .call, .lua, .send, .poll, .call, .lua, .poll, .close, .poll] =
        some ⟨.closed, 2, [], true, [[1], [2]], [[1], [2]], true⟩ := rfl
  exact (stream_delivers hrun).2.2.2.1 rfl

end Nitr.Http.Stream
