import Nitr.Lib.Actions

/-! # Accepting and draining

`serve_with_shutdown`: the accept loop under its connection cap, the readiness delay after the
shutdown signal, and the drain of what is in flight, beside connection tasks that go their own
way. Times are in milliseconds. -/

open Actions

namespace Nitr.Http.Drain

/-- `[limits] max_connections`, `max_streams`, `[tls] enabled`, `[shutdown]` and the readiness
delay. -/
structure Config where
  maxConnections : ℕ
  maxStreams : ℕ
  tls : Bool
  readinessDelay : ℕ
  grace : ℕ
  streamGrace : ℕ

/-- `total_grace`. -/
def Config.totalGrace (cfg : Config) : ℕ := cfg.grace + cfg.streamGrace

def ACCEPT_ERROR_BACKOFF : ℕ := 50

/-! ## Connection tasks -/

inductive Stage where
  | handshaking
  /-- No request was read yet. -/
  | fresh
  /-- Between two requests. -/
  | idle
  | busy
  /-- The body of the answer is a stream. -/
  | streaming
deriving DecidableEq

structure Conn where
  stage : Stage
  /-- Whether it saw the shutdown: it closes after the request it has. -/
  told : Bool
deriving DecidableEq

def Conn.inFlight (c : Conn) : Bool := c.stage = .busy || c.stage = .streaming

inductive ConnAction where
  | handshake (ok : Bool)
  /-- The shutdown reaches the connection. -/
  | notice
  | begin
  | answer
  /-- The handler answers with a stream, which takes a stream permit. -/
  | stream
  | finish
  /-- The peer is gone, or a timeout closes the connection. -/
  | hangUp
deriving DecidableEq

/-- What a step makes of a connection, none where it closes, and what it counts. -/
structure Outcome where
  conn : Option Conn
  begun : ℕ
  answered : ℕ
  broken : ℕ
  streams : ℕ

/-- After an answer, the connection is kept if it was not told. -/
def Conn.kept (c : Conn) : Option Conn := if c.told then none else some { c with stage := .idle }

def Conn.step (c : Conn) : ConnAction → Option Outcome
  | .handshake ok =>
    if c.stage = .handshaking then
      some ⟨if ok then some { c with stage := .fresh } else none, 0, 0, 0, 0⟩
    else none
  | .notice =>
    if c.stage = .handshaking ∨ c.told then none
    else some ⟨if c.stage = .idle then none else some { c with told := true }, 0, 0, 0, 0⟩
  | .begin =>
    if c.stage = .fresh ∨ c.stage = .idle then
      some ⟨some { c with stage := .busy }, 1, 0, 0, 0⟩
    else none
  | .answer => if c.stage = .busy then some ⟨c.kept, 0, 1, 0, 0⟩ else none
  | .stream =>
    if c.stage = .busy then some ⟨some { c with stage := .streaming }, 0, 0, 0, 1⟩ else none
  | .finish => if c.stage = .streaming then some ⟨c.kept, 0, 1, 0, 0⟩ else none
  | .hangUp => some ⟨none, 0, 0, if c.inFlight then 1 else 0, 0⟩

/-! ## The server -/

inductive Phase where
  /-- In `select!`: whether the accept future has a connection slot, and when the readiness delay
  is over, once it began. -/
  | selecting (slot : Bool) (draining : Option ℕ)
  /-- In `accept_error_backoff`. -/
  | pausing (wake : ℕ) (draining : Option ℕ)
  /-- The listener is dropped; `drain_deadline` sleeps for the grace. -/
  | waiting
  /-- Streaming bodies were live when the grace was over. -/
  | extended (deadline : ℕ)
  /-- Whether everything closed in time. -/
  | returned (drained : Bool)
deriving DecidableEq

structure State where
  now : ℕ
  phase : Phase
  /-- The free slots of `conn_slots`. -/
  slots : ℕ
  conns : List Conn
  /-- The stream permits taken. A producer may outlive its connection for a moment. -/
  streams : ℕ
  ready : Bool
  /-- When the shutdown signal was seen. -/
  signalled : Option ℕ
  /-- When the listener was dropped. -/
  closed : Option ℕ
  /-- The streams that were live when the grace was over. -/
  live : Option ℕ
  accepted : ℕ
  begun : ℕ
  answered : ℕ
  broken : ℕ
deriving DecidableEq

def boot (cfg : Config) : State where
  now := 0
  phase := .selecting false none
  slots := max cfg.maxConnections 1
  conns := []
  streams := 0
  ready := true
  signalled := none
  closed := none
  live := none
  accepted := 0
  begun := 0
  answered := 0
  broken := 0

inductive Action where
  | tick
  | acquire
  | accept
  /-- `accept` fails: because of the client, or not. -/
  | acceptError (transient : Bool)
  | resume
  | reload
  | shutdown
  | delayOver
  | graceOver
  | totalOver
  /-- `graceful.shutdown()` resolves. -/
  | drained
  | conn (i : ℕ) (action : ConnAction)
  /-- A producer gives its stream permit back. -/
  | streamEnd
deriving DecidableEq

def freshConn (cfg : Config) : Conn := ⟨if cfg.tls then .handshaking else .fresh, false⟩

/-- The listener is dropped, and the slot of the accept future with it. -/
def State.close (s : State) (slot : Bool) : State :=
  { s with phase := .waiting, slots := s.slots + slot.toNat, closed := some s.now }

/-- A step of a connection task, which holds a slot until it ends. -/
def State.settle (s : State) (before after : List Conn) (o : Outcome) : State :=
  { s with
    conns := before ++ o.conn.toList ++ after
    slots := s.slots + o.conn.isNone.toNat
    streams := s.streams + o.streams
    begun := s.begun + o.begun
    answered := s.answered + o.answered
    broken := s.broken + o.broken }

def State.connStep (cfg : Config) (s : State) (i : ℕ) (a : ConnAction) : Option State :=
  if a = .notice ∧ s.closed = none ∨ a = .stream ∧ cfg.maxStreams ≤ s.streams then none
  else
    s.conns[i]?.bind fun c => (c.step a).map fun o =>
      s.settle (s.conns.take i) (s.conns.drop (i + 1)) o

def step (cfg : Config) (s : State) (a : Action) : Option State :=
  match a, s.phase with
  | _, .returned _ => none
  | .tick, _ => some { s with now := s.now + 1 }
  | .acquire, .selecting false draining =>
    if 0 < s.slots then some { s with phase := .selecting true draining, slots := s.slots - 1 }
    else none
  | .accept, .selecting true draining =>
    some { s with
      phase := .selecting false draining
      conns := s.conns ++ [freshConn cfg]
      accepted := s.accepted + 1 }
  | .acceptError true, .selecting true draining =>
    some { s with phase := .selecting false draining, slots := s.slots + 1 }
  | .acceptError false, .selecting true draining =>
    some { s with phase := .pausing (s.now + ACCEPT_ERROR_BACKOFF) draining }
  | .resume, .pausing wake draining =>
    if wake ≤ s.now then some { s with phase := .selecting false draining, slots := s.slots + 1 }
    else none
  -- Another branch drops the accept future, and its slot with it.
  | .reload, .selecting slot draining =>
    some { s with phase := .selecting false draining, slots := s.slots + slot.toNat }
  | .shutdown, .selecting slot none =>
    if cfg.readinessDelay = 0 then
      some ({ s with ready := false, signalled := some s.now }.close slot)
    else
      some { s with
        phase := .selecting false (some (s.now + cfg.readinessDelay))
        slots := s.slots + slot.toNat
        ready := false
        signalled := some s.now }
  | .delayOver, .selecting slot (some wake) =>
    if wake ≤ s.now then some (s.close slot) else none
  | .graceOver, .waiting =>
    match s.closed with
    | some closed =>
      if closed + cfg.grace ≤ s.now then
        some { s with
          phase := if 0 < s.streams then .extended (s.now + (cfg.totalGrace - cfg.grace))
            else .returned false
          live := some s.streams }
      else none
    | none => none
  | .totalOver, .extended deadline =>
    if deadline ≤ s.now then some { s with phase := .returned false } else none
  | .drained, .waiting => if s.conns = [] then some { s with phase := .returned true } else none
  | .drained, .extended _ => if s.conns = [] then some { s with phase := .returned true } else none
  | .conn i a, _ => s.connStep cfg i a
  | .streamEnd, _ => if 0 < s.streams then some { s with streams := s.streams - 1 } else none
  | _, _ => none

variable {cfg : Config} {s s' : State}

/-! ## What one step does -/

def Phase.isReturned : Phase → Bool
  | .returned _ => true
  | _ => false

/-- One step of the server or of a connection. -/
inductive Moves (cfg : Config) (s : State) : Action → State → Prop where
  | tick (hopen : s.phase.isReturned = false) : Moves cfg s .tick { s with now := s.now + 1 }
  | acquire (draining : Option ℕ) (hphase : s.phase = .selecting false draining)
      (hslots : 0 < s.slots) :
      Moves cfg s .acquire { s with phase := .selecting true draining, slots := s.slots - 1 }
  | accept (draining : Option ℕ) (hphase : s.phase = .selecting true draining) :
      Moves cfg s .accept
        { s with
          phase := .selecting false draining
          conns := s.conns ++ [freshConn cfg]
          accepted := s.accepted + 1 }
  | retry (draining : Option ℕ) (hphase : s.phase = .selecting true draining) :
      Moves cfg s (.acceptError true)
        { s with phase := .selecting false draining, slots := s.slots + 1 }
  | pause (draining : Option ℕ) (hphase : s.phase = .selecting true draining) :
      Moves cfg s (.acceptError false)
        { s with phase := .pausing (s.now + ACCEPT_ERROR_BACKOFF) draining }
  | resume (wake : ℕ) (draining : Option ℕ) (hphase : s.phase = .pausing wake draining) :
      Moves cfg s .resume { s with phase := .selecting false draining, slots := s.slots + 1 }
  | reload (slot : Bool) (draining : Option ℕ) (hphase : s.phase = .selecting slot draining) :
      Moves cfg s .reload
        { s with phase := .selecting false draining, slots := s.slots + slot.toNat }
  | stop (slot : Bool) (hphase : s.phase = .selecting slot none) (hdelay : cfg.readinessDelay = 0) :
      Moves cfg s .shutdown ({ s with ready := false, signalled := some s.now }.close slot)
  | delay (slot : Bool) (hphase : s.phase = .selecting slot none) :
      Moves cfg s .shutdown
        { s with
          phase := .selecting false (some (s.now + cfg.readinessDelay))
          slots := s.slots + slot.toNat
          ready := false
          signalled := some s.now }
  | delayOver (slot : Bool) (wake : ℕ) (hphase : s.phase = .selecting slot (some wake))
      (hover : wake ≤ s.now) : Moves cfg s .delayOver (s.close slot)
  | cut (closed : ℕ) (hphase : s.phase = .waiting) (hclosed : s.closed = some closed)
      (hover : closed + cfg.grace ≤ s.now) (hlive : s.streams = 0) :
      Moves cfg s .graceOver { s with phase := .returned false, live := some s.streams }
  | extend (closed : ℕ) (hphase : s.phase = .waiting) (hclosed : s.closed = some closed)
      (hover : closed + cfg.grace ≤ s.now) (hlive : 0 < s.streams) :
      Moves cfg s .graceOver
        { s with
          phase := .extended (s.now + (cfg.totalGrace - cfg.grace))
          live := some s.streams }
  | totalOver (deadline : ℕ) (hphase : s.phase = .extended deadline) (hover : deadline ≤ s.now) :
      Moves cfg s .totalOver { s with phase := .returned false }
  | drained (hphase : s.phase = .waiting ∨ ∃ deadline, s.phase = .extended deadline)
      (hconns : s.conns = []) : Moves cfg s .drained { s with phase := .returned true }
  | conn (i : ℕ) (a : ConnAction) (before after : List Conn) (c : Conn) (o : Outcome)
      (hopen : s.phase.isReturned = false) (hconns : s.conns = before ++ c :: after)
      (hstep : c.step a = some o) (hstream : a = .stream → s.streams < cfg.maxStreams) :
      Moves cfg s (.conn i a) (s.settle before after o)
  | streamEnd (hopen : s.phase.isReturned = false) :
      Moves cfg s .streamEnd { s with streams := s.streams - 1 }

theorem connStep_moves {i : ℕ} {a : ConnAction} (hopen : s.phase.isReturned = false)
    (h : s.connStep cfg i a = some s') : Moves cfg s (.conn i a) s' := by
  unfold State.connStep at h
  rw [Option.ite_none_left_eq_some, Option.bind_eq_some_iff] at h
  obtain ⟨hcan, c, hc, h⟩ := h
  rw [Option.map_eq_some_iff] at h
  obtain ⟨o, hstep, rfl⟩ := h
  obtain ⟨hi, rfl⟩ := List.getElem?_eq_some_iff.mp hc
  refine .conn i a _ _ _ o hopen ?_ hstep fun ha => ?_
  · rw [List.getElem_cons_drop, List.take_append_drop]
  · exact Nat.lt_of_not_le fun hle => hcan (.inr ⟨ha, hle⟩)

theorem step_moves {a : Action} (h : step cfg s a = some s') : Moves cfg s a s' := by
  have hopen : s.phase.isReturned = false := by
    cases hphase : s.phase with
    | returned drained => simp [step, hphase] at h
    | _ => rfl
  unfold step at h
  split at h
  case h_1 => cases h
  case h_2 =>
      cases h
      exact .tick hopen
  case h_3 hphase =>
      rw [Option.ite_none_right_eq_some] at h
      obtain ⟨hslots, h⟩ := h
      cases h
      exact .acquire _ hphase hslots
  case h_4 hphase =>
      cases h
      exact .accept _ hphase
  case h_5 hphase =>
      cases h
      exact .retry _ hphase
  case h_6 hphase =>
      cases h
      exact .pause _ hphase
  case h_7 hphase =>
      rw [Option.ite_none_right_eq_some] at h
      obtain ⟨hwake, h⟩ := h
      cases h
      exact .resume _ _ hphase
  case h_8 hphase =>
      cases h
      exact .reload _ _ hphase
  case h_9 hphase =>
      split at h
      · cases h
        exact .stop _ hphase ‹_›
      · cases h
        exact .delay _ hphase
  case h_10 hphase =>
      rw [Option.ite_none_right_eq_some] at h
      obtain ⟨hover, h⟩ := h
      cases h
      exact .delayOver _ _ hphase hover
  case h_11 hphase =>
      split at h
      · rw [Option.ite_none_right_eq_some] at h
        obtain ⟨hover, h⟩ := h
        cases h
        split
        · exact .extend _ hphase ‹_› hover ‹_›
        · exact .cut _ hphase ‹_› hover (Nat.eq_zero_of_not_pos ‹_›)
      · cases h
  case h_12 hphase =>
      rw [Option.ite_none_right_eq_some] at h
      obtain ⟨hover, h⟩ := h
      cases h
      exact .totalOver _ hphase hover
  case h_13 hphase =>
      rw [Option.ite_none_right_eq_some] at h
      obtain ⟨hconns, h⟩ := h
      cases h
      exact .drained (.inl hphase) hconns
  case h_14 hphase =>
      rw [Option.ite_none_right_eq_some] at h
      obtain ⟨hconns, h⟩ := h
      cases h
      exact .drained (.inr ⟨_, hphase⟩) hconns
  case h_15 => exact connStep_moves hopen h
  case h_16 =>
      rw [Option.ite_none_right_eq_some] at h
      obtain ⟨-, h⟩ := h
      cases h
      exact .streamEnd hopen
  case h_17 => cases h

/-! ## What holds throughout -/

/-- The slots that the server task itself has. -/
def Phase.held : Phase → ℕ
  | .selecting slot _ => slot.toNat
  | .pausing _ _ => 1
  | _ => 0

/-- A request that begins, is answered or broken off is counted as such; a connection that ends
gives its slot back. -/
theorem Conn.step_counts {c : Conn} {a : ConnAction} {o : Outcome} (h : c.step a = some o) :
    c.inFlight.toNat + o.begun = o.conn.toList.countP Conn.inFlight + o.answered + o.broken ∧
      o.conn.toList.length + o.conn.isNone.toNat = 1 ∧ (a ≠ .stream → o.streams = 0) ∧
      o.streams ≤ 1 := by
  obtain ⟨stage, told⟩ := c
  cases a with
  | handshake ok =>
      rw [Conn.step, Option.ite_none_right_eq_some] at h
      obtain ⟨rfl, h⟩ := h
      cases h
      cases ok <;> simp [Conn.inFlight]
  | notice =>
      rw [Conn.step, Option.ite_none_left_eq_some] at h
      obtain ⟨-, h⟩ := h
      cases h
      cases stage <;> simp [Conn.inFlight]
  | begin =>
      rw [Conn.step, Option.ite_none_right_eq_some] at h
      obtain ⟨hstage, h⟩ := h
      cases h
      obtain rfl | rfl := hstage <;> simp [Conn.inFlight]
  | answer =>
      rw [Conn.step, Option.ite_none_right_eq_some] at h
      obtain ⟨rfl, h⟩ := h
      cases h
      cases told <;> simp [Conn.inFlight, Conn.kept]
  | stream =>
      rw [Conn.step, Option.ite_none_right_eq_some] at h
      obtain ⟨rfl, h⟩ := h
      cases h
      simp [Conn.inFlight]
  | finish =>
      rw [Conn.step, Option.ite_none_right_eq_some] at h
      obtain ⟨rfl, h⟩ := h
      cases h
      cases told <;> simp [Conn.inFlight, Conn.kept]
  | hangUp =>
      cases h
      cases stage <;> simp [Conn.inFlight]

/-- When the signal was seen and the listener dropped. -/
def Closed (cfg : Config) (s : State) : Prop :=
  ∃ signalled closed, s.signalled = some signalled ∧ s.closed = some closed ∧
    signalled + cfg.readinessDelay ≤ closed ∧ closed ≤ s.now

/-- What the phase says about the times. -/
def Timed (cfg : Config) (s : State) : Prop :=
  match s.phase with
  | .selecting _ draining | .pausing _ draining =>
    s.signalled.map (· + cfg.readinessDelay) = draining ∧ s.closed = none
  | .waiting | .extended _ => Closed cfg s
  | .returned drained => Closed cfg s ∧ (drained = true → s.conns = [])

/-- What the end of the grace has to do with the end. -/
def Graced (cfg : Config) (s : State) : Prop :=
  match s.phase with
  | .extended deadline => ∃ closed live, s.closed = some closed ∧ s.live = some live ∧ 0 < live ∧
      closed + cfg.totalGrace ≤ deadline
  | .returned drained => drained = false → ∃ closed live, s.closed = some closed ∧
      s.live = some live ∧ closed + (if 0 < live then cfg.totalGrace else cfg.grace) ≤ s.now
  | _ => True

structure Sound (cfg : Config) (s : State) : Prop where
  slots : s.slots + s.phase.held + s.conns.length = max cfg.maxConnections 1
  requests : s.begun = s.answered + s.broken + s.conns.countP Conn.inFlight
  streams : s.streams ≤ cfg.maxStreams
  ready : s.ready = true ↔ s.signalled = none
  timed : Timed cfg s
  graced : Graced cfg s

theorem Sound.boot (cfg : Config) : Sound cfg (boot cfg) :=
  ⟨rfl, rfl, Nat.zero_le _, by simp [Drain.boot], ⟨rfl, rfl⟩, trivial⟩

theorem Closed.later (h : Closed cfg s) (hsignalled : s'.signalled = s.signalled)
    (hclosed : s'.closed = s.closed) (hnow : s.now ≤ s'.now) : Closed cfg s' := by
  obtain ⟨signalled, closed, h⟩ := h
  rw [← hsignalled, ← hclosed] at h
  exact ⟨signalled, closed, h.1, h.2.1, h.2.2.1, Nat.le_trans h.2.2.2 hnow⟩

/-- Time passes, and connections come and go, in one phase of the server. -/
theorem Timed.later (h : Timed cfg s) (hopen : s.phase.isReturned = false)
    (hphase : s'.phase = s.phase) (hsignalled : s'.signalled = s.signalled)
    (hclosed : s'.closed = s.closed) (hnow : s.now ≤ s'.now) : Timed cfg s' := by
  unfold Timed at h ⊢
  rw [hphase, hsignalled, hclosed]
  cases hcase : s.phase with
  | selecting slot draining => simpa [hcase] using h
  | pausing wake draining => simpa [hcase] using h
  | waiting =>
      rw [hcase] at h
      exact Closed.later h hsignalled hclosed hnow
  | extended deadline =>
      rw [hcase] at h
      exact Closed.later h hsignalled hclosed hnow
  | returned drained => simp [hcase, Phase.isReturned] at hopen

theorem Graced.later (h : Graced cfg s) (hopen : s.phase.isReturned = false)
    (hphase : s'.phase = s.phase) (hclosed : s'.closed = s.closed) (hlive : s'.live = s.live) :
    Graced cfg s' := by
  unfold Graced at h ⊢
  rw [hphase, hclosed, hlive]
  cases hcase : s.phase with
  | extended deadline => simpa [hcase] using h
  | returned drained => simp [hcase, Phase.isReturned] at hopen
  | _ => trivial

theorem Sound.moves {a : Action} (h : Sound cfg s) (hmove : Moves cfg s a s') : Sound cfg s' := by
  obtain ⟨hslots, hrequests, hstreams, hready, htimed, hgraced⟩ := h
  cases hmove with
  | tick hopen =>
      exact ⟨hslots, hrequests, hstreams, hready,
        htimed.later hopen rfl rfl rfl (Nat.le_succ _), hgraced.later hopen rfl rfl rfl⟩
  | acquire draining hphase hpos =>
      simp only [Timed, hphase, Phase.held] at htimed hslots
      refine ⟨?_, hrequests, hstreams, hready, htimed, trivial⟩
      simp only [Phase.held, Bool.toNat_true, Bool.toNat_false] at hslots ⊢
      omega
  | accept draining hphase =>
      simp only [Timed, hphase, Phase.held] at htimed hslots
      refine ⟨?_, ?_, hstreams, hready, htimed, trivial⟩
      · simp only [Phase.held, Bool.toNat_true, Bool.toNat_false, List.length_append,
          List.length_singleton] at hslots ⊢
        omega
      · cases htls : cfg.tls <;> simpa [freshConn, htls, Conn.inFlight] using hrequests
  | retry draining hphase =>
      simp only [Timed, hphase, Phase.held] at htimed hslots
      refine ⟨?_, hrequests, hstreams, hready, htimed, trivial⟩
      simp only [Phase.held, Bool.toNat_true, Bool.toNat_false] at hslots ⊢
      omega
  | pause draining hphase =>
      simp only [Timed, hphase, Phase.held] at htimed hslots
      exact ⟨hslots, hrequests, hstreams, hready, htimed, trivial⟩
  | resume wake draining hphase =>
      simp only [Timed, hphase, Phase.held] at htimed hslots
      refine ⟨?_, hrequests, hstreams, hready, htimed, trivial⟩
      simp only [Phase.held, Bool.toNat_false]
      omega
  | reload slot draining hphase =>
      simp only [Timed, hphase, Phase.held] at htimed hslots
      refine ⟨?_, hrequests, hstreams, hready, htimed, trivial⟩
      simp only [Phase.held, Bool.toNat_false]
      omega
  | stop slot hphase hdelay =>
      simp only [Phase.held, hphase] at hslots
      refine ⟨?_, hrequests, hstreams, by simp [State.close], ?_, trivial⟩
      · simp only [State.close, Phase.held]
        omega
      · exact ⟨s.now, s.now, rfl, rfl, by rw [hdelay]; exact Nat.le_refl _, Nat.le_refl _⟩
  | delay slot hphase =>
      simp only [Timed, hphase, Phase.held] at htimed hslots
      refine ⟨?_, hrequests, hstreams, by simp, ⟨rfl, htimed.2⟩, trivial⟩
      simp only [Phase.held, Bool.toNat_false]
      omega
  | delayOver slot wake hphase hover =>
      simp only [Timed, hphase, Phase.held, Option.map_eq_some_iff] at htimed hslots
      obtain ⟨⟨signalled, hsignalled, rfl⟩, hclosed⟩ := htimed
      refine ⟨?_, hrequests, hstreams, hready, ?_, trivial⟩
      · simp only [State.close, Phase.held]
        omega
      · exact ⟨signalled, s.now, hsignalled, rfl, hover, Nat.le_refl _⟩
  | cut closed hphase hclosed hover hlive =>
      simp only [Timed, hphase, Phase.held] at htimed hslots
      refine ⟨hslots, hrequests, hstreams, hready, ⟨htimed, by simp⟩, fun _ => ⟨closed, s.streams, hclosed,
        rfl, ?_⟩⟩
      rw [hlive]
      exact hover
  | extend closed hphase hclosed hover hlive =>
      simp only [Timed, hphase, Phase.held] at htimed hslots
      refine ⟨hslots, hrequests, hstreams, hready, htimed, closed, s.streams, hclosed, rfl,
        hlive, ?_⟩
      unfold Config.totalGrace
      omega
  | totalOver deadline hphase hover =>
      simp only [Timed, Graced, hphase, Phase.held] at htimed hgraced hslots
      obtain ⟨closed, live, hclosed, hlive, hpos, hdeadline⟩ := hgraced
      refine ⟨hslots, hrequests, hstreams, hready, ⟨htimed, by simp⟩, fun _ => ⟨closed, live, hclosed,
        hlive, ?_⟩⟩
      rw [if_pos hpos]
      exact Nat.le_trans hdeadline hover
  | drained hphase hconns =>
      have hclosed : Closed cfg s := by
        obtain hphase | ⟨deadline, hphase⟩ := hphase <;> simpa [Timed, hphase] using htimed
      have hheld : s.phase.held = 0 := by
        obtain hphase | ⟨deadline, hphase⟩ := hphase <;> rw [hphase] <;> rfl
      rw [hheld] at hslots
      exact ⟨hslots, hrequests, hstreams, hready, ⟨hclosed, fun _ => hconns⟩, by simp [Graced]⟩
  | conn i a before after c o hopen hconns hstep hstream =>
      obtain ⟨hcounts, hlength, hnone, hone⟩ := Conn.step_counts hstep
      rw [hconns] at hslots hrequests
      refine ⟨?_, ?_, ?_, hready, htimed.later hopen rfl rfl rfl (Nat.le_refl _),
        hgraced.later hopen rfl rfl rfl⟩
      · simp only [State.settle, List.length_append, List.length_cons] at hslots ⊢
        omega
      · simp only [State.settle, List.countP_append, List.countP_cons] at hrequests ⊢
        cases hflight : c.inFlight <;> simp [hflight] at hrequests hcounts <;> omega
      · simp only [State.settle]
        by_cases ha : a = .stream
        · have := hstream ha
          omega
        · rw [hnone ha]
          exact hstreams
  | streamEnd hopen =>
      exact ⟨hslots, hrequests, Nat.le_trans (Nat.sub_le _ _) hstreams, hready,
        htimed.later hopen rfl rfl rfl (Nat.le_refl _), hgraced.later hopen rfl rfl rfl⟩

/-! ## After the listener is dropped -/

/-- Nothing is accepted any more. -/
def Settled (s s' : State) : Prop :=
  s.closed ≠ none → s'.closed = s.closed ∧ s'.accepted = s.accepted

theorem Sound.selecting {slot : Bool} {draining : Option ℕ} (h : Sound cfg s)
    (hphase : s.phase = .selecting slot draining) : s.closed = none := by
  have htimed := h.timed
  rw [Timed, hphase] at htimed
  exact htimed.2

theorem Moves.settled {a : Action} (hmove : Moves cfg s a s') (h : Sound cfg s) : Settled s s' := by
  intro hclosed
  cases hmove with
  | accept draining hphase => exact absurd (h.selecting hphase) hclosed
  | stop slot hphase hdelay => exact absurd (h.selecting hphase) hclosed
  | delayOver slot wake hphase hover => exact absurd (h.selecting hphase) hclosed
  | _ => exact ⟨rfl, rfl⟩

/-- Whether something that the drain waits for has come. -/
def State.due (cfg : Config) (s : State) : Bool :=
  match s.phase with
  | .waiting => s.conns = [] || s.closed.any (· + cfg.grace ≤ s.now)
  | .extended deadline => s.conns = [] || deadline ≤ s.now
  | _ => false

/-- The server task then goes on. -/
theorem exists_step_of_due (h : s.due cfg = true) :
    ∃ a ∈ [Action.graceOver, .totalOver, .drained], (step cfg s a).isSome := by
  unfold State.due at h
  split at h
  · rename_i hphase
    rw [Bool.or_eq_true] at h
    obtain h | h := h
    · exact ⟨.drained, by simp, by simpa [step, hphase] using h⟩
    · obtain ⟨closed, hclosed, hover⟩ := (Option.any_eq_true _ _).mp h
      exact ⟨.graceOver, by simp, by simpa [step, hphase, hclosed] using hover⟩
  · rename_i deadline hphase
    rw [Bool.or_eq_true] at h
    obtain h | h := h
    · exact ⟨.drained, by simp, by simpa [step, hphase] using h⟩
    · exact ⟨.totalOver, by simp, by simpa [step, hphase] using h⟩
  · cases h

/-- No time passes while the drain could go on. -/
def Prompt (cfg : Config) (s : State) (a : Action) : Prop := a = .tick → s.due cfg = false

/-- Of a drain whose task is polled promptly. -/
def InTime (cfg : Config) (s : State) : Prop :=
  ∀ closed, s.closed = some closed →
    match s.phase with
    | .waiting => s.now ≤ closed + cfg.grace
    | .extended deadline => s.now ≤ deadline ∧ deadline ≤ closed + cfg.totalGrace
    | _ => s.now ≤ closed + cfg.totalGrace

theorem InTime.now_le (h : InTime cfg s) {closed : ℕ} (hclosed : s.closed = some closed) :
    s.now ≤ closed + cfg.totalGrace := by
  have h := h closed hclosed
  split at h
  · unfold Config.totalGrace
    omega
  · exact Nat.le_trans h.1 h.2
  · exact h

theorem InTime.moves {a : Action} (h : InTime cfg s) (hsound : Sound cfg s)
    (hprompt : Prompt cfg s a) (hmove : Moves cfg s a s') : InTime cfg s' := by
  intro closed hclosed
  cases hmove with
  | tick hopen =>
      change s.closed = some closed at hclosed
      have hdue := hprompt rfl
      have h := h closed hclosed
      unfold State.due at hdue
      cases hphase : s.phase with
      | waiting =>
          simp only [hphase, hclosed, Option.any_some, Bool.or_eq_false_iff, decide_eq_false_iff_not,
            Nat.not_le] at hdue h ⊢
          exact hdue.2
      | extended deadline =>
          simp only [hphase, Bool.or_eq_false_iff, decide_eq_false_iff_not, Nat.not_le] at hdue h ⊢
          exact ⟨hdue.2, h.2⟩
      | selecting slot draining =>
          rw [hsound.selecting hphase] at hclosed
          cases hclosed
      | pausing wake draining =>
          have htimed := hsound.timed
          simp only [Timed, hphase] at htimed
          rw [htimed.2] at hclosed
          cases hclosed
      | returned drained => simp [hphase, Phase.isReturned] at hopen
  | stop slot hphase hdelay =>
      cases hclosed
      exact Nat.le_add_right _ _
  | delayOver slot wake hphase hover =>
      cases hclosed
      exact Nat.le_add_right _ _
  | extend closed' hphase hclosed' hover hlive =>
      have h := h closed hclosed
      simp only [hphase] at h
      refine ⟨Nat.le_add_right _ _, ?_⟩
      unfold Config.totalGrace
      omega
  | conn i a before after c o hopen hconns hstep hstream => exact h closed hclosed
  | streamEnd hopen => exact h closed hclosed
  | cut closed' hphase hclosed' hover hlive => exact h.now_le hclosed
  | totalOver deadline hphase hover => exact h.now_le hclosed
  | drained hphase hconns => exact h.now_le hclosed
  | _ => exact h.now_le hclosed

theorem sound_run {acts : List Action} (h : runFrom (step cfg) (boot cfg) acts = some s) :
    Sound cfg s :=
  runFrom_keeps (fun _ _ _ hinv hstep => hinv.moves (step_moves hstep)) (.boot cfg) h

/-- However accepts, failures, reloads, requests and the shutdown fall: every connection slot is
free, with the server or with a connection; every request that began was answered, was broken
off by its connection or is in flight; the listener is dropped only after readiness was withdrawn
for the delay, and nothing is accepted from then on; a clean return has left no connection, and
so no request; a return with an error has waited for the whole grace, and for the streaming grace
too if a stream was live when the first was over; what the drain waits for lets it go on, and if
it does so promptly it does not wait any longer. -/
theorem drain_orderly {acts : List Action} (h : runFrom (step cfg) (boot cfg) acts = some s) :
    s.slots + s.phase.held + s.conns.length = max cfg.maxConnections 1 ∧
      s.begun = s.answered + s.broken + s.conns.countP Conn.inFlight ∧
      (s.ready = true ↔ s.signalled = none) ∧
      (∀ drained, s.phase = .returned drained → s.closed ≠ none) ∧
      (s.due cfg = true → ∃ a ∈ [Action.graceOver, .totalOver, .drained], (step cfg s a).isSome) ∧
      ∀ closed, s.closed = some closed →
        (∃ signalled, s.signalled = some signalled ∧ signalled + cfg.readinessDelay ≤ closed) ∧
        (∀ later s', runFrom (step cfg) s later = some s' → s'.accepted = s.accepted) ∧
        (s.phase = .returned true → s.conns = []) ∧
        (s.phase = .returned false → ∃ live, s.live = some live ∧
          closed + (if 0 < live then cfg.totalGrace else cfg.grace) ≤ s.now) ∧
        (Along (step cfg) (Prompt cfg) (boot cfg) acts → s.now ≤ closed + cfg.totalGrace) := by
  have hsound := sound_run h
  refine ⟨hsound.slots, hsound.requests, hsound.ready, fun drained hphase => ?_,
    exists_step_of_due, fun closed hclosed => ⟨?_, fun later s' hlater => ?_, fun hphase => ?_, fun hphase => ?_,
      fun halong => ?_⟩⟩
  · have htimed := hsound.timed
    rw [Timed, hphase] at htimed
    obtain ⟨signalled, closed, -, hclosed, -⟩ := htimed.1
    simp [hclosed]
  · have hclosed' : Closed cfg s := by
      have htimed := hsound.timed
      unfold Timed at htimed
      split at htimed
      · simp [htimed.2] at hclosed
      · simp [htimed.2] at hclosed
      · exact htimed
      · exact htimed
      · exact htimed.1
    obtain ⟨signalled, closed', hsignalled, heq, hdelay, -⟩ := hclosed'
    rw [hclosed] at heq
    cases heq
    exact ⟨signalled, hsignalled, hdelay⟩
  · have hsettled : Settled s s' := by
      refine runFrom_related (Sound cfg) Settled (fun _ _ => ⟨rfl, rfl⟩) ?_ ?_ hsound hlater
      · intro a b c hab hbc ha
        obtain ⟨hclosed, haccepted⟩ := hab ha
        obtain ⟨hclosed', haccepted'⟩ := hbc (hclosed ▸ ha)
        exact ⟨hclosed'.trans hclosed, haccepted'.trans haccepted⟩
      · intro a act b hinv hstep
        have hmove := step_moves hstep
        exact ⟨hinv.moves hmove, hmove.settled hinv⟩
    exact (hsettled (by simp [hclosed])).2
  · have htimed := hsound.timed
    rw [Timed, hphase] at htimed
    exact htimed.2 rfl
  · have hgraced := hsound.graced
    rw [Graced, hphase] at hgraced
    obtain ⟨closed', live, hclosed', hlive, hover⟩ := hgraced rfl
    rw [hclosed] at hclosed'
    cases hclosed'
    exact ⟨live, hlive, hover⟩
  · have hkeeps : ∀ s a s', Sound cfg s ∧ InTime cfg s → Prompt cfg s a → step cfg s a = some s' →
        Sound cfg s' ∧ InTime cfg s' := by
      intro s a s' hinv hok hstep
      have hmove := step_moves hstep
      exact ⟨hinv.1.moves hmove, hinv.2.moves hinv.1 hok hmove⟩
    have hboot : InTime cfg (boot cfg) := by
      intro closed hclosed
      cases hclosed
    exact (runFrom_keeps_along hkeeps ⟨.boot cfg, hboot⟩ halong h).2.now_le hclosed

def streamConfig : Config where
  maxConnections := 1
  maxStreams := 1
  tls := false
  readinessDelay := 2
  grace := 3
  streamGrace := 1

/-- A stream that outlives both graces. -/
def streamCut : List Action :=
  [.acquire, .accept, .conn 0 .begin, .conn 0 .stream, .shutdown, .tick, .tick, .delayOver,
    .conn 0 .notice, .tick, .tick, .tick, .graceOver, .tick, .totalOver]

def cutState : State where
  now := 6
  phase := .returned false
  slots := 0
  conns := [⟨.streaming, true⟩]
  streams := 1
  ready := false
  signalled := some 0
  closed := some 2
  live := some 1
  accepted := 1
  begun := 1
  answered := 0
  broken := 0

theorem drain_orderly_cut :
    ∃ live, some 1 = some live ∧
      2 + (if 0 < live then streamConfig.totalGrace else streamConfig.grace) ≤ 6 := by
  have hrun : runFrom (step streamConfig) (boot streamConfig) streamCut = some cutState := by decide
  exact ((drain_orderly hrun).2.2.2.2.2 2 rfl).2.2.2.1 rfl

end Nitr.Http.Drain
