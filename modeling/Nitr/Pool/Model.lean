import Mathlib.Data.List.Perm.Basic
import Mathlib.Data.List.Nodup

/-! # The runtime pool

`RuntimePool` and `RuntimeGuard` of `runtime/pool.rs`: a fixed number of Lua states behind
a bounded channel, checked out by requests, given back on drop and rebuilt when a request
left one unfit. Every poll of a checkout, every drop and every end of a rebuild is one
step, and any caller may take the next one. -/

namespace Nitr.Pool

/-- A Lua state. Two states never share an `id`. -/
structure Runtime where
  id : ℕ
  poisoned : Bool
deriving DecidableEq, Repr

/-- The bounded channel of idle states, first in first out. -/
structure Channel where
  capacity : ℕ
  queue : List Runtime
deriving DecidableEq, Repr

/-- `try_send`; `none` when the channel is full. -/
def Channel.trySend (channel : Channel) (rt : Runtime) : Option Channel :=
  if channel.queue.length < channel.capacity then
    some { channel with queue := channel.queue ++ [rt] }
  else none

/-- `try_recv`; `none` when the channel is empty. -/
def Channel.tryRecv (channel : Channel) : Option (Runtime × Channel) :=
  match channel.queue with
  | [] => none
  | rt :: rest => some (rt, { channel with queue := rest })

/-- What can be observed of a pool, in the order it happens. -/
inductive Event where
  | sent (rt : Runtime)
  | full (rt : Runtime)
  | handed (rt : Runtime)
  | marked (id : ℕ)
  | dropped (id : ℕ)
deriving DecidableEq, Repr

/-- A call waiting for a state, and whether a timer bounds the wait. -/
structure Waiter where
  call : ℕ
  timed : Bool
deriving DecidableEq, Repr

/-- A pool with everything that holds one of its slots: the states in the channel, the
guards, and the running rebuilds. `lost` counts the slots nothing holds any more. -/
structure RuntimePool where
  channel : Channel
  rebuild : Bool
  waiting : List Waiter
  guards : List (ℕ × Runtime)
  tasks : List ℕ
  lost : ℕ
  /-- Larger than every identity given so far. -/
  next : ℕ
  trace : List Event
deriving DecidableEq, Repr

namespace RuntimePool

/-- `let _ = tx.try_send(rt)`: a state that finds no room is dropped, and its slot with it. -/
def send (s : RuntimePool) (rt : Runtime) : RuntimePool :=
  match s.channel.trySend rt with
  | some channel => { s with channel := channel, trace := s.trace ++ [.sent rt] }
  | none => { s with lost := s.lost + 1, trace := s.trace ++ [.full rt] }

/-- `RuntimePool::build` from states of which only the poison flags matter. -/
def build (flags : List Bool) (rebuild : Bool) : RuntimePool :=
  (flags.zipIdx.map fun flag => (⟨flag.2, flag.1⟩ : Runtime)).foldl send
    { channel := ⟨Nat.max flags.length 1, []⟩
      rebuild := rebuild
      waiting := []
      guards := []
      tasks := []
      lost := 0
      next := flags.length
      trace := [] }

/-- A receive that finds a state, with the guard made for it. -/
def take (s : RuntimePool) : Option RuntimePool :=
  match s.channel.tryRecv with
  | none => none
  | some (rt, channel) => some
      { s with
        channel := channel
        guards := s.guards ++ [(s.next, rt)]
        next := s.next + 1
        trace := s.trace ++ [.handed rt] }

def isWaiting (s : RuntimePool) (call : ℕ) : Bool := s.waiting.any (·.call == call)

def leave (s : RuntimePool) (call : ℕ) : RuntimePool :=
  { s with waiting := s.waiting.filter (·.call != call) }

/-- The first poll of a receive. -/
def receive (s : RuntimePool) (call : ℕ) (timed : Bool) : RuntimePool :=
  match s.take with
  | some s' => s'
  | none => { s with waiting := s.waiting ++ [⟨call, timed⟩] }

/-- `Drop for RuntimeGuard`. -/
def dropGuard (s : RuntimePool) (guard : ℕ) (rt : Runtime) (panicking : Bool) : RuntimePool :=
  let s := { s with guards := s.guards.erase (guard, rt) }
  if !rt.poisoned && !panicking then s.send rt
  else if !s.rebuild then s.send rt
  else
    { s with
      tasks := s.tasks ++ [s.next]
      next := s.next + 1
      trace := s.trace ++ [.dropped rt.id] }

end RuntimePool

/-- How a rebuild ends; a fresh state comes with its flag. -/
inductive Outcome where
  | ok (poisoned : Bool)
  | error
  | panicked
deriving DecidableEq, Repr

inductive Action where
  | get (call : ℕ)
  | getTimeout (call wait : ℕ)
  /-- A waiting call is polled again. -/
  | resume (call : ℕ)
  /-- The timer of a waiting call fires. -/
  | expire (call : ℕ)
  /-- The future of a waiting call is dropped. -/
  | cancel (call : ℕ)
  | poison (guard : ℕ)
  | dropGuard (guard : ℕ) (panicking : Bool)
  | rebuilt (task : ℕ) (outcome : Outcome)
deriving DecidableEq, Repr

/-- One step; `none` when it cannot be taken. -/
def step (s : RuntimePool) : Action → Option RuntimePool
  | .get call => if s.isWaiting call then none else some (s.receive call false)
  | .getTimeout call wait =>
      if s.isWaiting call then none
      else if wait = 0 then some (s.receive call false)
      else some (s.receive call true)
  | .resume call =>
      if s.isWaiting call then
        match s.take with
        | some s' => some (s'.leave call)
        | none => some s
      else none
  | .expire call =>
      -- `timeout` polls the receive before it gives up.
      if s.waiting.any (fun w => w.call == call && w.timed) then
        match s.take with
        | some s' => some (s'.leave call)
        | none => some (s.leave call)
      else none
  | .cancel call => if s.isWaiting call then some (s.leave call) else none
  | .poison guard =>
      (s.guards.lookup guard).map fun rt =>
        { s with
          guards := s.guards.map fun g =>
            if g.1 = guard then (g.1, { g.2 with poisoned := true }) else g
          trace := s.trace ++ [.marked rt.id] }
  | .dropGuard guard panicking =>
      (s.guards.lookup guard).map fun rt => s.dropGuard guard rt panicking
  | .rebuilt task outcome =>
      if task ∈ s.tasks then
        let s := { s with tasks := s.tasks.erase task }
        match outcome with
        | .ok poisoned => some (RuntimePool.send { s with next := s.next + 1 } ⟨s.next, poisoned⟩)
        | .error => some { s with lost := s.lost + 1 }
        | .panicked => some { s with lost := s.lost + 1 }
      else none

/-- The pool after a sequence of steps, in any order they can be taken. -/
def run (s : RuntimePool) : List Action → Option RuntimePool
  | [] => some s
  | a :: actions => (step s a).bind fun s' => run s' actions

end Nitr.Pool
