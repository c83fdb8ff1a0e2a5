import Mathlib.Data.List.AList
import Mathlib.Data.Prod.Lex
import Nitr.Lib.OrdMap

/-! # The shared cache

The storage behind the lock of `cache.rs`, its locked sections, and the calls
that reach them. A call draws its tick from the shared counter first and takes
the lock later, so the two are separate steps of the model. -/

namespace Nitr.Cache

/-- Nanoseconds on the monotonic clock. -/
abbrev Instant := ℕ

structure CacheOptions where
  maxEntries : ℕ := 10000
  maxBytes : ℕ := 32 * 1024 * 1024
  /-- Seconds an entry lives when `set` does not say; `0` means no expiry. -/
  defaultTtl : ℕ := 300

structure Entry where
  value : List UInt8
  expiresAt : Option Instant
  touched : ℕ
  inserted : ℕ
deriving DecidableEq

def maxKeyBytes : ℕ := 1024

def maxTtlSecs : ℕ := 10 * 365 * 24 * 60 * 60

def nanosPerSec : ℕ := 1000000000

/-- What one entry costs against the byte bound: key and value both. -/
def Entry.cost (key : String) (value : List UInt8) : ℕ := key.utf8ByteSize + value.length

def Entry.isLive (e : Entry) (now : Instant) : Bool :=
  match e.expiresAt with
  | none => true
  | some at_ => decide (now < at_)

/-! ## The storage behind the lock -/

structure Inner where
  entries : AList (fun _ : String => Entry)
  lru : OrdMap ℕ String
  expiry : OrdMap (ℕ ×ₗ ℕ) String
  bytes : ℕ
  hits : ℕ
  misses : ℕ
  evictions : ℕ

def Inner.default : Inner := ⟨∅, .empty, .empty, 0, 0, 0, 0⟩

/-- `entries.len()`. -/
def Inner.len (inner : Inner) : ℕ := inner.entries.entries.length

/-- Removes an entry from the map and both indexes. Natural subtraction is the
saturating debit of the byte counter. -/
def Inner.remove (inner : Inner) (key : String) : Inner × Option Entry :=
  match inner.entries.lookup key with
  | none => (inner, none)
  | some entry =>
      ({ inner with
          entries := inner.entries.erase key
          lru := inner.lru.erase entry.touched
          expiry := match entry.expiresAt with
            | some at_ => inner.expiry.erase (toLex (at_, entry.inserted))
            | none => inner.expiry
          bytes := inner.bytes - Entry.cost key entry.value }, some entry)

/-- The locked section of `get_raw`, with the instant and the tick read before it. -/
def Inner.get (inner : Inner) (key : String) (now : Instant) (touched : ℕ) :
    Inner × Option (List UInt8) :=
  match inner.entries.lookup key with
  | some entry =>
      if entry.isLive now then
        ({ inner with
            entries := inner.entries.insert key { entry with touched := touched }
            lru := match inner.lru.get entry.touched with
              | some shared => (inner.lru.erase entry.touched).insert touched shared
              | none => inner.lru
            hits := inner.hits + 1 }, some entry.value)
      else
        -- an expired entry is dropped on the way past
        ({ (inner.remove key).1 with misses := inner.misses + 1 }, none)
  | none => ({ inner with misses := inner.misses + 1 }, none)

/-- The locked section of `set_raw` up to its call of `evict`. -/
def Inner.put (inner : Inner) (key : String) (value : List UInt8)
    (expiresAt : Option Instant) (touched : ℕ) : Inner :=
  let removed := (inner.remove key).1
  { removed with
    bytes := removed.bytes + Entry.cost key value
    lru := removed.lru.insert touched key
    expiry := match expiresAt with
      | some at_ => removed.expiry.insert (toLex (at_, touched)) key
      | none => removed.expiry
    entries := removed.entries.insert key ⟨value, expiresAt, touched, touched⟩ }

/-- The condition of the eviction loop. -/
def Inner.overBounds (opts : CacheOptions) (inner : Inner) : Bool :=
  decide (opts.maxEntries < inner.len) || decide (opts.maxBytes < inner.bytes)

/-- The soonest expired key, if some entry is expired at `now`. -/
def Inner.expired (inner : Inner) (now : Instant) : Option String :=
  (inner.expiry.first.filter (fun e => decide ((ofLex e.1).1 ≤ now))).map Prod.snd

/-- One pass through the body of the eviction loop; `none` is its `break`. -/
def Inner.evictBody (inner : Inner) (now : Instant) : Option Inner :=
  match inner.expired now with
  | some key => some (inner.remove key).1
  | none =>
      match inner.lru.first with
      | none => none
      | some (_, victim) =>
          some { (inner.remove victim).1 with evictions := inner.evictions + 1 }

/-- At most `n` passes of the eviction loop. -/
def Inner.evictLoop (opts : CacheOptions) (now : Instant) : ℕ → Inner → Inner
  | 0, inner => inner
  | n + 1, inner =>
      if inner.overBounds opts then
        match inner.evictBody now with
        | some next => Inner.evictLoop opts now n next
        | none => inner
      else inner

/-- Every pass removes one entry, so as many passes as there are entries are enough. -/
def Inner.evict (opts : CacheOptions) (now : Instant) (inner : Inner) : Inner :=
  Inner.evictLoop opts now inner.len inner

/-- `Cache::clear`; the counters stay. -/
def Inner.clear (inner : Inner) : Inner :=
  { inner with entries := ∅, lru := .empty, expiry := .empty, bytes := 0 }

/-! ## What runs before the lock -/

inductive SetError where
  | keyTooLong (len : ℕ)
  | valueTooLarge (key : String) (size maxBytes : ℕ)
deriving DecidableEq

def SetError.message : SetError → String
  | .keyTooLong len =>
      s!"cache key is {len} bytes; keys are bounded to {maxKeyBytes} (hash a long key first)"
  | .valueTooLarge key size maxBytes =>
      s!"cache value for `{key}` is {size} bytes, larger than the whole {maxBytes} byte cache"

/-- `Instant::checked_add`: `none` past the last instant the platform represents. -/
def checkedAdd (horizon : Instant) (now : Instant) (nanos : ℕ) : Option Instant :=
  if now + nanos ≤ horizon then some (now + nanos) else none

def expiresAt (opts : CacheOptions) (horizon : Instant) (ttl : Option ℕ) (now : Instant) :
    Option Instant :=
  let secs := ttl.getD opts.defaultTtl
  if 0 < secs then checkedAdd horizon now (min secs maxTtlSecs * nanosPerSec) else none

/-- The refusals of `set_raw`, made before the tick is drawn. -/
def checkSet (opts : CacheOptions) (key : String) (value : List UInt8) : Except SetError Unit :=
  if maxKeyBytes < key.utf8ByteSize then .error (.keyTooLong key.utf8ByteSize)
  else if opts.maxBytes < Entry.cost key value then
    .error (.valueTooLarge key (Entry.cost key value) opts.maxBytes)
  else .ok ()

/-! ## Calls that run one after another -/

end Nitr.Cache

/-- The shared cache; its options stay a parameter of each operation. -/
structure Nitr.Cache where
  inner : Nitr.Cache.Inner
  clock : ℕ

namespace Nitr.Cache

def new : Cache := ⟨.default, 0⟩

def getRaw (c : Cache) (key : String) (now : Instant) : Cache × Option (List UInt8) :=
  let (inner, found) := c.inner.get key now c.clock
  (⟨inner, c.clock + 1⟩, found)

def setRaw (opts : CacheOptions) (horizon : Instant) (c : Cache) (key : String)
    (value : List UInt8) (ttl : Option ℕ) (now evictNow : Instant) : Except SetError Cache :=
  match checkSet opts key value with
  | .error err => .error err
  | .ok _ =>
      .ok ⟨(c.inner.put key value (expiresAt opts horizon ttl now) c.clock).evict opts evictNow,
        c.clock + 1⟩

/-- `set` reads the clock twice: for the expiry, and again inside `evict`. -/
inductive Op where
  | get (key : String) (now : Instant)
  | set (key : String) (value : List UInt8) (ttl : Option ℕ) (now evictNow : Instant)
  | delete (key : String)
  | clear
deriving DecidableEq

def Op.instants : Op → List Instant
  | .get _ now => [now]
  | .set _ _ _ now evictNow => [now, evictNow]
  | .delete _ => []
  | .clear => []

/-- One operation, with what a `get` returned. A refused `set` raises and changes nothing. -/
def exec (opts : CacheOptions) (horizon : Instant) (c : Cache) :
    Op → Cache × Option (Option (List UInt8))
  | .get key now => ((c.getRaw key now).1, some (c.getRaw key now).2)
  | .set key value ttl now evictNow =>
      match c.setRaw opts horizon key value ttl now evictNow with
      | .ok c' => (c', none)
      | .error _ => (c, none)
  | .delete key => (⟨(c.inner.remove key).1, c.clock⟩, none)
  | .clear => (⟨c.inner.clear, c.clock⟩, none)

def execAll (opts : CacheOptions) (horizon : Instant) (c : Cache) :
    List Op → Cache × List (Option (List UInt8))
  | [] => (c, [])
  | op :: ops =>
      let (next, result) := c.exec opts horizon op
      let (last, results) := execAll opts horizon next ops
      (last, result.toList ++ results)

/-! ## Calls from any number of states -/

/-- Where a call that has not returned yet stands. -/
inductive Phase where
  /-- A `get`, or the first half of a `remember` with its `ttl`, before the lock. -/
  | getLock (key : String) (now : Instant) (tick : ℕ) (remember : Option (Option ℕ))
  /-- A `set`, or the second half of a `remember`, before the lock. -/
  | setLock (key : String) (value : List UInt8) (expiresAt : Option Instant) (tick : ℕ)
  /-- A `remember` that missed, while its function runs. -/
  | compute (key : String) (ttl : Option ℕ)
deriving DecidableEq

structure Sys where
  clock : ℕ
  inner : Inner
  calls : List Phase

inductive Event where
  | get (key : String) (now : Instant)
  /-- `none` is a `nil` value, which removes the key. -/
  | set (key : String) (value : Option (List UInt8)) (ttl : Option ℕ) (now : Instant)
  | delete (key : String)
  | clear
  | remember (key : String) (ttl : Option ℕ) (now : Instant)
  /-- The `i`-th unfinished call takes the lock; `evict` reads its own instant. -/
  | lock (i : ℕ) (now : Instant)
  /-- The function of the `i`-th call returns; `none` is `nil` or a raised error. -/
  | computed (i : ℕ) (value : Option (List UInt8)) (now : Instant)
deriving DecidableEq

def Sys.init : Sys := ⟨0, .default, []⟩

section Step

variable (opts : CacheOptions) (horizon : Instant)

/-- `set_raw` up to the lock. -/
def Sys.startSet (s : Sys) (key : String) (value : List UInt8) (ttl : Option ℕ)
    (now : Instant) : Sys :=
  match checkSet opts key value with
  | .error _ => s
  | .ok _ =>
      { s with
        clock := s.clock + 1
        calls := s.calls ++ [.setLock key value (expiresAt opts horizon ttl now) s.clock] }

/-- The locked section of the call that stood at `phase`, the call itself already
taken out of `s.calls`. -/
def Sys.locked (s : Sys) (phase : Phase) (now : Instant) : Sys :=
  match phase with
  | .getLock key seen tick remember =>
      let (inner, found) := s.inner.get key seen tick
      match found, remember with
      | none, some ttl => { s with inner := inner, calls := s.calls ++ [.compute key ttl] }
      | _, _ => { s with inner := inner }
  | .setLock key value at_ tick =>
      { s with inner := (s.inner.put key value at_ tick).evict opts now }
  | .compute _ _ => s

/-- One step; an event that names no call in the right phase changes nothing. -/
def Sys.step (s : Sys) : Event → Sys
  | .get key now =>
      { s with clock := s.clock + 1, calls := s.calls ++ [.getLock key now s.clock none] }
  | .set key none _ _ => { s with inner := (s.inner.remove key).1 }
  | .set key (some value) ttl now => s.startSet opts horizon key value ttl now
  | .delete key => { s with inner := (s.inner.remove key).1 }
  | .clear => { s with inner := s.inner.clear }
  | .remember key ttl now =>
      { s with clock := s.clock + 1, calls := s.calls ++ [.getLock key now s.clock (some ttl)] }
  | .lock i now =>
      match s.calls[i]? with
      | some (.compute _ _) => s
      | some phase => Sys.locked opts { s with calls := s.calls.eraseIdx i } phase now
      | none => s
  | .computed i value now =>
      match s.calls[i]? with
      | some (.compute key ttl) =>
          match value with
          | some bytes =>
              Sys.startSet opts horizon { s with calls := s.calls.eraseIdx i } key bytes ttl now
          | none => { s with calls := s.calls.eraseIdx i }
      | _ => s

def Sys.run (events : List Event) : Sys := events.foldl (Sys.step opts horizon) Sys.init

end Step

end Nitr.Cache
