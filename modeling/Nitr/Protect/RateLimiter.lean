import Nitr.Lib.AListWeight

/-! # The rate limiter

`RateLimiter::check_with` of `protect.rs`: a fixed-window request counter per
client, with the stale buckets purged now and then. Instants and durations are
nanoseconds. -/

namespace Nitr.Protect

def nanosPerSec : ℕ := 1000000000

/-- Above this many tracked clients stale buckets are purged. -/
def bucketPurgeThreshold : ℕ := 10000

/-- Minimum spacing between two purges. -/
def bucketPurgeInterval : ℕ := nanosPerSec

/-- Hard cap on tracked clients. -/
def maxBuckets : ℕ := 200000

/-- A window's start and the checks counted in it. -/
structure Bucket where
  start : ℕ
  count : ℕ
deriving DecidableEq

/-- What a limiter is configured with; `max` is a 32-bit number. -/
structure RateLimiter where
  max : ℕ
  window : ℕ
  max_lt : max < 2 ^ 32

/-- The state behind the lock. A panic in the locked section poisons the lock. -/
structure Buckets (K : Type) where
  map : AList (fun _ : K => Bucket)
  lastPurge : ℕ
  poisoned : Bool

inductive Decision where
  | admitted
  | refused (retryAfter : ℕ)
  /-- The 32-bit counter overflowed; the build checks for that. -/
  | panicked
deriving DecidableEq

def Decision.admits : Decision → Bool
  | admitted => true
  | _ => false

section

variable {K : Type} [DecidableEq K]

def Buckets.new (now : ℕ) : Buckets K := ⟨∅, now, false⟩

/-- `map.len()`. -/
def Buckets.len (s : Buckets K) : ℕ := s.map.entries.length

/-- Drops the stale buckets, if there are many and the last purge is long ago. -/
def RateLimiter.purge (limiter : RateLimiter) (s : Buckets K) (now : ℕ) : Buckets K :=
  if bucketPurgeThreshold < s.len ∧ bucketPurgeInterval ≤ now - s.lastPurge then
    { s with
      map := s.map.retain fun _ b => decide (now - b.start < limiter.window)
      lastPurge := now }
  else s

/-- The client's window at `now`: the one it has, or one that starts over. -/
def RateLimiter.current (limiter : RateLimiter) (bucket : Option Bucket) (now : ℕ) : Bucket :=
  match bucket with
  | none => ⟨now, 0⟩
  | some b => if now < b.start ∨ limiter.window ≤ now - b.start then ⟨now, 0⟩ else b

/-- One check behind the lock, at the instant read there. -/
def RateLimiter.check (limiter : RateLimiter) (s : Buckets K) (key : K) (now : ℕ) :
    Decision × Buckets K :=
  if s.poisoned then (.admitted, s)
  else
    let s := limiter.purge s now
    if maxBuckets ≤ s.len ∧ (s.map.lookup key).isNone then (.admitted, s)
    else
      let bucket := limiter.current (s.map.lookup key) now
      if bucket.count + 1 = 2 ^ 32 then
        (.panicked, { s with map := s.map.insert key bucket, poisoned := true })
      else
        let bucket := { bucket with count := bucket.count + 1 }
        let s := { s with map := s.map.insert key bucket }
        if limiter.max < bucket.count then
          (.refused (Nat.max ((limiter.window - (now - bucket.start)) / nanosPerSec) 1), s)
        else (.admitted, s)

/-- The decisions of a sequence of checks, in order. -/
def RateLimiter.checks (limiter : RateLimiter) (s : Buckets K) :
    List (K × ℕ) → List Decision × Buckets K
  | [] => ([], s)
  | (key, now) :: rest =>
    let (decision, s) := limiter.check s key now
    let (decisions, s) := limiter.checks s rest
    (decision :: decisions, s)

end

/-! ## The idealised limiter -/

section

variable {K : Type} [DecidableEq K]

/-- One counter per client, unbounded and never purged. -/
abbrev Ideal (K : Type) := K → Option Bucket

/-- The client's bucket after a check: counted in its window, or in a new one where that
has ended. -/
def RateLimiter.idealBucket (limiter : RateLimiter) (bucket : Option Bucket) (now : ℕ) :
    Bucket :=
  match bucket with
  | none => ⟨now, 1⟩
  | some b => if b.start + limiter.window ≤ now then ⟨now, 1⟩ else ⟨b.start, b.count + 1⟩

def RateLimiter.idealCheck (limiter : RateLimiter) (s : Ideal K) (key : K) (now : ℕ) :
    Bool × Ideal K :=
  let bucket := limiter.idealBucket (s key) now
  (decide (bucket.count ≤ limiter.max), Function.update s key (some bucket))

def RateLimiter.idealChecks (limiter : RateLimiter) (s : Ideal K) :
    List (K × ℕ) → List Bool × Ideal K
  | [] => ([], s)
  | (key, now) :: rest =>
    let (admitted, s) := limiter.idealCheck s key now
    let (decisions, s) := limiter.idealChecks s rest
    (admitted :: decisions, s)

end

end Nitr.Protect
