import Nitr.Fetch.Doubles
import Nitr.Lib.Window

/-! # `await_all`

`create_await_all_fn` of `fetch/client.rs`: the work is copied out of the handles one after
another, then performed side by side in a window of `max_concurrent`. -/

namespace Nitr.Fetch.AwaitAll

open Actions
open Nitr.Http (Text Method)
open Doubles (Call Canned Seam FetchAnswer)

/-! ## The handles -/

/-- An argument of `await_all`; a query handle goes by a number. -/
inductive Handle where
  | fetch (spec : RequestSpec)
  | query (id : ℕ)
  | other

inductive Job where
  | fetch (spec : RequestSpec)
  /-- Answered by a test double. -/
  | mocked (response : Canned)
  | query (id : ℕ)

/-- Why a call fails. -/
inductive CallError where
  | runtime (message : Text)
  /-- A transport failure a test stands in for. -/
  | mocked (message : Text)
  | fetch (err : FetchError)

structure Limits where
  maxPerRequest : ℕ
  maxConcurrent : ℕ

/-- What `await_all` finds: the seam, and the query handles that were run before. -/
structure Lane where
  seam : Seam
  awaited : List ℕ

def methodText : Method → Text
  | .get => "GET".toList
  | .head => "HEAD".toList
  | .options => "OPTIONS".toList
  | .other name => name

/-- The call a double is asked about; `lossy` is `String::from_utf8_lossy`. -/
def callOf (lossy : Text → Text) (spec : RequestSpec) : Call :=
  ⟨methodText spec.method, spec.url.text,
    spec.headers.entries.map fun e => (e.1.toList, lossy e.2), spec.body⟩

def overBudget (limit : ℕ) : CallError :=
  .runtime ("this request has already made ".toList ++ (Nat.repr limit).toList ++
    " outbound calls (fetch.max_per_request); a handler's outbound cost has to be bounded".toList)

def unmatched (spec : RequestSpec) : CallError :=
  .runtime ("no fetch mock matched ".toList ++ methodText spec.method ++ [' '] ++ spec.url.text ++
    " (nitr.test.fetch.strict is on)".toList)

section

variable (limits : Limits) (state : ℕ) (lossy : Text → Text) (invalid : Canned → Option Text)

/-- The work of one handle; `invalid` is the error of building a canned response. -/
def takeJob (lane : Lane) : Handle → Except CallError Job × Lane
  | .fetch spec =>
    let asked := lane.seam.call limits.maxPerRequest state (callOf lossy spec)
    let job : Except CallError Job :=
      match asked.1 with
      | .overBudget => .error (overBudget limits.maxPerRequest)
      | .answered .passThrough => .ok (.fetch spec)
      | .answered .refused => .error (unmatched spec)
      | .answered (.error message) => .error (.mocked message)
      | .answered (.canned response) =>
        match invalid response with
        | some why => .error (.runtime ("invalid fetch mock response: ".toList ++ why))
        | none => .ok (.mocked response)
    (job, { lane with seam := asked.2 })
  | .query id =>
    if id ∈ lane.awaited then
      (.error (.runtime "this query handle has already been awaited; build a new one".toList), lane)
    else (.ok (.query id), { lane with awaited := id :: lane.awaited })
  | .other =>
    (.error (.runtime "await_all expects fetch(...) or db:query_async(...) handles".toList), lane)

/-- The work of every handle, up to the first error. -/
def collect : List Handle → Lane → Except CallError (List Job) × Lane
  | [], lane => (.ok [], lane)
  | handle :: handles, lane =>
    match takeJob limits state lossy invalid lane handle with
    | (.error err, lane) => (.error err, lane)
    | (.ok job, lane) =>
      let rest := collect handles lane
      (rest.1.map (job :: ·), rest.2)

end

/-! ## The jobs -/

/-- What a job comes to. -/
inductive Answer (R : Type) where
  | response (reply : Reply)
  | canned (response : Canned)
  | rows (result : R)

/-- Where the jobs run: the network at each attempt and hop, and what a query comes to. What one
job comes to does not depend on when the others run, as it does for queries of one connection that
see each other's writes. -/
structure World (R : Type) where
  join : Url → Text → Option Url
  opts : FetchOptions
  turns : ℕ → ℕ → ℕ → Turn
  query : ℕ → Except CallError R

variable {R : Type}

def World.perform (world : World R) (position : ℕ) : Job → Except CallError (Answer R)
  | .fetch spec =>
    match (sendWithRetries world.join world.opts (world.turns position) spec).2 with
    | .ok reply => .ok (.response reply)
    | .error err => .error (.fetch err)
  | .mocked response => .ok (.canned response)
  | .query id => (world.query id).map .rows

/-- What the jobs come to, in the order of the arguments. -/
def World.results (world : World R) (jobs : List Job) : List (Except CallError (Answer R)) :=
  jobs.mapIdx world.perform

/-- At most so many in flight. -/
def width (limits : Limits) : ℕ := max limits.maxConcurrent 1

/-! ## Collecting -/

/-- The work of a handle. -/
inductive Stands : Handle → Job → Prop where
  | fetch (spec : RequestSpec) : Stands (.fetch spec) (.fetch spec)
  | mocked (spec : RequestSpec) (response : Canned) : Stands (.fetch spec) (.mocked response)
  | query (id : ℕ) : Stands (.query id) (.query id)

def Handle.isFetch : Handle → Bool
  | .fetch _ => true
  | _ => false

def Job.isFetch : Job → Bool
  | .fetch _ => true
  | _ => false

def Job.id? : Job → Option ℕ
  | .query id => some id
  | _ => none

section

variable {limits : Limits} {state : ℕ} {lossy : Text → Text} {invalid : Canned → Option Text}

/-- What taking the work of one handle did. -/
structure Admitted (limits : Limits) (state : ℕ) (lane lane' : Lane) (handle : Handle)
    (job : Job) : Prop where
  stands : Stands handle job
  strict : lane'.seam.mock.strict = lane.seam.mock.strict
  double : lane.seam.mock.strict = true → job.isFetch = false
  awaited : lane'.awaited = job.id?.toList ++ lane.awaited
  fresh : ∀ id ∈ job.id?, id ∉ lane.awaited
  paid : limits.maxPerRequest ≠ 0 → limits.maxPerRequest < 4294967296 →
    lane'.seam.counts state = lane.seam.counts state + (if handle.isFetch then 1 else 0) ∧
      (handle.isFetch = true → lane'.seam.counts state ≤ limits.maxPerRequest)

/-- What a call of `await_all` has come to: its jobs are begun once all handles are collected. -/
def outcome (limits : Limits) (state : ℕ) (lossy : Text → Text) (invalid : Canned → Option Text)
    (world : World R) (handles : List Handle) (lane : Lane) (acts : List Window.Action) :
    Option (Option (Except CallError (List (Answer R)))) :=
  match (collect limits state lossy invalid handles lane).1, acts with
  | .error err, [] => some (some (.error err))
  | .error _, _ :: _ => none
  | .ok jobs, acts =>
    (runFrom (Window.step (world.results jobs) (width limits)) Window.start acts).map (·.outcome)

end

end Nitr.Fetch.AwaitAll
