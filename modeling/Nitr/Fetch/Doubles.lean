import Nitr.Fetch.Client

/-! # The budget and the test doubles of `fetch`

`OutboundBudget` of `fetch/budget.rs` and `FetchMock` of `testing.rs`: which outbound calls a
request may make and what a test answers in their place. The counters that calls move are held
against everything that happened before. -/

namespace Nitr.Fetch.Doubles

open Nitr.Http (Text eqIgnoreAsciiCase)

/-! ## Rules and answers -/

/-- How a rule matches a request URL. -/
inductive UrlMatch where
  | exact (expected : Text)
  /-- Written with a trailing `*`. -/
  | starts (pre : Text)
deriving DecidableEq

def UrlMatch.matches (url : Text) : UrlMatch → Bool
  | .exact expected => url = expected
  | .starts pre => pre.isPrefixOf url

/-- One canned answer. -/
structure FetchRule where
  method : Option Text
  url : UrlMatch
  status : ℕ
  headers : List (Text × Text)
  body : List UInt8
  /-- How many requests it answers before falling through. -/
  times : Option ℕ
  /-- A transport failure to raise instead. -/
  error : Option Text
deriving DecidableEq

/-- An outbound request as the double is asked about it. -/
structure Call where
  method : Text
  url : Text
  headers : List (Text × Text)
  body : Option (List UInt8)
deriving DecidableEq

/-- An outbound call on record. -/
structure FetchCall extends Call where
  mocked : Bool
deriving DecidableEq

structure Canned where
  status : ℕ
  headers : List (Text × Text)
  body : List UInt8
deriving DecidableEq

/-- What the double says about one outbound request. -/
inductive FetchAnswer where
  | canned (response : Canned)
  | error (message : Text)
  | passThrough
  | refused
deriving DecidableEq

def FetchAnswer.mocked : FetchAnswer → Bool
  | .canned _ => true
  | .error _ => true
  | .passThrough => false
  | .refused => false

/-- Whether the method and the URL match. -/
def FetchRule.suits (rule : FetchRule) (call : Call) : Bool :=
  rule.method.all (eqIgnoreAsciiCase · call.method) && rule.url.matches call.url

def FetchRule.answer (rule : FetchRule) : FetchAnswer :=
  match rule.error with
  | some message => .error message
  | none => .canned ⟨rule.status, rule.headers, rule.body⟩

def FetchRule.spend (rule : FetchRule) : FetchRule :=
  { rule with times := rule.times.map (· - 1) }

/-- The first rule that matches and has uses left, and the rules with one use of it spent. -/
def spendFirst (call : Call) : List FetchRule → Option (FetchRule × List FetchRule)
  | [] => none
  | rule :: rules =>
    if rule.suits call && rule.times.all (0 < ·) then some (rule, rule.spend :: rules)
    else (spendFirst call rules).map fun found => (found.1, rule :: found.2)

/-- How many outbound calls a test records. -/
def maxRecordedCalls : ℕ := 10000

structure FetchMock where
  rules : List FetchRule
  calls : List FetchCall
  strict : Bool
  dropped : ℕ

def FetchMock.default : FetchMock := ⟨[], [], false, 0⟩

def FetchMock.push (mock : FetchMock) (call : FetchCall) : FetchMock :=
  if maxRecordedCalls ≤ mock.calls.length then
    { mock with calls := mock.calls.tail ++ [call], dropped := mock.dropped + 1 }
  else { mock with calls := mock.calls ++ [call] }

def Call.record (call : Call) (answer : FetchAnswer) : FetchCall :=
  { call with method := call.method.map Char.toUpper, mocked := answer.mocked }

/-- Records one outbound request and decides its fate. -/
def FetchMock.answer (mock : FetchMock) (call : Call) : FetchAnswer × FetchMock :=
  match spendFirst call mock.rules with
  | some (rule, rules) =>
    (rule.answer, { mock with rules }.push (call.record rule.answer))
  | none =>
    let answer := if mock.strict then FetchAnswer.refused else .passThrough
    (answer, mock.push (call.record answer))

/-! ## The budget -/

/-- Counts one outbound call, a 32-bit word; whether it is within the limit, `0` for unlimited. -/
def take (limit count : ℕ) : Bool × ℕ :=
  if limit = 0 then (true, count) else (decide (count < limit), (count + 1) % 4294967296)

/-! ## The seam -/

/-- The pooled states under test: the budget of each and the double they share. -/
structure Seam where
  counts : ℕ → ℕ
  mock : FetchMock

/-- What happens at the seam. -/
inductive Event where
  /-- A state is handed an inbound request. -/
  | request (state : ℕ)
  | call (state : ℕ) (call : Call)
  | add (rule : FetchRule)
  | strict (on : Bool)
  | reset

/-- What becomes of an outbound call. -/
inductive Fate where
  | overBudget
  | answered (answer : FetchAnswer)
deriving DecidableEq

section

variable (limit : ℕ)

def Seam.call (s : Seam) (state : ℕ) (call : Call) : Fate × Seam :=
  let taken := take limit (s.counts state)
  let counts := Function.update s.counts state taken.2
  if taken.1 then
    (.answered (s.mock.answer call).1, ⟨counts, (s.mock.answer call).2⟩)
  else (.overBudget, ⟨counts, s.mock⟩)

def Seam.step (s : Seam) : Event → Seam
  | .request state => { s with counts := Function.update s.counts state 0 }
  | .call state call => (s.call limit state call).2
  | .add rule => { s with mock := { s.mock with rules := s.mock.rules ++ [rule] } }
  | .strict on => { s with mock := { s.mock with strict := on } }
  | .reset => { s with mock := .default }

/-- The seam after what happened, the last event first. -/
def replay : List Event → Seam
  | [] => ⟨fun _ => 0, .default⟩
  | event :: past => (replay past).step limit event

end

/-! ## What the past says -/

/-- The rules in force. -/
def rules : List Event → List FetchRule
  | [] => []
  | .add rule :: past => rules past ++ [rule]
  | .reset :: _ => []
  | _ :: past => rules past

def strict : List Event → Bool
  | [] => false
  | .strict on :: _ => on
  | .reset :: _ => false
  | _ :: past => strict past

/-- The calls a state tried since its request began. -/
def attempts (state : ℕ) : List Event → ℕ
  | [] => 0
  | .request other :: past => if other = state then 0 else attempts state past
  | .call other _ :: past => attempts state past + if other = state then 1 else 0
  | _ :: past => attempts state past

/-- The first rule that suits a call and answered fewer calls than it may. -/
def pick (call : Call) : List FetchRule → (ℕ → ℕ) → Option (ℕ × FetchRule)
  | [], _ => none
  | rule :: rules, used =>
    if rule.suits call && rule.times.all (used 0 < ·) then some (0, rule)
    else (pick call rules fun i => used (i + 1)).map fun found => (found.1 + 1, found.2)

section

variable (limit : ℕ)

/-- Whether the budget lets the next call of a state through. -/
def admitted (state : ℕ) (past : List Event) : Bool :=
  limit = 0 || attempts state past % 4294967296 < limit

/-- The calls let through since a state's request began. -/
def allowed (state : ℕ) : List Event → ℕ
  | [] => 0
  | .request other :: past => if other = state then 0 else allowed state past
  | .call other _ :: past =>
    allowed state past + if other = state ∧ admitted limit state past then 1 else 0
  | _ :: past => allowed state past

/-- How many calls a rule answered. -/
def uses : List Event → ℕ → ℕ
  | [], _ => 0
  | .call state call :: past, i =>
    uses past i +
      if admitted limit state past ∧ (pick call (rules past) (uses past)).any (·.1 = i) then 1
      else 0
  | .reset :: _, _ => 0
  | _ :: past, i => uses past i

def answerOf (past : List Event) (call : Call) : FetchAnswer :=
  match pick call (rules past) (uses limit past) with
  | some found => found.2.answer
  | none => if strict past then .refused else .passThrough

def fateOf (past : List Event) (state : ℕ) (call : Call) : Fate :=
  if admitted limit state past then .answered (answerOf limit past call) else .overBudget

/-- The calls let through since the double was reset. -/
def recorded : List Event → List FetchCall
  | [] => []
  | .call state call :: past =>
    recorded past ++
      if admitted limit state past then [call.record (answerOf limit past call)] else []
  | .reset :: _ => []
  | _ :: past => recorded past

end

/-- The last of a list. -/
def lastOf {α : Type} (n : ℕ) (xs : List α) : List α := xs.drop (xs.length - n)

/-! ## Spent rules -/

/-- A rule that answered so many calls. -/
def FetchRule.left (rule : FetchRule) (used : ℕ) : FetchRule :=
  { rule with times := rule.times.map (· - used) }

theorem left_zero (rule : FetchRule) : rule.left 0 = rule := by
  obtain ⟨method, url, status, headers, body, times, error⟩ := rule
  cases times <;> rfl

theorem spend_left (rule : FetchRule) (used : ℕ) :
    (rule.left used).spend = rule.left (used + 1) := by
  obtain ⟨method, url, status, headers, body, times, error⟩ := rule
  cases times <;> rfl

theorem times_left (rule : FetchRule) (used : ℕ) :
    (rule.left used).times.all (0 < ·) = rule.times.all (used < ·) := by
  obtain ⟨method, url, status, headers, body, times, error⟩ := rule
  cases times with
  | none => rfl
  | some times =>
      simp only [FetchRule.left, Option.map_some, Option.all_some, decide_eq_decide]
      omega

/-- Counting a use down is counting it. -/
theorem spendFirst_mapIdx (call : Call) (rules : List FetchRule) (used : ℕ → ℕ) :
    spendFirst call (rules.mapIdx fun i rule => rule.left (used i)) =
      (pick call rules used).map fun found =>
        (found.2.left (used found.1),
          rules.mapIdx fun i rule => rule.left (used i + if found.1 = i then 1 else 0)) := by
  induction rules generalizing used with
  | nil => rfl
  | cons rule rules ih =>
      have hsuits : (rule.left (used 0)).suits call = rule.suits call := rfl
      simp only [List.mapIdx_cons, spendFirst, pick, hsuits, times_left]
      split
      · simp [spend_left]
      · rw [ih fun i => used (i + 1), Option.map_map, Option.map_map]
        refine congrArg (fun f => Option.map f _) (funext fun found => ?_)
        simp

theorem pick_lt {call : Call} {rules : List FetchRule} {used : ℕ → ℕ} {found : ℕ × FetchRule}
    (h : pick call rules used = some found) :
    rules[found.1]? = some found.2 ∧ found.2.times.all (used found.1 < ·) = true := by
  induction rules generalizing used found with
  | nil => cases h
  | cons rule rules ih =>
      rw [pick] at h
      split at h
      · rename_i hsuits
        cases h
        exact ⟨rfl, (Bool.and_eq_true_iff.mp hsuits).2⟩
      · obtain ⟨next, hnext, rfl⟩ := Option.map_eq_some_iff.mp h
        exact ih hnext

/-! ## The record -/

theorem lastOf_nil {α : Type} (n : ℕ) : lastOf n ([] : List α) = [] := List.drop_nil

theorem lastOf_push {α : Type} {n : ℕ} (hn : 0 < n) (xs : List α) (x : α) :
    (if n ≤ (lastOf n xs).length then (lastOf n xs).tail ++ [x] else lastOf n xs ++ [x]) =
      lastOf n (xs ++ [x]) := by
  simp only [lastOf, List.length_drop, List.length_append, List.length_singleton]
  split
  · have hnext : xs.length + 1 - n = xs.length - n + 1 := by omega
    have hwithin : xs.length - n + 1 ≤ xs.length := by omega
    rw [List.tail_drop, hnext, List.drop_append_of_le_length hwithin]
  · have hnone : xs.length - n = 0 := by omega
    have hnone' : xs.length + 1 - n = 0 := by omega
    rw [hnone, hnone', List.drop_zero, List.drop_zero]

/-! ## The seam and the past -/

/-- The counters say what the past says. -/
structure Agrees (limit : ℕ) (past : List Event) (s : Seam) : Prop where
  counts : ∀ state, s.counts state = if limit = 0 then 0 else attempts state past % 4294967296
  rules : s.mock.rules = (rules past).mapIdx fun i rule => rule.left (uses limit past i)
  strict : s.mock.strict = strict past
  calls : s.mock.calls = lastOf maxRecordedCalls (recorded limit past)
  dropped : s.mock.dropped = (recorded limit past).length - maxRecordedCalls

variable {limit : ℕ} {past : List Event} {s : Seam}

theorem Agrees.admits (h : Agrees limit past s) (state : ℕ) :
    (take limit (s.counts state)).1 = admitted limit state past := by
  rw [take, h.counts, admitted]
  by_cases hzero : limit = 0
  · simp [hzero]
  · simp [hzero]

theorem Agrees.answer (h : Agrees limit past s) (call : Call) :
    (s.mock.answer call).1 = answerOf limit past call := by
  rw [FetchMock.answer, h.rules, spendFirst_mapIdx, answerOf, h.strict]
  cases pick call (Doubles.rules past) (uses limit past) with
  | none => rfl
  | some found => rfl

theorem Agrees.fate (h : Agrees limit past s) (state : ℕ) (call : Call) :
    (s.call limit state call).1 = fateOf limit past state call := by
  rw [Seam.call, fateOf, h.admits, h.answer]
  split <;> rfl

/-- A call more on record. -/
theorem push_record {mock : FetchMock} (calls : List FetchCall)
    (hcalls : mock.calls = lastOf maxRecordedCalls calls)
    (hdropped : mock.dropped = calls.length - maxRecordedCalls) (call : FetchCall) :
    mock.push call = { mock with
      calls := lastOf maxRecordedCalls (calls ++ [call])
      dropped := (calls ++ [call]).length - maxRecordedCalls } := by
  have hlength : mock.calls.length = calls.length - (calls.length - maxRecordedCalls) := by
    rw [hcalls, lastOf, List.length_drop]
  rw [← lastOf_push (by decide : 0 < maxRecordedCalls), ← hcalls, FetchMock.push,
    List.length_append, List.length_singleton]
  split
  · have hnext : mock.dropped + 1 = calls.length + 1 - maxRecordedCalls := by omega
    rw [hnext]
  · have hsame : calls.length + 1 - maxRecordedCalls = mock.dropped := by omega
    rw [hsame]

/-- The double after one more call. -/
theorem Agrees.answer_snd (h : Agrees limit past s) (call : Call) :
    (s.mock.answer call).2 = {
      rules := (Doubles.rules past).mapIdx fun i rule => rule.left (uses limit past i +
        if (pick call (Doubles.rules past) (uses limit past)).any (·.1 = i) then 1 else 0)
      calls := lastOf maxRecordedCalls
        (recorded limit past ++ [call.record (answerOf limit past call)])
      strict := Doubles.strict past
      dropped := (recorded limit past ++ [call.record (answerOf limit past call)]).length -
        maxRecordedCalls } := by
  rw [FetchMock.answer, h.rules, spendFirst_mapIdx, answerOf, ← h.strict]
  cases pick call (Doubles.rules past) (uses limit past) with
  | none =>
      simp only [Option.map_none]
      rw [push_record _ h.calls h.dropped, h.rules]
      simp
  | some found =>
      refine (push_record (recorded limit past) ?_ ?_ _).trans ?_
      · exact h.calls
      · exact h.dropped
      · simp [FetchRule.answer, FetchRule.left]

/-- The calls of the state after one more attempt. -/
theorem Agrees.take_snd (h : Agrees limit past s) (state : ℕ) :
    (take limit (s.counts state)).2 =
      if limit = 0 then 0 else (attempts state past + 1) % 4294967296 := by
  rw [take, h.counts]
  by_cases hzero : limit = 0
  · simp [hzero]
  · simp [hzero, Nat.add_mod]

@[simp] theorem rules_add (rule : FetchRule) :
    rules (.add rule :: past) = rules past ++ [rule] := rfl

@[simp] theorem uses_add (rule : FetchRule) (i : ℕ) :
    uses limit (.add rule :: past) i = uses limit past i := rfl

theorem uses_call (state : ℕ) (call : Call) (i : ℕ) :
    uses limit (.call state call :: past) i = uses limit past i +
      if admitted limit state past ∧ (pick call (rules past) (uses limit past)).any (·.1 = i) then 1
      else 0 := rfl

theorem uses_of_length_le {i : ℕ} (h : (rules past).length ≤ i) : uses limit past i = 0 := by
  induction past with
  | nil => rfl
  | cons event past ih =>
      cases event with
      | request state => exact ih h
      | call state call =>
          rw [uses_call, ih h, if_neg]
          intro ⟨_, hfound⟩
          obtain ⟨found, hfound, hi⟩ := (Option.any_eq_true _ _).mp hfound
          have hi : found.1 = i := of_decide_eq_true hi
          have hlt := (List.getElem?_eq_some_iff.mp (pick_lt hfound).1).1
          rw [hi] at hlt
          exact absurd h (Nat.not_le_of_lt hlt)
      | add rule =>
          rw [rules_add, List.length_append] at h
          exact ih (by omega)
      | strict on => exact ih h
      | reset => rfl

/-- No rule answers more calls than it may. -/
theorem uses_le {i times : ℕ} {rule : FetchRule} (hrule : (rules past)[i]? = some rule)
    (htimes : rule.times = some times) : uses limit past i ≤ times := by
  induction past with
  | nil => exact Nat.zero_le _
  | cons event past ih =>
      cases event with
      | request state => exact ih hrule
      | call state call =>
          have hle := ih hrule
          rw [uses_call]
          split
          · rename_i hfound
            obtain ⟨found, hpick, hi⟩ := (Option.any_eq_true _ _).mp hfound.2
            obtain ⟨hget, hleft⟩ := pick_lt hpick
            have hi : found.1 = i := of_decide_eq_true hi
            have hsome : some found.2 = some rule := by
              rw [← hget, hi]
              exact hrule
            rw [Option.some.inj hsome, htimes, hi, Option.all_some, decide_eq_true_eq] at hleft
            omega
          · exact hle
      | add rule' =>
          rw [rules_add, List.getElem?_append] at hrule
          split at hrule
          · exact ih hrule
          · rw [uses_add, uses_of_length_le (by omega)]
            exact Nat.zero_le _
      | strict on => exact ih hrule
      | reset => cases hrule

theorem agrees_replay (limit : ℕ) (past : List Event) :
    Agrees limit past (replay limit past) := by
  induction past with
  | nil =>
      refine ⟨fun _ => ?_, rfl, rfl, (lastOf_nil _).symm, (Nat.zero_sub _).symm⟩
      simp [replay, attempts]
  | cons event past ih =>
      cases event with
      | request state =>
          refine ⟨fun other => ?_, ih.rules, ih.strict, ih.calls, ih.dropped⟩
          simp only [replay, Seam.step, attempts, Function.update_apply, ih.counts]
          by_cases hstate : other = state
          · simp [hstate]
          · simp [hstate, Ne.symm hstate]
      | call state call =>
          have hcounts : ∀ other, Function.update (replay limit past).counts state
              (take limit ((replay limit past).counts state)).2 other =
                if limit = 0 then 0
                else attempts other (.call state call :: past) % 4294967296 := by
            intro other
            rw [Function.update_apply, ih.take_snd, ih.counts, attempts]
            by_cases hstate : other = state
            · simp [hstate]
            · simp [hstate, Ne.symm hstate]
          cases hadmitted : admitted limit state past with
          | false =>
              have hnext : replay limit (.call state call :: past) =
                  ⟨Function.update (replay limit past).counts state
                    (take limit ((replay limit past).counts state)).2,
                    (replay limit past).mock⟩ := by
                simp [replay, Seam.step, Seam.call, ih.admits, hadmitted]
              rw [hnext]
              refine ⟨hcounts, ?_, ih.strict, ?_, ?_⟩
              · simp [uses_call, hadmitted, ih.rules, rules]
              · simp [recorded, hadmitted, ih.calls]
              · simp [recorded, hadmitted, ih.dropped]
          | true =>
              have hnext : replay limit (.call state call :: past) =
                  ⟨Function.update (replay limit past).counts state
                    (take limit ((replay limit past).counts state)).2,
                    ((replay limit past).mock.answer call).2⟩ := by
                simp [replay, Seam.step, Seam.call, ih.admits, hadmitted]
              rw [hnext, ih.answer_snd]
              exact ⟨hcounts, by simp [uses_call, hadmitted, rules], rfl,
                by simp [recorded, hadmitted], by simp [recorded, hadmitted]⟩
      | add rule =>
          refine ⟨ih.counts, ?_, ih.strict, ih.calls, ih.dropped⟩
          simp only [replay, Seam.step, rules_add, List.mapIdx_append, uses_add, ih.rules,
            List.mapIdx_cons, List.mapIdx_nil, Nat.zero_add, uses_of_length_le (le_refl _),
            left_zero]
      | strict on => exact ⟨ih.counts, ih.rules, rfl, ih.calls, ih.dropped⟩
      | reset => exact ⟨ih.counts, rfl, rfl, (lastOf_nil _).symm, (Nat.zero_sub _).symm⟩

/-- Below the width of the counter, the calls of a request that go through are its first ones. -/
theorem allowed_eq_min (hlimit : limit ≠ 0) {state : ℕ} (h : attempts state past ≤ 4294967296) :
    allowed limit state past = min (attempts state past) limit := by
  induction past with
  | nil => simp [allowed, attempts]
  | cons event past ih =>
      cases event with
      | request other =>
          by_cases hstate : other = state
          · simp [allowed, attempts, hstate]
          · rw [attempts, if_neg hstate] at h ⊢
            rw [allowed, if_neg hstate]
            exact ih h
      | call other call =>
          by_cases hstate : other = state
          · rw [attempts, if_pos hstate] at h ⊢
            rw [allowed, ih (by omega), admitted, Nat.mod_eq_of_lt (by omega)]
            simp only [hstate, hlimit, decide_false, Bool.false_or, decide_eq_true_eq, true_and]
            split <;> omega
          · rw [attempts, if_neg hstate] at h ⊢
            rw [allowed, if_neg fun hand => hstate hand.1]
            exact ih h
      | add rule => exact ih h
      | strict on => exact ih h
      | reset => exact ih h

/-- However requests, calls and a test's settings follow one another: each outbound call meets
the fate the past gives it, the record holds the last calls that went through, no rule answers
more calls than it may, and a request's calls go through up to the limit. -/
theorem outbound_fates (limit : ℕ) (past : List Event) :
    (∀ state call, ((replay limit past).call limit state call).1 = fateOf limit past state call) ∧
      (replay limit past).mock.calls = lastOf maxRecordedCalls (recorded limit past) ∧
      (replay limit past).mock.dropped = (recorded limit past).length - maxRecordedCalls ∧
      (∀ i rule times, (rules past)[i]? = some rule → rule.times = some times →
        uses limit past i ≤ times) ∧
      (limit ≠ 0 → ∀ state, attempts state past ≤ 4294967296 →
        allowed limit state past = min (attempts state past) limit) := by
  have hagrees := agrees_replay limit past
  exact ⟨hagrees.fate, hagrees.calls, hagrees.dropped, fun i rule times => uses_le,
    fun hlimit state => allowed_eq_min hlimit⟩

end Nitr.Fetch.Doubles
