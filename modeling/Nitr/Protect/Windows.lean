import Nitr.Protect.RateLimiter

/-! # Fixed windows

The limiter decides like the idealised one: a bucket that was purged belongs to
a window that has ended. The idealised decisions of one client fall into
consecutive windows, the first `max` checks of each admitted. -/

namespace Nitr.Protect

variable {K : Type} [DecidableEq K]

/-! ## Conditions on a sequence of checks -/

/-- The number of tracked clients stays below the cap. -/
def RateLimiter.Uncapped (limiter : RateLimiter) : Buckets K → List (K × ℕ) → Prop
  | _, [] => True
  | s, (key, now) :: rest =>
    s.len < maxBuckets ∧ limiter.Uncapped (limiter.check s key now).2 rest

/-- No client makes `2 ^ 32` checks in one of its windows. -/
def RateLimiter.Countable (limiter : RateLimiter) : Ideal K → List (K × ℕ) → Prop
  | _, [] => True
  | s, (key, now) :: rest =>
    (limiter.idealBucket (s key) now).count < 2 ^ 32 ∧
      limiter.Countable (limiter.idealCheck s key now).2 rest

/-- The instants do not decrease from `t` on. -/
def NonDecreasing (t : ℕ) (trace : List (K × ℕ)) : Prop :=
  (t :: trace.map (·.2)).Pairwise (· ≤ ·)

omit [DecidableEq K] in
theorem nonDecreasing_cons {t now : ℕ} {key : K} {rest : List (K × ℕ)} :
    NonDecreasing t ((key, now) :: rest) ↔ t ≤ now ∧ NonDecreasing now rest := by
  unfold NonDecreasing
  rw [List.map_cons]
  constructor
  · intro h
    obtain ⟨hle, hrest⟩ := List.pairwise_cons.mp h
    exact ⟨hle _ (List.mem_cons_self ..), hrest⟩
  · rintro ⟨hle, hrest⟩
    refine List.pairwise_cons.mpr ⟨?_, hrest⟩
    intro x hx
    obtain rfl | hx := List.mem_cons.mp hx
    · exact hle
    · exact hle.trans ((List.pairwise_cons.mp hrest).1 x hx)

/-! ## The simulation -/

/-- Every tracked bucket is the idealised one, and a client without a bucket has no open
window at `t`. -/
structure Tracks (limiter : RateLimiter) (t : ℕ) (s : Buckets K) (ideal : Ideal K) :
    Prop where
  sound : s.poisoned = false
  tracked : ∀ key b, s.map.lookup key = some b → ideal key = some b
  past : ∀ key b, ideal key = some b → b.start ≤ t
  untracked : ∀ key b, s.map.lookup key = none → ideal key = some b → b.start + limiter.window ≤ t

section Step

variable {limiter : RateLimiter} {t now : ℕ} {s : Buckets K} {ideal : Ideal K} {key : K}

theorem Tracks.later (h : Tracks limiter t s ideal) (hle : t ≤ now) :
    Tracks limiter now s ideal where
  sound := h.sound
  tracked := h.tracked
  past key b hb := (h.past key b hb).trans hle
  untracked key b hn hb := (h.untracked key b hn hb).trans hle

theorem Tracks.purge (h : Tracks limiter now s ideal) : Tracks limiter now (limiter.purge s now) ideal := by
  unfold RateLimiter.purge
  split
  · refine ⟨h.sound, ?_, h.past, ?_⟩
    · intro key b hb
      rw [AList.lookup_retain] at hb
      exact h.tracked key b (Option.filter_eq_some_iff.mp hb).1
    · intro key b hn hb
      rw [AList.lookup_retain] at hn
      cases hs : s.map.lookup key with
      | none => exact h.untracked key b hs hb
      | some b' =>
          -- The bucket was there and is stale.
          have heq : b' = b := Option.some.inj ((h.tracked key b' hs).symm.trans hb)
          subst heq
          have hpast := h.past key b' hb
          rw [hs] at hn
          simp only [Option.filter_some, ite_eq_right_iff, reduceCtorEq, imp_false,
            decide_eq_true_eq, not_lt] at hn
          omega
  · exact h

omit [DecidableEq K] in
theorem purge_len_le : (limiter.purge s now).len ≤ s.len := by
  unfold RateLimiter.purge
  split
  · exact AList.length_retain_le _ _
  · exact le_rfl

/-- The window a check counts in is the idealised one. -/
theorem Tracks.current_eq (h : Tracks limiter now s ideal) (key : K) :
    limiter.idealBucket (ideal key) now =
      ⟨(limiter.current (s.map.lookup key) now).start,
        (limiter.current (s.map.lookup key) now).count + 1⟩ := by
  unfold RateLimiter.idealBucket RateLimiter.current
  cases hs : s.map.lookup key with
  | some b =>
      have hpast := h.past key b (h.tracked key b hs)
      rw [h.tracked key b hs]
      by_cases hend : b.start + limiter.window ≤ now
      · have hcur : now < b.start ∨ limiter.window ≤ now - b.start := by omega
        simp only [hend, hcur, reduceIte]
      · have hcur : ¬(now < b.start ∨ limiter.window ≤ now - b.start) := by omega
        simp only [hend, hcur, reduceIte]
  | none =>
      cases hi : ideal key with
      | none => rfl
      | some b =>
          have hend := h.untracked key b hs hi
          simp only [hend, reduceIte]

theorem RateLimiter.current_start_le (limiter : RateLimiter) (bucket : Option Bucket) (now : ℕ) :
    (limiter.current bucket now).start ≤ now := by
  unfold RateLimiter.current
  cases bucket with
  | none => exact le_rfl
  | some b =>
      dsimp only
      split
      · exact le_rfl
      · rename_i h
        omega

theorem Tracks.insert {b : Bucket} (h : Tracks limiter now s ideal) (hb : b.start ≤ now) :
    Tracks limiter now { s with map := s.map.insert key b }
      (Function.update ideal key (some b)) where
  sound := h.sound
  tracked other b' hb' := by
    rw [AList.lookup_insert_eq] at hb'
    by_cases ho : other = key
    · subst ho
      simpa using hb'
    · rw [if_neg ho] at hb'
      rw [Function.update_of_ne ho]
      exact h.tracked other b' hb'
  past other b' hb' := by
    by_cases ho : other = key
    · subst ho
      rw [Function.update_self] at hb'
      cases hb'
      exact hb
    · rw [Function.update_of_ne ho] at hb'
      exact h.past other b' hb'
  untracked other b' hn hb' := by
    rw [AList.lookup_insert_eq] at hn
    by_cases ho : other = key
    · simp [ho] at hn
    · rw [if_neg ho] at hn
      rw [Function.update_of_ne ho] at hb'
      exact h.untracked other b' hn hb'

/-- One check decides as the idealised limiter does, and keeps tracking it. -/
theorem Tracks.check (h : Tracks limiter t s ideal) (hle : t ≤ now) (hcap : s.len < maxBuckets)
    (hcount : (limiter.idealBucket (ideal key) now).count < 2 ^ 32) :
    (limiter.check s key now).1 ≠ .panicked ∧
    (limiter.check s key now).1.admits = (limiter.idealCheck ideal key now).1 ∧
    Tracks limiter now (limiter.check s key now).2 (limiter.idealCheck ideal key now).2 := by
  have hp := (h.later hle).purge
  have hbucket := hp.current_eq key
  have hlen : ¬(maxBuckets ≤ (limiter.purge s now).len ∧
      ((limiter.purge s now).map.lookup key).isNone = true) := by
    have := @purge_len_le K limiter now s
    omega
  have hcount' : ¬(limiter.current ((limiter.purge s now).map.lookup key) now).count + 1 = 2 ^ 32 := by
    rw [hbucket] at hcount
    dsimp only at hcount
    omega
  have htracks : Tracks limiter now
      { limiter.purge s now with
        map := (limiter.purge s now).map.insert key (limiter.idealBucket (ideal key) now) }
      (Function.update ideal key (some (limiter.idealBucket (ideal key) now))) :=
    hp.insert (by rw [hbucket]; exact limiter.current_start_le _ _)
  unfold RateLimiter.check RateLimiter.idealCheck
  rw [h.sound]
  simp only [Bool.false_eq_true, reduceIte, hlen, hcount']
  rw [hbucket] at htracks ⊢
  split
  · rename_i hmax
    refine ⟨by simp, ?_, htracks⟩
    simp [Decision.admits]
    omega
  · rename_i hmax
    refine ⟨by simp, ?_, htracks⟩
    simp [Decision.admits]
    omega

end Step

/-- A whole sequence of checks decides as the idealised limiter does. -/
theorem Tracks.checks {limiter : RateLimiter} {trace : List (K × ℕ)} {t : ℕ} {s : Buckets K}
    {ideal : Ideal K} (h : Tracks limiter t s ideal) (hmono : NonDecreasing t trace)
    (hcap : limiter.Uncapped s trace) (hcount : limiter.Countable ideal trace) :
    (∀ d ∈ (limiter.checks s trace).1, d ≠ .panicked) ∧
    (limiter.checks s trace).1.map Decision.admits = (limiter.idealChecks ideal trace).1 := by
  induction trace generalizing t s ideal with
  | nil => exact ⟨by simp [RateLimiter.checks], rfl⟩
  | cons c rest ih =>
      obtain ⟨key, now⟩ := c
      obtain ⟨hle, hmono⟩ := nonDecreasing_cons.mp hmono
      obtain ⟨hpanic, hadmits, htracks⟩ := h.check hle hcap.1 hcount.1
      obtain ⟨hpanics, hrest⟩ := ih htracks hmono hcap.2 hcount.2
      constructor
      · intro d hd
        obtain rfl | hd := List.mem_cons.mp hd
        · exact hpanic
        · exact hpanics d hd
      · simp only [RateLimiter.checks, RateLimiter.idealChecks, List.map_cons]
        rw [hadmits, hrest]

/-! ## Windows -/

/-- The instants and decisions of one client's checks. -/
def clientLog (key : K) (trace : List (K × ℕ)) (decisions : List Bool) : List (ℕ × Bool) :=
  ((trace.zip decisions).filter fun c => c.1.1 = key).map fun c => (c.1.2, c.2)

/-- The checks fall into consecutive windows: each starts at the first check after the
previous one ended and admits exactly its first `max` checks. -/
inductive Windowed (limiter : RateLimiter) : List (ℕ × Bool) → Prop where
  | nil : Windowed limiter []
  | window {start : ℕ} {first : Bool} {block rest : List (ℕ × Bool)}
      (inside : ∀ e ∈ block, start ≤ e.1 ∧ e.1 < start + limiter.window)
      (decided : first :: block.map (·.2) =
        (List.range (block.length + 1)).map fun i => decide (i < limiter.max))
      (after : ∀ e ∈ rest, start + limiter.window ≤ e.1) (later : Windowed limiter rest) :
      Windowed limiter ((start, first) :: block ++ rest)

/-- The checks that follow, given the client's bucket: those left of its window, then
further windows. -/
def Continues (limiter : RateLimiter) (bucket : Option Bucket) (log : List (ℕ × Bool)) : Prop :=
  match bucket with
  | none => Windowed limiter log
  | some b => ∃ block rest, log = block ++ rest ∧
      (∀ e ∈ block, b.start ≤ e.1 ∧ e.1 < b.start + limiter.window) ∧
      (block.map (·.2) = (List.range block.length).map fun i => decide (b.count + i < limiter.max)) ∧
      (∀ e ∈ rest, b.start + limiter.window ≤ e.1) ∧ Windowed limiter rest

section Windows

variable {limiter : RateLimiter} {trace : List (K × ℕ)} {t now : ℕ} {ideal : Ideal K} {key : K}

theorem clientLog_cons_self (decision : Bool) (decisions : List Bool) :
    clientLog key ((key, now) :: trace) (decision :: decisions) =
      (now, decision) :: clientLog key trace decisions := by
  simp [clientLog]

theorem clientLog_cons_other {other : K} (h : other ≠ key) (decision : Bool)
    (decisions : List Bool) :
    clientLog key ((other, now) :: trace) (decision :: decisions) =
      clientLog key trace decisions := by
  simp [clientLog, h]

theorem clientLog_le (hmono : NonDecreasing t trace) (decisions : List Bool) :
    ∀ e ∈ clientLog key trace decisions, t ≤ e.1 := by
  intro e he
  obtain ⟨c, hc, rfl⟩ := List.mem_map.mp he
  have hmem : c.1 ∈ trace := List.of_mem_zip (List.mem_of_mem_filter hc) |>.1
  exact (List.pairwise_cons.mp hmono).1 _ (List.mem_map_of_mem hmem)

theorem decided_cons {count : ℕ} {block : List (ℕ × Bool)}
    (h : block.map (·.2) =
      (List.range block.length).map fun i => decide (count + 1 + i < limiter.max)) :
    decide (count + 1 ≤ limiter.max) :: block.map (·.2) =
      (List.range (block.length + 1)).map fun i => decide (count + i < limiter.max) := by
  rw [List.range_succ_eq_map, List.map_cons, List.map_map, h]
  congr 1
  apply List.map_congr_left
  intro i _
  simp only [Function.comp_apply, decide_eq_decide]
  omega

theorem RateLimiter.idealBucket_start_le (limiter : RateLimiter) {bucket : Option Bucket}
    (h : ∀ b, bucket = some b → b.start ≤ now) : (limiter.idealBucket bucket now).start ≤ now := by
  unfold RateLimiter.idealBucket
  cases bucket with
  | none => exact le_rfl
  | some b =>
      dsimp only
      split
      · exact le_rfl
      · exact h b rfl

/-- A new window opens with this check. -/
theorem windowed_open {log : List (ℕ × Bool)} (h : Continues limiter (some ⟨now, 1⟩) log) :
    Windowed limiter ((now, decide (1 ≤ limiter.max)) :: log) := by
  obtain ⟨block, rest, rfl, hin, hdec, hafter, hrest⟩ := h
  have hdec' := @decided_cons limiter 0 block (by simpa using hdec)
  refine .window hin ?_ hafter hrest
  simpa using hdec'

/-- The idealised decisions of a client continue its bucket. -/
theorem continues_idealChecks (hmono : NonDecreasing t trace)
    (hpast : ∀ b, ideal key = some b → b.start ≤ t) :
    Continues limiter (ideal key) (clientLog key trace (limiter.idealChecks ideal trace).1) := by
  induction trace generalizing t ideal with
  | nil =>
      cases ideal key with
      | none => exact .nil
      | some b => exact ⟨[], [], rfl, by simp, rfl, by simp, .nil⟩
  | cons c rest ih =>
      obtain ⟨other, now⟩ := c
      obtain ⟨hle, hmono'⟩ := nonDecreasing_cons.mp hmono
      by_cases ho : other = key
      · subst ho
        have hself : (limiter.idealCheck ideal other now).2 other =
            some (limiter.idealBucket (ideal other) now) := Function.update_self ..
        have hrest := @ih now (limiter.idealCheck ideal other now).2 hmono' (by
          intro b hb
          rw [hself] at hb
          cases hb
          exact limiter.idealBucket_start_le fun b hb => (hpast b hb).trans hle)
        rw [hself] at hrest
        rw [RateLimiter.idealChecks, clientLog_cons_self]
        have hlog := @clientLog_le K _ rest now other hmono'
          (limiter.idealChecks (limiter.idealCheck ideal other now).2 rest).1
        generalize clientLog other rest
          (limiter.idealChecks (limiter.idealCheck ideal other now).2 rest).1 = log at hrest hlog ⊢
        change Continues limiter (ideal other)
          ((now, decide ((limiter.idealBucket (ideal other) now).count ≤ limiter.max)) :: log)
        cases hi : ideal other with
        | none =>
            rw [hi] at hrest
            exact windowed_open hrest
        | some b =>
            rw [hi] at hrest
            by_cases hend : b.start + limiter.window ≤ now
            · simp only [RateLimiter.idealBucket, hend, reduceIte] at hrest ⊢
              refine ⟨[], _, rfl, by simp, rfl, ?_, windowed_open hrest⟩
              intro e he
              obtain rfl | he := List.mem_cons.mp he
              · exact hend
              · exact hend.trans (hlog e he)
            · simp only [RateLimiter.idealBucket, hend, reduceIte] at hrest ⊢
              obtain ⟨block, rest', hsplit, hin, hdec, hafter, hwin⟩ := hrest
              refine ⟨(now, decide (b.count + 1 ≤ limiter.max)) :: block, rest', ?_, ?_, ?_, hafter,
                hwin⟩
              · rw [hsplit]
                rfl
              · intro e he
                obtain rfl | he := List.mem_cons.mp he
                · exact ⟨(hpast b hi).trans hle, not_le.mp hend⟩
                · exact hin e he
              · exact decided_cons hdec
      · change Continues limiter (ideal key) (clientLog key _ (_ :: _))
        rw [clientLog_cons_other ho]
        have hkey : (limiter.idealCheck ideal other now).2 key = ideal key :=
          Function.update_of_ne (Ne.symm ho) _ _
        have hrest := @ih now (limiter.idealCheck ideal other now).2 hmono' (by
          intro b hb
          rw [hkey] at hb
          exact (hpast b hb).trans hle)
        rw [hkey] at hrest
        exact hrest

end Windows

/-! ## The limiter -/

theorem tracks_new (limiter : RateLimiter) (t : ℕ) :
    Tracks limiter t (.new t : Buckets K) fun _ => none where
  sound := rfl
  tracked key b hb := by simp [Buckets.new] at hb
  past key b hb := by cases hb
  untracked key b _ hb := by cases hb

/-- The limiter decides like the idealised one, and each client's checks fall into
consecutive windows of which exactly the first `max` checks are admitted. -/
theorem RateLimiter.checks_fixed_window (limiter : RateLimiter) (t : ℕ) (trace : List (K × ℕ))
    (hmono : NonDecreasing t trace) (hcap : limiter.Uncapped (.new t) trace)
    (hcount : limiter.Countable (fun _ => none) trace) :
    (∀ d ∈ (limiter.checks (.new t) trace).1, d ≠ .panicked) ∧
    (limiter.checks (.new t) trace).1.map Decision.admits =
      (limiter.idealChecks (fun _ => none) trace).1 ∧
    ∀ key, Windowed limiter
      (clientLog key trace ((limiter.checks (.new t) trace).1.map Decision.admits)) := by
  obtain ⟨hpanics, hdecisions⟩ := (tracks_new limiter t).checks hmono hcap hcount
  refine ⟨hpanics, hdecisions, fun key => ?_⟩
  rw [hdecisions]
  exact @continues_idealChecks K _ limiter trace t (fun _ => none) key hmono
    (fun b hb => by cases hb)

/-- One client twice in a window, another in between, then the first in its next window. -/
theorem RateLimiter.checks_fixed_window_two_clients :
    let limiter : RateLimiter := ⟨1, 10, by decide⟩
    let trace : List (ℕ × ℕ) := [(1, 0), (1, 5), (2, 6), (1, 12)]
    (limiter.checks (.new 0) trace).1.map Decision.admits = [true, false, true, true] ∧
    ∀ key, Windowed limiter (clientLog key trace [true, false, true, true]) := by
  intro limiter trace
  have hdecisions : (limiter.checks (.new 0) trace).1.map Decision.admits =
      [true, false, true, true] := by decide
  have h := limiter.checks_fixed_window 0 trace (by unfold NonDecreasing; decide) (by
    refine ⟨?_, ?_, ?_, ?_, trivial⟩ <;> decide) (by
    refine ⟨?_, ?_, ?_, ?_, trivial⟩ <;> decide)
  rw [hdecisions] at h
  exact ⟨rfl, h.2.2⟩

end Nitr.Protect
