import Nitr.Protect.Windows

/-! # Retry-After

A refusal names the rest of the client's window in whole seconds, rounded down
and at least one. A client that waits that long is admitted exactly when the
rounding lost nothing. -/

namespace Nitr.Protect

variable {K : Type} [DecidableEq K]

section

variable {limiter : RateLimiter} {s s' : Buckets K} {key other : K} {t now r : ℕ}

theorem lookup_purge (limiter : RateLimiter) (s : Buckets K) (key : K) (now : ℕ) :
    (limiter.purge s now).map.lookup key = s.map.lookup key ∨
      (limiter.purge s now).map.lookup key = none := by
  unfold RateLimiter.purge
  split
  · dsimp only
    rw [AList.lookup_retain]
    cases s.map.lookup key with
    | none => exact .inl rfl
    | some b =>
        rw [Option.filter_some]
        split
        · exact .inl rfl
        · exact .inr rfl
  · exact .inl rfl

/-- A purge keeps the bucket of an open window. -/
theorem lookup_purge_open {b : Bucket} (hb : s.map.lookup key = some b)
    (hopen : now - b.start < limiter.window) :
    (limiter.purge s now).map.lookup key = some b := by
  unfold RateLimiter.purge
  split
  · dsimp only
    rw [AList.lookup_retain, hb, Option.filter_some, if_pos (by simpa using hopen)]
  · exact hb

/-- What a refused check found and left: an open window whose budget was spent. -/
theorem RateLimiter.check_eq_refused (hmax : 1 ≤ limiter.max)
    (h : limiter.check s key t = (.refused r, s')) :
    ∃ b, s.map.lookup key = some b ∧ b.start ≤ t ∧ t < b.start + limiter.window ∧
      limiter.max ≤ b.count ∧ r = Nat.max ((b.start + limiter.window - t) / nanosPerSec) 1 ∧
      s'.poisoned = false ∧ s'.map.lookup key = some ⟨b.start, b.count + 1⟩ := by
  unfold RateLimiter.check at h
  cases hp : s.poisoned with
  | true =>
      rw [hp] at h
      cases h
  | false =>
      have hp' : (limiter.purge s t).poisoned = false := by
        unfold RateLimiter.purge
        split <;> exact hp
      rw [hp] at h
      simp only [Bool.false_eq_true, reduceIte] at h
      split at h
      · cases h
      · split at h
        · cases h
        · split at h
          · rename_i hover
            cases h
            -- A new or restarted window holds no check yet.
            unfold RateLimiter.current at hover ⊢
            cases hl : (limiter.purge s t).map.lookup key with
            | none =>
                rw [hl] at hover
                dsimp only at hover
                omega
            | some b =>
                have hb : s.map.lookup key = some b := by
                  obtain hsame | hnone := lookup_purge limiter s key t
                  · rw [← hsame, hl]
                  · rw [hnone] at hl
                    cases hl
                rw [hl] at hover
                dsimp only at hover ⊢
                split at hover
                · dsimp only at hover
                  omega
                · rename_i hopen
                  rw [if_neg hopen]
                  have hrest : limiter.window - (t - b.start) = b.start + limiter.window - t := by
                    omega
                  refine ⟨b, hb, by omega, by omega, by omega, by rw [hrest], hp', ?_⟩
                  simp
          · cases h

/-- The checks of other clients leave the bucket or purge it. -/
theorem RateLimiter.check_lookup_other (h : other ≠ key) :
    (limiter.check s other now).2.map.lookup key = s.map.lookup key ∨
      (limiter.check s other now).2.map.lookup key = none := by
  have hp := lookup_purge limiter s key now
  unfold RateLimiter.check
  split
  · exact .inl rfl
  · dsimp only
    split
    · exact hp
    · split
      · rw [AList.lookup_insert_eq, if_neg (Ne.symm h)]
        exact hp
      · split <;> (rw [AList.lookup_insert_eq, if_neg (Ne.symm h)]; exact hp)

theorem RateLimiter.checks_lookup_other {others : List (K × ℕ)} (h : ∀ c ∈ others, c.1 ≠ key) :
    (limiter.checks s others).2.map.lookup key = s.map.lookup key ∨
      (limiter.checks s others).2.map.lookup key = none := by
  induction others generalizing s with
  | nil => exact .inl rfl
  | cons c rest ih =>
      have hc := @RateLimiter.check_lookup_other K _ limiter s key c.1 c.2
        (h c (List.mem_cons_self ..))
      have hrest := @ih (limiter.check s c.1 c.2).2 (fun c hm => h c (List.mem_cons_of_mem _ hm))
      simp only [RateLimiter.checks]
      obtain hrest | hrest := hrest
      · rw [hrest]
        exact hc
      · exact .inr hrest

/-- A client whose window has ended is admitted. -/
theorem RateLimiter.check_admits_ended (hmax : 1 ≤ limiter.max)
    (h : ∀ b, s.map.lookup key = some b → b.start + limiter.window ≤ now) :
    (limiter.check s key now).1 = .admitted := by
  have hcur : limiter.current ((limiter.purge s now).map.lookup key) now = ⟨now, 0⟩ := by
    unfold RateLimiter.current
    cases hl : (limiter.purge s now).map.lookup key with
    | none => rfl
    | some b =>
        have hb : s.map.lookup key = some b := by
          obtain hsame | hnone := lookup_purge limiter s key now
          · rw [← hsame, hl]
          · rw [hnone] at hl
            cases hl
        have hend := h b hb
        dsimp only
        rw [if_pos (by omega)]
  unfold RateLimiter.check
  split
  · rfl
  · dsimp only
    split
    · rfl
    · rw [hcur]
      simp only [Nat.zero_add]
      rw [if_neg (by decide), if_neg (by omega)]

/-- A client with a spent budget is not admitted while its window is open. -/
theorem RateLimiter.check_not_admits_open {b : Bucket} (hp : s.poisoned = false)
    (hb : s.map.lookup key = some b) (hle : b.start ≤ now) (hopen : now < b.start + limiter.window)
    (hspent : limiter.max ≤ b.count) : (limiter.check s key now).1 ≠ .admitted := by
  have hl := @lookup_purge_open K _ limiter s key now b hb (by omega)
  have hcur : limiter.current (some b) now = b := by
    unfold RateLimiter.current
    dsimp only
    rw [if_neg (by omega)]
  unfold RateLimiter.check
  rw [hp]
  simp only [Bool.false_eq_true, reduceIte, hl, Option.isNone_some, and_false, hcur]
  split
  · simp
  · rw [if_pos (by omega)]
    simp

end

/-! ## The advertised delay -/

theorem le_max_div_iff (rest : ℕ) :
    rest ≤ Nat.max (rest / nanosPerSec) 1 * nanosPerSec ↔
      rest ≤ nanosPerSec ∨ nanosPerSec ∣ rest := by
  have hmod := Nat.div_add_mod rest nanosPerSec
  have hlt : rest % nanosPerSec < nanosPerSec := Nat.mod_lt _ (by decide)
  rw [Nat.dvd_iff_mod_eq_zero]
  by_cases hq : rest / nanosPerSec = 0
  · rw [hq]
    have hmax : Nat.max 0 1 = 1 := rfl
    rw [hq, Nat.mul_zero, Nat.zero_add] at hmod
    rw [hmax, Nat.one_mul]
    omega
  · have hpos : 1 ≤ rest / nanosPerSec := Nat.one_le_iff_ne_zero.mpr hq
    have hmax : Nat.max (rest / nanosPerSec) 1 = rest / nanosPerSec := Nat.max_eq_left hpos
    rw [hmax, Nat.mul_comm]
    constructor
    · intro hle
      right
      omega
    · rintro (hle | hzero)
      · have : nanosPerSec * 1 ≤ nanosPerSec * (rest / nanosPerSec) :=
          Nat.mul_le_mul_left _ hpos
        omega
      · omega

/-- A refused client that keeps quiet for the advertised time is always admitted
afterwards exactly when the rest of its window is whole seconds, or at most one. -/
theorem RateLimiter.retry_after_iff (limiter : RateLimiter) (hmax : 1 ≤ limiter.max)
    {s s' : Buckets K} {key : K} {t r : ℕ} (h : limiter.check s key t = (.refused r, s')) :
    (∀ (others : List (K × ℕ)) (t' : ℕ), (∀ c ∈ others, c.1 ≠ key) →
        NonDecreasing t (others ++ [(key, t')]) → t + r * nanosPerSec ≤ t' →
        (limiter.check (limiter.checks s' others).2 key t').1 = .admitted) ↔
      ∃ b, s.map.lookup key = some b ∧
        (b.start + limiter.window - t ≤ nanosPerSec ∨
          nanosPerSec ∣ b.start + limiter.window - t) := by
  obtain ⟨b, hb, hle, hopen, hspent, hr, hp, hb'⟩ := limiter.check_eq_refused hmax h
  have hiff := le_max_div_iff (b.start + limiter.window - t)
  rw [← hr] at hiff
  constructor
  · intro hall
    refine ⟨b, hb, hiff.mp ?_⟩
    by_contra hlong
    -- The client comes back after exactly the advertised time.
    have hback := hall [] (t + r * nanosPerSec) (by simp)
      (by unfold NonDecreasing; simp) le_rfl
    exact limiter.check_not_admits_open hp hb' (by dsimp only; omega) (by dsimp only; omega)
      (by dsimp only; omega) hback
  · rintro ⟨b₀, hb₀, hwhole⟩ others t' hothers _ hafter
    rw [hb] at hb₀
    cases hb₀
    have hended := hiff.mpr hwhole
    refine limiter.check_admits_ended hmax ?_
    intro b'' hb''
    obtain hsame | hnone := @RateLimiter.checks_lookup_other K _ limiter s' key others hothers
    · rw [hsame, hb'] at hb''
      cases hb''
      dsimp only
      omega
    · rw [hnone] at hb''
      cases hb''

/-- Refused half a second before the end of its window, the client may come back in one. -/
theorem RateLimiter.retry_after_iff_last_second :
    let limiter : RateLimiter := ⟨1, 60 * nanosPerSec, by decide⟩
    let s := (limiter.checks (.new 0) [((1 : ℕ), 0)]).2
    let t := 59 * nanosPerSec + 500000000
    (∀ (others : List (ℕ × ℕ)) (t' : ℕ), (∀ c ∈ others, c.1 ≠ 1) →
        NonDecreasing t (others ++ [(1, t')]) → t + 1 * nanosPerSec ≤ t' →
        (limiter.check (limiter.checks (limiter.check s 1 t).2 others).2 1 t').1 = .admitted) ↔
      ∃ b, s.map.lookup 1 = some b ∧
        (b.start + limiter.window - t ≤ nanosPerSec ∨
          nanosPerSec ∣ b.start + limiter.window - t) := by
  intro limiter s t
  have h : limiter.check s 1 t = (.refused 1, (limiter.check s 1 t).2) :=
    Prod.ext (by decide) rfl
  exact limiter.retry_after_iff (by decide) h

/-- With 59.5 seconds left the limiter says 59, and refuses the client that waits 59. -/
theorem RateLimiter.retry_after_short :
    ¬∀ (limiter : RateLimiter) (trace : List (ℕ × ℕ)) (key t t' r : ℕ), 1 ≤ limiter.max →
      NonDecreasing 0 (trace ++ [(key, t), (key, t')]) →
      (limiter.check (limiter.checks (.new 0) trace).2 key t).1 = .refused r →
      t + r * nanosPerSec ≤ t' →
      (limiter.check (limiter.check (limiter.checks (.new 0) trace).2 key t).2 key t').1 =
        .admitted := by
  intro h
  have hback := h ⟨1, 60 * nanosPerSec, by decide⟩ [(1, 0)] 1 500000000
    (59 * nanosPerSec + 500000000) 59 (by decide) (by unfold NonDecreasing; decide) (by decide)
    (by decide)
  exact absurd hback (by decide)

end Nitr.Protect
