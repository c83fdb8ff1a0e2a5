import Nitr.Protect.RetryAfter

/-! # Spent budgets

A client that was refused is refused until its window ends, as long as no check finds an open
window whose counter is at its last number: that check overflows the counter, poisons the lock
and thereby admits everyone. -/

namespace Nitr.Protect

variable {K : Type} [DecidableEq K]

def Decision.refuses : Decision → Bool
  | refused _ => true
  | _ => false

/-- The client's window is open and its counter at the last 32-bit number. -/
def RateLimiter.Full (limiter : RateLimiter) (s : Buckets K) (key : K) (now : ℕ) : Prop :=
  ∃ b, s.map.lookup key = some b ∧ b.start ≤ now ∧ now < b.start + limiter.window ∧
    b.count + 1 = 2 ^ 32

/-- No check of the sequence finds a full counter. -/
def RateLimiter.Roomy (limiter : RateLimiter) : Buckets K → List (K × ℕ) → Prop
  | _, [] => True
  | s, (key, now) :: rest =>
    ¬limiter.Full s key now ∧ limiter.Roomy (limiter.check s key now).2 rest

/-- Between a refusal and a later check of the client inside the same window there may be any
checks; the later one is refused. -/
def RateLimiter.StaysRefused (limiter : RateLimiter) (s : Buckets K) (trace : List (K × ℕ)) :
    Prop :=
  ∀ before between after key t t', trace = before ++ (key, t) :: between ++ (key, t') :: after →
    let refusal := limiter.check (limiter.checks s before).2 key t
    refusal.1.refuses = true →
      ∀ b, refusal.2.map.lookup key = some b → t' < b.start + limiter.window →
        (limiter.check (limiter.checks refusal.2 between).2 key t').1.refuses = true

/-- Refusals last, and no counter overflows. -/
structure RateLimiter.Lawful (limiter : RateLimiter) (s : Buckets K) (trace : List (K × ℕ)) :
    Prop where
  stays : limiter.StaysRefused s trace
  counts : ∀ d ∈ (limiter.checks s trace).1, d ≠ .panicked

/-! ## One check -/

section

variable {limiter : RateLimiter} {s : Buckets K} {key other : K} {t now : ℕ} {b : Bucket}

theorem RateLimiter.current_of_open (hstart : b.start ≤ now)
    (hopen : now < b.start + limiter.window) : limiter.current (some b) now = b := by
  rw [RateLimiter.current]
  exact if_neg (by omega)

omit [DecidableEq K] in
theorem poisoned_purge : (limiter.purge s now).poisoned = s.poisoned := by
  rw [RateLimiter.purge]
  split <;> rfl

/-- The counter that a check is about to raise is at its end where the client's is full. -/
theorem RateLimiter.full_iff :
    limiter.Full s key now ↔
      (limiter.current ((limiter.purge s now).map.lookup key) now).count + 1 = 2 ^ 32 := by
  constructor
  · intro ⟨b, hb, hstart, hopen, hlast⟩
    rw [lookup_purge_open hb (by omega), RateLimiter.current_of_open hstart hopen, hlast]
  · intro hlast
    cases hlookup : (limiter.purge s now).map.lookup key with
    | none =>
        rw [hlookup] at hlast
        cases hlast
    | some b =>
        have hb : s.map.lookup key = some b := by
          cases lookup_purge limiter s key now with
          | inl hsame => rw [← hsame, hlookup]
          | inr hnone =>
              rw [hnone] at hlookup
              cases hlookup
        rw [hlookup, RateLimiter.current] at hlast
        split at hlast
        · cases hlast
        · exact ⟨b, hb, by omega, by omega, hlast⟩

theorem RateLimiter.check_eq_panicked :
    (limiter.check s key now).1 = .panicked ↔ s.poisoned = false ∧ limiter.Full s key now := by
  rw [RateLimiter.full_iff, RateLimiter.check]
  cases s.poisoned with
  | true => exact ⟨(nomatch ·), fun h => absurd h.1 Bool.true_eq_false.mp⟩
  | false =>
      rw [if_neg Bool.false_ne_true]
      dsimp only
      split
      · rename_i hcap
        have hnone := Option.isNone_iff_eq_none.mp hcap.2
        rw [hnone]
        exact ⟨(nomatch ·), fun h => absurd h.2 (show ¬0 + 1 = 2 ^ 32 by decide)⟩
      · split
        · rename_i hlast
          exact ⟨fun _ => ⟨rfl, hlast⟩, fun _ => rfl⟩
        · rename_i hroom
          refine ⟨fun h => ?_, fun h => absurd h.2 hroom⟩
          split at h <;> cases h

/-- A check with room leaves the lock sound. -/
theorem RateLimiter.check_sound (hs : s.poisoned = false) (hroom : ¬limiter.Full s key now) :
    (limiter.check s key now).2.poisoned = false := by
  rw [RateLimiter.full_iff] at hroom
  rw [RateLimiter.check, hs, if_neg Bool.false_ne_true]
  dsimp only
  rw [if_neg hroom]
  split
  · exact poisoned_purge.trans hs
  · split <;> exact poisoned_purge.trans hs

/-- The client's budget is spent in the window that starts at `start`. -/
structure RateLimiter.Spent (limiter : RateLimiter) (s : Buckets K) (key : K) (start : ℕ) :
    Prop where
  sound : s.poisoned = false
  counted : ∃ count, s.map.lookup key = some ⟨start, count⟩ ∧ limiter.max < count

/-- A check in an open window that has room counts, whatever it decides. -/
theorem RateLimiter.check_of_open (hs : s.poisoned = false) (hb : s.map.lookup key = some b)
    (hstart : b.start ≤ now) (hopen : now < b.start + limiter.window)
    (hroom : ¬limiter.Full s key now) :
    (limiter.check s key now).2.map.lookup key = some ⟨b.start, b.count + 1⟩ ∧
      (limiter.max < b.count + 1 → (limiter.check s key now).1.refuses = true) := by
  have hlookup := lookup_purge_open hb (show now - b.start < limiter.window by omega)
  have hcurrent : limiter.current (some b) now = b := RateLimiter.current_of_open hstart hopen
  rw [RateLimiter.full_iff, hlookup, hcurrent] at hroom
  rw [RateLimiter.check, hs, if_neg Bool.false_ne_true]
  dsimp only
  rw [hlookup, if_neg (by simp), hcurrent, if_neg hroom]
  split
  · exact ⟨AList.lookup_insert _, fun _ => rfl⟩
  · rename_i hmax
    exact ⟨AList.lookup_insert _, fun h => absurd h hmax⟩

/-- Inside the window the client is refused, and its budget stays spent. -/
theorem RateLimiter.Spent.check_self {start : ℕ} (h : limiter.Spent s key start)
    (hstart : start ≤ now) (hopen : now < start + limiter.window)
    (hroom : ¬limiter.Full s key now) :
    (limiter.check s key now).1.refuses = true ∧
      limiter.Spent (limiter.check s key now).2 key start := by
  have ⟨count, hcount, hmax⟩ := h.counted
  have hnext := RateLimiter.check_of_open h.sound hcount hstart hopen hroom
  exact ⟨hnext.2 (Nat.lt_succ_of_lt hmax), RateLimiter.check_sound h.sound hroom, count + 1,
    hnext.1, Nat.lt_succ_of_lt hmax⟩

/-- The check of another client touches the bucket only by the purge. -/
theorem RateLimiter.check_lookup_purge (hs : s.poisoned = false) (hother : other ≠ key) :
    (limiter.check s other now).2.map.lookup key = (limiter.purge s now).map.lookup key := by
  rw [RateLimiter.check, hs, if_neg Bool.false_ne_true]
  dsimp only
  split
  · rfl
  · split
    · rw [AList.lookup_insert_eq, if_neg hother.symm]
    · split <;> rw [AList.lookup_insert_eq, if_neg hother.symm]

/-- The checks of others leave it spent. -/
theorem RateLimiter.Spent.check_other {start : ℕ} (h : limiter.Spent s key start)
    (hother : other ≠ key) (hstart : start ≤ now) (hopen : now < start + limiter.window)
    (hroom : ¬limiter.Full s other now) :
    limiter.Spent (limiter.check s other now).2 key start := by
  have ⟨count, hcount, hmax⟩ := h.counted
  have hsound := RateLimiter.check_sound h.sound hroom
  refine ⟨hsound, count, ?_, hmax⟩
  rw [RateLimiter.check_lookup_purge h.sound hother]
  exact lookup_purge_open hcount (show now - start < limiter.window by omega)

/-- A refusal leaves the budget spent in the window it was in. -/
theorem RateLimiter.spent_of_refuses (hrefuses : (limiter.check s key now).1.refuses = true)
    (hb : (limiter.check s key now).2.map.lookup key = some b) :
    b.start ≤ now ∧ limiter.Spent (limiter.check s key now).2 key b.start := by
  rw [RateLimiter.check] at hrefuses hb ⊢
  cases hs : s.poisoned with
  | true =>
      rw [hs] at hrefuses
      cases hrefuses
  | false =>
      rw [hs, if_neg Bool.false_ne_true] at hrefuses hb
      rw [if_neg Bool.false_ne_true]
      dsimp only at hrefuses hb ⊢
      split at hrefuses
      · cases hrefuses
      · rename_i hcap
        rw [if_neg hcap] at hb ⊢
        split at hrefuses
        · cases hrefuses
        · rename_i hroom
          rw [if_neg hroom] at hb ⊢
          split at hrefuses
          · rename_i hmax
            rw [if_pos hmax] at hb ⊢
            dsimp only at hb ⊢
            rw [AList.lookup_insert] at hb
            cases hb
            refine ⟨limiter.current_start_le _ _, poisoned_purge.trans hs, _, ?_, hmax⟩
            rw [AList.lookup_insert]
          · cases hrefuses

end

/-! ## Runs -/

section

variable {limiter : RateLimiter} {s : Buckets K} {key : K} {trace front back : List (K × ℕ)}

theorem RateLimiter.checks_append :
    (limiter.checks s (front ++ back)).2 =
      (limiter.checks (limiter.checks s front).2 back).2 := by
  induction front generalizing s with
  | nil => rfl
  | cons c front ih => exact ih

theorem RateLimiter.roomy_append :
    limiter.Roomy s (front ++ back) ↔
      limiter.Roomy s front ∧ limiter.Roomy (limiter.checks s front).2 back := by
  induction front generalizing s with
  | nil => exact ⟨fun h => ⟨trivial, h⟩, And.right⟩
  | cons c front ih =>
      rw [List.cons_append, RateLimiter.Roomy, RateLimiter.Roomy, ih, and_assoc]
      rfl

/-- Through the window the budget stays spent. -/
theorem RateLimiter.Spent.checks {start : ℕ} (h : limiter.Spent s key start)
    (htimes : ∀ c ∈ trace, start ≤ c.2 ∧ c.2 < start + limiter.window)
    (hroomy : limiter.Roomy s trace) : limiter.Spent (limiter.checks s trace).2 key start := by
  induction trace generalizing s with
  | nil => exact h
  | cons c trace ih =>
      have ⟨other, now⟩ := c
      have ⟨hstart, hopen⟩ := htimes _ List.mem_cons_self
      have htimes' : ∀ c ∈ trace, start ≤ c.2 ∧ c.2 < start + limiter.window :=
        fun c hc => htimes c (List.mem_cons_of_mem _ hc)
      by_cases hother : other = key
      · rw [hother] at hroomy ⊢
        exact ih (h.check_self hstart hopen hroomy.1).2 htimes' hroomy.2
      · exact ih (h.check_other hother hstart hopen hroomy.1) htimes' hroomy.2

/-- A sound lock stays so exactly where no check finds a full counter. -/
theorem RateLimiter.counts_iff (hs : s.poisoned = false) :
    (∀ d ∈ (limiter.checks s trace).1, d ≠ .panicked) ↔ limiter.Roomy s trace := by
  induction trace generalizing s with
  | nil => exact ⟨fun _ => trivial, fun _ d hd => absurd hd List.not_mem_nil⟩
  | cons c trace ih =>
      have ⟨other, now⟩ := c
      change (∀ d ∈ (limiter.check s other now).1 ::
        (limiter.checks (limiter.check s other now).2 trace).1, d ≠ .panicked) ↔ _
      rw [List.forall_mem_cons, RateLimiter.Roomy]
      have hfirst : (limiter.check s other now).1 ≠ .panicked ↔ ¬limiter.Full s other now := by
        rw [Ne, RateLimiter.check_eq_panicked, hs]
        exact not_congr (and_iff_right rfl)
      rw [hfirst]
      exact and_congr_right fun hroom => ih (RateLimiter.check_sound hs hroom)

theorem RateLimiter.Roomy.staysRefused {t : ℕ} (hmono : NonDecreasing t trace)
    (hroomy : limiter.Roomy s trace) : limiter.StaysRefused s trace := by
  intro before between after key now later htrace refusal hrefuses b hb hend
  have ⟨hstart, hspent⟩ := RateLimiter.spent_of_refuses hrefuses hb
  have htimes := (List.pairwise_cons.mp hmono).2
  rw [htrace, List.map_append, List.map_append, List.map_cons, List.map_cons,
    List.pairwise_append, List.pairwise_append, List.pairwise_cons] at htimes
  have ⟨⟨_, ⟨hafter, _⟩, _⟩, _, hbefore⟩ := htimes
  have hlater (time : ℕ) (hmem : time ∈ now :: between.map Prod.snd) : time ≤ later :=
    hbefore time (List.mem_append_right _ hmem) later List.mem_cons_self
  have hbetween : ∀ c ∈ between, b.start ≤ c.2 ∧ c.2 < b.start + limiter.window := by
    intro c hc
    have hmem : c.2 ∈ between.map Prod.snd := List.mem_map_of_mem hc
    have hfrom := hafter c.2 hmem
    have hto := hlater c.2 (List.mem_cons_of_mem _ hmem)
    omega
  rw [htrace, RateLimiter.roomy_append, RateLimiter.roomy_append] at hroomy
  have ⟨⟨_, hpart⟩, hrest⟩ := hroomy
  rw [RateLimiter.checks_append] at hrest
  have hsame := hlater now List.mem_cons_self
  exact ((hspent.checks hbetween hpart.2).check_self (by omega) hend hrest.1).1

end

/-- Refusals last and counters do not overflow in exactly the runs of which no check finds its
client's open window with the counter at the last 32-bit number. -/
theorem RateLimiter.lawful_iff (limiter : RateLimiter) (t : ℕ) (trace : List (K × ℕ))
    (hmono : NonDecreasing t trace) :
    limiter.Lawful (.new t) trace ↔ limiter.Roomy (.new t) trace := by
  constructor
  · exact fun h => (RateLimiter.counts_iff rfl).mp h.counts
  · exact fun h => ⟨h.staysRefused hmono, (RateLimiter.counts_iff rfl).mpr h⟩

/-- Two checks of one client in a window. -/
theorem RateLimiter.lawful_iff_twice :
    let limiter : RateLimiter := ⟨0, 10, by decide⟩
    limiter.Lawful (.new 0 : Buckets ℕ) [(1, 0), (1, 5)] ↔
      limiter.Roomy (.new 0 : Buckets ℕ) [(1, 0), (1, 5)] :=
  RateLimiter.lawful_iff _ 0 _ (by unfold NonDecreasing; decide)

/-! ## A run that overflows -/

section

variable {limiter : RateLimiter} {s : Buckets K} {key : K} {t count n : ℕ}

/-- As many checks as are left to the counter are one too many. -/
theorem RateLimiter.not_roomy_replicate (hs : s.poisoned = false) (hwindow : 0 < limiter.window)
    (hcount : s.map.lookup key = some ⟨t, count⟩) (hn : count + (n + 1) = 2 ^ 32) :
    ¬limiter.Roomy s (List.replicate (n + 1) (key, t)) := by
  have hopen : t < t + limiter.window := Nat.lt_add_of_pos_right hwindow
  induction n generalizing s count with
  | zero =>
      intro hroomy
      exact hroomy.1 ⟨_, hcount, Nat.le_refl t, hopen, hn⟩
  | succ n ih =>
      rw [List.replicate_succ, RateLimiter.Roomy]
      intro ⟨hroom, hrest⟩
      have hnext := RateLimiter.check_of_open hs hcount (Nat.le_refl t) hopen hroom
      have hleft : count + 1 + (n + 1) = 2 ^ 32 := by omega
      exact ih (RateLimiter.check_sound hs hroom) hnext.1 hleft hrest

/-- A new client has made one check after its first. -/
theorem RateLimiter.check_new (limiter : RateLimiter) (key : K) (t : ℕ) :
    (limiter.check (.new t) key t).2.map.lookup key = some ⟨t, 1⟩ := by
  have hpurge : limiter.purge (.new t) t = (.new t : Buckets K) := if_neg (by
    intro h
    exact absurd h.1 (Nat.not_lt_zero _))
  have hempty : (Buckets.new t : Buckets K).map.lookup key = none := rfl
  have hsound : (Buckets.new t : Buckets K).poisoned = false := rfl
  have hcap : ¬maxBuckets ≤ (Buckets.new t : Buckets K).len := show ¬200000 ≤ 0 by decide
  have hcount : ¬(limiter.current none t).count + 1 = 2 ^ 32 := show ¬0 + 1 = 2 ^ 32 by decide
  rw [RateLimiter.check, hsound, if_neg Bool.false_ne_true, hpurge]
  dsimp only
  rw [if_neg fun h => hcap h.1, hempty, if_neg hcount]
  split <;> exact AList.lookup_insert _

end

/-- Of as many checks in a window as there are 32-bit numbers the last one overflows. -/
theorem RateLimiter.checks_overflow :
    ¬∀ (limiter : RateLimiter) (t : ℕ) (trace : List (ℕ × ℕ)), NonDecreasing t trace →
      limiter.Lawful (.new t) trace := by
  intro h
  let limiter : RateLimiter := ⟨1, 10, by decide⟩
  have hmono (n : ℕ) : NonDecreasing 0 (List.replicate n ((1, 0) : ℕ × ℕ)) := by
    rw [NonDecreasing, List.map_replicate, ← List.replicate_succ]
    exact List.pairwise_replicate.mpr (.inr (Nat.le_refl 0))
  have hroomy (n : ℕ) : limiter.Roomy (.new 0) (List.replicate n (1, 0)) :=
    (RateLimiter.counts_iff rfl).mp (h limiter 0 _ (hmono n)).counts
  have hrest (n : ℕ) :
      limiter.Roomy (limiter.check (.new 0) 1 0).2 (List.replicate n (1, 0)) := by
    have hall := hroomy (n + 1)
    rw [List.replicate_succ] at hall
    exact hall.2
  have hsound : (limiter.check (.new 0) 1 0).2.poisoned = false :=
    RateLimiter.check_sound rfl (hroomy 1).1
  have hlast : 1 + (2 ^ 32 - 2 + 1) = 2 ^ 32 := by decide
  exact RateLimiter.not_roomy_replicate hsound (by decide) (limiter.check_new 1 0) hlast (hrest _)

end Nitr.Protect
