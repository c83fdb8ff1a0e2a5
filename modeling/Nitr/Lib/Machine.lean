import Mathlib.Algebra.Ring.Nat

/-! # Machine words and slices

Computations that stop at an overflow or at an index out of range, and loops over them. A
number is a machine word where it is below the power of two; a slice is a list whose length
is a signed word. -/

namespace Machine

/-- What stops a computation. -/
inductive Fault where
  | overflow
  | outOfRange
  /-- An expected value is absent. -/
  | absent
  /-- The rounds a loop is given ran out. -/
  | unfinished
deriving DecidableEq, Repr

abbrev Checked (α : Type) : Type := Except Fault α

@[simp] theorem ok_bind {α β : Type} (a : α) (f : α → Checked β) :
    ((Except.ok a : Checked α) >>= f) = f a := rfl

@[simp] theorem error_bind {α β : Type} (fault : Fault) (f : α → Checked β) :
    ((Except.error fault : Checked α) >>= f) = .error fault := rfl

/-- The sizes of an address. -/
inductive Usize where
  | bits32
  | bits64
deriving DecidableEq, Repr

def Usize.bits : Usize → ℕ
  | .bits32 => 32
  | .bits64 => 64

/-- The number of words. -/
def Usize.size (w : Usize) : ℕ := 2 ^ w.bits

/-- The greatest length of a slice: a signed word. -/
def Usize.sliceMax (w : Usize) : ℕ := 2 ^ (w.bits - 1) - 1

/-! ## Arithmetic -/

def addBelow (bound a b : ℕ) : Checked ℕ :=
  if a + b < bound then .ok (a + b) else .error .overflow

def mulBelow (bound a b : ℕ) : Checked ℕ :=
  if a * b < bound then .ok (a * b) else .error .overflow

/-- Subtraction of words, which stops below zero. -/
def sub (a b : ℕ) : Checked ℕ := if b ≤ a then .ok (a - b) else .error .overflow

def Usize.add (w : Usize) : ℕ → ℕ → Checked ℕ := addBelow w.size

def Usize.mul (w : Usize) : ℕ → ℕ → Checked ℕ := mulBelow w.size

/-- `checked_add`. -/
def Usize.checkedAdd (w : Usize) (a b : ℕ) : Option ℕ :=
  if a + b < w.size then some (a + b) else none

/-! ## Slices -/

section

variable {α : Type}

/-- `xs[i]`. -/
def index (xs : List α) (i : ℕ) : Checked α :=
  match xs[i]? with
  | some x => .ok x
  | none => .error .outOfRange

/-- `xs.get(lo..hi)`. -/
def getRange (xs : List α) (lo hi : ℕ) : Option (List α) :=
  if lo ≤ hi ∧ hi ≤ xs.length then some ((xs.drop lo).take (hi - lo)) else none

/-- `&xs[lo..hi]`. -/
def slice (xs : List α) (lo hi : ℕ) : Checked (List α) :=
  match getRange xs lo hi with
  | some part => .ok part
  | none => .error .outOfRange

def expect : Option α → Checked α
  | some x => .ok x
  | none => .error .absent

end

/-! ## Loops -/

/-- How a round of a loop ends. -/
inductive Flow (σ ρ : Type) where
  | next (state : σ)
  | stop (result : ρ)

section

variable {σ ρ : Type}

/-- The loop, with the rounds it may take. -/
def loop (round : σ → Checked (Flow σ ρ)) : ℕ → σ → Checked ρ
  | 0, _ => .error .unfinished
  | rounds + 1, state => do
      match ← round state with
      | .next state => loop round rounds state
      | .stop result => pure result

/-- The loop ends in what one more round tells of the outcome, where every round keeps the
invariant and brings the measure down. -/
theorem loop_eq {round : σ → Checked (Flow σ ρ)} (outcome : σ → Checked ρ) (Inv : σ → Prop)
    (measure : σ → ℕ)
    (hround : ∀ state, Inv state →
      (∃ next, round state = .ok (.next next) ∧ Inv next ∧ measure next < measure state ∧
        outcome next = outcome state) ∨
      (∃ result, round state = .ok (.stop result) ∧ outcome state = .ok result) ∨
      (∃ fault, round state = .error fault ∧ outcome state = .error fault))
    {rounds : ℕ} {state : σ} (hinv : Inv state) (hmeasure : measure state < rounds) :
    loop round rounds state = outcome state := by
  induction rounds generalizing state with
  | zero => exact absurd hmeasure (Nat.not_lt_zero _)
  | succ rounds ih =>
      rw [loop]
      rcases hround state hinv with ⟨next, hnext, hkept, hless, heq⟩ | ⟨result, hstop, heq⟩ |
        ⟨fault, hfault, heq⟩
      · rw [hnext, ← heq]
        exact ih hkept (by omega)
      · rw [hstop, heq]
        rfl
      · rw [hfault, heq]
        rfl

end

/-- A computation ends, and with the result it has from some number of rounds on. -/
def Total {α : Type} (x : ℕ → Checked α) : Prop :=
  ∃ result least, ∀ rounds, least ≤ rounds → x rounds = .ok result

/-! ## Where no fault arises -/

section

variable {α : Type} {w : Usize} {a b n k : ℕ}

theorem addBelow_eq {bound : ℕ} (h : a + b < bound) : addBelow bound a b = .ok (a + b) := if_pos h

theorem mulBelow_eq {bound : ℕ} (h : a * b < bound) : mulBelow bound a b = .ok (a * b) := if_pos h

theorem sub_eq (h : b ≤ a) : sub a b = .ok (a - b) := if_pos h

theorem Usize.add_eq (h : a + b < w.size) : w.add a b = .ok (a + b) := if_pos h

theorem Usize.add_overflow (h : w.size ≤ a + b) : w.add a b = .error .overflow :=
  if_neg (by omega)

theorem Usize.mul_eq (h : a * b < w.size) : w.mul a b = .ok (a * b) := if_pos h

theorem Usize.checkedAdd_eq (h : a + b < w.size) : w.checkedAdd a b = some (a + b) := if_pos h

theorem Usize.checkedAdd_eq_none (h : w.size ≤ a + b) : w.checkedAdd a b = none :=
  if_neg (by omega)

/-- Beyond a length of a slice there is as much room again. -/
theorem Usize.room (hn : n ≤ w.sliceMax) (hk : k ≤ 2 ^ 31) : n + k < w.size := by
  cases w with
  | bits32 =>
      have hn : n ≤ 2 ^ 31 - 1 := hn
      have : Usize.bits32.size = 2 ^ 32 := rfl
      omega
  | bits64 =>
      have hn : n ≤ 2 ^ 63 - 1 := hn
      have : Usize.bits64.size = 2 ^ 64 := rfl
      omega

theorem Usize.small (hk : k ≤ 2 ^ 31) : k < w.size := by
  have := Usize.room (w := w) (Nat.zero_le _) hk
  omega

theorem index_eq {xs : List α} {i : ℕ} {x : α} (h : xs[i]? = some x) : index xs i = .ok x := by
  rw [index, h]

theorem slice_eq {xs : List α} {lo hi : ℕ} (hle : lo ≤ hi) (hhi : hi ≤ xs.length) :
    slice xs lo hi = .ok ((xs.drop lo).take (hi - lo)) := by
  rw [slice, getRange, if_pos ⟨hle, hhi⟩]

end

/-! ## Totality -/

section

variable {α : Type} {x : ℕ → Checked α}

theorem Total.of_eq {result : α} {least : ℕ} (h : ∀ rounds, least ≤ rounds → x rounds = .ok result) :
    Total x := ⟨result, least, h⟩

theorem not_total_of_error {fault : Fault} {least : ℕ}
    (h : ∀ rounds, least ≤ rounds → x rounds = .error fault) : ¬Total x := by
  intro ⟨result, least', htotal⟩
  have hok := htotal (max least least') (Nat.le_max_right ..)
  rw [h _ (Nat.le_max_left ..)] at hok
  cases hok

end

end Machine
