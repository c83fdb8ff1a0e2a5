import Nitr.Cache.Invariant

/-! # The invariant over whole runs

Ticks are handed out before the lock is taken, so a locked section may arrive
with a tick older than the ones already stored. What keeps the indexes apart is
that a tick belongs to one call: it is below the counter, and neither another
waiting call nor an entry holds it. -/

namespace Nitr.Cache

/-- The tick a waiting call brings to its locked section. -/
def Phase.tick : Phase → Option ℕ
  | .getLock _ _ t _ => some t
  | .setLock _ _ _ t => some t
  | .compute _ _ => none

structure Sys.Inv (opts : CacheOptions) (s : Sys) : Prop where
  consistent : s.inner.Consistent
  bounded : s.inner.Bounded opts
  used_lt : ∀ t, s.inner.Uses t → t < s.clock
  waiting_lt : ∀ t ∈ s.calls.filterMap Phase.tick, t < s.clock
  waiting_fresh : ∀ t ∈ s.calls.filterMap Phase.tick, ¬ s.inner.Uses t
  waiting_nodup : (s.calls.filterMap Phase.tick).Nodup

theorem Sys.Inv.init (opts : CacheOptions) : Sys.init.Inv opts := by
  refine ⟨Inner.default_consistent, ⟨Nat.zero_le _, Nat.zero_le _⟩, ?_, by simp [Sys.init],
    by simp [Sys.init], by simp [Sys.init]⟩
  rintro t ⟨k, e, he, _⟩
  simp [Sys.init, Inner.default] at he

/-! ## Steps outside the lock -/

/-- Drawing a tick and queueing the call that holds it. -/
theorem Sys.Inv.draw {opts : CacheOptions} {s : Sys} (h : s.Inv opts) {p : Phase}
    (hp : p.tick = some s.clock) :
    Sys.Inv opts { s with clock := s.clock + 1, calls := s.calls ++ [p] } := by
  have happ : (s.calls ++ [p]).filterMap Phase.tick =
      s.calls.filterMap Phase.tick ++ [s.clock] := by
    simp [List.filterMap_append, hp]
  refine ⟨h.consistent, h.bounded, ?_, ?_, ?_, ?_⟩
  · intro t ht
    have := h.used_lt t ht
    change t < s.clock + 1
    omega
  · intro t ht
    rw [happ, List.mem_append, List.mem_singleton] at ht
    change t < s.clock + 1
    rcases ht with ht | rfl
    · have := h.waiting_lt t ht
      omega
    · omega
  · intro t ht hu
    rw [happ, List.mem_append, List.mem_singleton] at ht
    rcases ht with ht | rfl
    · exact h.waiting_fresh t ht hu
    · exact (h.used_lt _ hu).ne rfl
  · change ((s.calls ++ [p]).filterMap Phase.tick).Nodup
    rw [happ]
    apply List.Nodup.append h.waiting_nodup (List.nodup_singleton _)
    intro t ht hm
    rw [List.mem_singleton] at hm
    exact (h.waiting_lt t ht).ne hm

/-- Dropping calls keeps the invariant: fewer ticks are waiting. -/
theorem Sys.Inv.sublist {opts : CacheOptions} {s : Sys} (h : s.Inv opts) {calls : List Phase}
    (hs : (calls.filterMap Phase.tick).Sublist (s.calls.filterMap Phase.tick)) :
    Sys.Inv opts { s with calls := calls } :=
  ⟨h.consistent, h.bounded, h.used_lt, fun t ht => h.waiting_lt t (hs.subset ht),
    fun t ht => h.waiting_fresh t (hs.subset ht), h.waiting_nodup.sublist hs⟩

theorem Sys.Inv.startSet {opts : CacheOptions} {horizon : Instant} {s : Sys} (h : s.Inv opts)
    (key : String) (value : List UInt8) (ttl : Option ℕ) (now : Instant) :
    (s.startSet opts horizon key value ttl now).Inv opts := by
  unfold Sys.startSet
  cases checkSet opts key value with
  | error err => exact h
  | ok u => exact h.draw rfl

/-! ## Locked sections -/

/-- A locked section that uses no new tick and grows neither bound. -/
theorem Sys.Inv.shrink {opts : CacheOptions} {s : Sys} (h : s.Inv opts) {inner : Inner}
    (hc : inner.Consistent) (hlen : inner.len ≤ s.inner.len) (hbytes : inner.bytes ≤ s.inner.bytes)
    (hu : ∀ t, inner.Uses t → s.inner.Uses t) : Sys.Inv opts { s with inner := inner } :=
  ⟨hc, ⟨hlen.trans h.bounded.1, hbytes.trans h.bounded.2⟩, fun t ht => h.used_lt t (hu t ht),
    h.waiting_lt, fun t ht hi => h.waiting_fresh t ht (hu t hi), h.waiting_nodup⟩

theorem Sys.Inv.remove {opts : CacheOptions} {s : Sys} (h : s.Inv opts) (key : String) :
    Sys.Inv opts { s with inner := (s.inner.remove key).1 } :=
  h.shrink (h.consistent.remove key) (s.inner.len_remove_le key) (s.inner.bytes_remove_le key)
    (fun _ ht => ht.of_remove)

/-- A locked section that stores the tick `t` of a call no longer waiting. -/
theorem Sys.Inv.store {opts : CacheOptions} {s : Sys} (h : s.Inv opts) {inner : Inner} {t : ℕ}
    (hc : inner.Consistent) (hb : inner.Bounded opts) (hlt : t < s.clock)
    (hnw : t ∉ s.calls.filterMap Phase.tick) (hu : ∀ r, inner.Uses r → r = t ∨ s.inner.Uses r) :
    Sys.Inv opts { s with inner := inner } := by
  refine ⟨hc, hb, ?_, h.waiting_lt, ?_, h.waiting_nodup⟩
  · intro r hr
    rcases hu r hr with rfl | hr
    · exact hlt
    · exact h.used_lt r hr
  · intro r hr hi
    rcases hu r hi with rfl | hi
    · exact hnw hr
    · exact h.waiting_fresh r hr hi

theorem Inner.len_touch {inner : Inner} {key : String} {e : Entry}
    (hk : inner.entries.lookup key = some e) (t : ℕ) : (inner.touch key e t).len = inner.len := by
  have hl := AList.length_erase hk
  simp only [Inner.len, Inner.touch, AList.entries_insert, List.length_cons]
  exact hl.symm

/-- The locked section of a read, whether it hits or misses. -/
theorem Sys.Inv.get {opts : CacheOptions} {s : Sys} (h : s.Inv opts) (key : String)
    (now : Instant) {t : ℕ} (hlt : t < s.clock) (hnw : t ∉ s.calls.filterMap Phase.tick)
    (hfresh : ¬ s.inner.Uses t) :
    Sys.Inv opts { s with inner := (s.inner.get key now t).1 } := by
  cases hk : s.inner.entries.lookup key with
  | none =>
      rw [Inner.get_of_none hk]
      exact h.shrink (h.consistent.with_misses _) le_rfl le_rfl (fun _ ht => ht)
  | some e =>
      cases hl : e.isLive now with
      | false =>
          rw [Inner.get_of_expired hk hl]
          exact h.shrink ((h.consistent.remove key).with_misses _) (s.inner.len_remove_le key)
            (s.inner.bytes_remove_le key) (fun _ ht => Inner.Uses.of_remove ht)
      | true =>
          rw [Inner.get_of_live h.consistent hk hl]
          refine h.store (h.consistent.touch hk hfresh) ?_ hlt hnw (fun _ hr => hr.of_touch hk)
          exact ⟨(Inner.len_touch hk t).trans_le h.bounded.1, h.bounded.2⟩

theorem Sys.Inv.locked {opts : CacheOptions} {s : Sys} (h : s.Inv opts) {p : Phase} {i : ℕ}
    (hp : s.calls[i]? = some p) (now : Instant) :
    (Sys.locked opts { s with calls := s.calls.eraseIdx i } p now).Inv opts := by
  obtain ⟨hi, hget⟩ := List.getElem?_eq_some_iff.mp hp
  have hsub : ((s.calls.eraseIdx i).filterMap Phase.tick).Sublist (s.calls.filterMap Phase.tick) :=
    (List.eraseIdx_sublist _ _).filterMap _
  have h' := h.sublist hsub
  -- the tick of the call taken out no longer waits
  have hgone : ∀ t, p.tick = some t →
      t ∈ s.calls.filterMap Phase.tick ∧ t ∉ (s.calls.eraseIdx i).filterMap Phase.tick := by
    intro t ht
    have hperm : s.calls.Perm (p :: s.calls.eraseIdx i) := by
      rw [← hget]
      exact (List.getElem_cons_eraseIdx_perm hi).symm
    have hcons : (s.calls.filterMap Phase.tick).Perm
        (t :: (s.calls.eraseIdx i).filterMap Phase.tick) := by
      have := hperm.filterMap Phase.tick
      rwa [List.filterMap_cons_some ht] at this
    refine ⟨hcons.mem_iff.mpr (by simp), ?_⟩
    exact (List.nodup_cons.mp (hcons.nodup_iff.mp h.waiting_nodup)).1
  cases p with
  | compute key ttl => exact h'
  | getLock key seen t remember =>
      obtain ⟨hmem, hnw⟩ := hgone t rfl
      have hg := h'.get key seen (h.waiting_lt t hmem) hnw (h.waiting_fresh t hmem)
      have hcompute : ∀ ttl, Sys.Inv opts
          { s with
            inner := (s.inner.get key seen t).1
            calls := s.calls.eraseIdx i ++ [.compute key ttl] } := by
        intro ttl
        apply hg.sublist
        simp [List.filterMap_append, Phase.tick]
      simp only [Sys.locked]
      cases (s.inner.get key seen t).2 with
      | none =>
          cases remember with
          | none => exact hg
          | some ttl => exact hcompute ttl
      | some v => exact hg
  | setLock key value at_ t =>
      obtain ⟨hmem, hnw⟩ := hgone t rfl
      have hc := h.consistent.put key value at_ (h.waiting_fresh t hmem)
      refine h'.store (hc.evictLoop _) (Inner.evictLoop_bounded _ hc le_rfl)
        (h.waiting_lt t hmem) hnw ?_
      intro r hr
      exact (hr.of_evictLoop _ hc).of_put

/-! ## Runs -/

theorem Sys.Inv.step {opts : CacheOptions} {horizon : Instant} {s : Sys} (h : s.Inv opts)
    (ev : Event) : (s.step opts horizon ev).Inv opts := by
  cases ev with
  | get key now => exact h.draw rfl
  | set key value ttl now =>
      cases value with
      | none => exact h.remove key
      | some bytes => exact h.startSet key bytes ttl now
  | delete key => exact h.remove key
  | clear =>
      have he : ∀ t, ¬ s.inner.clear.Uses t := by
        rintro t ⟨k, e, he, _⟩
        simp [Inner.clear] at he
      refine h.shrink ⟨?_, ?_, rfl, ?_⟩ (Nat.zero_le _) (Nat.zero_le _) (fun t ht => absurd ht (he t))
      · intro t k
        simp [Inner.clear]
      · intro p k
        simp [Inner.clear]
      · intro k k' e e' hk
        simp [Inner.clear] at hk
  | remember key ttl now => exact h.draw rfl
  | lock i now =>
      simp only [Sys.step]
      cases hp : s.calls[i]? with
      | none => exact h
      | some p =>
          cases p with
          | compute key ttl => exact h
          | getLock key seen t remember => exact h.locked hp now
          | setLock key value at_ t => exact h.locked hp now
  | computed i value now =>
      simp only [Sys.step]
      have h' : Sys.Inv opts { s with calls := s.calls.eraseIdx i } :=
        h.sublist ((List.eraseIdx_sublist _ _).filterMap _)
      cases hp : s.calls[i]? with
      | none => exact h
      | some p =>
          cases p with
          | getLock key seen t remember => exact h
          | setLock key value at_ t => exact h
          | compute key ttl =>
              cases value with
              | none => exact h'
              | some bytes => exact h'.startSet key bytes ttl now

theorem Sys.run_inv (opts : CacheOptions) (horizon : Instant) (events : List Event) :
    (Sys.run opts horizon events).Inv opts := by
  have key : ∀ s : Sys, s.Inv opts → (events.foldl (Sys.step opts horizon) s).Inv opts := by
    induction events with
    | nil => exact fun s h => h
    | cons ev events ih => exact fun s h => ih _ (h.step ev)
  exact key _ (Sys.Inv.init opts)

/-- After any interleaving of draws and locked sections: the indexes are exact, no
tick is shared, the counter is the total cost and both bounds are met. A `set`
about to take the lock starts from such a state; every state its eviction loop
passes through is exact as well, so no debit saturates there, and the loop ends
within both bounds. -/
theorem Sys.run_representation (opts : CacheOptions) (horizon : Instant) (events : List Event) :
    let s := Sys.run opts horizon events
    s.inner.Consistent ∧ s.inner.Bounded opts ∧
      (∀ k e, s.inner.entries.lookup k = some e → Entry.cost k e.value ≤ s.inner.bytes) ∧
      ∀ key value at_ t now, Phase.setLock key value at_ t ∈ s.calls →
        let put := s.inner.put key value at_ t
        (∀ n, (put.evictLoop opts now n).Consistent ∧
          ∀ k e, (put.evictLoop opts now n).entries.lookup k = some e →
            Entry.cost k e.value ≤ (put.evictLoop opts now n).bytes) ∧
        (put.evict opts now).Bounded opts := by
  intro s
  have h : s.Inv opts := Sys.run_inv opts horizon events
  refine ⟨h.consistent, h.bounded, fun k e he => h.consistent.cost_le he, ?_⟩
  intro key value at_ t now hm put
  have hw : t ∈ s.calls.filterMap Phase.tick := List.mem_filterMap.mpr ⟨_, hm, rfl⟩
  have hput : put.Consistent := h.consistent.put key value at_ (h.waiting_fresh t hw)
  refine ⟨?_, Inner.evictLoop_bounded _ hput le_rfl⟩
  intro n
  exact ⟨hput.evictLoop n, fun k e he => (hput.evictLoop n).cost_le he⟩

/-- A `set` that took the older tick meets the lock after one with the newer. -/
theorem Sys.run_representation_out_of_order :
    let opts : CacheOptions := ⟨1, 8, 0⟩
    let s := Sys.run opts 0 [.set "a" (some [1]) none 0, .set "b" (some [2]) none 0, .lock 1 0]
    Phase.setLock "a" [1] none 0 ∈ s.calls ∧
      ((s.inner.put "a" [1] none 0).evict opts 0).Bounded opts := by
  intro opts s
  have hm : Phase.setLock "a" [1] none 0 ∈ s.calls := by decide
  exact ⟨hm, ((Sys.run_representation opts 0 _).2.2.2 "a" [1] none 0 0 hm).2⟩

end Nitr.Cache
