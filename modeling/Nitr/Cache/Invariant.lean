import Nitr.Cache.Model
import Nitr.Lib.AListWeight

/-! # Representation invariant of the cache

The two ordered indexes and the hand-kept byte counter describe the entry map.
Each locked section keeps that, whatever order the ticks arrive in. -/

namespace Nitr.Cache

/-! ## One set of entries, three indexes -/

/-- A tick stored in some entry. -/
def Inner.Uses (inner : Inner) (t : ℕ) : Prop :=
  ∃ k e, inner.entries.lookup k = some e ∧ (e.touched = t ∨ e.inserted = t)

/-- The indexes list exactly the entries, the byte counter is their total cost,
and no tick is shared by two entries. -/
structure Inner.Consistent (inner : Inner) : Prop where
  lru_iff : ∀ t k, inner.lru.get t = some k ↔
    ∃ e, inner.entries.lookup k = some e ∧ e.touched = t
  expiry_iff : ∀ p k, inner.expiry.get p = some k ↔
    ∃ e at_, inner.entries.lookup k = some e ∧ e.expiresAt = some at_ ∧
      p = toLex (at_, e.inserted)
  bytes_eq : inner.bytes = inner.entries.weight (fun k e => Entry.cost k e.value)
  ticks : ∀ k k' e e', inner.entries.lookup k = some e → inner.entries.lookup k' = some e' →
    k ≠ k' → e.touched ≠ e'.touched ∧ e.inserted ≠ e'.inserted ∧ e.touched ≠ e'.inserted

/-- Both bounds of the options are met. -/
def Inner.Bounded (opts : CacheOptions) (inner : Inner) : Prop :=
  inner.len ≤ opts.maxEntries ∧ inner.bytes ≤ opts.maxBytes

theorem Inner.overBounds_eq_false_iff (opts : CacheOptions) (inner : Inner) :
    inner.overBounds opts = false ↔ inner.Bounded opts := by
  simp [overBounds, Bounded]

theorem Inner.default_consistent : Inner.default.Consistent := by
  refine ⟨?_, ?_, rfl, ?_⟩
  · intro t k
    simp [Inner.default]
  · intro p k
    simp [Inner.default]
  · intro k k' e e' he
    simp [Inner.default] at he

/-- A saturating debit of a present entry never saturates. -/
theorem Inner.Consistent.cost_le {inner : Inner} (h : inner.Consistent) {k : String} {e : Entry}
    (he : inner.entries.lookup k = some e) : Entry.cost k e.value ≤ inner.bytes := by
  rw [h.bytes_eq, AList.weight_erase _ he]
  omega

theorem Inner.Consistent.touched_inj {inner : Inner} (h : inner.Consistent) {k k' : String}
    {e e' : Entry} (he : inner.entries.lookup k = some e)
    (he' : inner.entries.lookup k' = some e') (ht : e.touched = e'.touched) : k = k' := by
  by_contra hne
  exact (h.ticks k k' e e' he he' hne).1 ht

/-! ## Removal -/

theorem Inner.remove_of_none {inner : Inner} {key : String}
    (h : inner.entries.lookup key = none) : inner.remove key = (inner, none) := by
  simp [remove, h]

theorem Inner.lookup_remove (inner : Inner) (key k : String) :
    (inner.remove key).1.entries.lookup k = if k = key then none else inner.entries.lookup k := by
  cases h : inner.entries.lookup key with
  | none =>
      rw [remove_of_none h]
      by_cases hk : k = key
      · rw [if_pos hk, hk, h]
      · rw [if_neg hk]
  | some e => simp only [remove, h, AList.lookup_erase_eq]

theorem Inner.bytes_remove {inner : Inner} {key : String} {e : Entry}
    (h : inner.entries.lookup key = some e) :
    (inner.remove key).1.bytes = inner.bytes - Entry.cost key e.value := by
  simp [remove, h]

theorem Inner.len_remove {inner : Inner} {key : String} {e : Entry}
    (h : inner.entries.lookup key = some e) :
    inner.len = (inner.remove key).1.len + 1 := by
  simp only [remove, h, len]
  exact AList.length_erase h

theorem Inner.len_remove_le (inner : Inner) (key : String) :
    (inner.remove key).1.len ≤ inner.len := by
  cases h : inner.entries.lookup key with
  | none => rw [remove_of_none h]
  | some e =>
      have := len_remove h
      omega

theorem Inner.bytes_remove_le (inner : Inner) (key : String) :
    (inner.remove key).1.bytes ≤ inner.bytes := by
  cases h : inner.entries.lookup key with
  | none => rw [remove_of_none h]
  | some e =>
      rw [bytes_remove h]
      exact Nat.sub_le _ _

theorem Inner.Consistent.remove {inner : Inner} (h : inner.Consistent) (key : String) :
    (inner.remove key).1.Consistent := by
  cases hk : inner.entries.lookup key with
  | none =>
      rw [remove_of_none hk]
      exact h
  | some e =>
      refine ⟨?_, ?_, ?_, ?_⟩
      · intro t k
        rw [lookup_remove]
        simp only [Inner.remove, hk, OrdMap.get_erase]
        by_cases ht : t = e.touched
        · rw [if_pos ht]
          simp only [reduceCtorEq, false_iff, not_exists, not_and]
          intro e' he' ht'
          by_cases hkk : k = key
          · simp [hkk] at he'
          · rw [if_neg hkk] at he'
            exact hkk (h.touched_inj he' hk (ht'.trans ht))
        · rw [if_neg ht, h.lru_iff]
          by_cases hkk : k = key
          · subst hkk
            simp [hk, Ne.symm ht]
          · rw [if_neg hkk]
      · intro p k
        rw [lookup_remove]
        by_cases hkk : k = key
        · subst hkk
          simp only [if_true, reduceCtorEq, false_and, exists_false, iff_false]
          -- the only index entry of `k` is the one just erased
          cases hat : e.expiresAt with
          | none =>
              simp only [Inner.remove, hk, hat, h.expiry_iff]
              simp [hat]
          | some at_ =>
              simp only [Inner.remove, hk, hat, OrdMap.get_erase]
              by_cases hp : p = toLex (at_, e.inserted)
              · simp [hp]
              · rw [if_neg hp, h.expiry_iff]
                simp [hk, hat, hp]
        · rw [if_neg hkk, ← h.expiry_iff]
          cases hat : e.expiresAt with
          | none => simp only [Inner.remove, hk, hat]
          | some at_ =>
              simp only [Inner.remove, hk, hat, OrdMap.get_erase]
              by_cases hp : p = toLex (at_, e.inserted)
              · rw [if_pos hp]
                simp only [reduceCtorEq, false_iff, h.expiry_iff, not_exists, not_and]
                intro e' at' he' _ hp'
                have hi : e'.inserted = e.inserted := by
                  rw [hp] at hp'
                  exact (congrArg Prod.snd (toLex.injective hp')).symm
                exact (h.ticks k key e' e he' hk hkk).2.1 hi
              · rw [if_neg hp]
      · have hb := AList.weight_erase (fun k e => Entry.cost k e.value) hk
        rw [bytes_remove hk, h.bytes_eq, hb]
        simp only [Inner.remove, hk]
        omega
      · intro k k' a b ha hb
        rw [lookup_remove] at ha hb
        by_cases hkk : k = key
        · simp [hkk] at ha
        · by_cases hkk' : k' = key
          · simp [hkk'] at hb
          · rw [if_neg hkk] at ha
            rw [if_neg hkk'] at hb
            exact h.ticks k k' a b ha hb

theorem Inner.Uses.of_remove {inner : Inner} {key : String} {t : ℕ}
    (h : (inner.remove key).1.Uses t) : inner.Uses t := by
  obtain ⟨k, e, he, ht⟩ := h
  rw [lookup_remove] at he
  by_cases hk : k = key
  · simp [hk] at he
  · rw [if_neg hk] at he
    exact ⟨k, e, he, ht⟩

/-! ## A read that hits -/

/-- The entry is re-ranked under the tick of the read. -/
def Inner.touch (inner : Inner) (key : String) (e : Entry) (t : ℕ) : Inner :=
  { inner with
    entries := inner.entries.insert key { e with touched := t }
    lru := (inner.lru.erase e.touched).insert t key
    hits := inner.hits + 1 }

theorem Inner.lookup_touch (inner : Inner) (key : String) (e : Entry) (t : ℕ) (k : String) :
    (inner.touch key e t).entries.lookup k =
      if k = key then some { e with touched := t } else inner.entries.lookup k :=
  AList.lookup_insert_eq _ _ _ _

theorem Inner.Consistent.touch {inner : Inner} (h : inner.Consistent) {key : String} {e : Entry}
    (hk : inner.entries.lookup key = some e) {t : ℕ} (ht : ¬ inner.Uses t) :
    (inner.touch key e t).Consistent := by
  have hfresh : ∀ {k e'}, inner.entries.lookup k = some e' → e'.touched ≠ t ∧ e'.inserted ≠ t := by
    intro k e' he'
    exact ⟨fun hc => ht ⟨k, e', he', Or.inl hc⟩, fun hc => ht ⟨k, e', he', Or.inr hc⟩⟩
  refine ⟨?_, ?_, ?_, ?_⟩
  · intro s k
    rw [lookup_touch]
    change ((inner.lru.erase e.touched).insert t key).get s = some k ↔ _
    rw [OrdMap.get_insert, OrdMap.get_erase]
    by_cases hs : s = t
    · subst hs
      rw [if_pos rfl]
      by_cases hkk : k = key
      · simp [hkk]
      · simp only [Option.some.injEq, if_neg hkk, Ne.symm hkk, false_iff, not_exists, not_and]
        intro e' he'
        exact (hfresh he').1
    · rw [if_neg hs]
      by_cases hse : s = e.touched
      · rw [if_pos hse]
        simp only [reduceCtorEq, false_iff, not_exists, not_and]
        intro e' he' ht'
        by_cases hkk : k = key
        · rw [if_pos hkk] at he'
          obtain rfl := Option.some.inj he'
          exact hs ht'.symm
        · rw [if_neg hkk] at he'
          exact hkk (h.touched_inj he' hk (ht'.trans hse))
      · rw [if_neg hse, h.lru_iff]
        by_cases hkk : k = key
        · subst hkk
          simp [hk, Ne.symm hse, Ne.symm hs]
        · rw [if_neg hkk]
  · intro p k
    rw [lookup_touch]
    change inner.expiry.get p = some k ↔ _
    rw [h.expiry_iff]
    by_cases hkk : k = key
    · subst hkk
      simp [hk]
    · rw [if_neg hkk]
  · have hb := AList.weight_erase (fun k e => Entry.cost k e.value) hk
    change inner.bytes = (inner.entries.insert key { e with touched := t }).weight _
    rw [h.bytes_eq, hb, AList.weight_insert]
  · intro k k' a b ha hb hne
    rw [lookup_touch] at ha hb
    by_cases hkk : k = key
    · rw [if_pos hkk] at ha
      obtain rfl := Option.some.inj ha
      have hkk' : k' ≠ key := fun hc => hne (hkk.trans hc.symm)
      rw [if_neg hkk'] at hb
      have hd := h.ticks key k' e b hk hb (fun hc => hkk' hc.symm)
      exact ⟨(hfresh hb).1.symm, hd.2.1, (hfresh hb).2.symm⟩
    · rw [if_neg hkk] at ha
      by_cases hkk' : k' = key
      · rw [if_pos hkk'] at hb
        obtain rfl := Option.some.inj hb
        have hd := h.ticks k key a e ha hk hkk
        exact ⟨(hfresh ha).1, hd.2.1, hd.2.2⟩
      · rw [if_neg hkk'] at hb
        exact h.ticks k k' a b ha hb hne

theorem Inner.get_of_live {inner : Inner} (h : inner.Consistent) {key : String} {e : Entry}
    (hk : inner.entries.lookup key = some e) {now : Instant} (hl : e.isLive now = true) (t : ℕ) :
    inner.get key now t = (inner.touch key e t, some e.value) := by
  have hlru : inner.lru.get e.touched = some key := (h.lru_iff _ _).mpr ⟨e, hk, rfl⟩
  simp [get, hk, hl, hlru, touch]

theorem Inner.get_of_expired {inner : Inner} {key : String} {e : Entry}
    (hk : inner.entries.lookup key = some e) {now : Instant} (hl : e.isLive now = false) (t : ℕ) :
    inner.get key now t = ({ (inner.remove key).1 with misses := inner.misses + 1 }, none) := by
  simp [get, hk, hl]

theorem Inner.get_of_none {inner : Inner} {key : String}
    (hk : inner.entries.lookup key = none) (now : Instant) (t : ℕ) :
    inner.get key now t = ({ inner with misses := inner.misses + 1 }, none) := by
  simp [get, hk]

/-! ## Insertion -/

theorem Inner.lookup_put (inner : Inner) (key : String) (value : List UInt8)
    (at_ : Option Instant) (t : ℕ) (k : String) :
    (inner.put key value at_ t).entries.lookup k =
      if k = key then some ⟨value, at_, t, t⟩ else inner.entries.lookup k := by
  change ((inner.remove key).1.entries.insert key _).lookup k = _
  rw [AList.lookup_insert_eq, lookup_remove]
  by_cases hk : k = key
  · simp [hk]
  · simp [hk]

theorem Inner.Consistent.put {inner : Inner} (h : inner.Consistent) (key : String)
    (value : List UInt8) (at_ : Option Instant) {t : ℕ} (ht : ¬ inner.Uses t) :
    (inner.put key value at_ t).Consistent := by
  have hr := h.remove key
  have hfresh : ∀ {k e'}, inner.entries.lookup k = some e' → e'.touched ≠ t ∧ e'.inserted ≠ t := by
    intro k e' he'
    exact ⟨fun hc => ht ⟨k, e', he', Or.inl hc⟩, fun hc => ht ⟨k, e', he', Or.inr hc⟩⟩
  refine ⟨?_, ?_, ?_, ?_⟩
  · intro s k
    rw [lookup_put]
    change ((inner.remove key).1.lru.insert t key).get s = some k ↔ _
    rw [OrdMap.get_insert]
    by_cases hs : s = t
    · subst hs
      rw [if_pos rfl]
      by_cases hkk : k = key
      · simp [hkk]
      · simp only [Option.some.injEq, if_neg hkk, Ne.symm hkk, false_iff, not_exists, not_and]
        intro e' he'
        exact (hfresh he').1
    · rw [if_neg hs, hr.lru_iff, lookup_remove]
      by_cases hkk : k = key
      · simp [hkk, Ne.symm hs]
      · rw [if_neg hkk, if_neg hkk]
  · intro p k
    have hold : (inner.remove key).1.expiry.get p = some k ↔
        k ≠ key ∧ ∃ e a, inner.entries.lookup k = some e ∧ e.expiresAt = some a ∧
          p = toLex (a, e.inserted) := by
      rw [hr.expiry_iff, lookup_remove]
      by_cases hkk : k = key
      · simp [hkk]
      · simp [hkk]
    rw [lookup_put]
    cases at_ with
    | none =>
        change (inner.remove key).1.expiry.get p = some k ↔ _
        rw [hold]
        by_cases hkk : k = key
        · simp [hkk]
        · simp [hkk]
    | some a =>
        change ((inner.remove key).1.expiry.insert (toLex (a, t)) key).get p = some k ↔ _
        rw [OrdMap.get_insert]
        by_cases hp : p = toLex (a, t)
        · rw [if_pos hp]
          by_cases hkk : k = key
          · simp [hkk, hp]
          · simp only [Option.some.injEq, if_neg hkk, Ne.symm hkk, false_iff, not_exists, not_and]
            intro e' a' he' _ hp'
            rw [hp] at hp'
            exact (hfresh he').2 (congrArg Prod.snd (toLex.injective hp')).symm
        · rw [if_neg hp, hold]
          by_cases hkk : k = key
          · simp [hkk, hp]
          · simp [hkk]
  · change (inner.remove key).1.bytes + Entry.cost key value =
      ((inner.remove key).1.entries.insert key _).weight _
    have hnone : (inner.remove key).1.entries.lookup key = none := by
      rw [lookup_remove, if_pos rfl]
    have herase : (inner.remove key).1.entries.erase key = (inner.remove key).1.entries :=
      AList.ext (List.kerase_of_notMem_keys (AList.lookup_eq_none.mp hnone))
    rw [AList.weight_insert, herase, hr.bytes_eq]
    exact Nat.add_comm _ _
  · intro k k' a b ha hb hne
    rw [lookup_put] at ha hb
    by_cases hkk : k = key
    · rw [if_pos hkk] at ha
      obtain rfl := Option.some.inj ha
      have hkk' : k' ≠ key := fun hc => hne (hkk.trans hc.symm)
      rw [if_neg hkk'] at hb
      have hd := hfresh hb
      exact ⟨hd.1.symm, hd.2.symm, hd.2.symm⟩
    · rw [if_neg hkk] at ha
      by_cases hkk' : k' = key
      · rw [if_pos hkk'] at hb
        obtain rfl := Option.some.inj hb
        have hd := hfresh ha
        exact ⟨hd.1, hd.2, hd.1⟩
      · rw [if_neg hkk'] at hb
        exact h.ticks k k' a b ha hb hne

/-! ## The eviction loop -/

theorem Inner.expired_mem {inner : Inner} (h : inner.Consistent) {now : Instant} {key : String}
    (hx : inner.expired now = some key) :
    ∃ e at_, inner.entries.lookup key = some e ∧ e.expiresAt = some at_ ∧ at_ ≤ now := by
  simp only [expired, Option.map_eq_some_iff, Option.filter_eq_some_iff, decide_eq_true_eq] at hx
  obtain ⟨⟨p, k⟩, ⟨hfirst, hle⟩, rfl⟩ := hx
  have hget : inner.expiry.get p = some k :=
    (OrdMap.get_eq_some_iff _ _ _).mpr (OrdMap.mem_of_first_eq_some _ hfirst)
  obtain ⟨e, at_, he, hat, rfl⟩ := (h.expiry_iff _ _).mp hget
  exact ⟨e, at_, he, hat, hle⟩

theorem Inner.lru_first_mem {inner : Inner} (h : inner.Consistent) {t : ℕ} {key : String}
    (hf : inner.lru.first = some (t, key)) :
    ∃ e, inner.entries.lookup key = some e ∧ e.touched = t := by
  apply (h.lru_iff t key).mp
  exact (OrdMap.get_eq_some_iff _ _ _).mpr (OrdMap.mem_of_first_eq_some _ hf)

theorem Inner.lru_first_isSome {inner : Inner} (h : inner.Consistent) (hlen : 0 < inner.len) :
    ∃ t key, inner.lru.first = some (t, key) := by
  obtain ⟨k, e, he⟩ := AList.exists_lookup_of_ne_nil (List.ne_nil_of_length_pos hlen)
  have hget : (e.touched, k) ∈ inner.lru.entries :=
    (OrdMap.get_eq_some_iff _ _ _).mp ((h.lru_iff _ _).mpr ⟨e, he, rfl⟩)
  cases hf : inner.lru.first with
  | none =>
      rw [(OrdMap.first_eq_none_iff _).mp hf] at hget
      simp at hget
  | some p => exact ⟨p.1, p.2, rfl⟩

/-- A pass over a consistent cache that holds an entry removes exactly one entry
and is otherwise a `remove`; the `break` is unreachable. -/
theorem Inner.evictBody_spec {inner : Inner} (h : inner.Consistent) (hlen : 0 < inner.len)
    (now : Instant) : ∃ key e evictions, inner.entries.lookup key = some e ∧
      inner.evictBody now = some { (inner.remove key).1 with evictions := evictions } := by
  unfold evictBody
  cases hx : inner.expired now with
  | some key =>
      obtain ⟨e, _, he, _, _⟩ := expired_mem h hx
      exact ⟨key, e, _, he, rfl⟩
  | none =>
      obtain ⟨t, key, hf⟩ := lru_first_isSome h hlen
      obtain ⟨e, he, _⟩ := lru_first_mem h hf
      exact ⟨key, e, inner.evictions + 1, he, by simp [hf]⟩

/-- Neither consistency nor the bounds read the counters. -/
theorem Inner.Consistent.with_evictions {inner : Inner} (h : inner.Consistent) (n : ℕ) :
    ({ inner with evictions := n } : Inner).Consistent :=
  ⟨h.lru_iff, h.expiry_iff, h.bytes_eq, h.ticks⟩

theorem Inner.Consistent.with_misses {inner : Inner} (h : inner.Consistent) (n : ℕ) :
    ({ inner with misses := n } : Inner).Consistent :=
  ⟨h.lru_iff, h.expiry_iff, h.bytes_eq, h.ticks⟩

theorem Inner.Consistent.len_pos_of_overBounds {inner : Inner} (h : inner.Consistent)
    {opts : CacheOptions} (ho : inner.overBounds opts = true) : 0 < inner.len := by
  by_contra hz
  have hnil : inner.entries.entries = [] := List.length_eq_zero_iff.mp (Nat.eq_zero_of_not_pos hz)
  have hb : inner.bytes = 0 := by rw [h.bytes_eq, AList.weight, hnil]; rfl
  simp [overBounds, len, hnil, hb] at ho

theorem Inner.Consistent.evictLoop {opts : CacheOptions} {now : Instant} (n : ℕ) {inner : Inner}
    (h : inner.Consistent) : (inner.evictLoop opts now n).Consistent := by
  induction n generalizing inner with
  | zero => exact h
  | succ n ih =>
      simp only [Inner.evictLoop]
      by_cases ho : inner.overBounds opts = true
      · obtain ⟨key, e, c, _, hb⟩ := evictBody_spec h (h.len_pos_of_overBounds ho) now
        rw [if_pos ho, hb]
        exact ih ((h.remove key).with_evictions c)
      · rw [if_neg ho]
        exact h

/-- As many passes as there are entries reach both bounds. -/
theorem Inner.evictLoop_bounded {opts : CacheOptions} {now : Instant} (n : ℕ) {inner : Inner}
    (h : inner.Consistent) (hn : inner.len ≤ n) : (inner.evictLoop opts now n).Bounded opts := by
  induction n generalizing inner with
  | zero =>
      rw [← overBounds_eq_false_iff]
      by_contra ho
      have := h.len_pos_of_overBounds (Bool.eq_true_of_not_eq_false ho)
      omega
  | succ n ih =>
      simp only [Inner.evictLoop]
      by_cases ho : inner.overBounds opts = true
      · obtain ⟨key, e, c, he, hb⟩ := evictBody_spec h (h.len_pos_of_overBounds ho) now
        rw [if_pos ho, hb]
        apply ih ((h.remove key).with_evictions c)
        have := len_remove he
        change (inner.remove key).1.len ≤ n
        omega
      · rw [if_neg ho]
        exact (overBounds_eq_false_iff _ _).mp (Bool.eq_false_of_not_eq_true ho)

theorem Inner.Uses.of_evictLoop {opts : CacheOptions} {now : Instant} (n : ℕ) {inner : Inner}
    (hc : inner.Consistent) {t : ℕ} (h : (inner.evictLoop opts now n).Uses t) : inner.Uses t := by
  induction n generalizing inner with
  | zero => exact h
  | succ n ih =>
      simp only [Inner.evictLoop] at h
      by_cases ho : inner.overBounds opts = true
      · obtain ⟨key, e, c, _, hb⟩ := evictBody_spec hc (hc.len_pos_of_overBounds ho) now
        rw [if_pos ho, hb] at h
        have hu := ih ((hc.remove key).with_evictions c) h
        change (inner.remove key).1.Uses t at hu
        exact hu.of_remove
      · rw [if_neg ho] at h
        exact h

theorem Inner.Uses.of_put {inner : Inner} {key : String} {value : List UInt8}
    {at_ : Option Instant} {t s : ℕ} (h : (inner.put key value at_ t).Uses s) :
    s = t ∨ inner.Uses s := by
  obtain ⟨k, e, he, hs⟩ := h
  rw [lookup_put] at he
  by_cases hk : k = key
  · rw [if_pos hk] at he
    obtain rfl := Option.some.inj he
    left
    rcases hs with hs | hs <;> exact hs.symm
  · rw [if_neg hk] at he
    exact Or.inr ⟨k, e, he, hs⟩

theorem Inner.Uses.of_touch {inner : Inner} {key : String} {e : Entry}
    (hk : inner.entries.lookup key = some e) {t s : ℕ} (h : (inner.touch key e t).Uses s) :
    s = t ∨ inner.Uses s := by
  obtain ⟨k, e', he, hs⟩ := h
  rw [lookup_touch] at he
  by_cases hkk : k = key
  · rw [if_pos hkk] at he
    obtain rfl := Option.some.inj he
    rcases hs with hs | hs
    · exact Or.inl hs.symm
    · exact Or.inr ⟨key, e, hk, Or.inr hs⟩
  · rw [if_neg hkk] at he
    exact Or.inr ⟨k, e', he, hs⟩

end Nitr.Cache
