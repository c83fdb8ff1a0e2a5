import Nitr.Cache.Invariant
import Nitr.Cache.Reference

/-! # The recency list inside the indexed cache

The recency index, read in tick order, is a list of items. Each locked section acts
on that list as the reference does, and the eviction loop is one of its evictions. -/

namespace Nitr.Cache

open Reference

/-- The entries as the recency index lists them. -/
def Inner.items (inner : Inner) : List Item :=
  inner.lru.entries.filterMap
    (fun p => (inner.entries.lookup p.2).map (fun e => ⟨p.2, e.value, e.expiresAt⟩))

theorem Inner.mem_items {inner : Inner} (h : inner.Consistent) (x : Item) :
    x ∈ inner.items ↔
      ∃ e, inner.entries.lookup x.key = some e ∧ x.value = e.value ∧ x.expiry = e.expiresAt := by
  simp only [items, List.mem_filterMap, Option.map_eq_some_iff]
  constructor
  · rintro ⟨⟨t, k⟩, _, e, he, rfl⟩
    exact ⟨e, he, rfl, rfl⟩
  · rintro ⟨e, he, hv, hx⟩
    refine ⟨(e.touched, x.key), ?_, e, he, ?_⟩
    · exact (OrdMap.get_eq_some_iff _ _ _).mp ((h.lru_iff _ _).mpr ⟨e, he, rfl⟩)
    · rw [← hv, ← hx]

/-- Every index entry names a stored entry with that tick. -/
theorem Inner.Consistent.of_mem_lru {inner : Inner} (h : inner.Consistent) {p : ℕ × String}
    (hp : p ∈ inner.lru.entries) : ∃ e, inner.entries.lookup p.2 = some e ∧ e.touched = p.1 :=
  (h.lru_iff p.1 p.2).mp ((OrdMap.get_eq_some_iff _ _ _).mpr hp)

theorem Inner.items_keys_nodup {inner : Inner} (h : inner.Consistent) :
    (inner.items.map Item.key).Nodup := by
  have hkeys : inner.items.map Item.key = inner.lru.entries.map Prod.snd := by
    rw [items, List.map_filterMap, ← List.filterMap_eq_map]
    apply List.filterMap_congr
    intro p hp
    obtain ⟨e, he, _⟩ := h.of_mem_lru hp
    simp [he]
  rw [hkeys, List.nodup_map_iff_inj_on]
  · intro p hp q hq hpq
    obtain ⟨e, he, ht⟩ := h.of_mem_lru hp
    obtain ⟨e', he', ht'⟩ := h.of_mem_lru hq
    rw [← hpq, he] at he'
    obtain rfl := Option.some.inj he'
    exact Prod.ext (ht.symm.trans ht') hpq
  · exact inner.lru.sorted.imp (fun hlt heq => by simp [heq] at hlt)

/-- The recency list and the entry map hold the same items. -/
theorem Inner.items_perm {inner : Inner} (h : inner.Consistent) :
    inner.items.Perm
      (inner.entries.entries.map (fun s => (⟨s.1, s.2.value, s.2.expiresAt⟩ : Item))) := by
  rw [List.perm_ext_iff_of_nodup]
  · intro x
    rw [mem_items h]
    simp only [List.mem_map]
    constructor
    · rintro ⟨e, he, hv, hx⟩
      refine ⟨⟨x.key, e⟩, AList.mem_entries_of_lookup he, ?_⟩
      rw [← hv, ← hx]
    · rintro ⟨⟨k, e⟩, hs, rfl⟩
      exact ⟨e, AList.mem_lookup_iff.mpr hs, rfl, rfl⟩
  · exact (items_keys_nodup h).of_map _
  · have hn := inner.entries.nodupKeys
    rw [List.NodupKeys, List.keys] at hn
    apply List.Nodup.of_map Item.key
    rw [List.map_map]
    exact hn

theorem Inner.length_items {inner : Inner} (h : inner.Consistent) :
    inner.items.length = inner.len := by
  rw [(items_perm h).length_eq, List.length_map]
  rfl

theorem Inner.size_items {inner : Inner} (h : inner.Consistent) :
    size inner.items = inner.bytes := by
  rw [size, ((items_perm h).map _).sum_eq, h.bytes_eq, AList.weight, List.map_map]
  rfl

theorem Inner.exceeds_items {inner : Inner} (h : inner.Consistent) (opts : CacheOptions) :
    exceeds opts inner.items = inner.overBounds opts := by
  rw [exceeds, overBounds, length_items h, size_items h]

/-! ## What each locked section does to the recency list -/

theorem Inner.items_remove {inner : Inner} (h : inner.Consistent) (key : String) :
    (inner.remove key).1.items = without key inner.items := by
  cases hk : inner.entries.lookup key with
  | none =>
      rw [remove_of_none hk, without, List.filter_eq_self.mpr]
      intro x hx
      obtain ⟨e, he, _⟩ := (mem_items h x).mp hx
      have : x.key ≠ key := by
        rintro rfl
        rw [hk] at he
        simp at he
      simp [this]
  | some e =>
      have hlru : (inner.remove key).1.lru.entries =
          inner.lru.entries.filter (fun p => decide (p.1 ≠ e.touched)) := by
        simp only [remove, hk, OrdMap.erase]
      rw [items, hlru, List.filterMap_filter, without, items, List.filter_filterMap]
      apply List.filterMap_congr
      rintro ⟨t, k⟩ hp
      obtain ⟨e', he', ht'⟩ := h.of_mem_lru hp
      simp only at he' ht' ⊢
      rw [lookup_remove]
      by_cases hpk : k = key
      · subst hpk
        have hsame : e' = e := by
          rw [hk] at he'
          exact (Option.some.inj he').symm
        subst hsame
        simp [ht', hk, Option.filter]
      · have hpt : t ≠ e.touched := by
          intro hc
          exact hpk (h.touched_inj he' hk (ht'.trans hc))
        simp [hpt, hpk, he', Option.filter]

/-- A tick above every stored one puts its key at the most recent end. -/
theorem Inner.items_of_append {inner next : Inner} {key : String} {e : Entry} {t : ℕ}
    (hlru : next.lru.entries = (inner.remove key).1.lru.entries ++ [(t, key)])
    (hlook : ∀ k, next.entries.lookup k =
      if k = key then some e else (inner.remove key).1.entries.lookup k)
    (h : inner.Consistent) :
    next.items = without key inner.items ++ [⟨key, e.value, e.expiresAt⟩] := by
  have hold : (inner.remove key).1.lru.entries.filterMap
      (fun p => (next.entries.lookup p.2).map (fun e => (⟨p.2, e.value, e.expiresAt⟩ : Item))) =
      (inner.remove key).1.items := by
    rw [items]
    apply List.filterMap_congr
    intro p hp
    obtain ⟨e', he', _⟩ := (h.remove key).of_mem_lru hp
    have hne : p.2 ≠ key := by
      intro hc
      rw [lookup_remove, if_pos hc] at he'
      simp at he'
    rw [hlook, if_neg hne]
  rw [items, hlru, List.filterMap_append, hold, items_remove h]
  simp [hlook]

theorem Inner.items_touch {inner : Inner} (h : inner.Consistent) {key : String} {e : Entry}
    (hk : inner.entries.lookup key = some e) {t : ℕ} (ht : ∀ s, inner.Uses s → s < t) :
    (inner.touch key e t).items = without key inner.items ++ [⟨key, e.value, e.expiresAt⟩] := by
  have hlru : (inner.remove key).1.lru = inner.lru.erase e.touched := by simp [remove, hk]
  refine @items_of_append inner (inner.touch key e t) key { e with touched := t } t ?_ ?_ h
  · change ((inner.lru.erase e.touched).insert t key).entries = _
    rw [hlru, OrdMap.entries_insert_of_forall_lt]
    intro p hp
    obtain ⟨e', he', htp⟩ := h.of_mem_lru ((OrdMap.mem_erase _ _ _).mp hp).1
    exact ht _ ⟨p.2, e', he', Or.inl htp⟩
  · intro k
    rw [lookup_touch, lookup_remove]
    by_cases hkk : k = key
    · simp [hkk]
    · simp [hkk]

theorem Inner.items_put {inner : Inner} (h : inner.Consistent) (key : String)
    (value : List UInt8) (at_ : Option Instant) {t : ℕ} (ht : ∀ s, inner.Uses s → s < t) :
    (inner.put key value at_ t).items = without key inner.items ++ [⟨key, value, at_⟩] := by
  refine @items_of_append inner (inner.put key value at_ t) key ⟨value, at_, t, t⟩ t ?_ ?_ h
  · change ((inner.remove key).1.lru.insert t key).entries = _
    rw [OrdMap.entries_insert_of_forall_lt]
    intro p hp
    obtain ⟨e', he', htp⟩ := (h.remove key).of_mem_lru hp
    exact ht _ (Inner.Uses.of_remove ⟨p.2, e', he', Or.inl htp⟩)
  · intro k
    rw [lookup_put, lookup_remove]
    by_cases hkk : k = key
    · simp [hkk]
    · simp [hkk]

/-! ## The eviction loop -/

/-- With no entry expired, the recency list has no dead item. -/
theorem Inner.live_of_expired_none {inner : Inner} (h : inner.Consistent) {now : Instant}
    (hx : inner.expired now = none) : ∀ x ∈ inner.items, x.isLive now = true := by
  intro x hm
  obtain ⟨e, he, _, hexp⟩ := (mem_items h x).mp hm
  by_contra hdead
  -- a dead item has an index entry at or before `now`, so the first one is too
  cases hat : e.expiresAt with
  | none => simp [Item.isLive, hexp, hat] at hdead
  | some at_ =>
      have hle : at_ ≤ now := by simpa [Item.isLive, hexp, hat] using hdead
      have hin : (toLex (at_, e.inserted), x.key) ∈ inner.expiry.entries :=
        (OrdMap.get_eq_some_iff _ _ _).mp ((h.expiry_iff _ _).mpr ⟨e, at_, he, hat, rfl⟩)
      cases hf : inner.expiry.first with
      | none =>
          rw [(OrdMap.first_eq_none_iff _).mp hf] at hin
          simp at hin
      | some p =>
          have hp : p.1 ≤ toLex (at_, e.inserted) := OrdMap.first_le _ hf _ hin
          have hp1 : (ofLex p.1).1 ≤ now := (Prod.Lex.monotone_fst _ _ hp).trans hle
          simp [expired, hf, Option.filter, hp1] at hx

theorem Inner.items_lru_first {inner : Inner} (h : inner.Consistent) {t : ℕ} {key : String}
    (hf : inner.lru.first = some (t, key)) :
    ∃ x, inner.items = x :: without key inner.items ∧ x.key = key := by
  obtain ⟨e, he, _⟩ := lru_first_mem h hf
  have hlru : ∃ rest, inner.lru.entries = (t, key) :: rest := by
    cases hl : inner.lru.entries with
    | nil => simp [OrdMap.first, hl] at hf
    | cons p rest =>
        simp only [OrdMap.first, hl, List.head?_cons, Option.some.injEq] at hf
        exact ⟨rest, by rw [hf]⟩
  obtain ⟨rest, hrest⟩ := hlru
  have hn := items_keys_nodup h
  have hsplit : inner.items = ⟨key, e.value, e.expiresAt⟩ :: rest.filterMap
      (fun p => (inner.entries.lookup p.2).map
        (fun e => (⟨p.2, e.value, e.expiresAt⟩ : Item))) := by
    rw [items, hrest]
    simp [he]
  refine ⟨⟨key, e.value, e.expiresAt⟩, ?_, rfl⟩
  rw [hsplit] at hn ⊢
  -- distinct keys: dropping `key` drops the head only
  simp only [without, ne_eq, not_true_eq_false, decide_false, Bool.false_eq_true,
    not_false_eq_true, List.filter_cons_of_neg, List.cons.injEq, true_and]
  symm
  apply List.filter_eq_self.mpr
  intro y hy
  have hne : y.key ≠ key := by
    intro hc
    exact (List.nodup_cons.mp hn).1 (List.mem_map.mpr ⟨y, hy, hc⟩)
  simp [hne]

/-- The indexed loop makes one of the choices the reference eviction allows. -/
theorem Inner.evictLoop_evicts {opts : CacheOptions} {now : Instant} (n : ℕ) {inner : Inner}
    (h : inner.Consistent) (hn : inner.len ≤ n) :
    Evicts opts now inner.items (inner.evictLoop opts now n).items := by
  induction n generalizing inner with
  | zero =>
      refine .done ?_
      rw [exceeds_items h]
      by_contra ho
      have := h.len_pos_of_overBounds (Bool.eq_true_of_not_eq_false ho)
      omega
  | succ n ih =>
      simp only [Inner.evictLoop]
      cases ho : inner.overBounds opts with
      | false =>
          refine .done ?_
          rw [exceeds_items h, ho]
      | true =>
          have hover : exceeds opts inner.items = true := by rw [exceeds_items h, ho]
          simp only [if_true]
          cases hx : inner.expired now with
          | some key =>
              obtain ⟨e, at_, he, hat, hle⟩ := expired_mem h hx
              have hbody : inner.evictBody now = some (inner.remove key).1 := by
                simp [evictBody, hx]
              have hlen := len_remove he
              have hrec := ih (h.remove key) (by omega)
              rw [items_remove h] at hrec
              rw [hbody]
              refine .expired ⟨key, e.value, e.expiresAt⟩ hover ?_ ?_ hrec
              · exact (mem_items h _).mpr ⟨e, he, rfl, rfl⟩
              · simp [Item.isLive, hat, hle]
          | none =>
              have hall := live_of_expired_none h hx
              obtain ⟨t, key, hf⟩ := lru_first_isSome h (h.len_pos_of_overBounds ho)
              obtain ⟨e, he, _⟩ := lru_first_mem h hf
              have hbody : inner.evictBody now =
                  some { (inner.remove key).1 with evictions := inner.evictions + 1 } := by
                simp [evictBody, hx, hf]
              have hlen := len_remove he
              have hrec := ih ((h.remove key).with_evictions (inner.evictions + 1))
                (by change (inner.remove key).1.len ≤ n; omega)
              change Evicts opts now (inner.remove key).1.items _ at hrec
              rw [items_remove h] at hrec
              obtain ⟨x, hitems, _⟩ := items_lru_first h hf
              rw [hbody]
              rw [hitems] at hover hall ⊢
              exact .lru hover hall hrec

end Nitr.Cache
