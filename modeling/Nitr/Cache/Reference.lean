import Mathlib.Data.List.MinMax
import Mathlib.Algebra.GroupWithZero.Nat
import Nitr.Cache.Model

/-! # The cache as a recency list

What the cache is for, with no index: the items in order of last use, least
recently used first. Which of several items expiring at the same instant is
dropped first is immaterial, so eviction is also described by a relation that
leaves the choice open. -/

namespace Nitr.Cache

structure Item where
  key : String
  value : List UInt8
  expiry : Option Instant
deriving DecidableEq

def Item.isLive (now : Instant) (x : Item) : Bool :=
  match x.expiry with
  | none => true
  | some at_ => decide (now < at_)

namespace Reference

def size (items : List Item) : ℕ := (items.map (fun x => Entry.cost x.key x.value)).sum

def exceeds (opts : CacheOptions) (items : List Item) : Bool :=
  decide (opts.maxEntries < items.length) || decide (opts.maxBytes < size items)

/-- The items of every key but one. -/
def without (key : String) (items : List Item) : List Item :=
  items.filter (fun x => decide (x.key ≠ key))

/-- The expired item with the earliest expiry. -/
def soonest (now : Instant) (items : List Item) : Option Item :=
  (items.filter (fun x => !x.isLive now)).argmin (fun x => x.expiry.getD 0)

/-- At most `n` drops, each of the soonest expired item, or else of the least
recently used one. -/
def drops (opts : CacheOptions) (now : Instant) : ℕ → List Item → List Item
  | 0, items => items
  | n + 1, items =>
      if exceeds opts items then
        match soonest now items with
        | some x => drops opts now n (without x.key items)
        | none => drops opts now n items.tail
      else items

def evict (opts : CacheOptions) (now : Instant) (items : List Item) : List Item :=
  drops opts now items.length items

def get (key : String) (now : Instant) (items : List Item) : List Item × Option (List UInt8) :=
  match items.find? (fun x => decide (x.key = key)) with
  | none => (items, none)
  | some x =>
      if x.isLive now then (without key items ++ [x], some x.value) else (without key items, none)

def set (opts : CacheOptions) (horizon : Instant) (key : String) (value : List UInt8)
    (ttl : Option ℕ) (now evictNow : Instant) (items : List Item) :
    Except SetError (List Item) :=
  match checkSet opts key value with
  | .error err => .error err
  | .ok _ =>
      .ok (evict opts evictNow
        (without key items ++ [⟨key, value, expiresAt opts horizon ttl now⟩]))

def exec (opts : CacheOptions) (horizon : Instant) (items : List Item) :
    Op → List Item × Option (Option (List UInt8))
  | .get key now => ((get key now items).1, some (get key now items).2)
  | .set key value ttl now evictNow =>
      match set opts horizon key value ttl now evictNow items with
      | .ok items' => (items', none)
      | .error _ => (items, none)
  | .delete key => (without key items, none)
  | .clear => ([], none)

def execAll (opts : CacheOptions) (horizon : Instant) (items : List Item) :
    List Op → List Item × List (Option (List UInt8))
  | [] => (items, [])
  | op :: ops =>
      let (next, result) := exec opts horizon items op
      let (last, results) := execAll opts horizon next ops
      (last, result.toList ++ results)

/-! ## Eviction, up to the order of expired items -/

/-- While a bound is exceeded, some expired item goes; when none is expired, the
least recently used item goes. -/
inductive Evicts (opts : CacheOptions) (now : Instant) : List Item → List Item → Prop where
  | done {items} : exceeds opts items = false → Evicts opts now items items
  | expired {items final} (x : Item) : exceeds opts items = true → x ∈ items →
      x.isLive now = false → Evicts opts now (without x.key items) final →
      Evicts opts now items final
  | lru {x items final} : exceeds opts (x :: items) = true →
      (∀ y ∈ x :: items, y.isLive now = true) → Evicts opts now items final →
      Evicts opts now (x :: items) final

/-- What eviction leaves of the live items: the longest suffix within the bounds. -/
def trim (opts : CacheOptions) : List Item → List Item
  | [] => []
  | x :: items => if exceeds opts (x :: items) then trim opts items else x :: items

theorem size_sublist {a b : List Item} (h : a.Sublist b) : size a ≤ size b := by
  induction h with
  | slnil => exact le_rfl
  | cons x _ ih =>
      simp only [size, List.map_cons, List.sum_cons] at ih ⊢
      omega
  | cons_cons x _ ih =>
      simp only [size, List.map_cons, List.sum_cons] at ih ⊢
      omega

theorem exceeds_eq_false_iff (opts : CacheOptions) (items : List Item) :
    exceeds opts items = false ↔ items.length ≤ opts.maxEntries ∧ size items ≤ opts.maxBytes := by
  simp [exceeds]

theorem exceeds_sublist {opts : CacheOptions} {a b : List Item} (h : a.Sublist b)
    (hb : exceeds opts b = false) : exceeds opts a = false := by
  rw [exceeds_eq_false_iff] at hb ⊢
  exact ⟨h.length_le.trans hb.1, (size_sublist h).trans hb.2⟩

theorem trim_of_not_exceeds {opts : CacheOptions} {items : List Item}
    (h : exceeds opts items = false) : trim opts items = items := by
  cases items with
  | nil => rfl
  | cons x xs => simp [trim, h]

theorem mem_without {key : String} {items : List Item} {x : Item} :
    x ∈ without key items ↔ x ∈ items ∧ x.key ≠ key := by
  simp [without]

theorem without_nodup {items : List Item} (h : (items.map Item.key).Nodup) (key : String) :
    ((without key items).map Item.key).Nodup :=
  h.sublist (List.filter_sublist.map _)

theorem eq_of_key_eq {items : List Item} (h : (items.map Item.key).Nodup) {x y : Item}
    (hx : x ∈ items) (hy : y ∈ items) (hk : x.key = y.key) : x = y :=
  List.inj_on_of_nodup_map h hx hy hk

/-- Dropping the key of an expired item leaves the live items as they are. -/
theorem live_without {now : Instant} {items : List Item} (hn : (items.map Item.key).Nodup)
    {x : Item} (hx : x ∈ items) (hd : x.isLive now = false) :
    (without x.key items).filter (Item.isLive now) = items.filter (Item.isLive now) := by
  rw [without, List.filter_filter]
  apply List.filter_congr
  intro y hy
  by_cases hk : y.key = x.key
  · obtain rfl := eq_of_key_eq hn hy hx hk
    simp [hd]
  · simp [hk]

theorem Evicts.live_eq {opts : CacheOptions} {now : Instant} {items final : List Item}
    (h : Evicts opts now items final) (hn : (items.map Item.key).Nodup) :
    final.filter (Item.isLive now) = trim opts (items.filter (Item.isLive now)) := by
  induction h with
  | done ho =>
      rw [trim_of_not_exceeds (exceeds_sublist List.filter_sublist ho)]
  | expired x _ hx hd _ ih =>
      rw [ih (without_nodup hn x.key), live_without hn hx hd]
  | @lru x items final ho hall _ ih =>
      have hfull : (x :: items).filter (Item.isLive now) = x :: items :=
        List.filter_eq_self.mpr hall
      have htail : items.filter (Item.isLive now) = items :=
        List.filter_eq_self.mpr (fun y hy => hall y (List.mem_cons_of_mem x hy))
      rw [ih (List.nodup_cons.mp hn).2, hfull, htail, trim, if_pos ho]

theorem Evicts.nodup {opts : CacheOptions} {now : Instant} {items final : List Item}
    (h : Evicts opts now items final) (hn : (items.map Item.key).Nodup) :
    (final.map Item.key).Nodup := by
  induction h with
  | done _ => exact hn
  | expired x _ _ _ _ ih => exact ih (without_nodup hn x.key)
  | lru _ _ _ ih => exact ih (List.nodup_cons.mp hn).2

theorem length_without_lt {items : List Item} {x : Item} (hx : x ∈ items) :
    (without x.key items).length < items.length := by
  apply List.length_filter_lt_length_iff_exists.mpr
  exact ⟨x, hx, by simp⟩

/-- The deterministic reference makes one of the choices the relation allows. -/
theorem drops_evicts (opts : CacheOptions) (now : Instant) (n : ℕ) (items : List Item)
    (hn : items.length ≤ n) : Evicts opts now items (drops opts now n items) := by
  induction n generalizing items with
  | zero =>
      obtain rfl := List.length_eq_zero_iff.mp (Nat.le_zero.mp hn)
      exact .done (by simp [exceeds, size])
  | succ n ih =>
      simp only [drops]
      cases ho : exceeds opts items with
      | false => exact .done ho
      | true =>
          simp only [if_true]
          cases hs : soonest now items with
          | some x =>
              have hx := List.argmin_mem hs
              simp only [List.mem_filter, Bool.not_eq_eq_eq_not, Bool.not_true] at hx
              refine .expired x ho hx.1 hx.2 (ih _ ?_)
              have := length_without_lt hx.1
              omega
          | none =>
              have hall : ∀ y ∈ items, y.isLive now = true := by
                have hnil := List.argmin_eq_none.mp hs
                simpa using hnil
              cases items with
              | nil => simp [exceeds, size] at ho
              | cons x xs =>
                  refine .lru ho hall (ih xs ?_)
                  simpa using hn

theorem evict_evicts (opts : CacheOptions) (now : Instant) (items : List Item) :
    Evicts opts now items (evict opts now items) :=
  drops_evicts opts now items.length items le_rfl

end Reference

end Nitr.Cache
