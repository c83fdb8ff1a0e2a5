import Nitr.Cache.Recency

/-! # The indexed cache refines the recency list

The indexes replace scans, and expired entries stay until something needs their
room. The two sides therefore agree on the live items, in order of last use; the
dead ones they keep may differ, and no read can tell. -/

namespace Nitr.Cache

open Reference

/-! ## The simulation -/

/-- The indexed cache and a recency list agree on what is live at `now`. -/
structure Sim (now : Instant) (c : Cache) (items : List Item) : Prop where
  consistent : c.inner.Consistent
  used_lt : ∀ t, c.inner.Uses t → t < c.clock
  nodup : (items.map Item.key).Nodup
  live : c.inner.items.filter (Item.isLive now) = items.filter (Item.isLive now)

theorem Item.isLive_of_le {now later : Instant} (h : now ≤ later) {x : Item}
    (hx : x.isLive later = true) : x.isLive now = true := by
  cases he : x.expiry with
  | none => simp [Item.isLive, he]
  | some at_ =>
      simp only [Item.isLive, he, decide_eq_true_eq] at hx ⊢
      exact lt_of_le_of_lt h hx

/-- Time only kills items, so agreement at one instant is agreement at every later one. -/
theorem filter_live_of_le {now later : Instant} (h : now ≤ later) {a b : List Item}
    (hab : a.filter (Item.isLive now) = b.filter (Item.isLive now)) :
    a.filter (Item.isLive later) = b.filter (Item.isLive later) := by
  have hsplit : ∀ l : List Item, l.filter (Item.isLive later) =
      (l.filter (Item.isLive now)).filter (Item.isLive later) := by
    intro l
    rw [List.filter_filter]
    apply List.filter_congr
    intro x _
    cases hx : x.isLive later with
    | false => simp
    | true => simp [Item.isLive_of_le h hx]
  rw [hsplit a, hsplit b, hab]

theorem Sim.mono {now later : Instant} {c : Cache} {items : List Item} (h : Sim now c items)
    (hle : now ≤ later) : Sim later c items :=
  ⟨h.consistent, h.used_lt, h.nodup, filter_live_of_le hle h.live⟩

theorem filter_without (now : Instant) (key : String) (l : List Item) :
    (without key l).filter (Item.isLive now) = without key (l.filter (Item.isLive now)) := by
  simp only [without, List.filter_filter]
  apply List.filter_congr
  intro x _
  exact Bool.and_comm _ _

theorem Sim.mem_iff {now : Instant} {c : Cache} {items : List Item} (h : Sim now c items)
    {x : Item} (hx : x.isLive now = true) : x ∈ c.inner.items ↔ x ∈ items := by
  have hm : x ∈ c.inner.items.filter (Item.isLive now) ↔ x ∈ items.filter (Item.isLive now) := by
    rw [h.live]
  simpa [List.mem_filter, hx] using hm

theorem find?_of_mem {items : List Item} (hn : (items.map Item.key).Nodup) {x : Item}
    (hx : x ∈ items) : items.find? (fun y => decide (y.key = x.key)) = some x := by
  cases hf : items.find? (fun y => decide (y.key = x.key)) with
  | none => exact absurd (List.find?_eq_none.mp hf x hx) (by simp)
  | some y =>
      have hy := List.mem_of_find?_eq_some hf
      have hk : y.key = x.key := by simpa using List.find?_some hf
      rw [eq_of_key_eq hn hy hx hk]

theorem nodup_without_append {items : List Item} (hn : (items.map Item.key).Nodup) (x : Item) :
    ((without x.key items ++ [x]).map Item.key).Nodup := by
  rw [List.map_append, List.map_singleton]
  apply List.Nodup.append (without_nodup hn x.key) (List.nodup_singleton _)
  intro k hk hm
  rw [List.mem_singleton] at hm
  obtain ⟨y, hy, rfl⟩ := List.mem_map.mp hk
  exact (mem_without.mp hy).2 hm

/-- Dropping a key that is not live on either side. -/
theorem Sim.remove {now : Instant} {c : Cache} {items : List Item} (h : Sim now c items)
    (key : String) (clock : ℕ) (hclock : c.clock ≤ clock) :
    Sim now ⟨(c.inner.remove key).1, clock⟩ (without key items) := by
  refine ⟨h.consistent.remove key, ?_, without_nodup h.nodup key, ?_⟩
  · intro t ht
    exact (h.used_lt t ht.of_remove).trans_le hclock
  · change (c.inner.remove key).1.items.filter _ = _
    rw [Inner.items_remove h.consistent, filter_without, filter_without, h.live]

theorem Sim.get {now : Instant} {c : Cache} {items : List Item} (h : Sim now c items)
    (key : String) :
    Sim now (c.getRaw key now).1 (Reference.get key now items).1 ∧
      (c.getRaw key now).2 = (Reference.get key now items).2 := by
  cases hk : c.inner.entries.lookup key with
  | some e =>
      let x : Item := ⟨key, e.value, e.expiresAt⟩
      have hx : x ∈ c.inner.items := (Inner.mem_items h.consistent x).mpr ⟨e, hk, rfl, rfl⟩
      cases hl : e.isLive now with
      | true =>
          have hlive : x.isLive now = true := hl
          have hfind := find?_of_mem h.nodup ((h.mem_iff hlive).mp hx)
          have hfresh : ¬ c.inner.Uses c.clock := fun hu => (h.used_lt _ hu).ne rfl
          have href : Reference.get key now items = (without key items ++ [x], some e.value) := by
            simp only [Reference.get]
            rw [show items.find? (fun y => decide (y.key = key)) = some x from hfind]
            simp [hlive, x]
          have hget : c.getRaw key now =
              (⟨c.inner.touch key e c.clock, c.clock + 1⟩, some e.value) := by
            simp only [getRaw, Inner.get_of_live h.consistent hk hl]
          rw [href, hget]
          refine ⟨⟨h.consistent.touch hk hfresh, ?_, nodup_without_append h.nodup x, ?_⟩, rfl⟩
          · intro t ht
            change t < c.clock + 1
            rcases ht.of_touch hk with rfl | ht
            · omega
            · have := h.used_lt t ht
              omega
          · change (c.inner.touch key e c.clock).items.filter _ = _
            rw [Inner.items_touch h.consistent hk h.used_lt, List.filter_append,
              List.filter_append, filter_without, filter_without, h.live]
      | false =>
          have hget : c.getRaw key now =
              (⟨{ (c.inner.remove key).1 with misses := c.inner.misses + 1 }, c.clock + 1⟩,
                none) := by
            simp only [getRaw, Inner.get_of_expired hk hl]
          have hsim := h.remove key (c.clock + 1) (Nat.le_succ _)
          have hdead : ∀ y ∈ items, y.key = key → y.isLive now = false := by
            intro y hy hyk
            by_contra hyl
            have hyl := Bool.eq_true_of_not_eq_false hyl
            have hyx := eq_of_key_eq (Inner.items_keys_nodup h.consistent)
              ((h.mem_iff hyl).mpr hy) hx hyk
            rw [hyx] at hyl
            exact absurd (hl.symm.trans hyl) (by simp)
          rw [hget]
          cases hf : items.find? (fun y => decide (y.key = key)) with
          | some y =>
              have hy := List.mem_of_find?_eq_some hf
              have hyk : y.key = key := by simpa using List.find?_some hf
              simp only [Reference.get, hf, hdead y hy hyk]
              exact ⟨⟨hsim.consistent.with_misses _, hsim.used_lt, hsim.nodup, hsim.live⟩, rfl⟩
          | none =>
              have hself : without key items = items := by
                apply List.filter_eq_self.mpr
                intro y hy
                simpa using List.find?_eq_none.mp hf y hy
              have href : Reference.get key now items = (items, none) := by
                simp [Reference.get, hf]
              rw [hself] at hsim
              rw [href]
              exact ⟨⟨hsim.consistent.with_misses _, hsim.used_lt, hsim.nodup, hsim.live⟩, rfl⟩
  | none =>
      have hget : c.getRaw key now =
          (⟨{ c.inner with misses := c.inner.misses + 1 }, c.clock + 1⟩, none) := by
        simp only [getRaw, Inner.get_of_none hk]
      have hsim : Sim now ⟨{ c.inner with misses := c.inner.misses + 1 }, c.clock + 1⟩ items :=
        ⟨h.consistent.with_misses _, fun t ht => (h.used_lt t ht).trans (Nat.lt_succ_self _),
          h.nodup, h.live⟩
      rw [hget]
      cases hf : items.find? (fun y => decide (y.key = key)) with
      | none =>
          have href : Reference.get key now items = (items, none) := by
            simp [Reference.get, hf]
          rw [href]
          exact ⟨hsim, rfl⟩
      | some y =>
          have hy := List.mem_of_find?_eq_some hf
          have hyk : y.key = key := by simpa using List.find?_some hf
          have hdead : y.isLive now = false := by
            by_contra hyl
            obtain ⟨e, he, _⟩ := (Inner.mem_items h.consistent y).mp
              ((h.mem_iff (Bool.eq_true_of_not_eq_false hyl)).mpr hy)
            rw [hyk, hk] at he
            simp at he
          simp only [Reference.get, hf, hdead]
          refine ⟨⟨hsim.consistent, hsim.used_lt, without_nodup h.nodup key, ?_⟩, rfl⟩
          rw [← hyk]
          exact hsim.live.trans (live_without h.nodup hy hdead).symm

theorem Sim.set {opts : CacheOptions} {evictNow : Instant} {c : Cache} {items : List Item}
    (h : Sim evictNow c items) (key : String) (value : List UInt8) (at_ : Option Instant) :
    Sim evictNow ⟨(c.inner.put key value at_ c.clock).evict opts evictNow, c.clock + 1⟩
      (Reference.evict opts evictNow (without key items ++ [⟨key, value, at_⟩])) := by
  have hfresh : ¬ c.inner.Uses c.clock := fun hu => (h.used_lt _ hu).ne rfl
  have hput := h.consistent.put key value at_ hfresh
  have hitems := Inner.items_put h.consistent key value at_ h.used_lt
  have hn := nodup_without_append h.nodup ⟨key, value, at_⟩
  have hleft : Evicts opts evictNow _ _ := Inner.evictLoop_evicts _ hput le_rfl
  have hright := Reference.evict_evicts opts evictNow (without key items ++ [⟨key, value, at_⟩])
  refine ⟨hput.evictLoop _, ?_, hright.nodup hn, ?_⟩
  · intro t ht
    change t < c.clock + 1
    rcases (ht.of_evictLoop _ hput).of_put with rfl | ht
    · omega
    · have := h.used_lt t ht
      omega
  · rw [hright.live_eq hn]
    refine (hleft.live_eq (Inner.items_keys_nodup hput)).trans ?_
    rw [hitems, List.filter_append, List.filter_append, filter_without, filter_without, h.live]

/-! ## Runs -/

theorem Sim.exec {opts : CacheOptions} {horizon now : Instant} {c : Cache} {items : List Item}
    (h : Sim now c items) (op : Op) (hm : (now :: op.instants).Pairwise (· ≤ ·)) :
    Sim (op.instants.getLastD now) (c.exec opts horizon op).1
        (Reference.exec opts horizon items op).1 ∧
      (c.exec opts horizon op).2 = (Reference.exec opts horizon items op).2 := by
  cases op with
  | get key at_ =>
      have hle : now ≤ at_ := List.rel_of_pairwise_cons hm (by simp [Op.instants])
      have hg := (h.mono hle).get key
      exact ⟨hg.1, congrArg some hg.2⟩
  | set key value ttl at_ evictNow =>
      have hle : now ≤ evictNow := List.rel_of_pairwise_cons hm (by simp [Op.instants])
      simp only [Cache.exec, Cache.setRaw, Reference.exec, Reference.set]
      cases checkSet opts key value with
      | error err => exact ⟨h.mono hle, rfl⟩
      | ok u => exact ⟨(h.mono hle).set key value _, rfl⟩
  | delete key => exact ⟨h.remove key c.clock le_rfl, rfl⟩
  | clear =>
      refine ⟨⟨?_, ?_, List.nodup_nil, rfl⟩, rfl⟩
      · refine ⟨?_, ?_, rfl, ?_⟩
        · intro t k
          simp [Cache.exec, Inner.clear]
        · intro p k
          simp [Cache.exec, Inner.clear]
        · intro k k' e e' hk
          simp [Cache.exec, Inner.clear] at hk
      · rintro t ⟨k, e, he, _⟩
        simp [Cache.exec, Inner.clear] at he

theorem Sim.execAll {opts : CacheOptions} {horizon : Instant} (ops : List Op) {now : Instant}
    {c : Cache} {items : List Item} (h : Sim now c items)
    (hm : (now :: ops.flatMap Op.instants).Pairwise (· ≤ ·)) :
    (∃ later, Sim later (c.execAll opts horizon ops).1
        (Reference.execAll opts horizon items ops).1) ∧
      (c.execAll opts horizon ops).2 = (Reference.execAll opts horizon items ops).2 := by
  induction ops generalizing now c items with
  | nil => exact ⟨⟨now, h⟩, rfl⟩
  | cons op ops ih =>
      rw [List.flatMap_cons, ← List.cons_append, List.pairwise_append] at hm
      obtain ⟨hhead, htail, hcross⟩ := hm
      obtain ⟨hstep, hout⟩ := @Sim.exec opts horizon now c items h op hhead
      have hlast : op.instants.getLastD now ∈ now :: op.instants := by
        cases hi : op.instants.getLast? with
        | none => simp [List.getLastD_eq_getLast?, hi]
        | some t =>
            simp only [List.getLastD_eq_getLast?, hi, Option.getD_some]
            exact List.mem_cons_of_mem _ (List.mem_of_getLast? hi)
      obtain ⟨hsim, hrest⟩ := ih hstep
        (List.Pairwise.cons (fun t ht => hcross _ hlast t ht) htail)
      simp only [Cache.execAll, Reference.execAll]
      exact ⟨hsim, by rw [hout, hrest]⟩

theorem Sim.new : Sim 0 Cache.new [] := by
  refine ⟨Inner.default_consistent, ?_, List.nodup_nil, rfl⟩
  rintro t ⟨k, e, he, _⟩
  simp [Cache.new, Inner.default] at he

end Nitr.Cache
