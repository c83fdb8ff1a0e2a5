import Nitr.Pool.Model

/-! # Slots of the pool are conserved

No order of checkouts, drops and rebuilds loses a slot, hands a state to two guards or
finds the channel full; only a rebuild that fails costs a slot. -/

namespace Nitr.Pool

open List

/-! ## What one step does -/

/-- The moves of a pool, without the calls that wait. The flag tells the failed rebuilds. -/
inductive Move (s : RuntimePool) : Bool → RuntimePool → Prop where
  | wait (waiting : List Waiter) : Move s false { s with waiting := waiting }
  | take (waiting : List Waiter) (rt : Runtime) (rest : List Runtime)
      (hqueue : s.channel.queue = rt :: rest) :
      Move s false
        { s with
          waiting := waiting
          channel := { s.channel with queue := rest }
          guards := s.guards ++ [(s.next, rt)]
          next := s.next + 1
          trace := s.trace ++ [.handed rt] }
  | mark (guard : ℕ) (rt : Runtime) (hguard : (guard, rt) ∈ s.guards) :
      Move s false
        { s with
          guards := s.guards.map fun g =>
            if g.1 = guard then (g.1, { g.2 with poisoned := true }) else g
          trace := s.trace ++ [.marked rt.id] }
  | giveBack (guard : ℕ) (rt : Runtime) (hguard : (guard, rt) ∈ s.guards)
      (hfit : s.rebuild = true → rt.poisoned = false) :
      Move s false (RuntimePool.send { s with guards := s.guards.erase (guard, rt) } rt)
  | retire (guard : ℕ) (rt : Runtime) (hguard : (guard, rt) ∈ s.guards) :
      Move s false
        { s with
          guards := s.guards.erase (guard, rt)
          tasks := s.tasks ++ [s.next]
          next := s.next + 1
          trace := s.trace ++ [.dropped rt.id] }
  | rebuild (task : ℕ) (poisoned : Bool) (htask : task ∈ s.tasks) :
      Move s false (RuntimePool.send
        { s with tasks := s.tasks.erase task, next := s.next + 1 } ⟨s.next, poisoned⟩)
  | fail (task : ℕ) (htask : task ∈ s.tasks) :
      Move s true { s with tasks := s.tasks.erase task, lost := s.lost + 1 }

/-- A rebuild that failed or panicked. -/
def Action.failedRebuild : Action → Bool
  | .rebuilt _ .error => true
  | .rebuilt _ .panicked => true
  | _ => false

theorem mem_of_lookup {guards : List (ℕ × Runtime)} {guard : ℕ} {rt : Runtime}
    (h : guards.lookup guard = some rt) : (guard, rt) ∈ guards := by
  induction guards with
  | nil => simp at h
  | cons g guards ih =>
      rw [lookup_cons] at h
      split at h
      · rename_i heq
        rw [beq_iff_eq] at heq
        cases h
        rw [heq]
        exact mem_cons_self ..
      · exact mem_cons_of_mem _ (ih h)

theorem take_eq_some {s s' : RuntimePool} (h : s.take = some s') :
    ∃ rt rest, s.channel.queue = rt :: rest ∧
      s' = { s with
        channel := { s.channel with queue := rest }
        guards := s.guards ++ [(s.next, rt)]
        next := s.next + 1
        trace := s.trace ++ [.handed rt] } := by
  unfold RuntimePool.take Channel.tryRecv at h
  cases hqueue : s.channel.queue with
  | nil => simp [hqueue] at h
  | cons rt rest =>
      simp only [hqueue, Option.some.injEq] at h
      exact ⟨rt, rest, rfl, h.symm⟩

theorem receive_move (s : RuntimePool) (call : ℕ) (timed : Bool) :
    Move s false (s.receive call timed) := by
  unfold RuntimePool.receive
  cases htake : s.take with
  | none => exact .wait _
  | some s' =>
      obtain ⟨rt, rest, hqueue, rfl⟩ := take_eq_some htake
      exact .take s.waiting rt rest hqueue

theorem leave_move {s s' : RuntimePool} (call : ℕ) (h : s.take = some s') :
    Move s false (s'.leave call) := by
  obtain ⟨rt, rest, hqueue, rfl⟩ := take_eq_some h
  exact .take _ rt rest hqueue

theorem dropGuard_move {s : RuntimePool} {guard : ℕ} {rt : Runtime}
    (h : (guard, rt) ∈ s.guards) (panicking : Bool) :
    Move s false (s.dropGuard guard rt panicking) := by
  unfold RuntimePool.dropGuard
  simp only
  split
  · rename_i hclean
    simp only [Bool.and_eq_true, Bool.not_eq_true'] at hclean
    exact .giveBack guard rt h fun _ => hclean.1
  split
  · rename_i hhook
    refine .giveBack guard rt h fun hrebuild => ?_
    rw [hrebuild] at hhook
    cases hhook
  · exact .retire guard rt h

/-- Every step is one of the moves, and fails a rebuild exactly when it says so. -/
theorem step_move {s s' : RuntimePool} {a : Action} (h : step s a = some s') :
    Move s a.failedRebuild s' := by
  cases a with
  | get call =>
      simp only [step, Option.ite_none_left_eq_some, Option.some.injEq] at h
      rw [← h.2]
      exact receive_move s call false
  | getTimeout call wait =>
      simp only [step, Option.ite_none_left_eq_some] at h
      obtain ⟨-, h⟩ := h
      split at h
      · cases h
        exact receive_move s call false
      · cases h
        exact receive_move s call true
  | resume call =>
      simp only [step, Option.ite_none_right_eq_some] at h
      obtain ⟨-, h⟩ := h
      cases htake : s.take with
      | none =>
          rw [htake] at h
          cases h
          exact .wait s.waiting
      | some next =>
          rw [htake] at h
          cases h
          exact leave_move call htake
  | expire call =>
      simp only [step, Option.ite_none_right_eq_some] at h
      obtain ⟨-, h⟩ := h
      cases htake : s.take with
      | none =>
          rw [htake] at h
          cases h
          exact .wait _
      | some next =>
          rw [htake] at h
          cases h
          exact leave_move call htake
  | cancel call =>
      simp only [step, Option.ite_none_right_eq_some, Option.some.injEq] at h
      rw [← h.2]
      exact .wait _
  | poison guard =>
      simp only [step, Option.map_eq_some_iff] at h
      obtain ⟨rt, hlookup, rfl⟩ := h
      exact .mark guard rt (mem_of_lookup hlookup)
  | dropGuard guard panicking =>
      simp only [step, Option.map_eq_some_iff] at h
      obtain ⟨rt, hlookup, rfl⟩ := h
      exact dropGuard_move (mem_of_lookup hlookup) panicking
  | rebuilt task outcome =>
      simp only [step, Option.ite_none_right_eq_some] at h
      obtain ⟨htask, h⟩ := h
      cases outcome with
      | ok poisoned =>
          cases h
          exact .rebuild task poisoned htask
      | error =>
          cases h
          exact .fail task htask
      | panicked =>
          cases h
          exact .fail task htask

/-! ## Slots and identities -/

/-- The identities of the states that are idle or checked out. -/
def RuntimePool.ids (s : RuntimePool) : List ℕ :=
  s.channel.queue.map (·.id) ++ s.guards.map (·.2.id)

/-- Every slot is accounted for, and no state stands in two of them. -/
structure Conserved (n : ℕ) (s : RuntimePool) : Prop where
  total : s.channel.queue.length + s.guards.length + s.tasks.length + s.lost = n
  capacity : s.channel.capacity = n
  distinct : s.ids.Nodup
  bound : ∀ id ∈ s.ids, id < s.next
  room : ∀ rt, Event.full rt ∉ s.trace

theorem send_of_room {s : RuntimePool} (rt : Runtime)
    (h : s.channel.queue.length < s.channel.capacity) :
    s.send rt = { s with
      channel := { s.channel with queue := s.channel.queue ++ [rt] }
      trace := s.trace ++ [.sent rt] } := by
  unfold RuntimePool.send Channel.trySend
  rw [if_pos h]

/-- Sending a state that is not in the pool, while another slot is free. -/
theorem Conserved.send {n : ℕ} {s : RuntimePool} {rt : Runtime}
    (htotal : s.channel.queue.length + s.guards.length + s.tasks.length + s.lost + 1 = n)
    (hcapacity : s.channel.capacity = n) (hdistinct : (rt.id :: s.ids).Nodup)
    (hbound : ∀ id ∈ rt.id :: s.ids, id < s.next) (hroom : ∀ rt, Event.full rt ∉ s.trace) :
    Conserved n (s.send rt) ∧ (s.send rt).lost = s.lost := by
  have hlt : s.channel.queue.length < s.channel.capacity := by omega
  have hperm : (s.channel.queue ++ [rt]).map (·.id) ++ s.guards.map (·.2.id) ~ rt.id :: s.ids := by
    rw [map_append, append_assoc]
    exact perm_middle
  rw [send_of_room rt hlt]
  refine ⟨⟨?_, hcapacity, hperm.nodup_iff.mpr hdistinct, ?_, ?_⟩, rfl⟩
  · simp only [length_append, length_cons, length_nil]
    omega
  · intro id hid
    exact hbound id (hperm.mem_iff.mp hid)
  · intro full hmem
    simp only [mem_append, mem_singleton, reduceCtorEq, or_false] at hmem
    exact hroom full hmem

/-- The guards without one of them. -/
theorem guards_perm {s : RuntimePool} {guard : ℕ} {rt : Runtime} (h : (guard, rt) ∈ s.guards) :
    s.ids ~ rt.id :: (s.channel.queue.map (·.id) ++ (s.guards.erase (guard, rt)).map (·.2.id)) := by
  have hguards := (perm_cons_erase h).map fun g : ℕ × Runtime => g.2.id
  exact (hguards.append_left _).trans perm_middle

theorem map_mark_ids (guards : List (ℕ × Runtime)) (guard : ℕ) :
    (guards.map fun g => if g.1 = guard then (g.1, { g.2 with poisoned := true }) else g).map
      (·.2.id) = guards.map (·.2.id) := by
  rw [map_map]
  refine map_congr_left fun g _ => ?_
  simp only [Function.comp_apply]
  split <;> rfl

theorem Move.conserved {n : ℕ} {s s' : RuntimePool} {failed : Bool} (h : Move s failed s')
    (hs : Conserved n s) : Conserved n s' ∧ s'.lost = s.lost + failed.toNat := by
  cases h with
  | wait waiting => exact ⟨⟨hs.total, hs.capacity, hs.distinct, hs.bound, hs.room⟩, rfl⟩
  | take waiting rt rest hqueue =>
      have hids : s.ids ~ rest.map (·.id) ++ (s.guards ++ [(s.next, rt)]).map (·.2.id) := by
        unfold RuntimePool.ids
        rw [hqueue, map_append, map_cons, cons_append, ← append_assoc]
        exact (perm_append_singleton _ _).symm
      have htotal := hs.total
      rw [hqueue, length_cons] at htotal
      refine ⟨⟨?_, hs.capacity, hids.nodup_iff.mp hs.distinct, ?_, ?_⟩, rfl⟩
      · simp only [length_append, length_cons, length_nil]
        omega
      · intro id hid
        exact Nat.lt_succ_of_lt (hs.bound id (hids.mem_iff.mpr hid))
      · intro full hmem
        simp only [mem_append, mem_singleton, reduceCtorEq, or_false] at hmem
        exact hs.room full hmem
  | mark guard rt hguard =>
      have hids := map_mark_ids s.guards guard
      refine ⟨⟨?_, hs.capacity, ?_, ?_, ?_⟩, rfl⟩
      · simpa only [length_map] using hs.total
      · unfold RuntimePool.ids
        rw [hids]
        exact hs.distinct
      · unfold RuntimePool.ids
        rw [hids]
        exact hs.bound
      · intro full hmem
        simp only [mem_append, mem_singleton, reduceCtorEq, or_false] at hmem
        exact hs.room full hmem
  | giveBack guard rt hguard hfit =>
      have hlen := length_erase_of_mem hguard
      have hpos := length_pos_of_mem hguard
      have htotal := hs.total
      refine Conserved.send ?_ hs.capacity ((guards_perm hguard).nodup_iff.mp hs.distinct) ?_ hs.room
      · simp only
        omega
      · intro id hid
        exact hs.bound id ((guards_perm hguard).mem_iff.mpr hid)
  | retire guard rt hguard =>
      have hlen := length_erase_of_mem hguard
      have hpos := length_pos_of_mem hguard
      have htotal := hs.total
      refine ⟨⟨?_, hs.capacity, ?_, ?_, ?_⟩, rfl⟩
      · simp only [length_append, length_cons, length_nil]
        omega
      · exact (nodup_cons.mp ((guards_perm hguard).nodup_iff.mp hs.distinct)).2
      · intro id hid
        exact Nat.lt_succ_of_lt (hs.bound id ((guards_perm hguard).mem_iff.mpr (mem_cons_of_mem _ hid)))
      · intro full hmem
        simp only [mem_append, mem_singleton, reduceCtorEq, or_false] at hmem
        exact hs.room full hmem
  | rebuild task poisoned htask =>
      have hlen := length_erase_of_mem htask
      have hpos := length_pos_of_mem htask
      have htotal := hs.total
      refine Conserved.send ?_ hs.capacity ?_ ?_ hs.room
      · simp only
        omega
      · refine nodup_cons.mpr ⟨fun hmem => ?_, hs.distinct⟩
        exact Nat.lt_irrefl _ (hs.bound _ hmem)
      · intro id hid
        rcases mem_cons.mp hid with rfl | hid
        · exact Nat.lt_succ_self _
        · exact Nat.lt_succ_of_lt (hs.bound id hid)
  | fail task htask =>
      have hlen := length_erase_of_mem htask
      have hpos := length_pos_of_mem htask
      have htotal := hs.total
      refine ⟨⟨?_, hs.capacity, hs.distinct, hs.bound, hs.room⟩, rfl⟩
      simp only
      omega

/-! ## Poisoned states -/

/-- After this event the state with the identity must not be handed out. -/
def Event.Spends : Event → ℕ → Prop
  | .marked id, spent => id = spent
  | .dropped id, spent => id = spent
  | .handed rt, spent => rt.poisoned = true ∧ rt.id = spent
  | .sent _, _ => False
  | .full _, _ => False

/-- Nothing the first event spends is handed out by the second. -/
def NotHandedAgain (e later : Event) : Prop := ∀ id rt, e.Spends id → later = .handed rt → rt.id ≠ id

/-- A state that is out of the channel for good: a guard that still holds it knows it. -/
structure Shelved (s : RuntimePool) (id : ℕ) : Prop where
  lt : id < s.next
  not_idle : ∀ rt ∈ s.channel.queue, rt.id ≠ id
  held : ∀ g ∈ s.guards, g.2.id = id → g.2.poisoned = true

/-- With a rebuild hook, every spent state is shelved. -/
structure Retiring (s : RuntimePool) : Prop where
  hook : s.rebuild = true
  ordered : s.trace.Pairwise NotHandedAgain
  shelved : ∀ e ∈ s.trace, ∀ id, e.Spends id → Shelved s id

/-- A step with one event keeps spent states shelved if it shelves what it spends and
hands out only idle states. -/
theorem Retiring.event {s s' : RuntimePool} {e : Event} (hs : Retiring s)
    (hhook : s'.rebuild = s.rebuild) (htrace : s'.trace = s.trace ++ [e])
    (hkeep : ∀ id, Shelved s id → Shelved s' id) (hnew : ∀ id, e.Spends id → Shelved s' id)
    (hhanded : ∀ rt, e = .handed rt → rt ∈ s.channel.queue) : Retiring s' := by
  refine ⟨hhook.trans hs.hook, ?_, ?_⟩
  · rw [htrace, pairwise_append]
    refine ⟨hs.ordered, pairwise_singleton _ _, fun earlier hearlier last hlast => ?_⟩
    rw [mem_singleton.mp hlast]
    intro id rt hspent hrt
    exact (hs.shelved earlier hearlier id hspent).not_idle rt (hhanded rt hrt)
  · intro event hevent id hspent
    rw [htrace, mem_append, mem_singleton] at hevent
    rcases hevent with hevent | rfl
    · exact hkeep id (hs.shelved event hevent id hspent)
    · exact hnew id hspent

theorem Conserved.guard_not_idle {n : ℕ} {s : RuntimePool} (hc : Conserved n s)
    {guard : ℕ} {rt : Runtime} (hguard : (guard, rt) ∈ s.guards) :
    ∀ idle ∈ s.channel.queue, idle.id ≠ rt.id := by
  intro idle hidle heq
  have hdisjoint := (nodup_append.mp hc.distinct).2.2
  exact hdisjoint _ (mem_map_of_mem hidle) _ (mem_map_of_mem hguard) heq

theorem Conserved.guard_lt {n : ℕ} {s : RuntimePool} (hc : Conserved n s)
    {guard : ℕ} {rt : Runtime} (hguard : (guard, rt) ∈ s.guards) : rt.id < s.next :=
  hc.bound _ (mem_append_right _ (mem_map_of_mem (f := fun g : ℕ × Runtime => g.2.id) hguard))

theorem Shelved.ne_of_room {s : RuntimePool} {id : ℕ} (h : Shelved s id) {rt : Runtime}
    {queue : List Runtime} (hqueue : ∀ r ∈ queue, r ∈ s.channel.queue) (hrt : rt.id ≠ id) :
    ∀ r ∈ queue ++ [rt], r.id ≠ id := by
  intro r hr
  rcases mem_append.mp hr with hr | hr
  · exact h.not_idle r (hqueue r hr)
  · rw [mem_singleton.mp hr]
    exact hrt

theorem Move.retiring {n : ℕ} {s s' : RuntimePool} {failed : Bool} (h : Move s failed s')
    (hc : Conserved n s) (hs : Retiring s) : Retiring s' := by
  have hc' := (h.conserved hc).1
  cases h with
  | wait waiting =>
      exact ⟨hs.hook, hs.ordered, fun e he id hid =>
        let old := hs.shelved e he id hid
        ⟨old.lt, old.not_idle, old.held⟩⟩
  | fail task htask =>
      exact ⟨hs.hook, hs.ordered, fun e he id hid =>
        let old := hs.shelved e he id hid
        ⟨old.lt, old.not_idle, old.held⟩⟩
  | take waiting rt rest hqueue =>
      have hrt : rt ∈ s.channel.queue := by
        rw [hqueue]
        exact mem_cons_self ..
      refine hs.event rfl rfl (fun id old => ?_) (fun id hid => ?_) fun handed heq => ?_
      · refine ⟨Nat.lt_succ_of_lt old.lt, fun r hr => old.not_idle r ?_, fun g hg hgid => ?_⟩
        · rw [hqueue]
          exact mem_cons_of_mem _ hr
        · rcases mem_append.mp hg with hg | hg
          · exact old.held g hg hgid
          · rw [mem_singleton.mp hg] at hgid
            exact absurd hgid (old.not_idle rt hrt)
      · obtain ⟨hpoisoned, rfl⟩ := hid
        have hnew : (s.next, rt) ∈ s.guards ++ [(s.next, rt)] :=
          mem_append_right _ (mem_singleton_self _)
        refine ⟨hc'.guard_lt hnew, hc'.guard_not_idle hnew, fun g hg hgid => ?_⟩
        rcases mem_append.mp hg with hg | hg
        · -- Another guard with this state would hold an idle one.
          exact absurd hgid.symm (hc.guard_not_idle hg rt hrt)
        · rw [mem_singleton.mp hg]
          exact hpoisoned
      · cases heq
        exact hrt
  | mark guard rt hguard =>
      have hold : ∀ g ∈ s.guards.map fun g =>
          if g.1 = guard then (g.1, { g.2 with poisoned := true }) else g,
          g.2.poisoned = true ∨ g ∈ s.guards := by
        intro g hg
        obtain ⟨old, hmem, rfl⟩ := mem_map.mp hg
        split
        · exact .inl rfl
        · exact .inr hmem
      refine hs.event rfl rfl (fun id old => ?_) (fun id hid => ?_) fun handed heq => ?_
      · refine ⟨old.lt, old.not_idle, fun g hg hgid => ?_⟩
        rcases hold g hg with hpoisoned | hmem
        · exact hpoisoned
        · exact old.held g hmem hgid
      · obtain rfl : rt.id = id := hid
        refine ⟨hc.guard_lt hguard, hc.guard_not_idle hguard, fun g hg hgid => ?_⟩
        obtain ⟨old, hmem, rfl⟩ := mem_map.mp hg
        by_cases hkey : old.1 = guard
        · simp [hkey]
        · rw [if_neg hkey] at hgid
          have hsame : old = (guard, rt) :=
            inj_on_of_nodup_map (nodup_append.mp hc.distinct).2.1 hmem hguard hgid
          rw [hsame] at hkey
          exact absurd rfl hkey
      · cases heq
  | giveBack guard rt hguard hfit =>
      have hroom : s.channel.queue.length < s.channel.capacity := by
        have htotal := hc.total
        have hcapacity := hc.capacity
        have hpos := length_pos_of_mem hguard
        omega
      rw [@send_of_room { s with guards := s.guards.erase (guard, rt) } rt hroom]
      refine hs.event rfl rfl (fun id old => ?_) (fun id hid => ?_) fun handed heq => ?_
      · refine ⟨old.lt, old.ne_of_room (fun r hr => hr) ?_, fun g hg =>
          old.held g (mem_of_mem_erase hg)⟩
        intro hid
        have hpoisoned := old.held (guard, rt) hguard hid
        rw [hfit hs.hook] at hpoisoned
        cases hpoisoned
      · cases hid
      · cases heq
  | retire guard rt hguard =>
      have hrest := (nodup_cons.mp ((guards_perm hguard).nodup_iff.mp hc.distinct)).1
      refine hs.event rfl rfl (fun id old => ?_) (fun id hid => ?_) fun handed heq => ?_
      · exact ⟨Nat.lt_succ_of_lt old.lt, old.not_idle, fun g hg => old.held g (mem_of_mem_erase hg)⟩
      · obtain rfl : rt.id = id := hid
        refine ⟨Nat.lt_succ_of_lt (hc.guard_lt hguard), hc.guard_not_idle hguard,
          fun g hg hgid => ?_⟩
        refine absurd (mem_append_right _ ?_) hrest
        rw [← hgid]
        exact mem_map_of_mem (f := fun g : ℕ × Runtime => g.2.id) hg
      · cases heq
  | rebuild task poisoned htask =>
      have hroom : s.channel.queue.length < s.channel.capacity := by
        have htotal := hc.total
        have hcapacity := hc.capacity
        have hpos := length_pos_of_mem htask
        omega
      rw [@send_of_room { s with tasks := s.tasks.erase task, next := s.next + 1 }
        ⟨s.next, poisoned⟩ hroom]
      refine hs.event rfl rfl (fun id old => ?_) (fun id hid => ?_) fun handed heq => ?_
      · refine ⟨Nat.lt_succ_of_lt old.lt, old.ne_of_room (fun r hr => hr) ?_, old.held⟩
        exact (Nat.ne_of_lt old.lt).symm
      · cases hid
      · cases heq

/-! ## The initial pool -/

theorem foldl_send {s : RuntimePool} {rts : List Runtime}
    (h : s.channel.queue.length + rts.length ≤ s.channel.capacity) :
    rts.foldl RuntimePool.send s = { s with
      channel := { s.channel with queue := s.channel.queue ++ rts }
      trace := s.trace ++ rts.map .sent } := by
  induction rts generalizing s with
  | nil => simp
  | cons rt rts ih =>
      rw [length_cons] at h
      rw [foldl_cons, send_of_room rt (by omega), ih]
      · simp
      · simp only [length_append, length_cons, length_nil]
        omega

theorem build_eq {flags : List Bool} (hne : flags ≠ []) (rebuild : Bool) :
    let rts := flags.zipIdx.map fun flag => (⟨flag.2, flag.1⟩ : Runtime)
    RuntimePool.build flags rebuild =
      { channel := ⟨flags.length, rts⟩
        rebuild := rebuild
        waiting := []
        guards := []
        tasks := []
        lost := 0
        next := flags.length
        trace := rts.map .sent } := by
  have hpos := length_pos_iff.mpr hne
  have hmax : Nat.max flags.length 1 = flags.length := Nat.max_eq_left hpos
  unfold RuntimePool.build
  rw [hmax, foldl_send]
  · simp
  · simp

theorem build_conserved {flags : List Bool} (hne : flags ≠ []) (rebuild : Bool) :
    Conserved flags.length (RuntimePool.build flags rebuild) := by
  have hids : (flags.zipIdx.map fun flag => (⟨flag.2, flag.1⟩ : Runtime)).map (·.id) =
      range' 0 flags.length := by
    rw [map_map, ← zipIdx_map_snd]
    rfl
  rw [build_eq hne]
  refine ⟨by simp, rfl, ?_, ?_, by simp⟩
  · simp only [RuntimePool.ids, map_nil, append_nil]
    rw [hids]
    exact nodup_range' 1
  · simp only [RuntimePool.ids, map_nil, append_nil]
    intro id hid
    rw [hids, mem_range'_1] at hid
    omega

theorem build_retiring {flags : List Bool} (hne : flags ≠ []) :
    Retiring (RuntimePool.build flags true) := by
  rw [build_eq hne]
  refine ⟨rfl, ?_, ?_⟩
  · rw [pairwise_map]
    exact pairwise_of_forall fun _ _ _ _ hspent => hspent.elim
  · intro e he id hspent
    obtain ⟨rt, -, rfl⟩ := mem_map.mp he
    exact hspent.elim

/-! ## Whole runs -/

theorem run_conserved {n : ℕ} {s s' : RuntimePool} {actions : List Action}
    (h : run s actions = some s') (hs : Conserved n s) :
    Conserved n s' ∧ s'.lost = s.lost + actions.countP Action.failedRebuild := by
  induction actions generalizing s with
  | nil =>
      cases h
      exact ⟨hs, rfl⟩
  | cons a actions ih =>
      obtain ⟨next, hstep, hrun⟩ := Option.bind_eq_some_iff.mp h
      obtain ⟨hnext, hlost⟩ := (step_move hstep).conserved hs
      obtain ⟨hs', hlost'⟩ := ih hrun hnext
      refine ⟨hs', ?_⟩
      rw [hlost', hlost, countP_cons]
      cases a.failedRebuild
      · simp
      · simp only [Bool.toNat_true, if_true]
        omega

theorem run_retiring {n : ℕ} {s s' : RuntimePool} {actions : List Action}
    (h : run s actions = some s') (hc : Conserved n s) (hs : Retiring s) : Retiring s' := by
  induction actions generalizing s with
  | nil =>
      cases h
      exact hs
  | cons a actions ih =>
      obtain ⟨next, hstep, hrun⟩ := Option.bind_eq_some_iff.mp h
      have hmove := step_move hstep
      exact ih hrun (hmove.conserved hc).1 (hmove.retiring hc hs)

/-- For a pool of `n ≥ 1` states and any order of steps: every slot is idle, checked out,
being rebuilt or lost; a slot is lost exactly by a rebuild that failed or panicked; no two
guards hold one state and no held state is idle; with a rebuild hook a state that was
marked poisoned, handed out poisoned or dropped as damaged is never handed out again; and
no send finds the channel full. -/
theorem run_conserves_slots (flags : List Bool) (hne : flags ≠ []) (rebuild : Bool)
    (actions : List Action) (s : RuntimePool)
    (h : run (RuntimePool.build flags rebuild) actions = some s) :
    s.channel.queue.length + s.guards.length + s.tasks.length + s.lost = flags.length ∧
      s.lost = actions.countP Action.failedRebuild ∧
      (s.channel.queue.map (·.id) ++ s.guards.map (·.2.id)).Nodup ∧
      (rebuild = true → s.trace.Pairwise NotHandedAgain) ∧
      ∀ rt, Event.full rt ∉ s.trace := by
  have hbuilt := build_conserved hne rebuild
  obtain ⟨hs, hlost⟩ := run_conserved h hbuilt
  refine ⟨hs.total, ?_, hs.distinct, fun hrebuild => ?_, hs.room⟩
  · rw [hlost, build_eq hne]
    exact Nat.zero_add _
  · subst hrebuild
    exact (run_retiring h hbuilt (build_retiring hne)).ordered

/-- Two states: one call takes a state, marks it and drops it while a second call holds
the other; a third call waits, the rebuild fails, and the wait times out. -/
def failingRun : List Action :=
  [.getTimeout 0 5, .get 1, .poison 2, .dropGuard 2 false, .getTimeout 2 5, .rebuilt 4 .error,
    .expire 2]

def afterFailingRun : RuntimePool where
  channel := ⟨2, []⟩
  rebuild := true
  waiting := []
  guards := [(3, ⟨1, false⟩)]
  tasks := []
  lost := 1
  next := 5
  trace := [.sent ⟨0, false⟩, .sent ⟨1, false⟩, .handed ⟨0, false⟩, .handed ⟨1, false⟩, .marked 0,
    .dropped 0]

theorem run_conserves_slots_two_states :
    run (RuntimePool.build [false, false] true) failingRun = some afterFailingRun ∧
      afterFailingRun.trace.Pairwise NotHandedAgain :=
  ⟨by decide, (run_conserves_slots [false, false] (by decide) true failingRun afterFailingRun
    (by decide)).2.2.2.1 rfl⟩

end Nitr.Pool
