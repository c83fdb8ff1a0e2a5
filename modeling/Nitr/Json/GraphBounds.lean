import Nitr.Json.Graph

/-! # Serialization of table graphs ends

What one call leaves behind: the stack it was given, at most one charged value for each unit of
the budget, and no value below the depth bound. A graph that is serialized has no cycle. -/

namespace Nitr.Json

open Nitr.Validate (F64)

variable {Ptr : Type}

/-! ## Graphs without a cycle -/

/-- A table stands in another as a key or as a value. -/
def Contains (heap : Heap Ptr) (p q : Ptr) : Prop :=
  ∃ e ∈ (heap p).entries, e.1 = .table q ∨ e.2 = .table q

/-- No table below a table is on the stack of those above it. -/
inductive Clear (heap : Heap Ptr) : List Ptr → Ptr → Prop
  | intro {path : List Ptr} {p : Ptr} (hnew : p ∉ path)
      (hbelow : ∀ q, Contains heap p q → Clear heap (p :: path) q) : Clear heap path p

def ClearValue (heap : Heap Ptr) (path : List Ptr) (value : GraphValue Ptr) : Prop :=
  ∀ p, value = .table p → Clear heap path p

theorem Clear.reach {heap : Heap Ptr} {path : List Ptr} {p q : Ptr} (h : Clear heap path p)
    (hreach : Relation.ReflTransGen (Contains heap) p q) :
    ∃ path', Clear heap path' q ∧ path ⊆ path' := by
  induction hreach with
  | refl => exact ⟨path, h, List.Subset.refl _⟩
  | tail _ hstep ih =>
      have ⟨path', hclear, hsub⟩ := ih
      cases hclear with
      | intro _ hbelow => exact ⟨_, hbelow _ hstep, List.subset_cons_of_subset _ hsub⟩

theorem Clear.not_cyclic {heap : Heap Ptr} {path : List Ptr} {p q : Ptr} (h : Clear heap path p)
    (hreach : Relation.ReflTransGen (Contains heap) p q) :
    ¬Relation.TransGen (Contains heap) q q := by
  intro hcycle
  have ⟨path', hclear, _⟩ := h.reach hreach
  have ⟨r, hstep, hback⟩ := Relation.TransGen.head'_iff.mp hcycle
  cases hclear with
  | intro _ hbelow =>
      have ⟨path'', hclear', hsub⟩ := (hbelow r hstep).reach hback
      cases hclear' with
      | intro hnew _ => exact hnew (hsub List.mem_cons_self)

/-! ## What a run leaves -/

/-- What a run does to the pass: the values it serializes are charged, but for the last one if
it fails, and `gain` more are. -/
structure Outcome (room gain : ℕ) (s : Pass Ptr) (ok : Bool) (s' : Pass Ptr) : Prop where
  path : s'.path = s.path
  depth : ok = true → s'.depth = s.depth
  spent : s'.visited + s'.budget = s.visited + s.budget
  values : ∃ new, s'.values = s.values ++ new ∧ (∀ path ∈ new, path.length ≤ room) ∧
    s.visited + new.length + gain ≤ s'.visited + if ok then 0 else 1

namespace Outcome

variable {room gain : ℕ} {s s' s'' : Pass Ptr} {ok : Bool}

theorem refl (room : ℕ) (s : Pass Ptr) : Outcome room 0 s true s :=
  ⟨rfl, fun _ => rfl, rfl, [], (List.append_nil _).symm, nofun, le_rfl⟩

theorem trans {gain' : ℕ} (h : Outcome room gain s true s') (h' : Outcome room gain' s' ok s'') :
    Outcome room (gain + gain') s ok s'' := by
  have ⟨new, hnew, hroom, hcount⟩ := h.values
  have ⟨new', hnew', hroom', hcount'⟩ := h'.values
  refine ⟨h'.path.trans h.path, fun hok => (h'.depth hok).trans (h.depth rfl),
    h'.spent.trans h.spent, new ++ new', ?_, ?_, ?_⟩
  · rw [hnew', hnew, List.append_assoc]
  · intro path hpath
    exact (List.mem_append.mp hpath).elim (hroom path) (hroom' path)
  · rw [List.length_append]
    rw [if_pos rfl] at hcount
    omega

/-- A failure may leave one value uncharged. -/
theorem fail (h : Outcome room gain s true s') : Outcome room (gain + 1) s false s' := by
  have ⟨new, hnew, hroom, hcount⟩ := h.values
  rw [if_pos rfl] at hcount
  exact ⟨h.path, nofun, h.spent, new, hnew, hroom, by rw [if_neg Bool.false_ne_true]; omega⟩

theorem weaken {gain' : ℕ} (h : Outcome room gain s ok s') (hgain : gain' ≤ gain) :
    Outcome room gain' s ok s' := by
  have ⟨new, hnew, hroom, hcount⟩ := h.values
  exact ⟨h.path, h.depth, h.spent, new, hnew, hroom, by omega⟩

/-- One value is charged. -/
theorem charged (room : ℕ) (hbudget : s.budget ≠ 0) :
    Outcome room 1 s true { s with budget := s.budget - 1, visited := s.visited + 1 } :=
  ⟨rfl, fun _ => rfl, by simp only; omega, [], (List.append_nil _).symm, nofun, le_rfl⟩

end Outcome

/-- The pass after a sequence or map is entered. -/
def entered (s : Pass Ptr) : Pass Ptr :=
  { s with depth := s.depth + 1, budget := s.budget - 1, visited := s.visited + 1 }

namespace Outcome

variable {room : ℕ} {s s' : Pass Ptr} {ok : Bool}

theorem left (hbudget : s.budget ≠ 0) (h : Outcome room 0 (entered s) true s') :
    Outcome room 1 s true { s' with depth := s'.depth - 1 } := by
  have ⟨new, hnew, hroom, hcount⟩ := h.values
  have hspent := h.spent
  have hdepth := h.depth rfl
  simp only [entered] at hspent hdepth hcount
  refine ⟨h.path, fun _ => ?_, ?_, new, hnew, hroom, ?_⟩
  · simp only
    omega
  · simp only
    omega
  · simp only
    omega

theorem broken (hbudget : s.budget ≠ 0) (h : Outcome room 0 (entered s) false s') :
    Outcome room 1 s false s' := by
  have ⟨new, hnew, hroom, hcount⟩ := h.values
  have hspent := h.spent
  simp only [entered] at hspent hcount
  exact ⟨h.path, nofun, by omega, new, hnew, hroom, by omega⟩

end Outcome

/-! ## The steps -/

section

variable {room : ℕ} {Ok : Type} {s : Pass Ptr}

theorem visit_ends (room : ℕ) (s : Pass Ptr) : Run.Ends Pass.visit s fun r s' =>
    match r with
    | .error _ => Outcome room 1 s false s'
    | .ok _ => s.budget ≠ 0 ∧ s' = { s with budget := s.budget - 1, visited := s.visited + 1 } := by
  by_cases hbudget : s.budget = 0
  · exact ⟨_, _, if_pos hbudget, (Outcome.refl room s).fail⟩
  · exact ⟨_, _, if_neg hbudget, hbudget, rfl⟩

theorem serializeScalar_ends (inner : Inner Ok) (call : Scalar) :
    Run.Ends (serializeScalar inner call) s fun r s' => Outcome room 1 s r.isOk s' := by
  refine Run.Ends.bind ((visit_ends room s).mono ?_)
  intro r s' h
  cases r with
  | error e => exact h
  | ok _ =>
      have ⟨hbudget, hs'⟩ := h
      have hcharged := Outcome.charged room hbudget
      rw [hs']
      have hlift : Run.Ends (Run.lift (inner.scalar call))
          { s with budget := s.budget - 1, visited := s.visited + 1 }
          fun r s' => Outcome room 1 s r.isOk s' := by
        refine Run.Ends.lift ?_
        cases inner.scalar call with
        | error e => exact hcharged.fail.weaken (by omega)
        | ok a => exact hcharged
      cases call with
      | bytes b => exact Run.Ends.fail (hcharged.fail.weaken (by omega))
      | _ => exact hlift

/-- A sequence or map is entered only above the depth bound, and left at the depth it was
entered at. -/
theorem compound_ends {Docs : Type} (make : Except GraphError (Docs → Ok))
    {loop : Run (Pass Ptr) GraphError Docs} {Q : Prop}
    (hloop : s.depth < maxJsonDepth → Run.Ends loop (entered s) fun r s' =>
      Outcome room 0 (entered s) r.isOk s' ∧ (r.isOk = true → Q)) :
    Run.Ends (compound make loop) s fun r s' =>
      Outcome room 1 s r.isOk s' ∧ (r.isOk = true → Q) := by
  refine Run.Ends.bind ((visit_ends room s).mono ?_)
  intro r s' h
  cases r with
  | error e => exact ⟨h, nofun⟩
  | ok _ =>
      have ⟨hbudget, hs'⟩ := h
      rw [hs']
      refine Run.Ends.bind ?_
      by_cases hdepth : maxJsonDepth < s.depth + 1
      · exact ⟨_, _, if_pos hdepth, (Outcome.charged room hbudget).fail.weaken (by omega), nofun⟩
      · refine ⟨_, _, if_neg hdepth, Run.Ends.bind (Run.Ends.lift ?_)⟩
        cases make with
        | error e =>
            exact ⟨((Outcome.refl room (entered s)).fail.weaken (by omega)).broken hbudget, nofun⟩
        | ok finish =>
            refine Run.Ends.bind ((hloop (by omega)).mono ?_)
            intro r s' h
            cases r with
            | error e => exact ⟨h.1.broken hbudget, nofun⟩
            | ok docs =>
                refine Run.Ends.bind ⟨_, _, rfl, Run.Ends.pure ⟨h.1.left hbudget, fun _ => ?_⟩⟩
                exact h.2 rfl

end

/-! ## The loops -/

/-- The bounds leave room for the value and for so many nested tables. -/
structure Fits (room nested : ℕ) (s : Pass Ptr) : Prop where
  depth : s.depth ≤ maxJsonDepth
  room : s.path.length + maxJsonDepth ≤ room + s.depth
  nested : maxJsonDepth < s.depth + nested

theorem Fits.after {room nested gain : ℕ} {s s' : Pass Ptr} (h : Fits room nested s)
    (hout : Outcome room gain s true s') : Fits room nested s' := by
  have hdepth := hout.depth rfl
  exact ⟨hdepth ▸ h.depth, by rw [hout.path, hdepth]; exact h.room, hdepth ▸ h.nested⟩

/-- What is asked of the serializer of the elements. -/
def Serves (heap : Heap Ptr) (room nested : ℕ) (child : Child Ptr) : Prop :=
  ∀ (Ok : Type) (inner : Inner Ok) (value : GraphValue Ptr) (s : Pass Ptr), Fits room nested s →
    Run.Ends (child Ok inner value) s fun r s' =>
      Outcome room 0 s r.isOk s' ∧ (r.isOk = true → ClearValue heap s.path value)

section

variable {heap : Heap Ptr} {room nested : ℕ} {child : Child Ptr} {decimal : F64 → String}

theorem elements_ends (hchild : Serves heap room nested child) (items : List (GraphValue Ptr))
    {s : Pass Ptr} (hfits : Fits room nested s) :
    Run.Ends (elements child items) s fun r s' =>
      Outcome room 0 s r.isOk s' ∧
        (r.isOk = true → ∀ item ∈ items, ClearValue heap s.path item) := by
  induction items generalizing s with
  | nil =>
      exact Run.Ends.pure ⟨Outcome.refl room s, fun _ item hitem => absurd hitem List.not_mem_nil⟩
  | cons item items ih =>
      refine Run.Ends.bind ((hchild Doc docInner item s hfits).mono ?_)
      intro r s' h
      cases r with
      | error e => exact ⟨h.1, nofun⟩
      | ok doc =>
          refine Run.Ends.bind ((ih (hfits.after h.1)).mono ?_)
          intro r s'' h'
          have hout := h.1.trans h'.1
          cases r with
          | error e => exact ⟨hout, nofun⟩
          | ok docs =>
              refine Run.Ends.pure ⟨hout, fun _ => List.forall_mem_cons.mpr ⟨h.2 rfl, ?_⟩⟩
              rw [← h.1.path]
              exact h'.2 rfl

theorem members_ends (hchild : Serves heap room nested child)
    (entries : List (GraphKey Ptr × GraphValue Ptr)) {s : Pass Ptr} (hfits : Fits room nested s) :
    Run.Ends (members decimal child entries) s fun r s' =>
      Outcome room 0 s r.isOk s' ∧ (r.isOk = true → ∀ e ∈ entries,
        ClearValue heap s.path e.1.value ∧ ClearValue heap s.path e.2) := by
  induction entries generalizing s with
  | nil => exact Run.Ends.pure ⟨Outcome.refl room s, fun _ e he => absurd he List.not_mem_nil⟩
  | cons e entries ih =>
      refine Run.Ends.bind ((hchild String (keyInner decimal) e.1.value s hfits).mono ?_)
      intro r s₁ hkey
      cases r with
      | error e => exact ⟨hkey.1, nofun⟩
      | ok key =>
          refine Run.Ends.bind ((hchild Doc docInner e.2 s₁ (hfits.after hkey.1)).mono ?_)
          intro r s₂ hvalue
          have hentry := hkey.1.trans hvalue.1
          cases r with
          | error e => exact ⟨hentry, nofun⟩
          | ok doc =>
              refine Run.Ends.bind ((ih (hfits.after hentry)).mono ?_)
              intro r s₃ hrest
              have hout := hentry.trans hrest.1
              cases r with
              | error e => exact ⟨hout, nofun⟩
              | ok docs =>
                  refine Run.Ends.pure ⟨hout, fun _ => List.forall_mem_cons.mpr ⟨⟨hkey.2 rfl, ?_⟩, ?_⟩⟩
                  · rw [← hkey.1.path]
                    exact hvalue.2 rfl
                  · rw [← hentry.path]
                    exact hrest.2 rfl

end

/-! ## A table -/

/-- The bounds in a table whose pointer is on the stack, before it is entered. -/
structure Holds (room nested : ℕ) (s : Pass Ptr) : Prop where
  room : s.path.length + maxJsonDepth ≤ room + s.depth + 1
  nested : maxJsonDepth < s.depth + 1 + nested

theorem Holds.fits {room nested : ℕ} {s : Pass Ptr} (h : Holds room nested s)
    (hdepth : s.depth < maxJsonDepth) : Fits room nested (entered s) :=
  ⟨hdepth, by have := h.room; simp only [entered]; omega, h.nested⟩

section

variable {heap : Heap Ptr} {room nested : ℕ} {child : Child Ptr} {decimal : F64 → String}
  {Ok : Type} {inner : Inner Ok} {entries : List (GraphKey Ptr × GraphValue Ptr)} {s : Pass Ptr}

theorem serializeSeq_ends (hchild : Serves heap room nested child) (hholds : Holds room nested s)
    (items : List (GraphValue Ptr)) :
    Run.Ends (serializeSeq inner child items) s fun r s' =>
      Outcome room 1 s r.isOk s' ∧
        (r.isOk = true → ∀ item ∈ items, ClearValue heap s.path item) :=
  compound_ends inner.seq fun hdepth => elements_ends hchild items (hholds.fits hdepth)

theorem serializeMap_ends (hchild : Serves heap room nested child) (hholds : Holds room nested s)
    (entries : List (GraphKey Ptr × GraphValue Ptr)) :
    Run.Ends (serializeMap inner decimal child entries) s fun r s' =>
      Outcome room 1 s r.isOk s' ∧ (r.isOk = true → ∀ e ∈ entries,
        ClearValue heap s.path e.1.value ∧ ClearValue heap s.path e.2) :=
  compound_ends inner.map fun hdepth => members_ends hchild entries (hholds.fits hdepth)

/-- The keys of a list are positions. -/
theorem exists_position (hpure : (entries.any fun e => e.1.position.isNone) = false)
    {e : GraphKey Ptr × GraphValue Ptr} (he : e ∈ entries) :
    ∃ i : ℕ, 1 ≤ i ∧ e.1 = .scalar (.integer i) := by
  have hsome := List.any_eq_false.mp hpure e he
  cases hkey : e.1 with
  | table p => exact absurd (by rw [hkey]; rfl) hsome
  | other t => exact absurd (by rw [hkey]; rfl) hsome
  | scalar key =>
      cases key with
      | integer i =>
          by_cases hi : 1 ≤ i
          · exact ⟨i.toNat, by omega, by rw [Int.toNat_of_nonneg (by omega)]⟩
          · refine absurd ?_ hsome
            rw [hkey]
            simp [GraphKey.position, Key.position, hi]
      | _ => exact absurd (by rw [hkey]; rfl) hsome

theorem map_listed (hpure : (entries.any fun e => e.1.position.isNone) = false) :
    (listed entries).map (fun e => (GraphKey.scalar e.1, e.2)) = entries := by
  induction entries with
  | nil => rfl
  | cons e entries ih =>
      have ⟨i, _, hkey⟩ := exists_position hpure List.mem_cons_self
      rw [List.any_cons, Bool.or_eq_false_iff] at hpure
      have hcons : listed (e :: entries) = (Key.integer i, e.2) :: listed entries := by
        rw [listed, List.filterMap_cons_some (by rw [hkey])]
        rfl
      rw [hcons, List.map_cons, ih hpure.2, ← hkey]

theorem positions_listed (hnodup : (entries.map Prod.fst).Nodup)
    (hpure : (entries.any fun e => e.1.position.isNone) = false) :
    Positions (listed entries) := by
  have hmap := map_listed hpure
  constructor
  · have hkeys : entries.map Prod.fst = ((listed entries).map Prod.fst).map GraphKey.scalar := by
      rw [List.map_map, ← hmap, List.map_map, hmap]
      rfl
    rw [hkeys] at hnodup
    exact List.Nodup.of_map _ hnodup
  · intro e he
    have hmem : (GraphKey.scalar e.1, e.2) ∈ entries := hmap ▸ List.mem_map_of_mem he
    have ⟨i, hi, hkey⟩ := exists_position hpure hmem
    exact ⟨i, hi, GraphKey.scalar.inj hkey⟩

theorem Positions.mem_itemsUpTo {α : Type} {entries : List (Key × α)} (h : Positions entries)
    (hole : α) {e : Key × α} (he : e ∈ entries) :
    e.2 ∈ itemsUpTo entries hole (highest entries) :=
  (h.itemsUpTo_perm hole le_rfl).mem_iff.mpr
    (List.mem_append_left _ (List.mem_map_of_mem he))

/-- Every value of a list is one of its items. -/
theorem serializeList_ends (hchild : Serves heap room nested child) (hholds : Holds room nested s)
    (hnodup : (entries.map Prod.fst).Nodup) :
    Run.Ends (serializeList inner decimal child entries) s fun r s' =>
      Outcome room 1 s r.isOk s' ∧ (r.isOk = true → ∀ e ∈ entries,
        ClearValue heap s.path e.1.value ∧ ClearValue heap s.path e.2) := by
  unfold serializeList
  by_cases hmixed : (entries.any fun e => e.1.position.isNone) = true
  · rw [if_pos hmixed]
    exact Run.Ends.fail ⟨(Outcome.refl room s).fail, nofun⟩
  · have hpure := Bool.eq_false_iff.mpr hmixed
    have hpos := positions_listed hnodup hpure
    have hseq {items : List (GraphValue Ptr)}
        (hitems : items = itemsUpTo (listed entries) .nil (highest (listed entries))) :
        Run.Ends (serializeSeq inner child items) s fun r s' =>
          Outcome room 1 s r.isOk s' ∧ (r.isOk = true → ∀ e ∈ entries,
            ClearValue heap s.path e.1.value ∧ ClearValue heap s.path e.2) := by
      refine (serializeSeq_ends hchild hholds items).mono fun r s' h => ⟨h.1, fun hok e he => ?_⟩
      have ⟨i, _, hkey⟩ := exists_position hpure he
      have hlisted : (Key.integer i, e.2) ∈ listed entries := by
        rw [← map_listed hpure] at he
        have ⟨e', he', heq⟩ := List.mem_map.mp he
        rw [← heq] at hkey ⊢
        rwa [← GraphKey.scalar.inj hkey]
      refine ⟨fun p hp => ?_, h.2 hok e.2 ?_⟩
      · rw [hkey] at hp
        cases hp
      · rw [hitems]
        exact hpos.mem_itemsUpTo .nil hlisted
    rw [if_neg hmixed]
    simp only
    split_ifs with hsparse hcount
    · exact serializeMap_ends hchild hholds entries
    · exact hseq (hpos.sequenceFrom_eq_itemsUpTo .nil hcount)
    · exact hseq rfl

theorem serializeTable_ends (hchild : Serves heap room nested child) (hholds : Holds room nested s)
    (table : LuaTable Ptr) :
    Run.Ends (serializeTable inner decimal child table) s fun r s' =>
      Outcome room 1 s r.isOk s' ∧ (r.isOk = true → ∀ e ∈ table.entries,
        ClearValue heap s.path e.1.value ∧ ClearValue heap s.path e.2) := by
  unfold serializeTable
  split
  · split
    · rename_i hempty
      rw [hempty]
      split
      · refine (serializeSeq_ends hchild hholds []).mono ?_
        exact fun r s' h => ⟨h.1, fun _ e he => absurd he List.not_mem_nil⟩
      · exact serializeMap_ends hchild hholds []
    · exact serializeMap_ends hchild hholds table.entries
  · exact serializeList_ends hchild hholds table.nodup

theorem Outcome.noted {s' : Pass Ptr} {ok : Bool} (hroom : s.path.length ≤ room)
    (h : Outcome room 1 { s with values := s.values ++ [s.path] } ok s') :
    Outcome room 0 s ok s' := by
  have ⟨new, hnew, hpaths, hcount⟩ := h.values
  refine ⟨h.path, h.depth, h.spent, s.path :: new, ?_, ?_, ?_⟩
  · rw [hnew, List.append_assoc]
    rfl
  · exact List.forall_mem_cons.mpr ⟨hroom, hpaths⟩
  · simp only at hcount
    rw [List.length_cons]
    omega

/-- The pointer is off the stack again, and was not on it before. -/
theorem within_ends [DecidableEq Ptr] {p : Ptr} {body : Run (Pass Ptr) GraphError Ok}
    {Q : List Ptr → Prop}
    (hbody : Run.Ends body { s with path := p :: s.path } fun r s' =>
      Outcome room 1 { s with path := p :: s.path } r.isOk s' ∧ (r.isOk = true → Q (p :: s.path))) :
    Run.Ends (Pass.within p body) s fun r s' =>
      Outcome room 1 s r.isOk s' ∧ (r.isOk = true → p ∉ s.path ∧ Q (p :: s.path)) := by
  by_cases hmem : p ∈ s.path
  · exact ⟨_, _, if_pos hmem, (Outcome.refl room s).fail, nofun⟩
  · have ⟨r, s', hrun, hout, hq⟩ := hbody
    refine ⟨r, { s' with path := s'.path.tail }, ?_, ?_, fun hok => ⟨hmem, hq hok⟩⟩
    · rw [Pass.within, if_neg hmem, hrun]
    · exact ⟨congrArg List.tail hout.path, hout.depth, hout.spent, hout.values⟩

end

section

variable [DecidableEq Ptr] (decimal : F64 → String) (heap : Heap Ptr)

/-- A value is serialized through no more tables than the depth bound leaves. -/
theorem serialize_ends (room nested : ℕ) : Serves heap room nested (serialize decimal heap nested) := by
  induction nested with
  | zero =>
      intro Ok inner value s hfits
      exact absurd hfits.nested (by have := hfits.depth; omega)
  | succ nested ih =>
      intro Ok inner value s hfits
      have hroom : s.path.length ≤ room := by
        have := hfits.room
        have := hfits.depth
        omega
      have hscalar (call : Scalar) (hvalue : ∀ p, value ≠ .table p) :
          Run.Ends (serializeScalar inner call) { s with values := s.values ++ [s.path] }
            fun r s' => Outcome room 0 s r.isOk s' ∧
              (r.isOk = true → ClearValue heap s.path value) :=
        (serializeScalar_ends inner call).mono fun r s' h =>
          ⟨h.noted hroom, fun _ p hp => absurd hp (hvalue p)⟩
      rw [serialize.eq_def]
      refine Run.Ends.bind ⟨_, _, rfl, ?_⟩
      cases value with
      | nil => exact hscalar _ nofun
      | null => exact hscalar _ nofun
      | boolean b => exact hscalar _ nofun
      | integer i => exact hscalar _ nofun
      | number n => exact hscalar _ nofun
      | string b => exact hscalar _ nofun
      | other typeName =>
          exact Run.Ends.fail ⟨(Outcome.refl room _).fail.noted hroom, nofun⟩
      | table p =>
          have hholds : Holds room nested { s with
              values := s.values ++ [s.path], path := p :: s.path } := by
            have hr := hfits.room
            have hn := hfits.nested
            exact ⟨by simp only [List.length_cons]; omega, by simp only; omega⟩
          refine (within_ends (Q := fun path => ∀ e ∈ (heap p).entries,
            ClearValue heap path e.1.value ∧ ClearValue heap path e.2)
              (serializeTable_ends ih hholds (heap p))).mono ?_
          intro r s' h
          refine ⟨h.1.noted hroom, fun hok q hq => ?_⟩
          cases hq
          have ⟨hnew, hbelow⟩ := h.2 hok
          refine .intro hnew fun q hq => ?_
          have ⟨e, he, hkind⟩ := hq
          cases hkind with
          | inl hkey => exact (hbelow e he).1 q (by rw [hkey]; rfl)
          | inr hvalue => exact (hbelow e he).2 q hvalue

end

/-! ## More nested tables -/

def Child.Extends (child child' : Child Ptr) : Prop :=
  ∀ (Ok : Type) (inner : Inner Ok) (value : GraphValue Ptr),
    Run.Extends (child Ok inner value) (child' Ok inner value)

section

variable {child child' : Child Ptr} (h : Child.Extends child child') {Ok : Type}
include h

theorem elements_extends (items : List (GraphValue Ptr)) :
    Run.Extends (elements child items) (elements child' items) := by
  induction items with
  | nil => exact .refl _
  | cons item items ih => exact (h Doc docInner item).bind fun _ => ih.bind fun _ => .refl _

theorem members_extends (decimal : F64 → String)
    (entries : List (GraphKey Ptr × GraphValue Ptr)) :
    Run.Extends (members decimal child entries) (members decimal child' entries) := by
  induction entries with
  | nil => exact .refl _
  | cons e entries ih =>
      exact (h String (keyInner decimal) e.1.value).bind fun _ =>
        (h Doc docInner e.2).bind fun _ => ih.bind fun _ => .refl _

omit h in
theorem compound_extends {Docs : Type} (make : Except GraphError (Docs → Ok))
    {loop loop' : Run (Pass Ptr) GraphError Docs} (hloop : Run.Extends loop loop') :
    Run.Extends (compound make loop) (compound make loop') :=
  Run.Extends.bind (.refl _) fun _ => Run.Extends.bind (.refl _) fun _ =>
    Run.Extends.bind (.refl _) fun _ => hloop.bind fun _ => .refl _

theorem serializeTable_extends (inner : Inner Ok) (decimal : F64 → String)
    (table : LuaTable Ptr) :
    Run.Extends (serializeTable inner decimal child table)
      (serializeTable inner decimal child' table) := by
  have hseq (items : List (GraphValue Ptr)) :
      Run.Extends (serializeSeq inner child items) (serializeSeq inner child' items) :=
    compound_extends inner.seq (elements_extends h items)
  have hmap (entries : List (GraphKey Ptr × GraphValue Ptr)) :
      Run.Extends (serializeMap inner decimal child entries)
        (serializeMap inner decimal child' entries) :=
    compound_extends inner.map (members_extends h decimal entries)
  simp only [serializeTable, serializeList]
  split_ifs
  · exact hseq []
  · exact hmap []
  · exact hmap table.entries
  · exact .refl _
  · exact hmap table.entries
  · exact hseq _
  · exact hseq _

end

theorem within_extends [DecidableEq Ptr] {α : Type} (p : Ptr)
    {body body' : Run (Pass Ptr) GraphError α} (h : Run.Extends body body') :
    Run.Extends (Pass.within p body) (Pass.within p body') := by
  intro s r hrun
  unfold Pass.within at hrun ⊢
  by_cases hmem : p ∈ s.path
  · rwa [if_pos hmem] at hrun ⊢
  · rw [if_neg hmem] at hrun ⊢
    cases hbody : body { s with path := p :: s.path } with
    | none =>
        rw [hbody] at hrun
        cases hrun
    | some out =>
        rw [hbody] at hrun
        rwa [h _ out hbody]

section

variable [DecidableEq Ptr] (decimal : F64 → String) (heap : Heap Ptr)

/-- Room for one more nested table changes nothing in a run that ended. -/
theorem serialize_extends (nested : ℕ) :
    Child.Extends (serialize decimal heap nested) (serialize decimal heap (nested + 1)) := by
  induction nested with
  | zero =>
      intro Ok inner value
      rw [serialize.eq_def, serialize.eq_def]
      refine Run.Extends.bind (.refl _) fun _ => ?_
      cases value with
      | table p => exact nofun
      | _ => exact .refl _
  | succ nested ih =>
      intro Ok inner value
      rw [serialize.eq_def, serialize.eq_def]
      refine Run.Extends.bind (.refl _) fun _ => ?_
      cases value with
      | table p => exact within_extends p (serializeTable_extends ih inner decimal (heap p))
      | _ => exact .refl _

end

/-- The run of `to_json_string` over a heap and a given stack: it ends, through no more nested
tables than the depth bound; the stack is left as it was given; no value is serialized below the
depth bound, and no more values are charged than the bound on nodes, with at most one uncharged
value; and a value is refused if some table below it contains itself. -/
theorem serialize_bounded [DecidableEq Ptr] (decimal : F64 → String) (heap : Heap Ptr)
    (path : List Ptr) (value : GraphValue Ptr) :
    ∃ r s, (∀ nested, maxJsonDepth < nested →
        serialize decimal heap nested Doc docInner value (Pass.start path) = some (r, s)) ∧
      s.path = path ∧
      (∀ above ∈ s.values, above.length ≤ path.length + maxJsonDepth) ∧
      s.visited ≤ maxJsonNodes ∧ s.values.length ≤ maxJsonNodes + 1 ∧
      ((∃ p q, value = .table p ∧ Relation.ReflTransGen (Contains heap) p q ∧
        Relation.TransGen (Contains heap) q q) → ∃ e, r = .error e) := by
  have hfits : Fits (path.length + maxJsonDepth) (maxJsonDepth + 1) (Pass.start path) :=
    ⟨Nat.zero_le _, le_rfl, by simp [Pass.start]⟩
  have ⟨r, s, hrun, hout, hclear⟩ := serialize_ends decimal heap (path.length + maxJsonDepth)
    (maxJsonDepth + 1) Doc docInner value (Pass.start path) hfits
  have ⟨new, hnew, hroom, hcount⟩ := hout.values
  have hspent := hout.spent
  simp only [Pass.start, List.nil_append] at hnew hcount hspent
  have hvisited : s.visited ≤ maxJsonNodes := by omega
  refine ⟨r, s, fun nested hnested => ?_, hout.path, ?_, hvisited, ?_, ?_⟩
  · induction nested, Nat.succ_le_of_lt hnested using Nat.le_induction with
    | base => exact hrun
    | succ nested hle ih =>
        exact serialize_extends decimal heap nested Doc docInner value _ _ (ih hle)
  · rw [hnew]
    exact hroom
  · rw [hnew]
    split at hcount <;> omega
  · rintro ⟨p, q, hvalue, hreach, hcycle⟩
    cases r with
    | error e => exact ⟨e, rfl⟩
    | ok doc => exact absurd hcycle ((hclear rfl p hvalue).not_cyclic hreach)

end Nitr.Json
