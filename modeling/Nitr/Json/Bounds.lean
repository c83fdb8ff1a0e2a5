import Nitr.Json.Encode

/-! # The bounds of the pass and of the walk

What the single pass and the walking guard accept, by the depth, the number of nodes and the
strings of a value. The walk counts the keys of a list, the pass does not see them. -/

namespace Nitr.Json

open Nitr.Validate (LuaString F64)

/-! ## Depth, nodes and strings of the calls -/

def Scalar.isBytes : Scalar → Bool
  | .bytes _ => true
  | _ => false

mutual

/-- How deep the calls nest. -/
def Calls.depth : Calls → ℕ
  | .scalar _ => 0
  | .seq items => 1 + itemsDepth items
  | .map entries => 1 + entriesDepth entries
  | .mixed => 0

def itemsDepth : List Calls → ℕ
  | [] => 0
  | item :: items => max item.depth (itemsDepth items)

def entriesDepth : List (Scalar × Calls) → ℕ
  | [] => 0
  | entry :: entries => max entry.2.depth (entriesDepth entries)

end

mutual

/-- The units of the budget the calls spend. -/
def Calls.cost : Calls → ℕ
  | .scalar _ => 1
  | .seq items => 1 + itemsCost items
  | .map entries => 1 + entriesCost entries
  | .mixed => 0

def itemsCost : List Calls → ℕ
  | [] => 0
  | item :: items => item.cost + itemsCost items

def entriesCost : List (Scalar × Calls) → ℕ
  | [] => 0
  | entry :: entries => 1 + entry.2.cost + entriesCost entries

end

mutual

/-- No call passes bytes. -/
def Calls.utf8 : Calls → Bool
  | .scalar call => !call.isBytes
  | .seq items => itemsUtf8 items
  | .map entries => entriesUtf8 entries
  | .mixed => true

def itemsUtf8 : List Calls → Bool
  | [] => true
  | item :: items => item.utf8 && itemsUtf8 items

def entriesUtf8 : List (Scalar × Calls) → Bool
  | [] => true
  | entry :: entries => !entry.1.isBytes && entry.2.utf8 && entriesUtf8 entries

end

/-- A key that is a string, valid or not, or an integer. -/
def Scalar.isName : Scalar → Bool
  | .str _ | .bytes _ | .i64 _ => true
  | _ => false

mutual

/-- No table mixes, and every key is a string or an integer. -/
def Calls.clean : Calls → Bool
  | .scalar _ => true
  | .seq items => itemsClean items
  | .map entries => entriesClean entries
  | .mixed => false

def itemsClean : List Calls → Bool
  | [] => true
  | item :: items => item.clean && itemsClean items

def entriesClean : List (Scalar × Calls) → Bool
  | [] => true
  | entry :: entries => entry.1.isName && entry.2.clean && entriesClean entries

end

/-! ## The pass -/

/-- A refusal by one of the three bounds. -/
def JsonError.isBound : JsonError → Bool
  | .depth | .nodes | .utf8 => true
  | _ => false

/-- A result under the bounds: the plain one with its cost off the budget where `fits`, else a
refusal by a bound. -/
structure Bounded {α : Type} (fits : Prop) (cost budget : ℕ) (plain : Except JsonError α)
    (guarded : Except JsonError (α × ℕ)) : Prop where
  accepts : fits → cost ≤ budget → ∃ a, plain = .ok a ∧ guarded = .ok (a, budget - cost)
  refuses : ¬(fits ∧ cost ≤ budget) → ∃ e, guarded = .error e ∧ e.isBound = true

theorem visit_of_pos {budget : ℕ} (h : 1 ≤ budget) : visit budget = .ok (budget - 1) := by
  unfold visit
  rw [if_neg (by omega)]

@[simp]
theorem visit_zero : visit 0 = .error .nodes := rfl

theorem enter_of_lt {depth : ℕ} (h : depth < maxJsonDepth) : enter depth = .ok (depth + 1) := by
  unfold enter
  rw [if_neg (by omega)]

theorem enter_of_le {depth : ℕ} (h : maxJsonDepth ≤ depth) : enter depth = .error .depth := by
  unfold enter
  rw [if_pos (by omega)]

/-- A scalar spends one unit, unless it is bytes. -/
theorem guard_of_pos {call : Scalar} {budget : ℕ} (h : 1 ≤ budget) :
    call.guard budget = if call.isBytes then .error .utf8 else .ok (budget - 1) := by
  unfold Scalar.guard
  rw [visit_of_pos h]
  cases call <;> rfl

@[simp]
theorem guard_zero {call : Scalar} : call.guard 0 = .error .nodes := rfl

variable {decimal : F64 → String}

/-- Induction over calls, with the hypothesis for every element. -/
@[elab_as_elim]
theorem Calls.induct {motive : Calls → Prop} (scalar : ∀ call, motive (.scalar call))
    (seq : ∀ items, (∀ item ∈ items, motive item) → motive (.seq items))
    (map : ∀ entries, (∀ entry ∈ entries, motive entry.2) → motive (.map entries))
    (mixed : motive .mixed) (calls : Calls) : motive calls := by
  refine @Calls.rec motive (fun items => ∀ item ∈ items, motive item)
    (fun entries => ∀ entry ∈ entries, motive entry.2) (fun entry => motive entry.2)
    scalar seq map mixed ?_ ?_ ?_ ?_ ?_ calls
  · simp
  · intro item items hitem hitems i hi
    rcases List.mem_cons.mp hi with rfl | hi
    · exact hitem
    · exact hitems i hi
  · simp
  · intro entry entries hentry hentries e he
    rcases List.mem_cons.mp he with rfl | he
    · exact hentry
    · exact hentries e he
  · exact fun _ _ h => h

/-- Calls fit the bounds at a depth. -/
def Calls.Fits (depth : ℕ) (calls : Calls) : Prop :=
  depth + calls.depth ≤ maxJsonDepth ∧ calls.utf8 = true

/-- One result after the other, the budget handed on. -/
def inTurn {α β γ : Type} (f : α → β → γ) (first : Except JsonError (α × ℕ))
    (next : ℕ → Except JsonError (β × ℕ)) : Except JsonError (γ × ℕ) :=
  first >>= fun a => next a.2 >>= fun b => pure (f a.1 b.1, b.2)

theorem Bounded.bind {α β γ : Type} {fits₁ fits₂ fits : Prop} {cost₁ cost₂ cost budget : ℕ}
    {plain₁ : Except JsonError α} {guarded₁ : Except JsonError (α × ℕ)}
    {plain₂ : Except JsonError β} {guarded₂ : ℕ → Except JsonError (β × ℕ)} (f : α → β → γ)
    (h₁ : Bounded fits₁ cost₁ budget plain₁ guarded₁)
    (h₂ : ∀ budget, Bounded fits₂ cost₂ budget plain₂ (guarded₂ budget))
    (hfits : fits ↔ fits₁ ∧ fits₂) (hcost : cost = cost₁ + cost₂) :
    Bounded fits cost budget
      (do let a ← plain₁
          let b ← plain₂
          return f a b)
      (inTurn f guarded₁ guarded₂) := by
  subst hcost
  unfold inTurn
  constructor
  · intro hf hbudget
    obtain ⟨hf₁, hf₂⟩ := hfits.mp hf
    obtain ⟨a, hplain₁, hguarded₁⟩ := h₁.accepts hf₁ (by omega)
    obtain ⟨b, hplain₂, hguarded₂⟩ := (h₂ (budget - cost₁)).accepts hf₂ (by omega)
    refine ⟨f a b, ?_, ?_⟩
    · rw [hplain₁, hplain₂]
      rfl
    · rw [hguarded₁]
      show (guarded₂ (budget - cost₁) >>= fun r => pure (f a r.1, r.2)) = _
      rw [hguarded₂, Nat.sub_sub]
      rfl
  · intro hnot
    by_cases hfirst : fits₁ ∧ cost₁ ≤ budget
    · obtain ⟨a, _, hguarded₁⟩ := h₁.accepts hfirst.1 hfirst.2
      have hsecond : ¬(fits₂ ∧ cost₂ ≤ budget - cost₁) := fun h =>
        hnot ⟨hfits.mpr ⟨hfirst.1, h.1⟩, by omega⟩
      obtain ⟨e, he, hbound⟩ := (h₂ (budget - cost₁)).refuses hsecond
      refine ⟨e, ?_, hbound⟩
      rw [hguarded₁]
      show (guarded₂ (budget - cost₁) >>= fun r => pure (f a r.1, r.2)) = _
      rw [he]
      rfl
    · obtain ⟨e, he, hbound⟩ := h₁.refuses hfirst
      refine ⟨e, ?_, hbound⟩
      rw [he]
      rfl

section

variable {depth : ℕ}

/-- What the pass does with calls that need no other refusal. -/
def Calls.Settled (decimal : F64 → String) (calls : Calls) : Prop :=
  calls.clean = true → ∀ depth budget, depth ≤ maxJsonDepth →
    Bounded (calls.Fits depth) calls.cost budget (calls.plain decimal)
      (calls.guarded decimal depth budget)

theorem settled_scalar (call : Scalar) : (Calls.scalar call).Settled decimal := by
  intro _ depth budget hdepth
  have hfits : (Calls.scalar call).Fits depth ↔ call.isBytes = false := by
    simp [Calls.Fits, Calls.depth, Calls.utf8, hdepth]
  rw [hfits]
  cases budget with
  | zero => exact ⟨by simp [Calls.cost], fun _ => ⟨.nodes, rfl, rfl⟩⟩
  | succ budget =>
      have hguard := @guard_of_pos call (budget + 1) (by omega)
      simp only [Calls.cost, Calls.plain, Calls.guarded]
      rw [hguard]
      by_cases hbytes : call.isBytes = true
      · rw [if_pos hbytes]
        exact ⟨by simp [hbytes], fun _ => ⟨.utf8, rfl, rfl⟩⟩
      · rw [if_neg hbytes]
        exact ⟨fun _ _ => ⟨_, rfl, rfl⟩, by simp [hbytes]⟩

theorem settled_items {items : List Calls} (h : ∀ item ∈ items, item.Settled decimal)
    (hclean : itemsClean items = true) (budget : ℕ) (hdepth : depth ≤ maxJsonDepth) :
    Bounded (depth + itemsDepth items ≤ maxJsonDepth ∧ itemsUtf8 items = true) (itemsCost items)
      budget (plainItems decimal items) (guardedItems decimal depth items budget) := by
  induction items generalizing budget with
  | nil => exact ⟨fun _ _ => ⟨[], rfl, rfl⟩, by simp [itemsDepth, itemsUtf8, itemsCost, hdepth]⟩
  | cons item items ih =>
      obtain ⟨hitem, hitems⟩ := Bool.and_eq_true_iff.mp hclean
      refine Bounded.bind (fun doc docs => doc :: docs)
        (h item (List.mem_cons_self ..) hitem depth budget hdepth)
        (fun budget => ih (fun i hi => h i (List.mem_cons_of_mem _ hi)) hitems budget) ?_ rfl
      have hmax : depth + max item.depth (itemsDepth items) ≤ maxJsonDepth ↔
          depth + item.depth ≤ maxJsonDepth ∧ depth + itemsDepth items ≤ maxJsonDepth := by omega
      simp only [Calls.Fits, itemsDepth, itemsUtf8, Bool.and_eq_true, hmax]
      tauto

/-- Such a key under the bounds. -/
theorem bounded_key (decimal : F64 → String) {key : Scalar} (h : key.isName = true) (budget : ℕ) :
    Bounded (key.isBytes = false) 1 budget (key.key decimal)
      (do let budget ← key.guard budget
          let text ← key.key decimal
          return (text, budget)) := by
  cases budget with
  | zero => exact ⟨by simp, fun _ => ⟨.nodes, rfl, rfl⟩⟩
  | succ budget =>
      rw [guard_of_pos (by omega)]
      cases key with
      | str s => exact ⟨fun _ _ => ⟨s, rfl, rfl⟩, by simp [Scalar.isBytes]⟩
      | bytes s => exact ⟨by simp [Scalar.isBytes], fun _ => ⟨.utf8, rfl, rfl⟩⟩
      | i64 i => exact ⟨fun _ _ => ⟨toString i, rfl, rfl⟩, by simp [Scalar.isBytes]⟩
      | unit => cases h
      | bool b => cases h
      | f64 n => cases h

theorem settled_entries {entries : List (Scalar × Calls)}
    (h : ∀ entry ∈ entries, entry.2.Settled decimal) (hclean : entriesClean entries = true)
    (budget : ℕ) (hdepth : depth ≤ maxJsonDepth) :
    Bounded (depth + entriesDepth entries ≤ maxJsonDepth ∧ entriesUtf8 entries = true)
      (entriesCost entries) budget (plainEntries decimal entries)
      (guardedEntries decimal depth entries budget) := by
  induction entries generalizing budget with
  | nil =>
      exact ⟨fun _ _ => ⟨[], rfl, rfl⟩, by simp [entriesDepth, entriesUtf8, entriesCost, hdepth]⟩
  | cons entry entries ih =>
      simp only [entriesClean, Bool.and_eq_true] at hclean
      obtain ⟨⟨hkey, hentry⟩, hentries⟩ := hclean
      have hrest := fun budget => Bounded.bind (fun doc docs => (doc, docs))
        (h entry (List.mem_cons_self ..) hentry depth budget hdepth)
        (fun budget => ih (fun e he => h e (List.mem_cons_of_mem _ he)) hentries budget)
        Iff.rfl rfl
      have hall := Bounded.bind (fun key (r : Doc × List (String × Doc)) => (key, r.1) :: r.2)
        (bounded_key decimal hkey budget) hrest Iff.rfl rfl
      have hmax : depth + max entry.2.depth (entriesDepth entries) ≤ maxJsonDepth ↔
          depth + entry.2.depth ≤ maxJsonDepth ∧ depth + entriesDepth entries ≤ maxJsonDepth := by
        omega
      have hfits : depth + entriesDepth (entry :: entries) ≤ maxJsonDepth ∧
          entriesUtf8 (entry :: entries) = true ↔ entry.1.isBytes = false ∧
          (entry.2.Fits depth ∧ depth + entriesDepth entries ≤ maxJsonDepth ∧
            entriesUtf8 entries = true) := by
        simp only [Calls.Fits, entriesDepth, entriesUtf8, Bool.and_eq_true, hmax,
          Bool.not_eq_true']
        tauto
      have hplain : plainEntries decimal (entry :: entries) = (do
          let key ← entry.1.key decimal
          let r ← (do
            let doc ← entry.2.plain decimal
            let docs ← plainEntries decimal entries
            return (doc, docs))
          return (key, r.1) :: r.2) := by
        simp only [plainEntries, bind_assoc, pure_bind]
      have hguarded : guardedEntries decimal depth (entry :: entries) budget =
          inTurn (fun key (r : Doc × List (String × Doc)) => (key, r.1) :: r.2)
            (do let budget ← entry.1.guard budget
                let text ← entry.1.key decimal
                return (text, budget))
            fun budget => inTurn (fun doc docs => (doc, docs))
              (entry.2.guarded decimal depth budget) (guardedEntries decimal depth entries) := by
        simp only [guardedEntries, inTurn, bind_assoc, pure_bind]
      rw [hplain, hguarded]
      have hcost : entriesCost (entry :: entries) = 1 + (entry.2.cost + entriesCost entries) := by
        simp only [entriesCost]
        omega
      rw [hcost]
      exact ⟨fun hf hb => hall.accepts (hfits.mp hf) hb,
        fun hnot => hall.refuses fun h => hnot ⟨hfits.mpr h.1, h.2⟩⟩

/-- A sequence or a map: one unit, one level, then what it holds. -/
theorem Bounded.nest {α : Type} {inner cost budget : ℕ} {u : Prop} {plain : Except JsonError α}
    {guarded : ℕ → ℕ → Except JsonError (α × ℕ)} (wrap : α → Doc)
    (h : depth < maxJsonDepth → ∀ budget, Bounded (depth + 1 + inner ≤ maxJsonDepth ∧ u) cost
      budget plain (guarded (depth + 1) budget)) :
    Bounded (depth + (1 + inner) ≤ maxJsonDepth ∧ u) (1 + cost) budget
      (do let a ← plain
          return wrap a)
      (do let budget ← visit budget
          let depth ← enter depth
          let a ← guarded depth budget
          return (wrap a.1, a.2)) := by
  cases budget with
  | zero => exact ⟨by omega, fun _ => ⟨.nodes, rfl, rfl⟩⟩
  | succ budget =>
      rw [visit_of_pos (by omega)]
      by_cases hdepth : depth < maxJsonDepth
      · rw [enter_of_lt hdepth]
        have hinner := h hdepth budget
        constructor
        · intro hfits hcost
          obtain ⟨a, hplain, hguarded⟩ := hinner.accepts ⟨by omega, hfits.2⟩ (by omega)
          refine ⟨wrap a, by rw [hplain]; rfl, ?_⟩
          show (guarded (depth + 1) budget >>= fun r => pure (wrap r.1, r.2)) = _
          rw [hguarded, show budget + 1 - (1 + cost) = budget - cost by omega]
          rfl
        · intro hnot
          obtain ⟨e, he, hbound⟩ := hinner.refuses fun hfits =>
            hnot ⟨⟨by omega, hfits.1.2⟩, by omega⟩
          refine ⟨e, ?_, hbound⟩
          show (guarded (depth + 1) budget >>= fun r => pure (wrap r.1, r.2)) = _
          rw [he]
          rfl
      · rw [enter_of_le (by omega)]
        exact ⟨by omega, fun _ => ⟨.depth, rfl, rfl⟩⟩

theorem Calls.settled (calls : Calls) : calls.Settled decimal := by
  induction calls using Calls.induct with
  | scalar call => exact settled_scalar call
  | seq items ih =>
      intro hclean depth budget _
      simp only [Calls.Fits, Calls.depth, Calls.utf8, Calls.cost, Calls.plain, Calls.guarded]
      exact Bounded.nest Doc.array fun hdepth budget => settled_items ih hclean budget hdepth
  | map entries ih =>
      intro hclean depth budget _
      simp only [Calls.Fits, Calls.depth, Calls.utf8, Calls.cost, Calls.plain, Calls.guarded]
      exact Bounded.nest Doc.object fun hdepth budget => settled_entries ih hclean budget hdepth
  | mixed =>
      intro hclean
      cases hclean

end

/-! ## The walk -/

mutual

/-- How deep a value nests. -/
def Data.depth : Data → ℕ
  | .table _ _ entries => 1 + dataDepth entries
  | _ => 0

def dataDepth : List (Key × Data) → ℕ
  | [] => 0
  | e :: rest => max e.2.depth (dataDepth rest)

end

def utf8String (s : LuaString) : Bool := (toStr s).isSome

def Key.utf8 : Key → Bool
  | .string s => utf8String s
  | _ => true

mutual

/-- Every string in a value is UTF-8. -/
def Data.utf8 : Data → Bool
  | .table _ _ entries => dataUtf8 entries
  | .string s => utf8String s
  | _ => true

def dataUtf8 : List (Key × Data) → Bool
  | [] => true
  | e :: rest => e.1.utf8 && e.2.utf8 && dataUtf8 rest

end

mutual

/-- The nodes of a value, the keys of its tables included. -/
def Data.nodes : Data → ℕ
  | .table _ _ entries => 1 + dataNodes entries
  | _ => 1

def dataNodes : List (Key × Data) → ℕ
  | [] => 0
  | e :: rest => 1 + e.2.nodes + dataNodes rest

end

/-- Induction over documents, with the hypothesis for every element. -/
@[elab_as_elim]
theorem Doc.induct {motive : Doc → Prop} (null : motive .null) (boolean : ∀ b, motive (.boolean b))
    (integer : ∀ i, motive (.integer i)) (number : ∀ n, motive (.number n))
    (string : ∀ s, motive (.string s))
    (array : ∀ items, (∀ item ∈ items, motive item) → motive (.array items))
    (object : ∀ entries, (∀ e ∈ entries, motive e.2) → motive (.object entries))
    (doc : Doc) : motive doc := by
  refine @Doc.rec motive (fun items => ∀ item ∈ items, motive item)
    (fun entries => ∀ e ∈ entries, motive e.2) (fun e => motive e.2) null boolean integer number
    string array object ?_ ?_ ?_ ?_ ?_ doc
  · simp
  · intro item items hitem hitems i hi
    rcases List.mem_cons.mp hi with rfl | hi
    · exact hitem
    · exact hitems i hi
  · simp
  · intro entry entries hentry hentries e he
    rcases List.mem_cons.mp he with rfl | he
    · exact hentry
    · exact hentries e he
  · exact fun _ _ h => h

/-- Induction over data, with the hypothesis for every entry. -/
@[elab_as_elim]
theorem Data.induct {motive : Data → Prop} (nil : motive .nil) (null : motive .null)
    (boolean : ∀ b, motive (.boolean b)) (integer : ∀ i, motive (.integer i))
    (number : ∀ n, motive (.number n)) (string : ∀ s, motive (.string s))
    (table : ∀ len array entries, (∀ e ∈ entries, motive e.2) → motive (.table len array entries))
    (data : Data) : motive data := by
  refine @Data.rec motive (fun entries => ∀ e ∈ entries, motive e.2) (fun e => motive e.2) nil null
    boolean integer number string table ?_ ?_ ?_ data
  · simp
  · intro entry entries hentry hentries e he
    rcases List.mem_cons.mp he with rfl | he
    · exact hentry
    · exact hentries e he
  · exact fun _ _ h => h

/-- The walk accepts what is shallow, UTF-8 and within the budget. -/
def Walks (fits : Prop) (cost budget : ℕ) (walk : Except JsonError ℕ) : Prop :=
  (fits → cost ≤ budget → walk = .ok (budget - cost)) ∧
    (¬(fits ∧ cost ≤ budget) → ∃ e, walk = .error e ∧ e.isBound = true)

theorem Walks.bind {fits₁ fits₂ fits : Prop} {cost₁ cost₂ cost budget : ℕ}
    {walk₁ : Except JsonError ℕ} {walk₂ : ℕ → Except JsonError ℕ}
    (h₁ : Walks fits₁ cost₁ budget walk₁) (h₂ : ∀ budget, Walks fits₂ cost₂ budget (walk₂ budget))
    (hfits : fits ↔ fits₁ ∧ fits₂) (hcost : cost = cost₁ + cost₂) :
    Walks fits cost budget (walk₁ >>= walk₂) := by
  subst hcost
  constructor
  · intro hf hbudget
    obtain ⟨hf₁, hf₂⟩ := hfits.mp hf
    rw [h₁.1 hf₁ (by omega)]
    have := (h₂ (budget - cost₁)).1 hf₂ (by omega)
    rwa [Nat.sub_sub] at this
  · intro hnot
    by_cases hfirst : fits₁ ∧ cost₁ ≤ budget
    · rw [h₁.1 hfirst.1 hfirst.2]
      exact (h₂ (budget - cost₁)).2 fun h => hnot ⟨hfits.mpr ⟨hfirst.1, h.1⟩, by omega⟩
    · obtain ⟨e, he, hbound⟩ := h₁.2 hfirst
      exact ⟨e, by rw [he]; rfl, hbound⟩

theorem walks_visit (budget : ℕ) : Walks True 1 budget (visit budget) := by
  cases budget with
  | zero => exact ⟨by simp, fun _ => ⟨.nodes, rfl, rfl⟩⟩
  | succ budget => exact ⟨fun _ _ => rfl, by simp⟩

theorem walks_string (s : LuaString) (budget : ℕ) :
    Walks (utf8String s = true) 1 budget (walkString s budget) := by
  unfold walkString utf8String
  cases toStr s with
  | some text =>
      have hrest : ∀ budget : ℕ, Walks True 0 budget (pure budget) := fun _ =>
        ⟨fun _ _ => rfl, by simp⟩
      exact Walks.bind (walks_visit budget) hrest (by simp) rfl
  | none =>
      have hrest : ∀ budget : ℕ, Walks False 0 budget (throw .utf8) := fun _ =>
        ⟨by simp, fun _ => ⟨.utf8, rfl, rfl⟩⟩
      exact Walks.bind (walks_visit budget) hrest (by simp) rfl

theorem walks_key (key : Key) (budget : ℕ) : Walks (key.utf8 = true) 1 budget (walkKey key budget) := by
  cases key with
  | string s => exact walks_string s budget
  | boolean b => simpa [Key.utf8, walkKey] using walks_visit budget
  | integer i => simpa [Key.utf8, walkKey] using walks_visit budget
  | number n => simpa [Key.utf8, walkKey] using walks_visit budget
  | null => simpa [Key.utf8, walkKey] using walks_visit budget

theorem walks_entries {entries : List (Key × Data)}
    (h : ∀ e ∈ entries, ∀ remaining budget, Walks (e.2.depth ≤ remaining ∧ e.2.utf8 = true)
      e.2.nodes budget (depthWalk e.2 remaining budget)) (remaining budget : ℕ) :
    Walks (dataDepth entries ≤ remaining ∧ dataUtf8 entries = true) (dataNodes entries) budget
      (walkEntries entries remaining budget) := by
  induction entries generalizing budget with
  | nil => exact ⟨fun _ _ => rfl, by simp [dataDepth, dataUtf8, dataNodes]⟩
  | cons e rest ih =>
      have hrest := fun budget => Walks.bind (h e (List.mem_cons_self ..) remaining budget)
        (fun budget => ih (fun e' he' => h e' (List.mem_cons_of_mem _ he')) budget) Iff.rfl rfl
      refine Walks.bind (walks_key e.1 budget) hrest ?_ (by simp only [dataNodes]; omega)
      have hmax : max e.2.depth (dataDepth rest) ≤ remaining ↔
          e.2.depth ≤ remaining ∧ dataDepth rest ≤ remaining := by omega
      simp only [dataDepth, dataUtf8, Bool.and_eq_true, hmax]
      tauto

theorem walks_data (data : Data) (remaining budget : ℕ) :
    Walks (data.depth ≤ remaining ∧ data.utf8 = true) data.nodes budget
      (depthWalk data remaining budget) := by
  induction data using Data.induct generalizing remaining budget with
  | nil => simpa [Data.depth, Data.utf8, Data.nodes, depthWalk] using walks_visit budget
  | null => simpa [Data.depth, Data.utf8, Data.nodes, depthWalk] using walks_visit budget
  | boolean b => simpa [Data.depth, Data.utf8, Data.nodes, depthWalk] using walks_visit budget
  | integer i => simpa [Data.depth, Data.utf8, Data.nodes, depthWalk] using walks_visit budget
  | number n => simpa [Data.depth, Data.utf8, Data.nodes, depthWalk] using walks_visit budget
  | string s => simpa [Data.depth, Data.utf8, Data.nodes, depthWalk] using walks_string s budget
  | table len array entries ih =>
      have hfits : (Data.table len array entries).depth ≤ remaining ∧
          (Data.table len array entries).utf8 = true ↔
          True ∧ 1 + dataDepth entries ≤ remaining ∧ dataUtf8 entries = true := by
        simp [Data.depth, Data.utf8]
      cases remaining with
      | zero =>
          have hrest : ∀ budget, Walks (1 + dataDepth entries ≤ 0 ∧ dataUtf8 entries = true)
              (dataNodes entries) budget (throw .depth) := fun _ =>
            ⟨by omega, fun _ => ⟨.depth, rfl, rfl⟩⟩
          exact Walks.bind (walks_visit budget) hrest hfits rfl
      | succ remaining =>
          have hdepth : 1 + dataDepth entries ≤ remaining + 1 ↔ dataDepth entries ≤ remaining := by
            omega
          rw [hdepth] at hfits
          exact Walks.bind (walks_visit budget) (walks_entries ih remaining) hfits rfl

/-- What `check_json_bounds` accepts. -/
theorem checkJsonBounds_isOk (data : Data) :
    (checkJsonBounds data).isOk = true ↔
      (data.depth ≤ maxJsonDepth ∧ data.utf8 = true) ∧ data.nodes ≤ maxJsonNodes := by
  have hwalk := walks_data data maxJsonDepth maxJsonNodes
  unfold checkJsonBounds
  constructor
  · intro h
    by_contra hnot
    obtain ⟨e, he, _⟩ := hwalk.2 hnot
    rw [he] at h
    cases h
  · intro h
    rw [hwalk.1 h.1 h.2]
    rfl

/-- What the pass makes of calls without another refusal. -/
theorem guarded_of_clean (decimal : F64 → String) {calls : Calls} (hclean : calls.clean = true) :
    Bounded (calls.Fits 0) calls.cost maxJsonNodes (calls.plain decimal)
      (calls.guarded decimal 0 maxJsonNodes) :=
  Calls.settled calls hclean 0 maxJsonNodes (Nat.zero_le _)

end Nitr.Json
