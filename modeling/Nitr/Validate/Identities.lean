import Nitr.Validate.Normal

/-! # Fresh identities

The tables a walk builds are new: two of them are never the same one. -/

namespace Nitr.Validate

/-- Where only its identity tells the value apart, that identity was drawn from `n` up to `n'`. -/
def Identified (host : Host) (n n' : ℕ) (w : Value) : Prop :=
  ∀ p, canonical host w = .ok (.table p) → n ≤ p ∧ p < n'

/-- The entries hold different tables under different keys. -/
structure Scattered (host : Host) (n n' : ℕ) (es : Entries) : Prop where
  identified : ∀ key, Identified host n n' (es.get key)
  apart : ∀ key key', key ≠ key' → Apart host (es.get key) (es.get key')

def FreshFor (host : Host) (rule : Rule) : Prop :=
  ∀ {strict : Bool} {v w : Value} {site : Site} {n n' : ℕ} {d : List Pending},
    Checks host strict rule v site n w n' d → n ≤ n' ∧ Identified host n n' w

section Fresh

variable {host : Host} {strict : Bool} {n n' : ℕ} {d : List Pending}

theorem canonical_eq_table {w : Value} {p : ℕ} (h : canonical host w = .ok (.table p)) :
    (∃ len es, w = .table p len es) ∧ host.toJson w.erase = none := by
  unfold canonical at h
  cases w with
  | table q len es =>
      dsimp only at h
      split at h
      · cases h
      · split at h
        · cases h
        · rename_i hjson
          cases h
          exact ⟨⟨len, es, rfl⟩, hjson⟩
  | integer i =>
      dsimp only at h
      split at h <;> cases h
  | _ => cases h

theorem Identified.mono {m m' : ℕ} {w : Value} (h : Identified host n n' w) (hm : m ≤ n)
    (hm' : n' ≤ m') : Identified host m m' w := by
  intro p hp
  obtain ⟨hlo, hhi⟩ := h p hp
  omega

theorem Identified.apart {a b : Value} {m m' : ℕ} (ha : Identified host n n' a)
    (hb : Identified host m m' b) (h : n' ≤ m) : Apart host a b := by
  intro p hpa hpb
  have h₁ := ha p hpa
  have h₂ := hb p hpb
  omega

theorem Apart.symm {a b : Value} (h : Apart host a b) : Apart host b a := by
  intro p hb ha
  exact h p ha hb

theorem identified_nil : Identified host n n' .nil := by
  intro p hp
  cases hp

theorem scattered_nil : Scattered host n n' [] := by
  constructor
  · intro key
    exact identified_nil
  · intro key key' _ p hp
    cases hp

theorem Scattered.set {m : ℕ} {es : Entries} {w : Value} (h : Scattered host m n es)
    (hle : n ≤ n') (hm : m ≤ n) (hw : Identified host n n' w) (hnil : w ≠ .nil) (key : Key) :
    Scattered host m n' (es.set key w) := by
  constructor
  · intro key'
    by_cases hk : key = key'
    · subst hk
      rw [Entries.get_set_self hnil]
      exact hw.mono hm le_rfl
    · rw [Entries.get_set_ne hk]
      exact (h.identified key').mono le_rfl hle
  · intro a b hab
    by_cases ha : key = a
    · subst ha
      rw [Entries.get_set_self hnil, Entries.get_set_ne hab]
      exact ((h.identified b).apart hw le_rfl).symm
    · by_cases hb : key = b
      · subst hb
        rw [Entries.get_set_self hnil, Entries.get_set_ne ha]
        exact (h.identified a).apart hw le_rfl
      · rw [Entries.get_set_ne ha, Entries.get_set_ne hb]
        exact h.apart a b hab

theorem Checks.ne_nil {rule : Rule} {v w : Value} {site : Site}
    (h : Checks host strict rule v site n w n' d) (hv : v ≠ .nil) : w ≠ .nil := by
  cases h with
  | intro kind =>
      cases kind with
      | number => exact hv
      | any => exact hv
      | _ => exact fun hn => nomatch hn

theorem ChecksItems.fresh {keys : RuleKeys} {items : Rule} (hr : FreshFor host items)
    {site : Site} {out i : ℕ} {seen : List Canonical} {vs ws : List Value}
    (h : ChecksItems host strict keys items site out i seen vs n ws n' d) :
    n ≤ n' ∧ (∀ w ∈ ws, Identified host n n' w) ∧ ws.Pairwise (Apart host) := by
  induction vs generalizing i seen n ws d with
  | nil =>
      cases h
      exact ⟨le_rfl, by simp, .nil⟩
  | cons v vs ih =>
      cases h with
      | cons unique item rest =>
          obtain ⟨hle₁, hw⟩ := hr item
          obtain ⟨hle₂, hws, hpair⟩ := ih rest
          refine ⟨hle₁.trans hle₂, ?_, List.pairwise_cons.mpr ⟨?_, hpair⟩⟩
          · intro x hx
            obtain rfl | hx := List.mem_cons.mp hx
            · exact hw.mono le_rfl hle₂
            · exact (hws x hx).mono hle₁ le_rfl
          · intro x hx
            exact hw.apart (hws x hx) le_rfl

theorem ChecksPairs.next_le {keys : Option Rule} {values : Rule}
    (hk : ∀ r, keys = some r → FreshFor host r) (hv : FreshFor host values) {site : Site}
    {pointer : ℕ} {es built out : Entries}
    (h : ChecksPairs host strict keys values site pointer es built n out n' d) : n ≤ n' := by
  induction es generalizing n built d with
  | nil =>
      cases h
      exact le_rfl
  | cons e es ih =>
      cases h with
      | cons key value rest =>
          have hvalue := (hv value).1
          have hrest := ih rest
          cases key with
          | free => exact hvalue.trans hrest
          | ruled checked =>
              have hkey := (hk _ rfl checked).1
              omega

theorem ChecksFieldList.fresh {fields : List (String × Rule)}
    (hf : ∀ f ∈ fields, FreshFor host f.2) {owner : SchemaOptions} {input built out : Entries}
    {path : FieldPath} {pointer m : ℕ}
    (h : ChecksFieldList host strict fields owner input path pointer built n out n' d)
    (hm : m ≤ n) (hb : Scattered host m n built) : n ≤ n' ∧ Scattered host m n' out := by
  induction fields generalizing n built d with
  | nil =>
      cases h
      exact ⟨le_rfl, hb⟩
  | cons f fields ih =>
      have hf' : ∀ f ∈ fields, FreshFor host f.2 := by
        intro f hmem
        exact hf f (List.mem_cons_of_mem _ hmem)
      cases h with
      | absent missing optional rest => exact ih hf' rest hm hb
      | present given value rest =>
          obtain ⟨hle, hw⟩ := hf _ (List.mem_cons_self ..) value
          obtain ⟨hle', hout⟩ := ih hf' rest (hm.trans hle)
            (hb.set hle hm hw (value.ne_nil given) _)
          exact ⟨hle.trans hle', hout⟩

theorem ChecksName.next_le {filename : Option Rule} (hr : ∀ r, filename = some r → FreshFor host r)
    {info : FileInfo} (h : ChecksName host filename info n n') : n ≤ n' := by
  cases h with
  | undeclared => exact le_rfl
  | unnamed => exact le_rfl
  | named given checked =>
      have hchecked := (hr _ rfl checked).1
      omega

theorem checks_fresh (host : Host) (rule : Rule) : FreshFor host rule := by
  induction rule using Rule.induct with
  | step rule items keys values filename fields =>
      intro strict v w site n n' d h
      cases h with
      | intro kind =>
          -- A table built here has the first pointer drawn.
          have hroot : ∀ {len : ℕ} {es : Entries} {m : ℕ}, n + 1 ≤ m →
              n ≤ m ∧ Identified host n m (.table n len es) := by
            intro len es m hm
            refine ⟨by omega, fun p hp => ?_⟩
            obtain ⟨⟨_, _, heq⟩, -⟩ := canonical_eq_table hp
            cases heq
            omega
          cases kind with
          | string =>
              refine ⟨le_rfl, fun p hp => ?_⟩
              cases hp
          | number kind value =>
              refine ⟨le_rfl, fun p hp => ?_⟩
              obtain ⟨⟨_, _, rfl⟩, -⟩ := canonical_eq_table hp
              cases value
          | boolean =>
              refine ⟨le_rfl, fun p hp => ?_⟩
              cases hp
          | any kind bounds bytes text =>
              refine ⟨le_rfl, fun p hp => ?_⟩
              obtain ⟨-, hjson⟩ := canonical_eq_table hp
              rw [text] at hjson
              cases hjson
          | array kind sequence length nested each tests =>
              exact hroot (each.fresh (items _ nested)).1
          | table kind nested each =>
              cases each with
              | intro list known cross =>
                  exact hroot (list.fresh (fields _ nested) le_rfl scattered_nil).1
          | map kind count nested each => exact hroot (each.next_le keys (values _ nested))
          | file kind part bytes tests name content =>
              refine ⟨name.next_le filename, fun p hp => ?_⟩
              cases hp

end Fresh

end Nitr.Validate
