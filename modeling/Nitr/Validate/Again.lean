import Nitr.Validate.Keeping

/-! # Checking an output again

Every rule of the engine but two looks at the normalised value: `unique` compares
the items of an array and `min_keys` counts the keys of a map as they came in. -/

namespace Nitr.Validate

/-- What the rule made of a value passes the rule again, unchanged, if it keeps what must
be kept. -/
def AgainFor (host : Host) (rule : Rule) : Prop :=
  ∀ {strict : Bool} {v w : Value} {site : Site} {n n' : ℕ} {d : List Pending},
    Checks host strict rule v site n w n' d → Keeps host rule w → ∀ (site' : Site) (m : ℕ),
    ∃ w' m' d', Checks host strict rule w site' m w' m' d' ∧ w'.erase = w.erase

section Again

variable {host : Host} {strict : Bool} {n n' : ℕ} {d : List Pending}

theorem Checks.addBytes_eq {rule : Rule} {v w : Value} {site : Site}
    (h : Checks host strict rule v site n w n' d) (total : ℕ) :
    addBytes total w = addBytes total v := by
  cases h with
  | intro kind => cases kind <;> rfl

theorem ChecksItems.length_eq {keys : RuleKeys} {items : Rule} {site : Site} {out i : ℕ}
    {seen : List Canonical} {vs ws : List Value}
    (h : ChecksItems host strict keys items site out i seen vs n ws n' d) :
    ws.length = vs.length := by
  induction vs generalizing i seen n ws d with
  | nil =>
      cases h
      rfl
  | cons v vs ih =>
      cases h with
      | cons unique item rest => rw [List.length_cons, List.length_cons, ih rest]

theorem ChecksItems.addBytes_eq {keys : RuleKeys} {items : Rule} {site : Site} {out i : ℕ}
    {seen : List Canonical} {vs ws : List Value}
    (h : ChecksItems host strict keys items site out i seen vs n ws n' d) (total : ℕ) :
    ws.foldl addBytes total = vs.foldl addBytes total := by
  induction vs generalizing i seen n ws d total with
  | nil =>
      cases h
      rfl
  | cons v vs ih =>
      cases h with
      | cons unique item rest =>
          rw [List.foldl_cons, List.foldl_cons, item.addBytes_eq, ih rest]

theorem ChecksItems.again {keys : RuleKeys} {items : Rule} (hr : AgainFor host items)
    {site : Site} {out i : ℕ} {seen : List Canonical} {vs ws : List Value}
    (h : ChecksItems host strict keys items site out i seen vs n ws n' d)
    (hk : ∀ w ∈ ws, Keeps host items w) {seen' : List Canonical}
    (hu : keys.unique = true → Unrepeated host seen' ws) (site' : Site) (out' i' m : ℕ) :
    ∃ ws' m' d', ChecksItems host strict keys items site' out' i' seen' ws m ws' m' d' ∧
      ws'.map Value.erase = ws.map Value.erase := by
  induction vs generalizing i seen n ws d seen' i' m with
  | nil =>
      cases h
      exact ⟨[], m, [], .nil, rfl⟩
  | cons v vs ih =>
      cases h with
      | @cons _ _ _ _ _ _ _ _ _ _ _ _ w _ ws _ _ unique item rest =>
          obtain ⟨w', m₁, d₁, hw', he⟩ := hr item (hk w (List.mem_cons_self ..))
            (site'.item out' i') m
          have hk' : ∀ w ∈ ws, Keeps host items w := by
            intro w hw
            exact hk w (List.mem_cons_of_mem _ hw)
          have hnext : ∃ next, noteUnique host keys seen' w = .ok (some next) ∧
              (keys.unique = true → Unrepeated host next ws) := by
            cases huniq : keys.unique with
            | false => exact ⟨seen', by simp [noteUnique, huniq], fun h => nomatch h⟩
            | true =>
                obtain ⟨c, hc, hseen, hrest⟩ := unrepeated_cons.mp (hu huniq)
                exact ⟨_, (noteUnique_eq_some huniq).mpr ⟨c, hc, hseen, rfl⟩, fun _ => hrest⟩
          obtain ⟨next, hnote, hu'⟩ := hnext
          obtain ⟨ws', m₂, d₂, hws', hes⟩ := ih rest hk' hu' (i' + 1) m₁
          refine ⟨w' :: ws', m₂, d₁ ++ d₂, .cons hnote hw' hws', ?_⟩
          rw [List.map_cons, List.map_cons, he, hes]

theorem hasItem_of_erase {xs ys : List Value} (h : xs.map Value.erase = ys.map Value.erase) :
    hasItem xs = hasItem ys := by
  have hmap : ∀ (zs : List Value) (l : Literal),
      hasItem zs l = (zs.map Value.erase).any l.matchesValue := by
    intro zs l
    simp [hasItem, List.any_map, Function.comp_def]
  funext l
  rw [hmap, h, ← hmap]

theorem ChecksFieldList.get_eq {fields : List (String × Rule)} {owner : SchemaOptions}
    {input built out : Entries} {path : FieldPath} {pointer : ℕ}
    (h : ChecksFieldList host strict fields owner input path pointer built n out n' d) {key : Key}
    (hkey : ∀ f ∈ fields, Key.ofString f.1 ≠ key) : out.get key = built.get key := by
  induction fields generalizing n built d with
  | nil =>
      cases h
      rfl
  | cons f fields ih =>
      have hkey' : ∀ f ∈ fields, Key.ofString f.1 ≠ key := by
        intro f hf
        exact hkey f (List.mem_cons_of_mem _ hf)
      cases h with
      | absent missing optional rest => exact ih rest hkey'
      | present given value rest =>
          rw [ih rest hkey', Entries.get_set_ne (hkey _ (List.mem_cons_self ..))]

theorem ChecksFieldList.mem_keys {fields : List (String × Rule)} {owner : SchemaOptions}
    {input built out : Entries} {path : FieldPath} {pointer : ℕ}
    (h : ChecksFieldList host strict fields owner input path pointer built n out n' d) {key : Key}
    (hkey : key ∈ out.keys) : key ∈ built.keys ∨ ∃ f ∈ fields, key = .ofString f.1 := by
  induction fields generalizing n built d with
  | nil =>
      cases h
      exact .inl hkey
  | cons f fields ih =>
      cases h with
      | absent missing optional rest =>
          obtain hb | ⟨f, hf, he⟩ := ih rest
          · exact .inl hb
          · exact .inr ⟨f, List.mem_cons_of_mem _ hf, he⟩
      | present given value rest =>
          obtain hb | ⟨f, hf, he⟩ := ih rest
          · obtain hb | rfl := Entries.mem_keys_set hb
            · exact .inl hb
            · exact .inr ⟨_, List.mem_cons_self .., rfl⟩
          · exact .inr ⟨f, List.mem_cons_of_mem _ hf, he⟩

theorem ChecksFieldList.again {fields : List (String × Rule)}
    (hr : ∀ f ∈ fields, AgainFor host f.2) (hn : (fields.map (·.1)).Nodup)
    {owner : SchemaOptions} {input built out : Entries} {path : FieldPath} {pointer : ℕ}
    (h : ChecksFieldList host strict fields owner input path pointer built n out n' d)
    (hfree : ∀ f ∈ fields, Key.ofString f.1 ∉ built.keys)
    (hk : ∀ f ∈ fields, out.field f.1 ≠ .nil → Keeps host f.2 (out.field f.1))
    {built' : Entries} (hb : Value.eraseEntries built' = Value.eraseEntries built)
    (path' : FieldPath) (pointer' m : ℕ) :
    ∃ out' m' d', ChecksFieldList host strict fields owner out path' pointer' built' m out' m' d' ∧
      Value.eraseEntries out' = Value.eraseEntries out := by
  induction fields generalizing n built d built' m with
  | nil =>
      cases h
      exact ⟨built', m, [], .nil, hb⟩
  | cons f fields ih =>
      have hr' : ∀ f ∈ fields, AgainFor host f.2 := by
        intro f hf
        exact hr f (List.mem_cons_of_mem _ hf)
      have hk' : ∀ f ∈ fields, out.field f.1 ≠ .nil → Keeps host f.2 (out.field f.1) := by
        intro f hf
        exact hk f (List.mem_cons_of_mem _ hf)
      rw [List.map_cons, List.nodup_cons] at hn
      -- A later field never writes to this one's key.
      have hother : ∀ g ∈ fields, Key.ofString g.1 ≠ .ofString f.1 := by
        intro g hg he
        rw [Key.ofString_inj] at he
        exact hn.1 (he ▸ List.mem_map_of_mem hg)
      cases h with
      | @absent _ name rule _ _ _ _ _ _ _ _ _ _ missing optional rest =>
          have hread : out.field name = .nil := by
            unfold Entries.field
            rw [rest.get_eq hother]
            exact Entries.get_of_not_mem (hfree _ (List.mem_cons_self ..))
          obtain ⟨-, hdefault⟩ := fieldValue_eq_nil.mp missing
          obtain ⟨out', m', d', hout', he⟩ := ih hr' hn.2 rest
            (fun f hf => hfree f (List.mem_cons_of_mem _ hf)) hk' hb m
          exact ⟨out', m', d', .absent (fieldValue_eq_nil.mpr ⟨hread, hdefault⟩) optional hout', he⟩
      | @present _ name rule _ _ _ _ _ _ _ _ _ _ w _ _ given value rest =>
          have hw : w ≠ .nil := value.ne_nil given
          have hread : out.field name = w := by
            unfold Entries.field
            rw [rest.get_eq hother]
            exact Entries.get_set_self hw _ _
          have hvalue : fieldValue rule.toRuleKeys out name = w := by
            rw [fieldValue_of_ne_nil (by rw [hread]; exact hw), hread]
          have hkeep : Keeps host rule w := by
            have hkept := hk (name, rule) (List.mem_cons_self ..)
            rw [hread] at hkept
            exact hkept hw
          obtain ⟨w', m₁, d₁, hw', he⟩ := hr (name, rule) (List.mem_cons_self ..) value hkeep
            (fieldSite owner path' pointer' name) m
          have hb' : Value.eraseEntries (built'.set (.ofString name) w') =
              Value.eraseEntries (built.set (.ofString name) w) := by
            rw [← Value.set_eraseEntries, ← Value.set_eraseEntries, hb, he]
          have hfree' : ∀ g ∈ fields, Key.ofString g.1 ∉ (built.set (.ofString name) w).keys := by
            intro g hg hm
            obtain hm | hm := Entries.mem_keys_set hm
            · exact hfree g (List.mem_cons_of_mem _ hg) hm
            · exact hother g hg hm
          obtain ⟨out', m₂, d₂, hout', hes⟩ := ih hr' hn.2 rest hfree' hk' hb' m₁
          refine ⟨out', m₂, d₁ ++ d₂, .present ?_ ?_ hout', hes⟩
          · rw [hvalue]
            exact hw
          · rw [hvalue]
            exact hw'

theorem ChecksFields.again {schema : SchemaDef} (hr : ∀ f ∈ schema.fields, AgainFor host f.2)
    (hn : (schema.fields.map (·.1)).Nodup) {input out : Entries} {path : FieldPath} {pointer : ℕ}
    (h : ChecksFields host strict schema input path pointer n out n' d)
    (hk : schema.Keeps host out) (path' : FieldPath) (pointer' m : ℕ) :
    ∃ out' m' d', ChecksFields host strict schema out path' pointer' m out' m' d' ∧
      Value.eraseEntries out' = Value.eraseEntries out := by
  cases h with
  | intro list known cross =>
      obtain ⟨out', m', d', hout', he⟩ := list.again hr hn (by simp) hk rfl path' pointer' m
      obtain ⟨-, hscattered⟩ := list.fresh (fun f _ => checks_fresh host f.2) le_rfl scattered_nil
      refine ⟨out', m', _, .intro hout' ?_ ?_, he⟩
      · -- Only declared keys are left in the output.
        intro _
        rw [unknownKeys, List.filterMap_eq_nil_iff]
        intro e hmem
        obtain hb | ⟨f, hf, hkey⟩ := list.mem_keys (List.mem_map_of_mem hmem)
        · cases hb
        · have hfound : (schema.rule f.1).isSome = true := by
            unfold SchemaDef.rule
            rw [Option.isSome_map, List.find?_isSome]
            exact ⟨f, hf, by simp⟩
          rw [hkey, Key.ofString]
          simp [hfound]
      · refine crossFailures_eq_nil.mpr ((crossFailures_eq_nil.mp cross).of_erase he ?_)
        intro a b hab
        exact hscattered.apart _ _ (by simpa using hab)

/-- The entry of a map's output was made from an entry of its input. -/
def MadeBy (host : Host) (strict : Bool) (keys : Option Rule) (values : Rule) (e : Key × Value) :
    Prop :=
  ∃ k, e.1 = .string k ∧
    (∃ k₀ site n n' d, ChecksKey host strict keys k₀ site n k n' d) ∧
    ∃ v site n n' d, Checks host strict values v site n e.2 n' d

theorem ChecksPairs.madeBy {keys : Option Rule} {values : Rule} {site : Site} {pointer : ℕ}
    {es built out : Entries}
    (h : ChecksPairs host strict keys values site pointer es built n out n' d)
    (hb : ∀ e ∈ built, MadeBy host strict keys values e) :
    ∀ e ∈ out, MadeBy host strict keys values e := by
  induction es generalizing n built d with
  | nil =>
      cases h
      exact hb
  | cons e es ih =>
      cases h with
      | cons key value rest =>
          refine ih rest ?_
          intro e he
          obtain he | rfl := Entries.mem_set he
          · exact hb e he
          · exact ⟨_, rfl, ⟨_, _, _, _, _, key⟩, ⟨_, _, _, _, _, value⟩⟩

theorem ChecksPairs.built {keys : Option Rule} {values : Rule} {site : Site} {pointer : ℕ}
    {es built out : Entries}
    (h : ChecksPairs host strict keys values site pointer es built n out n' d)
    (hn : built.keys.Nodup) (hs : built.Solid) :
    out.keys.Nodup ∧ out.Solid ∧ out.length ≤ built.length + es.length := by
  induction es generalizing n built d with
  | nil =>
      cases h
      exact ⟨hn, hs, le_rfl⟩
  | cons e es ih =>
      cases h with
      | @cons _ _ _ _ _ _ _ _ _ _ k' _ w _ _ _ _ _ _ key value rest =>
          obtain ⟨hn', hs', hlen⟩ := ih rest (Entries.nodup_set hn _ _) (Entries.solid_set hs _ _)
          have hset := Entries.length_set_le built (.string k') w
          exact ⟨hn', hs', by rw [List.length_cons]; omega⟩

theorem ChecksKey.again {keys : Option Rule} (hr : ∀ r, keys = some r → AgainFor host r)
    {k₀ k : LuaString} {site : Site} (h : ChecksKey host strict keys k₀ site n k n' d)
    (site' : Site) (m : ℕ) : ∃ m' d', ChecksKey host strict keys k site' m k m' d' := by
  cases h with
  | free => exact ⟨m, [], .free⟩
  | @ruled _ rule _ _ _ _ _ _ checked =>
      obtain ⟨w', m', d', hw', he⟩ := hr rule rfl checked (keeps_string host rule k)
        (site'.within ⟨m, .integer 1⟩) (m + 1)
      rw [Value.eq_string_of_erase he] at hw'
      exact ⟨m', d', .ruled hw'⟩

/-- The entries of a built map pass again, each under its own key. -/
theorem checksPairs_again {keys : Option Rule} {values : Rule}
    (hr : ∀ r, keys = some r → AgainFor host r) (hv : AgainFor host values) {es built : Entries}
    (hmade : ∀ e ∈ es, MadeBy host strict keys values e) (hs : es.Solid)
    (hn : (built.keys ++ es.keys).Nodup) (hk : ∀ e ∈ es, Keeps host values e.2) (site : Site)
    (pointer m : ℕ) :
    ∃ out m' d', ChecksPairs host strict keys values site pointer es built m out m' d' ∧
      Value.eraseEntries out = Value.eraseEntries (built ++ es) := by
  induction es generalizing built m with
  | nil => exact ⟨built, m, [], .nil, by rw [List.append_nil]⟩
  | cons e es ih =>
      obtain ⟨k, hkey, ⟨k₀, site₀, n₀, n₀', d₀, hkeychecked⟩, v, site₁, n₁, n₁', d₁, hchecked⟩ :=
        hmade e (List.mem_cons_self ..)
      obtain ⟨key, w⟩ := e
      obtain rfl : key = .string k := hkey
      obtain ⟨m₁, dk, hkey'⟩ := hkeychecked.again hr (site.entry k) m
      obtain ⟨w', m₂, dw, hw', he⟩ := hv hchecked (hk _ (List.mem_cons_self ..))
        ((site.entry k).within ⟨pointer, .string k⟩) m₁
      have hw : w ≠ .nil := hs _ (List.mem_cons_self ..)
      have hwnil : w'.isNil = false := Value.isNil_eq_false.mpr (hw'.ne_nil hw)
      rw [Entries.keys_cons, List.nodup_append] at hn
      obtain ⟨hbuilt, htail, hdisj⟩ := hn
      have hfree : Key.string k ∉ built.keys := by
        intro hm
        exact hdisj _ hm _ (List.mem_cons_self ..) rfl
      have hset : built.set (.string k) w' = built ++ [(.string k, w')] := by
        rw [Entries.set_of_not_mem hfree, hwnil]
        rfl
      have hn' : ((built.set (.string k) w').keys ++ Entries.keys es).Nodup := by
        rw [hset]
        rw [show Entries.keys (built ++ [(Key.string k, w')]) = built.keys ++ [.string k] by
          simp [Entries.keys], List.append_assoc, List.nodup_append]
        exact ⟨hbuilt, htail, hdisj⟩
      obtain ⟨out, m₃, d₃, hout, hes⟩ := ih
        (fun e hm => hmade e (List.mem_cons_of_mem _ hm))
        (fun e hm => hs e (List.mem_cons_of_mem _ hm)) hn'
        (fun e hm => hk e (List.mem_cons_of_mem _ hm)) m₂
      refine ⟨out, m₃, _, .cons hkey' hw' hout, ?_⟩
      rw [hes, hset]
      simp [Value.eraseEntries_eq_map, he]

theorem passes_countTests {rule : RuleKeys} {count count' : ℕ}
    (h : Passes (countTests rule count)) (hmin : ∀ min, rule.minKeys = some min → min ≤ count')
    (hle : count' ≤ count) : Passes (countTests rule count') := by
  intro t ht
  simp only [countTests, List.mem_cons, List.not_mem_nil, or_false] at ht
  obtain rfl | rfl := ht
  · cases hk : rule.minKeys with
    | none => rfl
    | some min => simpa [demand] using hmin min hk
  · have hmax := h _ (List.mem_cons_of_mem _ (List.mem_cons_self ..))
    cases hk : rule.maxKeys with
    | none => rfl
    | some max =>
        simp only [demand, hk, Bool.not_eq_false', decide_eq_true_eq] at hmax ⊢
        exact hle.trans hmax

/-- Every rule of a schema that declares no name twice, files apart. -/
theorem checks_again (hi : host.Idempotent) (rule : Rule) :
    rule.Plain → rule.Unambiguous → AgainFor host rule := by
  induction rule using Rule.induct with
  | step rule items keys values filename fields =>
      intro hplain hnames strict v w site n n' d h hk site' m
      obtain ⟨hfile, -, -, -, pitems, pkeys, pvalues, -, pfields⟩ := hplain
      obtain ⟨uitems, ukeys, uvalues, names, ufields⟩ := hnames
      obtain ⟨kunique, kcount, kitems, kvalues, kfields⟩ := hk
      cases h with
      | intro kind =>
          cases kind with
          | @string _ _ s _ _ kind tests =>
              refine ⟨_, m, _, .intro (.string kind ?_), ?_⟩
              · rw [LuaString.toStringLossy_ofString, hi]
                exact tests
              · rw [LuaString.toStringLossy_ofString, hi]
          | number kind value finite whole tests =>
              exact ⟨_, m, _, .intro (.number kind value finite whole tests), rfl⟩
          | boolean kind tests => exact ⟨_, m, _, .intro (.boolean kind tests), rfl⟩
          | any kind bounds bytes text size =>
              exact ⟨_, m, _, .intro (.any kind bounds bytes text size), rfl⟩
          | @array _ _ r _ _ _ p len es ws _ kind sequence length nested each tests =>
              have hlen : ws.length = len := by
                rw [each.length_eq]
                simp [itemsOf]
              subst hlen
              have hitems := itemsOf_setItems ws
              have hunique : rule.unique = true → Unrepeated host [] ws := by
                intro hu
                have hd := kunique n ws.length _ kind rfl hu
                rw [hitems] at hd
                exact hd.unrepeated (each.fresh (checks_fresh host r)).2.2
              have hkeep : ∀ w ∈ ws, Keeps host r w := by
                have hk := kitems n ws.length _ r kind rfl nested
                rw [hitems] at hk
                exact hk
              obtain ⟨ws', m', d', hws', he⟩ := each.again
                (items r nested (pitems r nested) (uitems r nested)) hkeep hunique site' m 1 (m + 1)
              have hlen' : ws'.length = ws.length := hws'.length_eq
              have hbytes : totalBytes ws = totalBytes (itemsOf ws.length es) := each.addBytes_eq 0
              refine ⟨.table m ws.length (setItems 1 ws' []), m', _,
                .intro (.array kind (isSequence_setItems ws) length nested (by rwa [hitems]) ?_), ?_⟩
              · have hitems' := itemsOf_setItems ws'
                rw [hlen'] at hitems'
                rw [hitems, hbytes, hitems']
                rw [hitems] at tests
                unfold itemTests at tests ⊢
                rw [hasItem_of_erase he]
                exact tests
              · simp only [Value.erase]
                rw [← Value.setItems_eraseEntries, ← Value.setItems_eraseEntries, he]
          | @table _ _ schema _ _ _ p input out _ kind nested each =>
              obtain ⟨out', m', d', hout', he⟩ := each.again
                (fun f hf => fields schema nested f hf (pfields schema nested f hf)
                  (ufields schema nested f hf))
                (names schema nested) (kfields n 0 out schema kind rfl nested) site'.path m (m + 1)
              refine ⟨.table m 0 out', m', _, .intro (.table kind nested hout'), ?_⟩
              simp only [Value.erase, he]
          | @map _ _ r _ _ _ p len es out _ kind count nested each =>
              obtain ⟨hn, hs, hlen⟩ := each.built List.nodup_nil (by simp [Entries.Solid])
              obtain ⟨out', m', d', hout', he⟩ := @checksPairs_again host strict rule.keys r
                (fun k hk => keys k hk (pkeys k hk) (ukeys k hk))
                (values r nested (pvalues r nested) (uvalues r nested)) out []
                (each.madeBy (by simp)) hs (by simpa using hn)
                (kvalues n 0 out r kind rfl nested) site' m (m + 1)
              refine ⟨.table m 0 out', m', _, .intro (.map kind ?_ nested hout'), ?_⟩
              · refine passes_countTests count ?_ (by simpa using hlen)
                intro min hmin
                exact kcount n 0 out min kind rfl hmin
              · simp only [Value.erase, he]
                rfl
          | file kind => exact absurd kind hfile

end Again

end Nitr.Validate
