import Mathlib.Data.List.Lex
import Mathlib.Data.List.Sort
import Mathlib.Data.Prod.Lex
import Mathlib.Order.Nat
import Nitr.Lib.Text
import Nitr.Validate.Scalar

/-! # Query strings

`query_parse` and `query_build` of `url.rs`. The `percent-encoding` package and the text of a
double are parameters; a table of byte strings has its entries in some iteration order. -/

namespace Nitr.Url

open Nitr.Validate (F64)

abbrev Bytes := List UInt8

def utf8 (s : String) : Bytes := s.toUTF8.data.toList

/-! ## The codec -/

/-- The value of a hexadecimal digit, of either case. -/
def hexValue (b : UInt8) : Option ℕ :=
  if 48 ≤ b.toNat ∧ b.toNat ≤ 57 then some (b.toNat - 48)
  else if 65 ≤ b.toNat ∧ b.toNat ≤ 70 then some (b.toNat - 55)
  else if 97 ≤ b.toNat ∧ b.toNat ≤ 102 then some (b.toNat - 87)
  else none

/-- An upper-case hexadecimal digit. -/
def hexDigit (n : ℕ) : UInt8 := UInt8.ofNat (if n < 10 then 48 + n else 55 + n)

/-- The package: a set says which ASCII bytes are encoded. -/
structure PercentEncoding where
  percentEncode : (UInt8 → Bool) → Bytes → Bytes
  percentDecode : Bytes → Bytes

def encodeByte (set : UInt8 → Bool) (b : UInt8) : Bytes :=
  if 128 ≤ b.toNat || set b then [37, hexDigit (b.toNat / 16), hexDigit (b.toNat % 16)] else [b]

/-- What the package documents. -/
structure PercentEncoding.Documented (codec : PercentEncoding) : Prop where
  encode_nil : ∀ set, codec.percentEncode set [] = []
  encode_cons : ∀ set b bytes,
    codec.percentEncode set (b :: bytes) = encodeByte set b ++ codec.percentEncode set bytes
  decode_nil : codec.percentDecode [] = []
  decode_escape : ∀ {h l hi lo}, hexValue h = some hi → hexValue l = some lo → ∀ rest,
    codec.percentDecode (37 :: h :: l :: rest) =
      UInt8.ofNat (16 * hi + lo) :: codec.percentDecode rest
  decode_plain : ∀ {b}, b ≠ 37 → ∀ rest,
    codec.percentDecode (b :: rest) = b :: codec.percentDecode rest

def isAsciiAlphanumeric (b : UInt8) : Bool :=
  (48 ≤ b.toNat && b.toNat ≤ 57) || (65 ≤ b.toNat && b.toNat ≤ 90) ||
    (97 ≤ b.toNat && b.toNat ≤ 122)

/-- `COMPONENT`: all but the alphanumeric bytes and `-`, `_`, `.`, `~`. -/
def component (b : UInt8) : Bool := !isAsciiAlphanumeric b && !([45, 95, 46, 126].contains b)

/-! ## Tables -/

/-- A table from byte strings to byte strings, its entries in iteration order. -/
structure Table where
  entries : List (Bytes × Bytes)
  nodup : (entries.map Prod.fst).Nodup

namespace Table

def empty : Table := ⟨[], List.nodup_nil⟩

/-- `table.set`. -/
def set (t : Table) (key value : Bytes) : Table where
  entries := t.entries.filter (fun e => e.1 ≠ key) ++ [(key, value)]
  nodup := by
    rw [List.map_append, List.nodup_append]
    refine ⟨(t.nodup.sublist (List.filter_sublist.map Prod.fst)), List.nodup_singleton _, ?_⟩
    intro k hk k' hk'
    obtain ⟨e, he, rfl⟩ := List.mem_map.mp hk
    obtain rfl := List.mem_singleton.mp hk'
    simpa using (List.mem_filter.mp he).2

end Table

section

variable (codec : PercentEncoding)

/-! ## Parsing -/

def formDecode (s : Bytes) : Bytes :=
  codec.percentDecode (s.map fun b => if b = 43 then 32 else b)

/-- The two sides of the first `=`. -/
def splitPair (pair : Bytes) : Bytes × Bytes := (pair.splitOnce 61).getD (pair, [])

def setPair (t : Table) (pair : Bytes) : Table :=
  t.set (formDecode codec (splitPair pair).1) (formDecode codec (splitPair pair).2)

def queryParse (query : Bytes) : Table :=
  let query := (query.stripPrefix [63]).getD query
  ((query.splitOn 38).filter (· ≠ [])).foldl (setPair codec) Table.empty

/-! ## Building -/

/-- A Lua value as a key or a value of a query; of the others the type's name counts. -/
inductive Value where
  | string (bytes : Bytes)
  | integer (n : ℤ)
  | number (n : F64)
  | boolean (b : Bool)
  | other (typeName : String)

variable (displayF64 : F64 → String)

def keyBytes : Value → Except String Bytes
  | .string bytes => .ok bytes
  | .integer n => .ok (utf8 (toString n))
  | .number n => .ok (utf8 (displayF64 n))
  | .boolean _ => .error "query keys must be strings or numbers, got boolean"
  | .other typeName => .error ("query keys must be strings or numbers, got " ++ typeName)

def valueBytes : Value → Except String Bytes
  | .string bytes => .ok bytes
  | .integer n => .ok (utf8 (toString n))
  | .number n => .ok (utf8 (displayF64 n))
  | .boolean b => .ok (utf8 (if b then "true" else "false"))
  | .other typeName => .error ("query values must be strings, numbers or booleans, got " ++ typeName)

/-- The pairs of a table, in iteration order. -/
def pairsOf : List (Value × Value) → Except String (List (Bytes × Bytes))
  | [] => .ok []
  | e :: rest => do
      let key ← keyBytes displayF64 e.1
      let value ← valueBytes displayF64 e.2
      let pairs ← pairsOf rest
      return (key, value) :: pairs

/-- The place of a pair in the order of pairs of byte strings. -/
def pairKey (p : Bytes × Bytes) : List ℕ ×ₗ List ℕ :=
  toLex (p.1.map UInt8.toNat, p.2.map UInt8.toNat)

def sortPairs (pairs : List (Bytes × Bytes)) : List (Bytes × Bytes) :=
  pairs.insertionSort fun p q => pairKey p ≤ pairKey q

def buildPair (p : Bytes × Bytes) : Bytes :=
  codec.percentEncode component p.1 ++ 61 :: codec.percentEncode component p.2

def queryBuild (params : List (Value × Value)) : Except String Bytes := do
  let pairs ← pairsOf displayF64 params
  return [38].intercalate ((sortPairs pairs).map (buildPair codec))

end

/-- The table as Lua values. -/
def Table.params (t : Table) : List (Value × Value) :=
  t.entries.map fun e => (.string e.1, .string e.2)

/-! ## One component -/

theorem hexValue_hexDigit : ∀ n < 16, hexValue (hexDigit n) = some n := by decide

/-- The bytes with a meaning in a query: `&`, `+`, `=` and `?`. -/
def special : Bytes := [38, 43, 61, 63]

theorem hexDigit_notMem : ∀ n < 16, hexDigit n ∉ special := by decide

theorem component_special : ∀ b ∈ 37 :: special, component b = true := by decide +kernel

theorem notMem_of_mem_encodeByte {b x : UInt8} (h : x ∈ encodeByte component b) :
    x ∉ special := by
  have hb : b.toNat < 256 := b.toNat_lt
  unfold encodeByte at h
  split at h
  · simp only [List.mem_cons, List.not_mem_nil, or_false] at h
    rcases h with rfl | rfl | rfl
    · decide
    · exact hexDigit_notMem _ (by omega)
    · exact hexDigit_notMem _ (by omega)
  · rename_i hkept
    rw [List.mem_singleton.mp h]
    intro hmem
    exact hkept (by simp [component_special b (List.mem_cons_of_mem _ hmem)])

namespace PercentEncoding.Documented

variable {codec : PercentEncoding} (h : codec.Documented)
include h

theorem notMem_encode {x : UInt8} {bytes : Bytes} (hx : x ∈ codec.percentEncode component bytes) :
    x ∉ special := by
  induction bytes with
  | nil =>
      rw [h.encode_nil] at hx
      cases hx
  | cons b bytes ih =>
      rw [h.encode_cons, List.mem_append] at hx
      exact hx.elim notMem_of_mem_encodeByte ih

/-- One encoded byte is read back, whatever follows. -/
theorem decode_encodeByte (b : UInt8) (rest : Bytes) :
    codec.percentDecode (encodeByte component b ++ rest) = b :: codec.percentDecode rest := by
  have hb : b.toNat < 256 := b.toNat_lt
  unfold encodeByte
  split
  · have hvalue : UInt8.ofNat (16 * (b.toNat / 16) + b.toNat % 16) = b := by
      rw [Nat.div_add_mod, UInt8.ofNat_toNat]
    have hhi := hexValue_hexDigit (b.toNat / 16) (by omega)
    have hlo := hexValue_hexDigit (b.toNat % 16) (by omega)
    exact (h.decode_escape hhi hlo rest).trans (by rw [hvalue])
  · rename_i hkept
    refine h.decode_plain ?_ rest
    rintro rfl
    exact hkept (by decide)

theorem decode_encode (bytes : Bytes) :
    codec.percentDecode (codec.percentEncode component bytes) = bytes := by
  induction bytes with
  | nil => rw [h.encode_nil, h.decode_nil]
  | cons b bytes ih => rw [h.encode_cons, h.decode_encodeByte, ih]

theorem formDecode_encode (bytes : Bytes) :
    formDecode codec (codec.percentEncode component bytes) = bytes := by
  have hplus : (codec.percentEncode component bytes).map (fun b => if b = 43 then 32 else b) =
      codec.percentEncode component bytes := by
    conv_rhs => rw [← List.map_id (codec.percentEncode component bytes)]
    refine List.map_congr_left fun b hb => if_neg ?_
    rintro rfl
    exact h.notMem_encode hb (by decide)
  rw [formDecode, hplus, h.decode_encode]

/-! ## One pair -/

theorem splitPair_buildPair (p : Bytes × Bytes) : splitPair (buildPair codec p) =
    (codec.percentEncode component p.1, codec.percentEncode component p.2) := by
  have hequals : (61 : UInt8) ∉ codec.percentEncode component p.1 :=
    fun hmem => h.notMem_encode hmem (by decide)
  rw [splitPair, buildPair, List.splitOnce_append hequals, Option.getD_some]

theorem setPair_buildPair (t : Table) (p : Bytes × Bytes) :
    setPair codec t (buildPair codec p) = t.set p.1 p.2 := by
  rw [setPair, h.splitPair_buildPair, h.formDecode_encode, h.formDecode_encode]

theorem ampersand_notMem (p : Bytes × Bytes) : (38 : UInt8) ∉ buildPair codec p := by
  rw [buildPair, List.mem_append, List.mem_cons]
  rintro (hmem | heq | hmem)
  · exact h.notMem_encode hmem (by decide)
  · cases heq
  · exact h.notMem_encode hmem (by decide)

end PercentEncoding.Documented

/-! ## The whole query -/

/-- New keys are appended. -/
theorem entries_foldl_set (pairs : List (Bytes × Bytes)) (t : Table)
    (hnodup : ((t.entries ++ pairs).map Prod.fst).Nodup) :
    (pairs.foldl (fun t p => t.set p.1 p.2) t).entries = t.entries ++ pairs := by
  induction pairs generalizing t with
  | nil => simp
  | cons p pairs ih =>
      have hnew : (t.set p.1 p.2).entries = t.entries ++ [p] := by
        have hkeep : t.entries.filter (fun e => e.1 ≠ p.1) = t.entries := by
          refine List.filter_eq_self.mpr fun e he => ?_
          rw [List.map_append, List.nodup_append] at hnodup
          simpa using hnodup.2.2 e.1 (List.mem_map_of_mem he) p.1 (by simp)
        exact congrArg (· ++ [p]) hkeep
      rw [List.foldl_cons, ih, hnew, List.append_assoc, List.singleton_append]
      rwa [hnew, List.append_assoc, List.singleton_append]

theorem pairsOf_params (displayF64 : F64 → String) (t : Table) :
    pairsOf displayF64 t.params = .ok t.entries := by
  unfold Table.params
  induction t.entries with
  | nil => rfl
  | cons e entries ih =>
      rw [List.map_cons, pairsOf, ih]
      rfl

theorem pairKey_injective : Function.Injective pairKey := by
  intro p q heq
  have hmap : Function.Injective (List.map UInt8.toNat) :=
    List.map_injective_iff.mpr fun _ _ => UInt8.toNat_inj.mp
  obtain ⟨hfst, hsnd⟩ := Prod.mk.inj (toLex.injective heq)
  exact Prod.ext (hmap hfst) (hmap hsnd)

theorem sortPairs_perm (pairs : List (Bytes × Bytes)) : (sortPairs pairs).Perm pairs :=
  List.perm_insertionSort _ _

/-- The order of the pairs does not show in the sorted list. -/
theorem sortPairs_eq_of_perm {pairs pairs' : List (Bytes × Bytes)} (h : pairs.Perm pairs') :
    sortPairs pairs = sortPairs pairs' := by
  have htotal : Std.Total fun p q : Bytes × Bytes => pairKey p ≤ pairKey q :=
    ⟨fun p q => le_total (pairKey p) (pairKey q)⟩
  have htrans : IsTrans (Bytes × Bytes) fun p q => pairKey p ≤ pairKey q :=
    ⟨fun _ _ _ => le_trans⟩
  refine List.Perm.eq_of_pairwise ?_ (List.pairwise_insertionSort _ _)
    (List.pairwise_insertionSort _ _) (((sortPairs_perm pairs).trans h).trans
      (sortPairs_perm pairs').symm)
  exact fun p q _ _ hpq hqp => pairKey_injective (le_antisymm hpq hqp)

/-- What is built from pairs. -/
def queryText (codec : PercentEncoding) (pairs : List (Bytes × Bytes)) : Bytes :=
  [38].intercalate ((sortPairs pairs).map (buildPair codec))

section

variable {codec : PercentEncoding} (h : codec.Documented)
include h

/-- The pairs of a built query are split again. -/
theorem splitOn_intercalate_buildPair (pairs : List (Bytes × Bytes)) :
    (([38].intercalate (pairs.map (buildPair codec))).splitOn 38).filter (· ≠ []) =
      pairs.map (buildPair codec) := by
  cases pairs with
  | nil => rfl
  | cons p pairs =>
      have hplain : ∀ l ∈ (p :: pairs).map (buildPair codec), 38 ∉ l := by
        intro l hl
        obtain ⟨q, -, rfl⟩ := List.mem_map.mp hl
        exact h.ampersand_notMem q
      rw [List.splitOn_intercalate 38 hplain (by simp)]
      refine List.filter_eq_self.mpr fun l hl => ?_
      obtain ⟨q, -, rfl⟩ := List.mem_map.mp hl
      simp [buildPair]

theorem question_notMem_queryText (pairs : List (Bytes × Bytes)) :
    63 ∉ queryText codec pairs := by
  intro hmem
  obtain ⟨piece, hpiece, hmem⟩ :=
    (@List.mem_iff_splitOn UInt8 _ 38 63 _ (by decide)).mp hmem
  have hne : piece ≠ [] := List.ne_nil_of_mem hmem
  have hkept : piece ∈ ((queryText codec pairs).splitOn 38).filter (· ≠ []) :=
    List.mem_filter.mpr ⟨hpiece, decide_eq_true hne⟩
  rw [queryText, splitOn_intercalate_buildPair h] at hkept
  obtain ⟨p, -, rfl⟩ := List.mem_map.mp hkept
  rw [buildPair, List.mem_append, List.mem_cons] at hmem
  rcases hmem with hmem | heq | hmem
  · exact h.notMem_encode hmem (by decide)
  · cases heq
  · exact h.notMem_encode hmem (by decide)

/-- A built query is parsed into its pairs. -/
theorem entries_queryParse {pairs : List (Bytes × Bytes)} (hnodup : (pairs.map Prod.fst).Nodup) :
    (queryParse codec (queryText codec pairs)).entries = sortPairs pairs ∧
      (queryParse codec (63 :: queryText codec pairs)).entries = sortPairs pairs := by
  have hread : (((queryText codec pairs).splitOn 38).filter (· ≠ [])).foldl (setPair codec)
      Table.empty = (sortPairs pairs).foldl (fun t p => t.set p.1 p.2) Table.empty := by
    rw [queryText, splitOn_intercalate_buildPair h, List.foldl_map]
    simp only [h.setPair_buildPair]
  have hentries : ((sortPairs pairs).foldl (fun t p => t.set p.1 p.2) Table.empty).entries =
      sortPairs pairs :=
    entries_foldl_set _ _ ((((sortPairs_perm pairs).map Prod.fst).nodup_iff).mpr hnodup)
  have hnone : (queryText codec pairs).stripPrefix [63] = none := by
    refine List.stripPrefix_eq_none.mpr ?_
    rintro ⟨rest, hrest⟩
    exact question_notMem_queryText h pairs (by rw [← hrest]; exact List.mem_cons_self)
  have hsome : (63 :: queryText codec pairs).stripPrefix [63] = some (queryText codec pairs) :=
    List.stripPrefix_eq_some.mpr rfl
  constructor
  · rw [queryParse, hnone, Option.getD_none]
    exact (congrArg Table.entries hread).trans hentries
  · rw [queryParse, hsome, Option.getD_some]
    exact (congrArg Table.entries hread).trans hentries

end

/-- A table of byte strings is read back from the query built from it, with a question mark in
front as well; and the query does not depend on the order in which the table is iterated. -/
theorem query_round_trip {codec : PercentEncoding} (h : codec.Documented)
    (displayF64 : F64 → String) (t : Table) :
    ∃ text, queryBuild codec displayF64 t.params = .ok text ∧
      (queryParse codec text).entries.Perm t.entries ∧
      (queryParse codec (63 :: text)).entries.Perm t.entries ∧
      ∀ u : Table, u.entries.Perm t.entries → queryBuild codec displayF64 u.params = .ok text := by
  have hbuild : ∀ u : Table, queryBuild codec displayF64 u.params = .ok (queryText codec u.entries) :=
    fun u => by
      rw [queryBuild, pairsOf_params]
      rfl
  obtain ⟨hplain, hquestion⟩ := entries_queryParse h t.nodup
  refine ⟨queryText codec t.entries, hbuild t, ?_, ?_, ?_⟩
  · rw [hplain]
    exact sortPairs_perm t.entries
  · rw [hquestion]
    exact sortPairs_perm t.entries
  · intro u hperm
    rw [hbuild u, queryText, sortPairs_eq_of_perm hperm]
    rfl

/-! ## The package on one table -/

/-- `percent_encode` and `percent_decode` as they are documented. -/
def decodeAll : Bytes → Bytes
  | 37 :: h :: l :: rest =>
      match hexValue h, hexValue l with
      | some hi, some lo => UInt8.ofNat (16 * hi + lo) :: decodeAll rest
      | _, _ => 37 :: decodeAll (h :: l :: rest)
  | b :: rest => b :: decodeAll rest
  | [] => []

def documentedCodec : PercentEncoding where
  percentEncode set bytes := bytes.flatMap (encodeByte set)
  percentDecode := decodeAll

theorem documentedCodec_documented : documentedCodec.Documented where
  encode_nil _ := rfl
  encode_cons _ _ _ := rfl
  decode_nil := rfl
  decode_escape := by
    intro h l hi lo hh hl rest
    change decodeAll _ = _
    rw [decodeAll]
    simp only [hh, hl]
    rfl
  decode_plain := by
    intro b hb rest
    change decodeAll _ = _
    rw [decodeAll]
    · rfl
    · rintro h l rest' rfl
      exact absurd rfl hb

/-- The empty key with a value of three bytes, one of them a space and one not UTF-8. -/
theorem query_round_trip_bytes : ∃ text,
    queryBuild documentedCodec (fun _ => "") (Table.empty.set [] [32, 43, 255]).params = .ok text ∧
      (queryParse documentedCodec text).entries.Perm (Table.empty.set [] [32, 43, 255]).entries ∧
      (queryParse documentedCodec (63 :: text)).entries.Perm
        (Table.empty.set [] [32, 43, 255]).entries ∧
      ∀ u : Table, u.entries.Perm (Table.empty.set [] [32, 43, 255]).entries →
        queryBuild documentedCodec (fun _ => "") u.params = .ok text :=
  query_round_trip documentedCodec_documented (fun _ => "") (Table.empty.set [] [32, 43, 255])

end Nitr.Url
