import Nitr.Lib.OrdMap
import Nitr.Lib.Text
import Mathlib.Algebra.BigOperators.Group.List.Basic
import Mathlib.Algebra.Order.Ring.Rat
import Mathlib.Algebra.Ring.Nat
import Mathlib.Data.String.Basic

/-! # JSON documents and pointers into them

A document keeps an object as its entries in key order, so objects are equal when their entries
are. A pointer names a place in a document by the keys and indices that lead there; in the
fragment of a URI it is written percent-encoded. -/

namespace Nitr

/-! ## Documents -/

/-- A JSON value. A double is kept by its exact value, which is what `==` compares. -/
inductive JsonValue where
  | null
  | bool (b : Bool)
  | int (i : ℤ)
  | float (q : ℚ)
  | str (s : String)
  | arr (items : List JsonValue)
  | obj (entries : List (String × JsonValue))

namespace JsonValue

/-- Induction over values, with the hypothesis for every item and entry. -/
@[elab_as_elim]
theorem induct {motive : JsonValue → Prop} (null : motive .null) (bool : ∀ b, motive (.bool b))
    (int : ∀ i, motive (.int i)) (float : ∀ q, motive (.float q)) (str : ∀ s, motive (.str s))
    (arr : ∀ items, (∀ item ∈ items, motive item) → motive (.arr items))
    (obj : ∀ entries, (∀ e ∈ entries, motive e.2) → motive (.obj entries))
    (value : JsonValue) : motive value := by
  refine @JsonValue.rec motive (fun items => ∀ item ∈ items, motive item)
    (fun entries => ∀ e ∈ entries, motive e.2) (fun e => motive e.2) null bool int float str
    arr obj ?_ ?_ ?_ ?_ ?_ value
  · exact fun _ h => absurd h List.not_mem_nil
  · intro item items hitem hitems
    exact List.forall_mem_cons.mpr ⟨hitem, hitems⟩
  · exact fun _ h => absurd h List.not_mem_nil
  · intro entry entries hentry hentries
    exact List.forall_mem_cons.mpr ⟨hentry, hentries⟩
  · exact fun _ _ h => h

mutual

def beq : JsonValue → JsonValue → Bool
  | .null, .null => true
  | .bool a, .bool b => a = b
  | .int a, .int b => a = b
  | .float a, .float b => a = b
  | .str a, .str b => a = b
  | .arr a, .arr b => beqItems a b
  | .obj a, .obj b => beqEntries a b
  | _, _ => false
  termination_by structural a => a

def beqItems : List JsonValue → List JsonValue → Bool
  | [], [] => true
  | a :: as, b :: bs => a.beq b && beqItems as bs
  | _, _ => false
  termination_by structural a => a

def beqEntries : List (String × JsonValue) → List (String × JsonValue) → Bool
  | [], [] => true
  | (k, a) :: as, (l, b) :: bs => k = l && a.beq b && beqEntries as bs
  | _, _ => false
  termination_by structural a => a

end

theorem beqItems_iff {as bs : List JsonValue}
    (ih : ∀ a ∈ as, ∀ b : JsonValue, a.beq b = true ↔ a = b) :
    beqItems as bs = true ↔ as = bs := by
  induction as generalizing bs with
  | nil => cases bs <;> simp [beqItems]
  | cons a as hrest =>
      cases bs with
      | nil => simp [beqItems]
      | cons b bs =>
          rw [beqItems, Bool.and_eq_true, ih a List.mem_cons_self,
            hrest fun a ha => ih a (List.mem_cons_of_mem _ ha), List.cons.injEq]

theorem beqEntries_iff {as bs : List (String × JsonValue)}
    (ih : ∀ a ∈ as, ∀ b : JsonValue, a.2.beq b = true ↔ a.2 = b) :
    beqEntries as bs = true ↔ as = bs := by
  induction as generalizing bs with
  | nil => cases bs <;> simp [beqEntries]
  | cons a as hrest =>
      cases bs with
      | nil => simp [beqEntries]
      | cons b bs =>
          rw [beqEntries, Bool.and_eq_true, Bool.and_eq_true, decide_eq_true_iff,
            ih a List.mem_cons_self, hrest fun a ha => ih a (List.mem_cons_of_mem _ ha),
            List.cons.injEq, Prod.ext_iff]

theorem beq_iff {a b : JsonValue} : a.beq b = true ↔ a = b := by
  induction a using JsonValue.induct generalizing b with
  | null => cases b <;> simp [beq]
  | bool _ => cases b <;> simp [beq]
  | int _ => cases b <;> simp [beq]
  | float _ => cases b <;> simp [beq]
  | str _ => cases b <;> simp [beq]
  | arr items ih => cases b <;> simp [beq, beqItems_iff fun a ha b => @ih a ha b]
  | obj entries ih => cases b <;> simp [beq, beqEntries_iff fun a ha b => @ih a ha b]

instance : DecidableEq JsonValue := fun _ _ => decidable_of_iff _ beq_iff

/-! ## Objects -/

/-- An object from its map. -/
def ofMap (m : OrdMap String JsonValue) : JsonValue := .obj m.entries

/-- The value at a key of an object. -/
def get : JsonValue → String → Option JsonValue
  | .obj entries, key => (entries.find? fun e => e.1 = key).map Prod.snd
  | _, _ => none

/-- Sets a key of an object; anything else stays as it is. -/
def set : JsonValue → String → JsonValue → JsonValue
  | .obj entries, key, value => .obj (OrdMap.insertEntry key value entries)
  | other, _, _ => other

def asStr : JsonValue → Option String
  | .str s => some s
  | _ => none

def asArray : JsonValue → Option (List JsonValue)
  | .arr items => some items
  | _ => none

def asObject : JsonValue → Option (List (String × JsonValue))
  | .obj entries => some entries
  | _ => none

@[simp] theorem get_ofMap (m : OrdMap String JsonValue) (key : String) :
    (ofMap m).get key = m.get key := rfl

@[simp] theorem set_ofMap (m : OrdMap String JsonValue) (key : String) (value : JsonValue) :
    (ofMap m).set key value = ofMap (m.insert key value) := rfl

/-! ## Places in a document -/

/-- The index a token stands for: digits with no leading zero. -/
def arrayIndex (token : List Char) : Option ℕ :=
  if token ≠ [] ∧ token.all Char.isDigit ∧ (token.head? = some '0' → token = ['0']) then
    some (Nat.ofDigitChars 10 token 0)
  else none

/-- The value at the end of a path. -/
def follow : JsonValue → List (List Char) → Option JsonValue
  | doc, [] => some doc
  | .obj entries, token :: path =>
      ((JsonValue.obj entries).get (.ofList token)).bind fun value => value.follow path
  | .arr items, token :: path => do
      let i ← arrayIndex token
      let item ← items[i]?
      item.follow path
  | _, _ :: _ => none

theorem follow_ofMap (m : OrdMap String JsonValue) (token : List Char) (path : List (List Char)) :
    (ofMap m).follow (token :: path) =
      (m.get (.ofList token)).bind fun value => value.follow path := rfl

end JsonValue

/-! ## Pointers as text -/

namespace JsonPointer

/-- `~0` for a tilde and `~1` for a slash. -/
def escapeToken (token : List Char) : List Char :=
  token.flatMap fun c => if c = '~' then ['~', '0'] else if c = '/' then ['~', '1'] else [c]

def unescapeToken : List Char → Option (List Char)
  | [] => some []
  | '~' :: '0' :: rest => (unescapeToken rest).map ('~' :: ·)
  | '~' :: '1' :: rest => (unescapeToken rest).map ('/' :: ·)
  | c :: rest => if c = '~' then none else (unescapeToken rest).map (c :: ·)

def text (path : List (List Char)) : List Char := path.flatMap fun token => '/' :: escapeToken token

/-- The tokens of a pointer: nothing, or a slash before each. -/
def parse (pointer : List Char) : Option (List (List Char)) :=
  if pointer = [] then some []
  else if pointer.head? = some '/' then (pointer.splitOn '/').tail.mapM unescapeToken
  else none

def hexValue (c : Char) : Option ℕ :=
  if '0' ≤ c ∧ c ≤ '9' then some (c.toNat - 48)
  else if 'a' ≤ c ∧ c ≤ 'f' then some (c.toNat - 87)
  else if 'A' ≤ c ∧ c ≤ 'F' then some (c.toNat - 55)
  else none

/-- The bytes of a text with percent-encoded ones among them. -/
def percentDecode : List Char → Option (List UInt8)
  | [] => some []
  | '%' :: a :: b :: rest => do
      let high ← hexValue a
      let low ← hexValue b
      let bytes ← percentDecode rest
      return UInt8.ofNat (16 * high + low) :: bytes
  | c :: rest =>
      if c = '%' then none else (percentDecode rest).map (String.utf8EncodeChar c ++ ·)

/-- The text of a fragment. -/
def fragment (encoded : List Char) : Option (List Char) := do
  let bytes ← percentDecode encoded
  if h : bytes.toByteArray.IsValidUTF8 then
    return (String.ofByteArray bytes.toByteArray h).toList
  else none

/-- The path a reference into the same document names. -/
def ofReference (reference : String) : Option (List (List Char)) :=
  match reference.toList with
  | '#' :: encoded => (fragment encoded).bind parse
  | _ => none

/-! ## Tokens and their escapes -/

variable {token path : List Char} {tokens : List (List Char)}

theorem unescapeToken_escapeToken (token : List Char) :
    unescapeToken (escapeToken token) = some token := by
  induction token with
  | nil => rfl
  | cons c rest ih =>
      rw [escapeToken, List.flatMap_cons]
      by_cases htilde : c = '~'
      · rw [if_pos htilde, htilde]
        exact congrArg (Option.map ('~' :: ·)) ih
      · by_cases hslash : c = '/'
        · rw [if_neg htilde, if_pos hslash, hslash]
          exact congrArg (Option.map ('/' :: ·)) ih
        · rw [if_neg htilde, if_neg hslash, List.singleton_append, unescapeToken]
          · rw [if_neg htilde]
            exact congrArg (Option.map (c :: ·)) ih
          · exact fun _ h => absurd h htilde
          · exact fun _ h => absurd h htilde

/-- A piece between slashes that can be read was written by escaping what is read. -/
theorem escapeToken_of_unescapeToken {raw : List Char} (hraw : '/' ∉ raw)
    (h : unescapeToken raw = some token) : escapeToken token = raw := by
  fun_induction unescapeToken raw generalizing token with
  | case1 =>
      cases h
      rfl
  | case2 rest ih =>
      have ⟨t, ht, heq⟩ := Option.map_eq_some_iff.mp h
      rw [← heq, ← ih (fun hmem => hraw (by simp [hmem])) ht]
      rfl
  | case3 rest ih =>
      have ⟨t, ht, heq⟩ := Option.map_eq_some_iff.mp h
      rw [← heq, ← ih (fun hmem => hraw (by simp [hmem])) ht]
      rfl
  | case4 => cases h
  | case5 c rest _ _ hc ih =>
      have ⟨t, ht, heq⟩ := Option.map_eq_some_iff.mp h
      have hslash : c ≠ '/' := fun heq => hraw (heq ▸ List.mem_cons_self)
      rw [← heq, ← ih (fun hmem => hraw (List.mem_cons_of_mem _ hmem)) ht, escapeToken,
        List.flatMap_cons, if_neg hc, if_neg hslash]
      rfl

theorem mapM_unescapeToken_escapeToken (tokens : List (List Char)) :
    (tokens.map escapeToken).mapM unescapeToken = some tokens := by
  induction tokens with
  | nil => rfl
  | cons token rest ih =>
      rw [List.map_cons, List.mapM_cons, unescapeToken_escapeToken, ih]
      rfl

theorem map_escapeToken_of_mapM {raw : List (List Char)} (hraw : ∀ piece ∈ raw, '/' ∉ piece)
    (h : raw.mapM unescapeToken = some tokens) : tokens.map escapeToken = raw := by
  induction raw generalizing tokens with
  | nil =>
      cases h
      rfl
  | cons piece rest ih =>
      rw [List.mapM_cons, Option.bind_eq_bind, Option.bind_eq_some_iff] at h
      have ⟨token, htoken, h⟩ := h
      rw [Option.bind_eq_bind, Option.bind_eq_some_iff] at h
      have ⟨more, hmore, heq⟩ := h
      rw [← Option.some.inj heq, List.map_cons,
        escapeToken_of_unescapeToken (hraw piece List.mem_cons_self) htoken,
        ih (fun p hp => hraw p (List.mem_cons_of_mem _ hp)) hmore]

theorem slash_notMem_escapeToken (token : List Char) : '/' ∉ escapeToken token := by
  rw [escapeToken, List.mem_flatMap]
  intro ⟨c, _, hc⟩
  by_cases htilde : c = '~'
  · rw [if_pos htilde] at hc
    exact absurd hc (by decide)
  · by_cases hslash : c = '/'
    · rw [if_neg htilde, if_pos hslash] at hc
      exact absurd hc (by decide)
    · rw [if_neg htilde, if_neg hslash, List.mem_singleton] at hc
      exact hslash hc.symm

theorem text_cons (token : List Char) (more : List (List Char)) :
    text (token :: more) = '/' :: ['/'].intercalate ((token :: more).map escapeToken) := by
  rw [List.map_cons, List.cons_intercalate_eq_flatMap '/' (List.cons_ne_nil _ _), ← List.map_cons,
    List.flatMap_map]
  rfl

theorem splitOn_slash (rest : List Char) : ('/' :: rest).splitOn '/' = [] :: rest.splitOn '/' := by
  rw [List.splitOn_cons_eq_if_modifyHead, if_pos (beq_self_eq_true _)]

/-- A pointer reads back as the tokens it was written from, and from no others. -/
theorem parse_eq_some : parse path = some tokens ↔ path = text tokens := by
  constructor
  · intro h
    rw [parse] at h
    by_cases hnil : path = []
    · rw [if_pos hnil] at h
      rw [hnil, ← Option.some.inj h]
      rfl
    · rw [if_neg hnil] at h
      by_cases hhead : path.head? = some '/'
      · rw [if_pos hhead] at h
        cases path with
        | nil => exact absurd rfl hnil
        | cons c rest =>
            have hc : c = '/' := Option.some.inj hhead
            rw [hc, splitOn_slash, List.tail_cons] at h
            have hraw := map_escapeToken_of_mapM
              (fun piece hpiece => List.not_mem_of_mem_splitOn hpiece) h
            rw [hc, List.cons_eq_flatMap_splitOn, ← hraw, text, List.flatMap_map]
      · rw [if_neg hhead] at h
        cases h
  · intro h
    cases tokens with
    | nil =>
        rw [h]
        rfl
    | cons token more =>
        have hslash : ∀ piece ∈ (token :: more).map escapeToken, '/' ∉ piece := by
          intro piece hpiece
          have ⟨t, _, ht⟩ := List.mem_map.mp hpiece
          exact ht ▸ slash_notMem_escapeToken t
        rw [h, text_cons, parse, if_neg (List.cons_ne_nil _ _), List.head?_cons, if_pos rfl,
          splitOn_slash, List.tail_cons, List.splitOn_intercalate '/' hslash (List.cons_ne_nil _ _),
          mapM_unescapeToken_escapeToken]

/-! ## Sizes: an escape makes a token longer, an encoding a text shorter -/

/-- The bytes of a text. -/
def size (chars : List Char) : ℕ := (chars.map Char.utf8Size).sum

@[simp] theorem size_nil : size [] = 0 := rfl

@[simp] theorem size_cons (c : Char) (rest : List Char) :
    size (c :: rest) = c.utf8Size + size rest := rfl

@[simp] theorem size_append (l l' : List Char) : size (l ++ l') = size l + size l' := by
  rw [size, List.map_append, List.sum_append]
  rfl

theorem length_utf8Encode (chars : List Char) :
    (chars.flatMap String.utf8EncodeChar).length = size chars := by
  rw [List.length_flatMap, size]
  exact congrArg List.sum (List.map_congr_left fun c _ => String.length_utf8EncodeChar c)

theorem size_escapeToken (token : List Char) :
    size (escapeToken token) = size token + token.count '~' + token.count '/' := by
  induction token with
  | nil => rfl
  | cons c rest ih =>
      rw [escapeToken, List.flatMap_cons, size_append, ← escapeToken, ih, size_cons]
      by_cases htilde : c = '~'
      · rw [if_pos htilde, htilde, List.count_cons_self, List.count_cons_of_ne (by decide)]
        have hsize : size ['~', '0'] = Char.utf8Size '~' + 1 := rfl
        omega
      · by_cases hslash : c = '/'
        · rw [if_neg htilde, if_pos hslash, hslash, List.count_cons_self,
            List.count_cons_of_ne (by decide)]
          have hsize : size ['~', '1'] = Char.utf8Size '/' + 1 := rfl
          omega
        · rw [if_neg htilde, if_neg hslash, List.count_cons_of_ne htilde,
            List.count_cons_of_ne hslash]
          have hsize : size [c] = c.utf8Size := rfl
          omega

theorem length_percentDecode {encoded : List Char} {bytes : List UInt8}
    (h : percentDecode encoded = some bytes) :
    bytes.length + 2 * encoded.count '%' ≤ size encoded := by
  fun_induction percentDecode encoded generalizing bytes with
  | case1 =>
      cases h
      exact le_rfl
  | case2 a b rest ih =>
      rw [Option.bind_eq_bind, Option.bind_eq_some_iff] at h
      have ⟨high, hhigh, h⟩ := h
      rw [Option.bind_eq_bind, Option.bind_eq_some_iff] at h
      have ⟨low, hlow, h⟩ := h
      rw [Option.bind_eq_some_iff] at h
      have ⟨more, hmore, h⟩ := h
      have hrest := ih hmore
      have hdigit : hexValue '%' = none := rfl
      have ha : a ≠ '%' := fun heq => by
        rw [heq, hdigit] at hhigh
        cases hhigh
      have hb : b ≠ '%' := fun heq => by
        rw [heq, hdigit] at hlow
        cases hlow
      have hsize := Char.utf8Size_pos a
      have hsize' := Char.utf8Size_pos b
      have hpercent : Char.utf8Size '%' = 1 := rfl
      rw [← Option.some.inj h, List.length_cons, List.count_cons_self, List.count_cons_of_ne ha,
        List.count_cons_of_ne hb, size_cons, size_cons, size_cons]
      omega
  | case3 => cases h
  | case4 c rest _ hc ih =>
      have ⟨more, hmore, heq⟩ := Option.map_eq_some_iff.mp h
      have hrest := ih hmore
      rw [← heq, List.length_append, String.length_utf8EncodeChar, List.count_cons_of_ne hc,
        size_cons]
      omega

theorem percentDecode_of_notMem {encoded : List Char} (h : '%' ∉ encoded) :
    percentDecode encoded = some (encoded.flatMap String.utf8EncodeChar) := by
  induction encoded with
  | nil => rfl
  | cons c rest ih =>
      rw [List.mem_cons, not_or] at h
      rw [percentDecode, if_neg (Ne.symm h.1), ih h.2]
      · rfl
      · exact fun _ _ _ heq => absurd heq.symm h.1

theorem fragment_eq_some {encoded chars : List Char} :
    fragment encoded = some chars ↔
      percentDecode encoded = some (chars.flatMap String.utf8EncodeChar) := by
  have hencode : ∀ t : List Char,
      (t.flatMap String.utf8EncodeChar).toByteArray = (String.ofList t).toByteArray :=
    fun t => String.toByteArray_ofList.symm
  rw [fragment, Option.bind_eq_bind, Option.bind_eq_some_iff]
  constructor
  · intro ⟨bytes, hbytes, h⟩
    by_cases hvalid : bytes.toByteArray.IsValidUTF8
    · rw [dif_pos hvalid] at h
      have htext : String.ofByteArray bytes.toByteArray hvalid = .ofList chars :=
        String.toList_injective ((Option.some.inj h).trans String.toList_ofList.symm)
      have hsame : bytes.toByteArray = (chars.flatMap String.utf8EncodeChar).toByteArray :=
        (congrArg String.toByteArray htext).trans (hencode chars).symm
      rw [hbytes, ← List.toList_data_toByteArray (l := bytes), hsame, List.toList_data_toByteArray]
    · rw [dif_neg hvalid] at h
      cases h
  · intro h
    have hvalid : (chars.flatMap String.utf8EncodeChar).toByteArray.IsValidUTF8 :=
      hencode chars ▸ (String.ofList chars).isValidUTF8
    refine ⟨_, h, ?_⟩
    rw [dif_pos hvalid]
    have htext : String.ofByteArray _ hvalid = .ofList chars := String.toByteArray_inj.mp (hencode chars)
    rw [htext, String.toList_ofList]
    rfl

/-! ## Tokens that can be written as they are -/

/-- A token with no escape to read in it, whichever way it is written. -/
structure Plain (token : List Char) : Prop where
  percent : '%' ∉ token
  tilde : '~' ∉ token
  slash : '/' ∉ token

instance : Decidable (Plain token) :=
  decidable_of_iff ('%' ∉ token ∧ '~' ∉ token ∧ '/' ∉ token)
    ⟨fun h => ⟨h.1, h.2.1, h.2.2⟩, fun h => ⟨h.percent, h.tilde, h.slash⟩⟩

/-- The tokens behind slashes, with nothing escaped. -/
def rawText (tokens : List (List Char)) : List Char := tokens.flatMap ('/' :: ·)

theorem Plain.escapeToken_eq (h : Plain token) : escapeToken token = token := by
  have hchar : ∀ c ∈ token,
      (if c = '~' then ['~', '0'] else if c = '/' then ['~', '1'] else [c]) = [c] := by
    intro c hc
    have htilde : c ≠ '~' := fun heq => h.tilde (heq ▸ hc)
    have hslash : c ≠ '/' := fun heq => h.slash (heq ▸ hc)
    rw [if_neg htilde, if_neg hslash]
  rw [escapeToken, List.flatMap_congr hchar]
  exact List.flatMap_singleton' token

theorem plain_of_counts (hpercent : token.count '%' = 0)
    (hescapes : token.count '~' + token.count '/' = 0) : Plain token where
  percent := List.count_eq_zero.mp hpercent
  tilde := List.count_eq_zero.mp (Nat.eq_zero_of_add_eq_zero hescapes).1
  slash := List.count_eq_zero.mp (Nat.eq_zero_of_add_eq_zero hescapes).2

theorem size_text (tokens : List (List Char)) :
    size (text tokens) =
      size (rawText tokens) + (tokens.map fun t => t.count '~' + t.count '/').sum := by
  induction tokens with
  | nil => rfl
  | cons token rest ih =>
      rw [text, List.flatMap_cons, ← text, rawText, List.flatMap_cons, ← rawText, List.map_cons,
        List.sum_cons, size_append, size_append, size_cons, size_cons, size_escapeToken, ih]
      omega

theorem percent_notMem_rawText (h : ∀ t ∈ tokens, Plain t) : '%' ∉ rawText tokens := by
  rw [rawText, List.mem_flatMap]
  intro ⟨t, ht, hmem⟩
  cases hmem with
  | tail _ hmem => exact (h t ht).percent hmem

theorem text_eq_rawText (h : ∀ t ∈ tokens, Plain t) : text tokens = rawText tokens :=
  List.flatMap_congr fun t ht => congrArg ('/' :: ·) (h t ht).escapeToken_eq

/-- Tokens written as they are read back as themselves exactly if they are plain. -/
theorem ofReference_rawText_iff :
    ofReference (.ofList ('#' :: rawText tokens)) = some tokens ↔ ∀ t ∈ tokens, Plain t := by
  have hread : ofReference (.ofList ('#' :: rawText tokens)) =
      (fragment (rawText tokens)).bind parse := by
    rw [ofReference, String.toList_ofList]
    rfl
  rw [hread, Option.bind_eq_some_iff]
  constructor
  · intro ⟨chars, hchars, hparse⟩ t ht
    have hlen := length_percentDecode (fragment_eq_some.mp hchars)
    rw [length_utf8Encode, parse_eq_some.mp hparse, size_text] at hlen
    have hpercent : (rawText tokens).count '%' = 0 := by omega
    have hsum : (tokens.map fun t => t.count '~' + t.count '/').sum = 0 := by omega
    refine plain_of_counts ?_ ?_
    · have hraw := List.count_eq_zero.mp hpercent
      refine List.count_eq_zero.mpr fun hmem => hraw ?_
      exact List.mem_flatMap.mpr ⟨t, ht, List.mem_cons_of_mem _ hmem⟩
    · exact List.sum_eq_zero_iff_forall_eq_nat.mp hsum _ (List.mem_map.mpr ⟨t, ht, rfl⟩)
  · intro h
    refine ⟨rawText tokens, ?_, ?_⟩
    · exact fragment_eq_some.mpr (percentDecode_of_notMem (percent_notMem_rawText h))
    · exact parse_eq_some.mpr (text_eq_rawText h).symm

end JsonPointer

end Nitr
