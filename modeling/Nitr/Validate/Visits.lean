import Nitr.Validate.Revalidate

/-! # What a walk visits

The values a walk checks, as a tree: each with its rule, the slot it was put in and the
parts checked on the way. The filename of an upload is a part of the file, and the keys of
a map are parts of it next to the values. -/

namespace Nitr.Validate

/-! ## The tree -/

/-- What a visited value is to the value around it. -/
inductive Role where
  /-- It is put under the key. -/
  | value (key : Key)
  /-- It becomes the key that the next value is put under. -/
  | key (key : Key)
  /-- It is the name of an upload. -/
  | filename

/-- A value checked against a rule, what it was checked to, and its parts in the order in
which they were checked. -/
inductive Visit where
  | mk (rule : Rule) (site : Site) (checked : Value) (parts : List (Role × Visit))

namespace Visit

def rule : Visit → Rule
  | mk rule _ _ _ => rule

def site : Visit → Site
  | mk _ site _ _ => site

def checked : Visit → Value
  | mk _ _ checked _ => checked

def parts : Visit → List (Role × Visit)
  | mk _ _ _ parts => parts

def slot (visit : Visit) : Slot := visit.site.slot

variable {rule : Rule} {site : Site} {checked : Value} {parts : List (Role × Visit)}

@[simp] theorem rule_mk : (mk rule site checked parts).rule = rule := rfl
@[simp] theorem site_mk : (mk rule site checked parts).site = site := rfl
@[simp] theorem checked_mk : (mk rule site checked parts).checked = checked := rfl
@[simp] theorem parts_mk : (mk rule site checked parts).parts = parts := rfl
@[simp] theorem slot_mk : (mk rule site checked parts).slot = site.slot := rfl

end Visit

/-- The table built from the values among the parts, each shown some way. -/
def build (show' : Visit → Value) : List (Role × Visit) → Entries → Entries
  | [], built => built
  | (.value key, visit) :: rest, built => build show' rest (built.set key (show' visit))
  | _ :: rest, built => build show' rest built

theorem build_key (show' : Visit → Value) (key : Key) (visit : Visit)
    (rest : List (Role × Visit)) (built : Entries) :
    build show' ((.key key, visit) :: rest) built = build show' rest built := rfl

/-- The last value put under the key. -/
def lastPart (key : Key) : List (Role × Visit) → Option Visit
  | [] => none
  | (.value key', visit) :: rest =>
    (lastPart key rest).or (if key' = key then some visit else none)
  | _ :: rest => lastPart key rest

/-! ## Visiting -/

/-- What visits a value at a site from the next unused pointer on: the tree, and the pointer
unused after it. -/
abbrev Visitor := Value → Site → ℕ → Visit × ℕ

/-- The parts of an array, from the `i`-th item on. -/
def visitItems (item : Visitor) (site : Site) (out : ℕ) :
    ℕ → List Value → ℕ → List (Role × Visit) × ℕ
  | _, [], n => ([], n)
  | i, v :: vs, n =>
    let first := item v (site.item out i) n
    let rest := visitItems item site out (i + 1) vs first.2
    ((.value (.integer i), first.1) :: rest.1, rest.2)

/-- The key of an entry, checked into a scratch table where the map has a key rule. -/
def visitKey (key : Option Visitor) (site : Site) (k : LuaString) (n : ℕ) :
    LuaString × List (Role × Visit) × ℕ :=
  match key with
  | none => (k, [], n)
  | some visit =>
    let checked := visit (.string k) ((site.entry k).within ⟨n, .integer 1⟩) (n + 1)
    match checked.1.checked with
    | .string k' => (k', [(.key (.string k'), checked.1)], checked.2)
    | _ => (k, [], checked.2)

def visitPairs (key : Option Visitor) (value : Visitor) (site : Site) (out : ℕ) :
    Entries → ℕ → List (Role × Visit) × ℕ
  | [], n => ([], n)
  | (.string k, v) :: rest, n =>
    let checked := visitKey key site k n
    let first := value v ((site.entry k).within ⟨out, .string checked.1⟩) checked.2.2
    let rest := visitPairs key value site out rest first.2
    (checked.2.1 ++ (.value (.string checked.1), first.1) :: rest.1, rest.2)
  | _ :: rest, n => visitPairs key value site out rest n

/-- The name of an upload, checked in a context of its own. -/
def visitName (name : Option Visitor) (info : FileInfo) (n : ℕ) : List (Role × Visit) × ℕ :=
  match name, info.safeFilename with
  | some visit, some text =>
    let checked := visit (.ofString text) (filenameSite n) (n + 1)
    ([(.filename, checked.1)], checked.2)
  | _, _ => ([], n)

mutual

/-- The visits of an accepted value. -/
def Rule.visit (host : Host) : Rule → Visitor
  | ⟨rule, items, fields, keys, values, filename⟩, v, site, n =>
    let whole : Rule := ⟨rule, items, fields, keys, values, filename⟩
    let item : Visitor := match items with
      | some r => r.visit host
      | none => fun v site n => (.mk whole site v [], n)
    let key : Option Visitor := match keys with
      | some r => some (r.visit host)
      | none => none
    let value : Visitor := match values with
      | some r => r.visit host
      | none => fun v site n => (.mk whole site v [], n)
    let name : Option Visitor := match filename with
      | some r => some (r.visit host)
      | none => none
    let table (len : ℕ) (parts : List (Role × Visit) × ℕ) : Visit × ℕ :=
      (.mk whole site (.table n len (build Visit.checked parts.1 [])) parts.1, parts.2)
    match rule.kind, v with
    | .string, .string s =>
      (.mk whole site (.ofString (host.normalise rule s.toStringLossy)) [], n)
    | .array, .table _ len es => table len (visitItems item site n 1 (itemsOf len es) (n + 1))
    | .table, .table _ _ input => table 0 (SchemaDef.visitOption host fields input site.path n)
    | .map, .table _ _ es => table 0 (visitPairs key value site n es (n + 1))
    | .file, .file p info =>
      let parts := visitName name info n
      (.mk whole site (.file p info) parts.1, parts.2)
    | _, v => (.mk whole site v [], n)
  termination_by structural r => r

/-- The fields of a table, put into the table of the pointer. -/
def SchemaDef.visitOption (host : Host) :
    Option SchemaDef → Entries → FieldPath → ℕ → List (Role × Visit) × ℕ
  | none, _, _, n => ([], n)
  | some ⟨fields, options⟩, input, path, n =>
    visitFields host fields options input path n (n + 1)
  termination_by structural s => s

def visitFields (host : Host) :
    List (String × Rule) → SchemaOptions → Entries → FieldPath → ℕ → ℕ →
      List (Role × Visit) × ℕ
  | [], _, _, _, _, n => ([], n)
  | (name, rule) :: rest, owner, input, path, pointer, n =>
    match fieldValue rule.toRuleKeys input name with
    | .nil => visitFields host rest owner input path pointer n
    | value =>
      let first := rule.visit host value (fieldSite owner path pointer name) n
      let rest := visitFields host rest owner input path pointer first.2
      ((.value (.ofString name), first.1) :: rest.1, rest.2)
  termination_by structural f => f

end

/-! ## What a visit defers -/

/-- The custom format of a rule. Only strings have formats. -/
def RuleKeys.customFormat (rule : RuleKeys) : List PendingCheck :=
  match rule.kind, rule.format with
  | .string, some (.custom custom) => [.format custom]
  | _, _ => []

/-- The script checks of one value, in the order in which they are deferred. -/
def RuleKeys.scripts (rule : RuleKeys) : List PendingCheck := rule.customFormat ++ rule.hooks

/-- The schema a table is checked against. -/
def Rule.schema (rule : Rule) : Option SchemaDef :=
  if rule.kind = .table then rule.fields else none

/-- What is deferred for a value itself, after its parts. -/
def ownPending (rule : Rule) (site : Site) (checked : Value) : List Pending :=
  (rule.schema.elim [] fun schema => schemaPending schema checked site.path)
    ++ rule.scripts.map (site.pending rule.toRuleKeys checked)

mutual

/-- Everything deferred on a visit. What the name of an upload defers is dropped. -/
def Visit.pending : Visit → List Pending
  | .mk rule site checked parts => partsPending parts ++ ownPending rule site checked

def partsPending : List (Role × Visit) → List Pending
  | [] => []
  | (.filename, _) :: rest => partsPending rest
  | (_, visit) :: rest => visit.pending ++ partsPending rest

end

/-! ## Where values stand -/

/-- The keys that lead from a table to a value in it. -/
abbrev Place := List Key

/-- The value at a place. -/
def Value.at : Value → Place → Value
  | v, [] => v
  | .table _ _ es, key :: place => (Entries.get es key).at place
  | _, _ :: _ => .nil

/-- Where in the output a visited value belongs: it is the value at a place, or the key of
the value at a place, or no part of the output. -/
inductive Standing where
  | value (place : Place)
  | key (place : Place) (key : Key)
  | filename

def Standing.under (key : Key) : Standing → Standing
  | .value place => .value (key :: place)
  | .key place key' => .key (key :: place) key'
  | .filename => .filename

/-- The visits inside a visit, each with its standing. -/
inductive Visit.Reaches : Visit → Standing → Visit → Prop where
  | here {visit : Visit} : Reaches visit (.value []) visit
  | value {visit part x : Visit} {key : Key} {standing : Standing}
      (mem : (.value key, part) ∈ visit.parts) (inside : Reaches part standing x) :
      Reaches visit (standing.under key) x
  | key {visit x : Visit} {key : Key} (mem : (.key key, x) ∈ visit.parts) :
      Reaches visit (.key [] key) x
  | filename {visit x : Visit} (mem : (.filename, x) ∈ visit.parts) : Reaches visit .filename x

/-- The visit that a place is left to: on the way no later value was put under the same
key. -/
inductive Visit.Keeps (visit : Visit) : Place → Visit → Prop where
  | here : Keeps visit [] visit
  | value {place : Place} {around x : Visit} {key : Key} (outside : Keeps visit place around)
      (last : lastPart key around.parts = some x) : Keeps visit (place ++ [key]) x

end Nitr.Validate
