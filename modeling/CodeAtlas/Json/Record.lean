import CodeAtlas.Json.Written

/-!
# Records in JSON

Reading values of fixed shape. A record is written as an object, or as the array of its fields in
order. In an object each field of the record stands at most once, and other fields are skipped. A
choice without content is written as its name, or as an object from its name to `null`.
-/

namespace CodeAtlas.Json

/-- What the absence of a field means. -/
inductive Absence where
  /-- The record is refused. -/
  | refused
  /-- The field is `null`; in an array it must be present. -/
  | null
  /-- The field has this value. -/
  | value (default : Json)
  deriving Inhabited

/-- The fields of a record. -/
abbrev Shape := List (String × Absence)

/-- The shape of a record all of whose fields have the values of `defaults` when absent. -/
def shapeOf : (defaults : Json) → Shape
  | .object fields => fields.map fun (k, v) => (k, .value v)
  | _ => []

/-- The object of free-form facts. -/
def ofMetadata (m : Metadata) : Json := .object m.entries

def optString? : Json → Option (Option String)
  | .null => some none
  | .string s => some (some s)
  | _ => none

/-- A natural number below `2 ^ 32`. -/
def word? (j : Json) : Option UInt32 :=
  match j.nat? with
  | some n => if n < UInt32.size then some n.toUInt32 else none
  | none => none

/-- A list of values that `f` reads. -/
def list? {α : Type} (f : Json → Option α) : Json → Option (List α)
  | .array items => items.mapM f
  | _ => none

namespace Written

/-- The only field of a name; its absence means what `absence` says. -/
def onlyField? (fields : List (String × Written)) (name : String) (absence : Absence) :
    Option Written :=
  match fields.filter (·.1 == name), absence with
  | [(_, w)], _ => some w
  | [], .null => some .null
  | [], .value d => some d.written
  | _, _ => none

/-- The fields of an object, in the order of the shape. -/
def fieldsOfObject? (fields : List (Option String × Written)) (shape : Shape) :
    Option (List Written) := do
  let fields ← fields.mapM fun (k, w) => k.map (·, w)
  shape.mapM fun (name, absence) => onlyField? fields name absence

/-- The fields of an array, in order; only fields with default values may be absent. -/
def fieldsOfArray? : List Written → Shape → Option (List Written)
  | _, [] => some []
  | w :: ws, _ :: rest => (fieldsOfArray? ws rest).map (w :: ·)
  | [], (_, .value d) :: rest => (fieldsOfArray? [] rest).map (d.written :: ·)
  | [], _ => none

/-- The fields of a record, in the order of its shape. An array may have more items, which are
skipped. -/
def openRecord? (shape : Shape) : Written → Option (List Written)
  | .object fields => fieldsOfObject? fields shape
  | .array items => fieldsOfArray? items shape
  | _ => none

/-- The fields of a record, in the order of its shape. An array has no more items than the record
has fields. -/
def record? (shape : Shape) (w : Written) : Option (List Written) :=
  match w with
  | .array items => if shape.length < items.length then none else w.openRecord? shape
  | _ => w.openRecord? shape

/-- The name of a choice without content. -/
def choice? : Written → Option String
  | .string name => name
  | .object [(name, .null)] => name
  | _ => none

def string? : Written → Option String
  | .string s => s
  | _ => none

/-- An optional text; absence is `null`. -/
def optString? : Written → Option (Option String)
  | .null => some none
  | .string s => s.map some
  | _ => none

def bool? : Written → Option Bool
  | .bool b => some b
  | _ => none

/-- A natural number below `bound`. -/
def natBelow? (bound : Nat) : Written → Option Nat
  | .number (some (.natural n)) => if n < bound then some n else none
  | _ => none

/-- A natural number below `2 ^ 32`. -/
def word? (w : Written) : Option UInt32 := (w.natBelow? UInt32.size).map Nat.toUInt32

/-- A list of values that `f` reads. -/
def list? {α : Type} (f : Written → Option α) : Written → Option (List α)
  | .array items => items.mapM f
  | _ => none

/-- A map of values that `f` reads; a repeated name takes its last value. -/
def map? {α : Type} (f : Written → Option α) : Written → Option (SortedMap String α)
  | .object fields => do
    let entries ← fields.mapM fun (k, w) => do return (← k, ← f w)
    return SortedMap.ofList entries
  | _ => none

/-- Free-form facts with at most `levels` arrays and objects inside each other. -/
def metadata? (levels : Nat) (w : Written) : Option Metadata :=
  match w.value? levels with
  | some (.object fields) => some (SortedMap.ofList fields)
  | _ => none

end Written

end CodeAtlas.Json
