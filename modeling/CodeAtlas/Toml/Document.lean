import CodeAtlas.Json.Basic

/-!
# TOML documents

A document is built from its lines: table headers, headers of table elements, and entries. A table
is opened at most once by a header; dotted keys open tables of their own, which only further dotted
keys of the same table may extend. `Document.toJson` forgets how the tables were opened.
-/

namespace CodeAtlas.Toml

/-- How a table came to be. -/
inductive Opening where
  | header
  /-- Only as part of the path of another table. -/
  | path
  | dottedKey
  deriving DecidableEq, Repr, Inhabited

/-- What a key stands for. -/
inductive Item where
  | value (v : Json)
  | table (opening : Opening) (items : List (String × Item))
  /-- The elements of an array of tables. -/
  | tables (elements : List (List (String × Item)))
  deriving Inhabited

/-- The items of a table. -/
abbrev Items := List (String × Item)

/-- One line of a document. -/
inductive Line where
  /-- `[path]` -/
  | table (path : List String) (key : String)
  /-- `[[path]]` -/
  | element (path : List String) (key : String)
  /-- `path = value` -/
  | entry (path : List String) (key : String) (v : Json)
  deriving Inhabited

namespace Items

def find? (items : Items) (key : String) : Option Item := List.lookup key items

/-- Set the item of a key. -/
def put (items : Items) (key : String) (item : Item) : Items :=
  if (items.find? key).isSome then
    items.map fun (k, x) => if k == key then (k, item) else (k, x)
  else items ++ [(key, item)]

/-- Apply `f` to the table at a path, which is opened where it does not exist. In an array of tables
the last element counts. -/
def descend (dotted : Bool) (f : Opening → Items → Option Items) :
    List String → Opening → Items → Option Items
  | [], opening, items => f opening items
  | key :: rest, _, items =>
    match items.find? key with
    | none =>
      let opening := if dotted then .dottedKey else .path
      (descend dotted f rest opening []).map fun inner => items.put key (.table opening inner)
    | some (.value _) => none
    | some (.table opening inner) =>
      if dotted && opening == .header then none
      else (descend dotted f rest opening inner).map fun inner =>
        items.put key (.table opening inner)
    | some (.tables elements) =>
      match elements.reverse with
      | [] => none
      | last :: before =>
        (descend dotted f rest .header last).map fun last =>
          items.put key (.tables (before.reverse ++ [last]))

/-- Add an entry with a key of several parts. -/
def addEntry (path : List String) (key : String) (v : Item) (items : Items) : Option Items :=
  descend true (fun opening inner =>
    if (inner.find? key).isSome || (!path.isEmpty && opening != .dottedKey) then none
    else some (inner.put key v)) path .header items

/-- Open a table by a header. -/
def openTable (path : List String) (key : String) (items : Items) : Option Items :=
  descend false (fun _ inner =>
    match inner.find? key with
    | none => some (inner.put key (.table .header []))
    | some (.table .path x) => some (inner.put key (.table .header x))
    | some _ => none) path .header items

/-- Add an element to an array of tables. -/
def openElement (path : List String) (key : String) (items : Items) : Option Items :=
  descend false (fun _ inner =>
    match inner.find? key with
    | none => some (inner.put key (.tables [[]]))
    | some (.tables elements) => some (inner.put key (.tables (elements ++ [[]])))
    | some _ => none) path .header items

end Items

mutual

/-- The value of an item. -/
def Item.toJson : Item → Json
  | .value v => v
  | .table _ items => .object (itemsToJson items)
  | .tables elements => .array (elementsToJson elements)

def itemsToJson : List (String × Item) → List (String × Json)
  | [] => []
  | (k, x) :: rest => (k, x.toJson) :: itemsToJson rest

def elementsToJson : List (List (String × Item)) → List Json
  | [] => []
  | x :: rest => .object (itemsToJson x) :: elementsToJson rest

end

/-- A document, and the table that entries go to. -/
structure Document where
  items : Items := []
  current : List String := []
  deriving Inhabited

namespace Document

def add (d : Document) : Line → Option Document
  | .table path key => (d.items.openTable path key).map (⟨·, path ++ [key]⟩)
  | .element path key => (d.items.openElement path key).map (⟨·, path ++ [key]⟩)
  | .entry path key v =>
    (Items.descend false (fun _ inner => inner.addEntry path key (.value v)) d.current .header
      d.items).map (⟨·, d.current⟩)

/-- The document of some lines. -/
def ofLines? (lines : List Line) : Option Document := lines.foldlM add {}

def toJson (d : Document) : Json := .object (itemsToJson d.items)

end Document

end CodeAtlas.Toml
