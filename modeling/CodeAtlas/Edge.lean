import CodeAtlas.Symbol

/-!
# Edges

A directed, typed and scored relationship between two symbols. An edge is owned by the file whose
syntax produced it: resolving that file again replaces the edge.
-/

namespace CodeAtlas

/-- Relationship between two symbols. -/
inductive EdgeType where
  | extendsType
  | implements
  | usesMixin
  | calls
  | callsStatic
  | instantiates
  | imports
  | throws
  | reads
  | writes
  | returnsType
  | acceptsType
  | injects
  | emits
  | listens
  | routesTo
  deriving DecidableEq, Repr, Inhabited

namespace EdgeType

def name : EdgeType → String
  | extendsType => "EXTENDS"
  | implements => "IMPLEMENTS"
  | usesMixin => "USES_MIXIN"
  | calls => "CALLS"
  | callsStatic => "CALLS_STATIC"
  | instantiates => "INSTANTIATES"
  | imports => "IMPORTS"
  | throws => "THROWS"
  | reads => "READS"
  | writes => "WRITES"
  | returnsType => "RETURNS_TYPE"
  | acceptsType => "ACCEPTS_TYPE"
  | injects => "INJECTS"
  | emits => "EMITS"
  | listens => "LISTENS"
  | routesTo => "ROUTES_TO"

def ofName? : String → Option EdgeType
  | "EXTENDS" => some extendsType
  | "IMPLEMENTS" => some implements
  | "USES_MIXIN" => some usesMixin
  | "CALLS" => some calls
  | "CALLS_STATIC" => some callsStatic
  | "INSTANTIATES" => some instantiates
  | "IMPORTS" => some imports
  | "THROWS" => some throws
  | "READS" => some reads
  | "WRITES" => some writes
  | "RETURNS_TYPE" => some returnsType
  | "ACCEPTS_TYPE" => some acceptsType
  | "INJECTS" => some injects
  | "EMITS" => some emits
  | "LISTENS" => some listens
  | "ROUTES_TO" => some routesTo
  | _ => none

/-- The position of a type in sorting order. -/
def rank : EdgeType → Nat
  | extendsType => 0
  | implements => 1
  | usesMixin => 2
  | calls => 3
  | callsStatic => 4
  | instantiates => 5
  | imports => 6
  | throws => 7
  | reads => 8
  | writes => 9
  | returnsType => 10
  | acceptsType => 11
  | injects => 12
  | emits => 13
  | listens => 14
  | routesTo => 15

/-- The types that form the type hierarchy (`is_hierarchy`). -/
def isHierarchy : EdgeType → Bool
  | extendsType | implements | usesMixin => true
  | _ => false

/-- The complaint about a name that no type has (in `from_str`). -/
def unknownMessage (s : String) : String := "unknown edge type '" ++ s ++ "'"

end EdgeType

/-- A directed, typed and scored relationship. -/
structure Edge where
  type : EdgeType
  source : SymbolId
  target : SymbolId
  /-- How sure the resolution is, from `0` to `1`. -/
  confidence : Float
  /-- File whose syntax produced the edge. -/
  owner : String
  line : UInt32
  metadata : Metadata := ∅
  deriving Repr, BEq, Inhabited

namespace Edge

/-- A score limited to the interval from `0` to `1`. -/
def clamp (x : Float) : Float := if x < 0 then 0 else if 1 < x then 1 else x

/-- An edge without metadata, its score limited to the interval from `0` to `1` (`Edge::new`). -/
def ofScore (type : EdgeType) (source target : SymbolId) (confidence : Float) (owner : String)
    (line : UInt32) : Edge :=
  { type, source, target, confidence := clamp confidence, owner, line }

/-- Attach one fact (`with_meta`). -/
def withMeta (e : Edge) (key : String) (value : Json) : Edge :=
  { e with metadata := e.metadata.insert key value }

/-- Whether the target was guessed rather than resolved (`is_dynamic`). -/
def isDynamic (e : Edge) : Bool :=
  match e.metadata.get? "dynamic" with
  | some (.bool b) => b
  | _ => false

/-- The order of the edges of a file (`sort_key`): by line, type, source and target. -/
def order (a b : Edge) : Ordering :=
  (compare a.line b.line).then <| (compare a.type.rank b.type.rank).then <|
    (compare a.source b.source).then (compare a.target b.target)

/-- Whether `a` may stand before `b`. -/
def atMost (a b : Edge) : Bool := order a b != .gt

/-- Edges in order; edges that the order does not tell apart keep their places. -/
def sort (edges : List Edge) : List Edge := edges.mergeSort atMost

end Edge

end CodeAtlas
