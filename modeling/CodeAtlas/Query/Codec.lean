import CodeAtlas.Json.Record
import CodeAtlas.Query.Cycles

/-!
# Answers as JSON
-/

namespace CodeAtlas

def SymbolInfo.toJson (s : SymbolInfo) : Json :=
  .object [("fqn", .string s.fqn), ("name", .string s.name), ("kind", .string s.kind.name),
    ("file", .string s.file), ("line", .nat s.line.toNat), ("column", .nat s.column.toNat)]

def EdgeInfo.toJson (e : EdgeInfo) : Json :=
  .object [("edge_type", .string e.type.name), ("source", .string e.source),
    ("target", .string e.target), ("confidence", .float e.confidence), ("file", .string e.file),
    ("line", .nat e.line.toNat), ("dynamic", .bool e.dynamic)]

/-- The written form of the references to a symbol, of which at most `limit` are listed. -/
def References.toJson (r : References) (limit : Nat) : Json :=
  .object [("symbol", r.symbol.toJson), ("count", .nat r.edges.length),
    ("references", .array ((r.edges.take limit).map EdgeInfo.toJson))]

def GraphSize.toJson (s : GraphSize) : Json :=
  .object [("files", .nat s.files), ("symbols", .nat s.symbols),
    ("placeholders", .nat s.placeholders), ("edges", .nat s.edges)]

end CodeAtlas
