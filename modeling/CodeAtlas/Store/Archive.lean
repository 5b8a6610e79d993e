import CodeAtlas.Store.Database

/-!
# Databases as text

The written form of a database: one JSON object with its three tables. Numbers with a fraction are
written by their bits, so that they are read back exactly.
-/

namespace CodeAtlas

def FileRow.toJson (r : FileRow) : Json :=
  .array [.string r.path, .string r.language, .string r.contentHash, .string r.state,
    .optString r.resolvedAt, .int r.seq.toInt, .optString r.sketches]

def FileRow.ofJson? : Json → Option FileRow
  | .array [.string path, .string language, .string contentHash, .string state, resolvedAt,
      .number seq, sketches] => do
    let resolvedAt ← Json.optString? resolvedAt
    let sketches ← Json.optString? sketches
    let seq ← match seq with
      | .natural n => some (Int64.ofNat n)
      | .negative n => some (Int64.ofInt n)
      | .float _ => none
    return { path, language, contentHash, state, resolvedAt, seq, sketches }
  | _ => none

def NodeRow.toJson (r : NodeRow) : Json :=
  .array [.string r.id, .string r.fqn, .string r.name, .string r.kind, .string r.file,
    .nat r.line.toNat, .nat r.column.toNat, .optString r.moduleName, .bool r.exported,
    .string r.metadata]

def NodeRow.ofJson? : Json → Option NodeRow
  | .array [.string id, .string fqn, .string name, .string kind, .string file, line, column,
      moduleName, .bool exported, .string metadata] => do
    let line ← Json.word? line
    let column ← Json.word? column
    let moduleName ← Json.optString? moduleName
    return { id, fqn, name, kind, file, line, column, moduleName, exported, metadata }
  | _ => none

def EdgeRow.toJson (r : EdgeRow) : Json :=
  .array [.string r.owner, .string r.edgeType, .string r.source, .string r.target,
    .nat r.confidence.toBits.toNat, .nat r.line.toNat, .string r.metadata]

def EdgeRow.ofJson? : Json → Option EdgeRow
  | .array [.string owner, .string edgeType, .string source, .string target, confidence, line,
      .string metadata] => do
    let confidence ← confidence.nat?
    let line ← Json.word? line
    return { owner, edgeType, source, target, confidence := .ofBits confidence.toUInt64, line
             metadata }
  | _ => none

namespace Database

def render (d : Database) : String :=
  (Json.object [("tables", .bool d.hasTables),
    ("files", .array (d.files.values.map FileRow.toJson)),
    ("nodes", .array (d.nodes.map NodeRow.toJson)),
    ("edges", .array (d.edges.map EdgeRow.toJson))]).compact

def parse? (s : String) : Option Database := do
  let j ← Json.parse? s
  let hasTables ← (j.field? "tables").bind Json.bool?
  let files ← (j.field? "files").bind (Json.list? FileRow.ofJson?)
  let nodes ← (j.field? "nodes").bind (Json.list? NodeRow.ofJson?)
  let edges ← (j.field? "edges").bind (Json.list? EdgeRow.ofJson?)
  return { hasTables, files := .ofList (files.map fun r => (r.path, r)), nodes, edges }

end Database

end CodeAtlas
