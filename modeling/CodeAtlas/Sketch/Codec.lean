import CodeAtlas.Json.Record
import CodeAtlas.Sketch.Basic

/-!
# Sketches as JSON

The written form of sketches, as stored between runs: every field is written, in a fixed order. A
reader takes fields in any order.
-/

namespace CodeAtlas

open Json

/-- The number of a line or column. -/
def Json.ofWord (w : UInt32) : Json := .nat w.toNat

/-- The levels left for the facts of a definition or reference, which stands in a list in the object
of its file. -/
def factLevels : Nat := maxLevels - 3

namespace SymbolSketch

def toJson (s : SymbolSketch) : Json :=
  .object [("name", .string s.name), ("parent", .optString s.parent),
    ("kind", .string s.kind.name), ("line", ofWord s.line), ("column", ofWord s.column),
    ("exported", .bool s.exported), ("metadata", ofMetadata s.metadata)]

def ofWritten? (w : Written) : Option SymbolSketch := do
  match ← w.record? [("name", .refused), ("parent", .null), ("kind", .refused),
      ("line", .refused), ("column", .refused), ("exported", .refused),
      ("metadata", .value (.object []))] with
  | [name, parent, kind, line, column, exported, facts] =>
    return {
      name := ← name.string?, parent := ← parent.optString?
      kind := ← SymbolKind.ofName? (← kind.choice?)
      line := ← line.word?, column := ← column.word?, exported := ← exported.bool?
      metadata := ← facts.metadata? factLevels }
  | _ => none

end SymbolSketch

namespace ImportSketch

def toJson (i : ImportSketch) : Json :=
  .object [("target", .string i.target), ("alias", .optString i.localName),
    ("wildcard", .bool i.wildcard), ("line", ofWord i.line)]

def ofWritten? (w : Written) : Option ImportSketch := do
  match ← w.record? [("target", .refused), ("alias", .null), ("wildcard", .refused),
      ("line", .refused)] with
  | [target, localName, wildcard, line] =>
    return {
      target := ← target.string?, localName := ← localName.optString?
      wildcard := ← wildcard.bool?, line := ← line.word? }
  | _ => none

end ImportSketch

namespace Receiver

def toJson : Receiver → Json
  | unqualified => .object [("kind", .string "none")]
  | selfRef => .object [("kind", .string "self_ref")]
  | typeName name => .object [("kind", .string "type"), ("name", .string name)]
  | expression text => .object [("kind", .string "expression"), ("name", .string text)]

def ofWritten? (w : Written) : Option Receiver := do
  match ← w.record? [("kind", .refused), ("name", .null)] with
  | [kind, name] =>
    match ← kind.choice?, name with
    | "none", .null => some unqualified
    | "self_ref", .null => some selfRef
    | "type", name => name.string?.map typeName
    | "expression", text => text.string?.map expression
    | _, _ => none
  | _ => none

end Receiver

namespace Target

def toJson : Target → Json
  | name s => .object [("kind", .string "name"), ("value", .string s)]
  | viaVariable s => .object [("kind", .string "variable"), ("value", .string s)]
  | dynamic s => .object [("kind", .string "dynamic"), ("value", .string s)]

def ofWritten? (w : Written) : Option Target := do
  match ← w.record? [("kind", .refused), ("value", .refused)] with
  | [kind, value] =>
    let s ← value.string?
    match ← kind.choice? with
    | "name" => some (name s)
    | "variable" => some (viaVariable s)
    | "dynamic" => some (dynamic s)
    | _ => none
  | _ => none

end Target

namespace ReferenceSketch

def toJson (r : ReferenceSketch) : Json :=
  .object [("kind", .string r.kind.name), ("target", r.target.toJson),
    ("from", .optString r.source), ("receiver", r.receiver.toJson), ("line", ofWord r.line),
    ("column", ofWord r.column), ("extra", ofMetadata r.extra)]

def ofWritten? (w : Written) : Option ReferenceSketch := do
  match ← w.record? [("kind", .refused), ("target", .refused), ("from", .null),
      ("receiver", .value Receiver.unqualified.toJson), ("line", .refused),
      ("column", .refused), ("extra", .value (.object []))] with
  | [kind, target, source, receiver, line, column, extra] =>
    return {
      kind := ← ReferenceKind.ofName? (← kind.choice?), target := ← Target.ofWritten? target
      source := ← source.optString?, receiver := ← Receiver.ofWritten? receiver
      line := ← line.word?, column := ← column.word?, extra := ← extra.metadata? factLevels }
  | _ => none

end ReferenceSketch

namespace LiteralAssignment

def toJson (a : LiteralAssignment) : Json :=
  .object [("scope", .optString a.scope), ("variable", .string a.name),
    ("literal", .string a.literal), ("line", ofWord a.line)]

def ofWritten? (w : Written) : Option LiteralAssignment := do
  match ← w.record? [("scope", .null), ("variable", .refused), ("literal", .refused),
      ("line", .refused)] with
  | [scope, name, literal, line] =>
    return {
      scope := ← scope.optString?, name := ← name.string?, literal := ← literal.string?
      line := ← line.word? }
  | _ => none

end LiteralAssignment

namespace ParseIssue

def toJson (i : ParseIssue) : Json :=
  .object [("line", ofWord i.line), ("column", ofWord i.column), ("message", .string i.message)]

def ofWritten? (w : Written) : Option ParseIssue := do
  match ← w.record? [("line", .refused), ("column", .refused), ("message", .refused)] with
  | [line, column, message] =>
    return { line := ← line.word?, column := ← column.word?, message := ← message.string? }
  | _ => none

end ParseIssue

namespace FileSketch

def toJson (f : FileSketch) : Json :=
  .object [("path", .string f.path), ("language", .string f.language),
    ("namespace", .optString f.moduleName), ("separator", .string f.separator),
    ("symbols", .array (f.symbols.map SymbolSketch.toJson)),
    ("imports", .array (f.imports.map ImportSketch.toJson)),
    ("references", .array (f.references.map ReferenceSketch.toJson)),
    ("assignments", .array (f.assignments.map LiteralAssignment.toJson)),
    ("parse_errors", .array (f.issues.map ParseIssue.toJson))]

def ofWritten? (w : Written) : Option FileSketch := do
  match ← w.record? [("path", .refused), ("language", .refused), ("namespace", .null),
      ("separator", .refused), ("symbols", .refused), ("imports", .refused),
      ("references", .refused), ("assignments", .refused), ("parse_errors", .refused)] with
  | [path, language, ns, separator, symbols, imports, references, assignments, issues] =>
    return {
      path := ← path.string?, language := ← language.string?, moduleName := ← ns.optString?
      separator := ← separator.string?
      symbols := ← symbols.list? SymbolSketch.ofWritten?
      imports := ← imports.list? ImportSketch.ofWritten?
      references := ← references.list? ReferenceSketch.ofWritten?
      assignments := ← assignments.list? LiteralAssignment.ofWritten?
      issues := ← issues.list? ParseIssue.ofWritten? }
  | _ => none

end FileSketch

end CodeAtlas
