import CodeAtlas.Digest
import CodeAtlas.Path
import CodeAtlas.Sketch.Basic
import CodeAtlas.Task

/-!
# Collectors

A collector turns the text of one file into sketches. The registry knows which collector reads which
language and which file extensions belong to it.
-/

namespace CodeAtlas

structure SourceFile where
  /-- Path relative to the project. -/
  path : String
  language : String
  content : String
  /-- Digest of the content. -/
  fingerprint : String
  deriving DecidableEq, Repr, Inhabited

def SourceFile.ofContent (path language content : String) : SourceFile :=
  { path, language, content, fingerprint := Digest.ofString content }

/-- What reads the files of one language (`LanguageCollector`). -/
structure Collector where
  language : String
  /-- File extensions, with their points. -/
  extensions : List String
  /-- What stands between the segments of a name. -/
  separator : String := "."
  /-- The sketches of a file with a path and a content. -/
  collect : String → String → Attempt FileSketch

/-- The known collectors (`LanguageRegistry`). -/
structure Registry where
  collectors : List Collector := []

namespace Registry

/-- Add a collector (`register`); it replaces one for the same language. -/
def register (r : Registry) (c : Collector) : Registry :=
  ⟨(r.collectors.filter fun x => x.language != c.language) ++ [c]⟩

def get? (r : Registry) (language : String) : Option Collector :=
  r.collectors.find? fun c => c.language == language

/-- The collector of a file extension, written with or without its point (`get_by_extension`). -/
def byExtension? (r : Registry) (extension : String) : Option Collector :=
  let ext := if Text.hasPrefix "." extension then extension else "." ++ extension
  r.collectors.find? fun c => c.extensions.contains ext

/-- The collector of a file, by its extension (`for_path`). -/
def forPath? (r : Registry) (path : String) : Option Collector :=
  (Path.extension? path).bind r.byExtension?

/-- Collect a source file (`parse_file`). -/
def collect (r : Registry) (s : SourceFile) : Attempt FileSketch :=
  match r.get? s.language with
  | none => .refused (.unsupportedLanguage s.language)
  | some c =>
    let a := c.collect s.path s.content
    match a.outcome with
    | .failed reasons =>
      { a with outcome := .refused (.parseFailure s.path (": ".intercalate reasons)) }
    | _ => a

end Registry

end CodeAtlas
