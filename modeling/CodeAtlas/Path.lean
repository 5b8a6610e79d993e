import CodeAtlas.Text.Split

/-!
# Paths

Paths are texts with slashes between their parts. Empty parts and points count for nothing, except
for a point at the very beginning; a leading slash is a part of its own.
-/

namespace CodeAtlas.Path

def parts (path : String) : List String :=
  let segments := Text.split '/' path
  let isPart (s : String) : Bool := s != "" && s != "."
  match segments with
  | "" :: _ :: _ => "/" :: segments.filter isPart
  | "." :: rest => "." :: rest.filter isPart
  | _ => segments.filter isPart

def ofParts (parts : List String) : String := "/".intercalate parts

/-- What follows the parts of a first path in a second, if it lies below. -/
def below? : List String → List String → Option (List String)
  | [], rest => some rest
  | _ :: _, [] => none
  | a :: root, b :: path => if a == b then below? root path else none

/-- A path as seen from a root (`relative_path`); a path that does not lie below the root stays
whole. -/
def relativeTo (root path : String) : String :=
  ofParts ((below? (parts root) (parts path)).getD (parts path))

/-- A path that is read from a folder, unless it begins at the top. -/
def join (folder path : String) : String :=
  if Text.hasPrefix "/" path || folder.isEmpty then path
  else if Text.hasSuffix "/" folder then folder ++ path
  else folder ++ "/" ++ path

/-- The short form of a path inside a project (`normalize`). -/
def normalize (path : String) : String := ofParts (parts (Text.trimPrefix "./" path))

/-- The path of the folder that a path leads through last. -/
def parent (path : String) : String :=
  let isEmptyPart (s : String) : Bool := s == "" || s == "."
  let above := (((Text.split '/' path).reverse.dropWhile isEmptyPart).drop 1).dropWhile isEmptyPart
  if above.isEmpty && Text.hasPrefix "/" path then "/" else ofParts above.reverse

def fileName? (path : String) : Option String :=
  (parts path).getLast?.filter fun s => s != "/" && s != "." && s != ".."

/-- What follows the last point in the name of a file, unless that point begins the name. -/
def extension? (path : String) : Option String :=
  (fileName? path).bind fun name =>
    match (Text.split '.' name).reverse with
    | last :: before => if before.isEmpty || before == [""] then none else some last
    | [] => none

end CodeAtlas.Path
