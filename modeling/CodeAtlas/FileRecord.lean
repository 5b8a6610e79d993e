import CodeAtlas.Settings.Basic
import CodeAtlas.Sketch.Basic
import CodeAtlas.Timestamp

/-!
# File records

What is remembered of one source file between runs. A file is collected, then resolved once a store
has taken its rows; it is stale when something that it points at has changed, and failed when its
collector gave up.
-/

namespace CodeAtlas

/-- How far a file has come. -/
inductive FileState where
  | unknown
  | collected
  | resolved
  | stale
  | failed
  deriving DecidableEq, Repr, Inhabited

namespace FileState

def name : FileState → String
  | unknown => "unknown"
  | collected => "collected"
  | resolved => "resolved"
  | stale => "stale"
  | failed => "failed"

def ofName? : String → Option FileState
  | "unknown" => some unknown
  | "collected" => some collected
  | "resolved" => some resolved
  | "stale" => some stale
  | "failed" => some failed
  | _ => none

/-- The wording of an unknown name (in `from_str`). -/
def unknownMessage (s : String) : String := "unknown file state '" ++ s ++ "'"

theorem ofName?_name (s : FileState) : ofName? s.name = some s := by
  cases s <;> decide

end FileState

/-- What is remembered of one source file. -/
structure FileRecord where
  path : String
  language : String
  /-- Digest of the content that was last collected. -/
  fingerprint : String
  state : FileState := .unknown
  resolvedAt : Option Timestamp := none
  /-- Place in the order of collections; of two definitions of a name the later one wins. -/
  seq : Nat := 0
  /-- The sketches of the last successful collection. -/
  sketches : Option FileSketch := none
  deriving Inhabited

namespace FileRecord

/-- The record of a removed file whose rows a store still holds (`tombstone`). -/
def tombstone (path : String) : FileRecord :=
  { path, language := "", fingerprint := "", state := .stale }

def isTombstone (r : FileRecord) : Bool :=
  r.sketches.isNone && r.state == .stale && r.path != settingsFile

end FileRecord

end CodeAtlas
