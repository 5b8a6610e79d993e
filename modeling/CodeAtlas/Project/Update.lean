import CodeAtlas.Project.Flush

/-!
# Runs

A run brings the graph up to date with a list of changes. It touches the changed files, every file
with an edge to one of their old or new symbols, and every file that points at a name which they now
define; and what earlier runs left unfinished.
-/

namespace CodeAtlas.Controller

variable {σ : Type} [Sink σ]

/-- Run over changes (`run`); a full run also computes the edges of the settings. -/
def run (k : Conditions) (changes : List FileChange) (full : Bool) (c : Controller σ) :
    Except (Halt σ) (RunReport × Controller σ) := do
  let (r, due) := ((Run.start c full).checkSettings k.now).takeChanges changes
  let r ← r.collect k due
  let (resolved, r) ← r.resolve k
  let (enriched, r) ← r.enrich k resolved
  let (finished, r) ← r.settle enriched
  let r ← (finished.foldl Run.markReady r).tidy
  let (unretracted, r) := r.flush k.now finished
  return (r.saveRecords unretracted).conclude finished

/-- Apply a list of changes (`apply`). -/
def apply (k : Conditions) (changes : List FileChange) (c : Controller σ) :
    Except (Halt σ) (RunReport × Controller σ) :=
  c.run k changes false

end CodeAtlas.Controller
