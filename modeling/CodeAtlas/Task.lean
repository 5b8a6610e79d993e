import CodeAtlas.Error
import CodeAtlas.Text.Quoted

/-!
# Work on files

A run works through files, several at a time. An `Attempt` is what one piece of work came to: its
outcome, the time it took, and how it stands to the cancellation of the run. `runAll` judges every
attempt by the time limit; once the run is cancelled, only work that has begun before counts.
-/

namespace CodeAtlas

/-- How a piece of work ended. -/
inductive Outcome (α : Type) where
  | done (value : α)
  /-- An error of the graph itself. -/
  | refused (error : AtlasError)
  /-- Any other error; the outer reason stands first. -/
  | failed (reasons : List String)
  /-- The work broke down. -/
  | brokeDown (message : String)
  deriving Repr, Inhabited

/-- What a piece of work came to. -/
structure Attempt (α : Type) where
  outcome : Outcome α
  /-- Milliseconds that the work took. -/
  elapsed : Nat := 0
  /-- Whether the run was cancelled meanwhile. -/
  cancels : Bool := false
  /-- Whether the work began before the run was cancelled during that on an earlier file. -/
  begun : Bool := false
  deriving Repr, Inhabited

namespace Attempt

/-- Work that succeeds at once. -/
def done {α : Type} (value : α) : Attempt α := { outcome := .done value }

/-- Work that fails at once. -/
def failed {α : Type} (reasons : List String) : Attempt α := { outcome := .failed reasons }

/-- Work that fails at once with an error of the graph. -/
def refused {α : Type} (error : AtlasError) : Attempt α := { outcome := .refused error }

/-- Work that breaks down at once. -/
def brokeDown {α : Type} (message : String) : Attempt α := { outcome := .brokeDown message }

/-- Go on with `f` after success. -/
def andThen {α β : Type} (a : Attempt α) (f : α → Attempt β) : Attempt β :=
  match a.outcome with
  | .done value =>
    let b := f value
    { a with
      outcome := b.outcome, elapsed := a.elapsed + b.elapsed, cancels := a.cancels || b.cancels }
  | .refused e => { a with outcome := .refused e }
  | .failed reasons => { a with outcome := .failed reasons }
  | .brokeDown m => { a with outcome := .brokeDown m }

/-- Work on a state that starts only if something before it succeeds. -/
def before {α σ : Type} (a : Attempt Unit) (work : σ → Attempt α × σ) (s : σ) : Attempt α × σ :=
  match a.outcome with
  | .done () =>
    let (b, s) := work s
    (a.andThen fun _ => b, s)
  | _ => (a.andThen fun _ => .failed [], s)

end Attempt

/-- How a piece of work counts (`TaskOutcome`). -/
inductive TaskResult (α : Type) where
  | done (value : α)
  | failed (error : AtlasError)
  | timedOut
  | cancelled
  deriving Repr, Inhabited

def TaskResult.isDone {α : Type} : TaskResult α → Bool
  | .done _ => true
  | _ => false

def breakdownMessage (message : String) : String :=
  "task N panicked with message " ++ Text.quote message

/-- How an attempt counts for a file under a time limit in milliseconds (in `WorkerPool::run`). -/
def Attempt.judge {α : Type} (a : Attempt α) (path : String) (limit : Nat) : TaskResult α :=
  if a.cancels then .cancelled
  else if limit < a.elapsed then .timedOut
  else
    match a.outcome with
    | .done value => .done value
    | .refused e => .failed e
    | .failed reasons => .failed (.taskFailed path (": ".intercalate reasons))
    | .brokeDown m => .failed (.taskPanicked path (breakdownMessage m))

/-- The state of a run between two pieces of work. -/
structure Shift (σ : Type) where
  state : σ
  /-- Whether the run was cancelled before there was any work. -/
  closed : Bool := false
  cancelled : Bool := closed
  deriving Inhabited

/-- Do one piece of work, unless the run is cancelled before it begins (in `WorkerPool::run`). -/
def Shift.perform {σ ι α : Type} (limit : Nat) (work : ι → σ → Attempt α × σ) (path : String)
    (item : ι) (s : Shift σ) : TaskResult α × Shift σ :=
  let (a, state) := work item s.state
  if s.closed || (s.cancelled && !a.begun) then (.cancelled, s)
  else (a.judge path limit, { s with state, cancelled := s.cancelled || a.cancels })

/-- Work through the items; the results come in order (`WorkerPool::run`). -/
def runAll {σ ι α : Type} (limit : Nat) (work : ι → σ → Attempt α × σ) :
    List (String × ι) → Shift σ → List (String × TaskResult α) × Shift σ
  | [], s => ([], s)
  | (path, item) :: rest, s =>
    let (r, s) := s.perform limit work path item
    let (rs, s) := runAll limit work rest s
    ((path, r) :: rs, s)

end CodeAtlas
