import CodeAtlas.Edge
import CodeAtlas.Error
import CodeAtlas.FileRecord

/-!
# Batches and stores

A store takes the graph in batches. A batch first retracts all that was written for its files and
then writes what replaces it. A refused batch is offered again a limited number of times.
-/

namespace CodeAtlas

/-- One unit of work for a store (`GraphBatch`). -/
structure Batch where
  /-- Files whose nodes and edges are dropped first. -/
  retract : List String := []
  /-- Nodes that no longer exist. -/
  dropNodes : List SymbolId := []
  nodes : List Symbol := []
  edges : List Edge := []
  deriving Inhabited

namespace Batch

def isEmpty (b : Batch) : Bool :=
  b.retract.isEmpty && b.dropNodes.isEmpty && b.nodes.isEmpty && b.edges.isEmpty

/-- The number of rows that a batch writes or drops one by one (`size`). -/
def size (b : Batch) : Nat := b.nodes.length + b.edges.length + b.dropNodes.length

end Batch

/-- What can hold a graph and the records of its files (`GraphSink`). -/
class Sink (σ : Type) where
  /-- Take a batch, or refuse it as a whole. -/
  write : Batch → σ → Except SinkError Unit × σ
  /-- Remember records and forget removed paths. -/
  save : List FileRecord → List String → σ → Except SinkError Unit × σ

namespace Sink

variable {σ : Type} [Sink σ]

/-- Offer a batch, as attempt number `attempt` (in `write_with_retry`). After a refusal there is
another attempt if the number does not exceed `retries`. -/
def writeFrom (b : Batch) (retries attempt : Nat) (s : σ) : Except AtlasError Nat × σ :=
  match write b s with
  | (.ok (), s) => (.ok attempt, s)
  | (.error e, s) =>
    if attempt ≤ retries then writeFrom b retries (attempt + 1) s
    else (.error (.sinkWriteFailure b.retract.length attempt e), s)
termination_by retries + 1 - attempt

/-- Offer a batch until it is taken, at most `retries` more times (`write_with_retry`). The answer is
the number of attempts. -/
def writeRetrying (b : Batch) (retries : Nat) (s : σ) : Except AtlasError Nat × σ :=
  writeFrom b retries 1 s

end Sink

end CodeAtlas
