import CodeAtlas.Store.Batch

/-!
# An unreliable store

A store that refuses the next few batches for a given reason and is otherwise the store inside it.
-/

namespace CodeAtlas

/-- A store with batches still to be refused. -/
structure Unreliable (σ : Type) where
  store : σ
  /-- Why batches are refused. -/
  reason : SinkError
  /-- The number of batches still to be refused. -/
  rejections : Nat := 0
  deriving Inhabited

instance {σ : Type} [Sink σ] : Sink (Unreliable σ) where
  write b s :=
    match s.rejections with
    | n + 1 => (.error s.reason, { s with rejections := n })
    | 0 =>
      let (r, store) := Sink.write b s.store
      (r, { s with store })
  save records removed s :=
    let (r, store) := Sink.save records removed s.store
    (r, { s with store })

end CodeAtlas
