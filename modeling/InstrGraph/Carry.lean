/-!
# Working through a list with a state

Each item of a list is worked on in the state that the items before it leave behind.
-/

namespace InstrGraph

/-- Apply a function to the items of a list, carrying a state from each to the next. -/
def mapCarry {α β σ : Type} (f : σ → α → β × σ) : σ → List α → List β × σ
  | s, [] => ([], s)
  | s, a :: as =>
    let (b, s) := f s a
    let (bs, s) := mapCarry f s as
    (b :: bs, s)

/-- Apply a function to the items of a list in another order, given by their positions, and collect
the results in the order of the items. -/
def mapCarryIn {α β σ : Type} (order : List Nat) (f : σ → α → β × σ) (s : σ) (items : List α) :
    List β × σ :=
  let todo := order.filterMap fun i => (items[i]?).map fun a => (i, a)
  let step (s : σ) (item : Nat × α) : (Nat × β) × σ :=
    let (b, s) := f s item.2
    ((item.1, b), s)
  let (done, s) := mapCarry step s todo
  ((List.range items.length).filterMap fun i => done.lookup i, s)

end InstrGraph
