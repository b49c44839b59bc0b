/-!
# What an instruction uses

A `Mention` is one use of a name or constant by its name before renaming. A `Usage` collects
mentions in four lists, each in the order of first mention and without repetition.
-/

namespace InstrGraph

/-- One use of a global, an aggregate type, a callee or a constant. -/
inductive Mention where
  | global (name : String)
  | struct (name : String)
  | call (name : String)
  | constant (value : String)
  deriving DecidableEq, Repr

/-- Append a value unless the list has it. -/
def pushUnique (xs : List String) (x : String) : List String :=
  if xs.contains x then xs else xs ++ [x]

/-- Append the values that the list does not have yet, in order. -/
def pushAll (xs ys : List String) : List String := ys.foldl pushUnique xs

/-- The names after a push are those before it and the new one. -/
theorem mem_pushUnique {xs : List String} {x y : String} :
    y ∈ pushUnique xs x ↔ y ∈ xs ∨ y = x := by
  unfold pushUnique
  split
  · rename_i h
    constructor
    · exact Or.inl
    · rintro (hy | rfl)
      · exact hy
      · simpa using h
  · simp

/-- Pushing a name keeps the names different. -/
theorem nodup_pushUnique {xs : List String} (h : xs.Nodup) (x : String) :
    (pushUnique xs x).Nodup := by
  unfold pushUnique
  split
  · exact h
  · rename_i hx
    simp only [List.nodup_append, h, List.nodup_cons, List.not_mem_nil, not_false_eq_true,
      List.nodup_nil, and_self, true_and]
    intro a ha b hb
    simp only [List.mem_singleton] at hb
    subst hb
    rintro rfl
    exact hx (by simpa using ha)

/-- The symbols and constants that an instruction mentions. -/
structure Usage where
  globals : List String := []
  structs : List String := []
  calls : List String := []
  constants : List String := []
  deriving DecidableEq, Repr

namespace Usage

/-- Nothing is mentioned. -/
def isEmpty (u : Usage) : Bool :=
  u.globals.isEmpty && u.structs.isEmpty && u.calls.isEmpty && u.constants.isEmpty

/-- Note one mention. -/
def record (u : Usage) : Mention → Usage
  | .global n => { u with globals := pushUnique u.globals n }
  | .struct n => { u with structs := pushUnique u.structs n }
  | .call n => { u with calls := pushUnique u.calls n }
  | .constant v => { u with constants := pushUnique u.constants v }

/-- Note mentions in order. -/
def recordAll (u : Usage) (ms : List Mention) : Usage := ms.foldl record u

/-- Everything of another usage that is not there yet, behind what is there. -/
def merge (u v : Usage) : Usage where
  globals := pushAll u.globals v.globals
  structs := pushAll u.structs v.structs
  calls := pushAll u.calls v.calls
  constants := pushAll u.constants v.constants

end Usage

end InstrGraph
