import InstrGraph.Proofs.Yaml.Scan
import InstrGraph.Yaml.Node

/-!
# A written record is read back

The tokens of a record are read as a mapping of its fields, in their order, without anchors and
tags. So the text of a record stands for that mapping (`read?_write`).
-/

namespace InstrGraph.Yaml

/-- The node of a word. -/
def wordNode (w : String) : Node := .scalar .plain none w

mutual

/-- The node that a value is read as. -/
def valueNode : Value → Node
  | .word w => wordNode w
  | .text s => .scalar (textStyle s) none s
  | .words ws => .sequence (ws.map wordNode)
  | .record fs => .mapping (fieldNodes fs)

/-- The pairs that fields are read as. -/
def fieldNodes : List (String × Value) → List (Node × Node)
  | [] => []
  | (name, v) :: rest => (wordNode name, valueNode v) :: fieldNodes rest

end

variable {handles : Handles} {numbers : AnchorNumbers} {anchored : List (Nat × Node)}
  {place : Place} {rest : List Token} {fuel : Nat}

/-! ### Steps -/

/-- A token that stands for a node, or in front of its content. -/
def isProperty : Token → Bool
  | .alias _ => true
  | .anchor _ => true
  | .tag _ => true
  | _ => false

/-- A node without anchor and tag is its content. -/
theorem readNode_content {t : Token} (ht : isProperty t = false) :
    readNode handles (fuel + 1) place ⟨t :: rest, numbers, anchored⟩ =
      readContent handles fuel place false none ⟨t :: rest, numbers, anchored⟩ := by
  cases t <;> first | rfl | exact absurd ht (by simp [isProperty])

/-- A scalar is read as the node of its text. -/
theorem readNode_scalar (style : Style) (s : String) :
    readNode handles (fuel + 2) place ⟨.scalar style s.toList :: rest, numbers, anchored⟩ =
      some (.scalar style none s, ⟨rest, numbers, anchored⟩) := by
  rw [readNode_content rfl, readContent]
  simp only [String.ofList_toList, Reading.withRest]

/-- The items of a list that is not indented. -/
theorem readNode_looseItems {nodes : List Node} {r : Reading}
    (h : readLooseItems handles fuel ⟨.blockEntry :: rest, numbers, anchored⟩ = some (nodes, r)) :
    readNode handles (fuel + 2) .field ⟨.blockEntry :: rest, numbers, anchored⟩ =
      some (.sequence nodes, r) := by
  rw [readNode_content rfl, readContent]
  simp only [h, if_true, Option.map_some]

/-- The pairs of a block. -/
theorem readNode_pairs {pairs : List (Node × Node)} {r : Reading} (hplace : place ≠ .flow)
    (h : readPairs handles fuel ⟨rest, numbers, anchored⟩ = some (pairs, r)) :
    readNode handles (fuel + 2) place ⟨.blockMappingStart :: rest, numbers, anchored⟩ =
      some (.mapping pairs, r) := by
  rw [readNode_content rfl, readContent]
  simp only [Reading.withRest, h, hplace, if_false, Option.map_some]

/-- A node that is not left out. -/
theorem readOptional_node {t : Token} {stops : List Token} (ht : stops.contains t = false) :
    readOptional handles (fuel + 1) place stops ⟨t :: rest, numbers, anchored⟩ =
      readNode handles fuel place ⟨t :: rest, numbers, anchored⟩ := by
  rw [readOptional, if_neg (by simpa [Reading.sees] using ht)]

/-- Without a sign for an item, no items are read. -/
theorem readLooseItems_stop (hrest : rest.head? ≠ some .blockEntry) :
    readLooseItems handles (fuel + 1) ⟨rest, numbers, anchored⟩ =
      some ([], ⟨rest, numbers, anchored⟩) := by
  rw [readLooseItems]
  split
  · rename_i heq
    obtain rfl : rest = _ := heq
    exact absurd rfl hrest
  · rfl

/-- An item, and the ones behind it. -/
theorem readLooseItems_word (w : String) {nodes : List Node} {r : Reading}
    (h : readLooseItems handles (fuel + 3) ⟨rest, numbers, anchored⟩ = some (nodes, r)) :
    readLooseItems handles (fuel + 4)
        ⟨.blockEntry :: .scalar .plain w.toList :: rest, numbers, anchored⟩ =
      some (wordNode w :: nodes, r) := by
  rw [readLooseItems]
  simp only [Reading.withRest]
  rw [readOptional_node (by simp), readNode_scalar]
  simp only [h, Option.map_some, wordNode]

/-- A field, and the ones behind it. -/
theorem readPairs_field {t : Token} {value : List Token} {node : Node} {r r' : Reading}
    {pairs : List (Node × Node)} (name : String) (ht : [.key, .value, .blockEnd].contains t = false)
    (hvalue : readNode handles (fuel + 1) .field ⟨t :: value, numbers, anchored⟩ = some (node, r))
    (h : readPairs handles (fuel + 3) r = some (pairs, r')) :
    readPairs handles (fuel + 4)
        ⟨.key :: .scalar .plain name.toList :: .value :: t :: value, numbers, anchored⟩ =
      some ((wordNode name, node) :: pairs, r') := by
  rw [readPairs]
  simp only [Reading.withRest]
  rw [readOptional_node (by simp), readNode_scalar]
  simp only [readValue, Reading.withRest]
  rw [readOptional_node ht, hvalue]
  simp only [h, Option.map_some, wordNode]

/-! ### Values -/

/-- The tokens of a list of words are read as its items. -/
theorem readLooseItems_items {words : List String} (hrest : rest.head? ≠ some .blockEntry)
    (hfuel : words.length + 3 ≤ fuel) :
    readLooseItems handles fuel ⟨itemTokens words ++ rest, numbers, anchored⟩ =
      some (words.map wordNode, ⟨rest, numbers, anchored⟩) := by
  induction words generalizing fuel with
  | nil =>
    obtain ⟨fuel, rfl⟩ : ∃ f, fuel = f + 1 := ⟨fuel - 1, by omega⟩
    exact readLooseItems_stop hrest
  | cons w words ih =>
    rw [List.length_cons] at hfuel
    obtain ⟨fuel, rfl⟩ : ∃ f, fuel = f + 4 := ⟨fuel - 4, by omega⟩
    exact readLooseItems_word w (ih (by omega))

/-- An item of a list of words has two tokens. -/
theorem length_itemTokens (words : List String) :
    (itemTokens words).length = 2 * words.length := by
  induction words with
  | nil => rfl
  | cons w words ih =>
    rw [itemTokens, List.flatMap_cons, List.length_append, ← itemTokens, ih, List.length_cons]
    simp
    omega

/-- What the tokens of a value begin with. -/
theorem exists_valueTokens (v : Value) :
    ∃ t more, valueTokens v = t :: more ∧ isProperty t = false ∧
      [.key, .value, .blockEnd].contains t = false := by
  rcases v with w | s | (_ | ⟨w, ws⟩) | (_ | ⟨f, fs⟩) <;>
    exact ⟨_, _, rfl, rfl, by simp⟩

mutual

/-- The tokens of a value are read as its node. -/
theorem readNode_value {rest : List Token} {fuel : Nat} : (v : Value) →
    rest.head? ≠ some .blockEntry → 4 * (valueTokens v).length ≤ fuel →
      readNode handles fuel .field ⟨valueTokens v ++ rest, numbers, anchored⟩ =
        some (valueNode v, ⟨rest, numbers, anchored⟩)
  | .word w, _, hfuel => by
    obtain ⟨fuel, rfl⟩ : ∃ f, fuel = f + 2 := ⟨fuel - 2, by simp [valueTokens] at hfuel; omega⟩
    exact readNode_scalar .plain w
  | .text s, _, hfuel => by
    obtain ⟨fuel, rfl⟩ : ∃ f, fuel = f + 2 := ⟨fuel - 2, by simp [valueTokens] at hfuel; omega⟩
    exact readNode_scalar (textStyle s) s
  | .words [], _, hfuel => by
    obtain ⟨fuel, rfl⟩ : ∃ f, fuel = f + 2 := ⟨fuel - 2, by simp [valueTokens] at hfuel; omega⟩
    rfl
  | .words (w :: ws), hrest, hfuel => by
    have hlength := length_itemTokens (w :: ws)
    rw [valueTokens, hlength] at hfuel
    rw [List.length_cons] at hfuel
    obtain ⟨fuel, rfl⟩ : ∃ f, fuel = f + 2 := ⟨fuel - 2, by omega⟩
    have hitems : readLooseItems handles fuel ⟨itemTokens (w :: ws) ++ rest, numbers, anchored⟩ =
        some ((w :: ws).map wordNode, ⟨rest, numbers, anchored⟩) :=
      readLooseItems_items hrest (by rw [List.length_cons]; omega)
    exact readNode_looseItems hitems
  | .record [], _, hfuel => by
    obtain ⟨fuel, rfl⟩ : ∃ f, fuel = f + 2 := ⟨fuel - 2, by simp [valueTokens] at hfuel; omega⟩
    rfl
  | .record (f :: fs), _, hfuel => by
    rw [valueTokens, List.length_cons, List.length_append, List.length_singleton] at hfuel
    obtain ⟨fuel, rfl⟩ : ∃ f, fuel = f + 2 := ⟨fuel - 2, by omega⟩
    have hpairs : readPairs handles fuel
        ⟨fieldsTokens (f :: fs) ++ .blockEnd :: rest, numbers, anchored⟩ =
          some (fieldNodes (f :: fs), ⟨rest, numbers, anchored⟩) :=
      readPairs_fields (f :: fs) (by omega)
    have hnode : readNode handles (fuel + 2) .field ⟨.blockMappingStart ::
        (fieldsTokens (f :: fs) ++ .blockEnd :: rest), numbers, anchored⟩ = some _ :=
      readNode_pairs (by simp) hpairs
    simpa [valueTokens, valueNode] using hnode

/-- The tokens of fields are read as their nodes. -/
theorem readPairs_fields {rest : List Token} {fuel : Nat} : (fs : List (String × Value)) →
    4 * (fieldsTokens fs).length < fuel →
      readPairs handles fuel ⟨fieldsTokens fs ++ .blockEnd :: rest, numbers, anchored⟩ =
        some (fieldNodes fs, ⟨rest, numbers, anchored⟩)
  | [], hfuel => by
    obtain ⟨fuel, rfl⟩ : ∃ f, fuel = f + 1 := ⟨fuel - 1, by omega⟩
    rfl
  | (name, v) :: fs, hfuel => by
    obtain ⟨t, more, ht, -, hstop⟩ := exists_valueTokens v
    rw [fieldsTokens, List.length_cons, List.length_cons, List.length_cons, List.length_append]
      at hfuel
    obtain ⟨fuel, rfl⟩ : ∃ f, fuel = f + 4 := ⟨fuel - 4, by omega⟩
    have hrest : (fieldsTokens fs ++ .blockEnd :: rest).head? ≠ some .blockEntry := by
      rcases fs with _ | ⟨⟨name', v'⟩, fs⟩ <;> simp [fieldsTokens]
    have hvalue : readNode handles (fuel + 1) .field
        ⟨valueTokens v ++ (fieldsTokens fs ++ .blockEnd :: rest), numbers, anchored⟩ =
          some (valueNode v, ⟨fieldsTokens fs ++ .blockEnd :: rest, numbers, anchored⟩) :=
      readNode_value v hrest (by omega)
    have hfields : readPairs handles (fuel + 3)
        ⟨fieldsTokens fs ++ .blockEnd :: rest, numbers, anchored⟩ =
          some (fieldNodes fs, ⟨rest, numbers, anchored⟩) := readPairs_fields fs (by omega)
    rw [fieldsTokens, fieldNodes]
    rw [ht] at hvalue ⊢
    simpa using readPairs_field name hstop hvalue hfields

end

/-- The text of a record is read as a mapping of its fields. -/
theorem read?_write {f : String × Value} {fs : List (String × Value)}
    (h : AreWritable (f :: fs)) :
    read? (write (f :: fs)) = some { root := .mapping (fieldNodes (f :: fs)) } := by
  have htokens := tokens?_write h
  have hfuel : 4 * (.blockMappingStart :: (fieldsTokens (f :: fs) ++ [.blockEnd])).length + 4 =
      4 * (fieldsTokens (f :: fs)).length + 10 + 2 := by
    simp
    omega
  have hpairs : readPairs standardHandles (4 * (fieldsTokens (f :: fs)).length + 10)
      ⟨fieldsTokens (f :: fs) ++ [.blockEnd], [], []⟩ =
        some (fieldNodes (f :: fs), ⟨[], [], []⟩) := readPairs_fields (f :: fs) (by omega)
  have hnode : readNode standardHandles _ .item _ = some _ := readNode_pairs (by simp) hpairs
  rw [read?, write, String.toList_ofList, htokens, Option.bind_some, readDocument]
  simp only [readDirectives, hfuel, hnode, List.isEmpty_nil, if_true, Option.bind_some,
    List.all_nil]

end InstrGraph.Yaml
