import InstrGraph.Document
import InstrGraph.Proofs.Graph.Edges
import InstrGraph.Proofs.Graph.Shape
import InstrGraph.Proofs.Symbols.RenameTable

/-!
# When a graph has a document

A document names the nodes of a graph by texts, and `Document.ofGraph` refuses a graph in which two
nodes share one. Nothing else is asked of a graph whose edges end at nodes (`exists_ofGraph`), and
those of a graph that was built do (`Builder.closed_of_build`).

Two nodes may share a text only if it is spelled in an unusual way. Blocks and parameters have local
names, globals have global names, the function has a word and an instruction has a number. So if
names are spelled like that, and no parameter is called like a block, a name tells which node it
belongs to (`NodeKey.eq_of_id_eq`), and the graph has a document (`Builder.Spelled.exists_ofGraph`).
-/

namespace InstrGraph

/-! ### What a document asks for -/

/-- The search for a repeated item finds none if the items are different and have not been seen. -/
theorem firstRepeated_go_eq_none_iff {seen xs : List String} :
    firstRepeated.go seen xs = none ↔ xs.Nodup ∧ ∀ x ∈ xs, x ∉ seen := by
  induction xs generalizing seen with
  | nil => simp [firstRepeated.go]
  | cons x rest ih =>
    rw [firstRepeated.go]
    by_cases hx : x ∈ seen
    · simp [hx]
    · have hseen : (∀ y ∈ rest, y ∉ x :: seen) ↔ x ∉ rest ∧ ∀ y ∈ rest, y ∉ seen := by
        simp only [List.mem_cons, not_or, forall_and]
        exact and_congr_left' ⟨fun h hmem => h x hmem rfl, fun h y hy heq => h (heq ▸ hy)⟩
      rw [if_neg (by simpa using hx), ih, List.nodup_cons, List.forall_mem_cons, hseen]
      simp [hx, and_assoc, and_left_comm]

/-- No item is repeated if all are different. -/
theorem firstRepeated_eq_none_iff {xs : List String} : firstRepeated xs = none ↔ xs.Nodup := by
  simp [firstRepeated, firstRepeated_go_eq_none_iff]

/-- Both ends of every edge are nodes. -/
def Graph.Closed (g : Graph) : Prop :=
  ∀ e ∈ g.edges, e.source < g.slots.length ∧ e.target < g.slots.length

/-- The id at the index of a node is that of the node. -/
theorem Graph.idAt_mem {g : Graph} {n : Nat} (h : n < g.slots.length) :
    g.idAt n ∈ g.slots.map fun s => s.key.id := by
  have hkey : g.keyAt? n = some g.slots[n].key := by
    rw [Graph.keyAt?, List.getElem?_eq_getElem h, Option.map_some]
  rw [Graph.idAt, hkey]
  exact List.mem_map.mpr ⟨g.slots[n], List.getElem_mem h, rfl⟩

namespace Document

/-- No link is dangling if both ends of every link are among the ids. -/
theorem danglingEnd?_eq_none_iff {ids : List String} {links : List Link} :
    danglingEnd? ids links = none ↔ ∀ l ∈ links, l.source ∈ ids ∧ l.target ∈ ids := by
  rw [danglingEnd?, List.findSome?_eq_none_iff]
  refine forall₂_congr fun l _ => ?_
  by_cases hs : l.source ∈ ids <;> by_cases ht : l.target ∈ ids <;> simp [hs, ht]

/-- The ends of a link are never missing, if every edge ends at nodes. -/
theorem ofGraph_of_closed {g : Graph} (hc : g.Closed) :
    ofGraph g =
      match firstRepeated (g.slots.map fun s => s.key.id) with
      | some id => .error (duplicateNode g.functionName id)
      | none => .ok
        { functionName := g.functionName
          nodes := g.slots.map fun s => s.key.id
          links := (g.edges.map fun e =>
            (⟨g.idAt e.source, g.idAt e.target, e.kind⟩ : Link)).eraseDups
          nodesInfo := g.slots.map fun s => (s.key.id, s.attrs) } := by
  have hends : danglingEnd? (g.slots.map fun s => s.key.id)
      (g.edges.map fun e => ⟨g.idAt e.source, g.idAt e.target, e.kind⟩) = none := by
    refine danglingEnd?_eq_none_iff.mpr fun l hl => ?_
    obtain ⟨e, he, rfl⟩ := List.mem_map.mp hl
    exact ⟨Graph.idAt_mem (hc e he).1, Graph.idAt_mem (hc e he).2⟩
  cases hrepeated : firstRepeated (g.slots.map fun s => s.key.id) with
  | some id => simp only [ofGraph, hrepeated]
  | none => simp only [ofGraph, hrepeated, hends]

/-- A graph without dangling edges and repeated ids has a document. -/
theorem exists_ofGraph {g : Graph} (hc : g.Closed) (hn : (g.keys.map NodeKey.id).Nodup) :
    ∃ d, ofGraph g = .ok d := by
  have hids : (g.slots.map fun s => s.key.id) = g.keys.map NodeKey.id := by
    simp [Graph.keys, Function.comp_def]
  rw [ofGraph_of_closed hc, firstRepeated_eq_none_iff.mpr (hids ▸ hn)]
  exact ⟨_, rfl⟩

end Document

/-! ### Names that tell nodes apart -/

namespace NodeKey

variable {labels : List String} {k k' : NodeKey}

/-- The name of a node is spelled as names of its sort are: those of blocks and parameters are
local, only blocks are called by one of the labels, and those of globals are global. -/
def Spelled (labels : List String) : NodeKey → Prop
  | function => True
  | block label => Token.isLocal label = true ∧ label ∈ labels
  | instruction _ => True
  | parameter name => Token.isLocal name = true ∧ name ∉ labels
  | global name => Token.isGlobal name = true

/-- The node that a name belongs to. -/
def ofId (labels : List String) (id : String) : NodeKey :=
  if Token.isLocal id then (if id ∈ labels then .block id else .parameter id)
  else if Token.isGlobal id then .global id
  else if id = "function_start" then .function
  else .instruction (UInt32.ofNat (Nat.ofDigitChars 10 id.toList 0))

/-- The name of an instruction begins with a digit. -/
theorem exists_digit (id : UInt32) :
    ∃ c, (toString id.toNat).toList.head? = some c ∧ Text.isAsciiDigit c = true := by
  have hne : (toString id.toNat).toList ≠ [] := by
    rw [toList_toString]
    exact Nat.toDigits_ne_nil
  obtain ⟨c, rest, hcs⟩ := List.exists_cons_of_ne_nil hne
  refine ⟨c, by rw [hcs, List.head?_cons], isAsciiDigit_of_mem_toString (n := id.toNat) ?_⟩
  rw [hcs]
  exact List.mem_cons_self

/-- A key is read back from its id, if it is spelled as the labels say. -/
theorem ofId_id (hk : k.Spelled labels) : ofId labels k.id = k := by
  cases k with
  | function => rfl
  | block label => simp [ofId, NodeKey.id, hk.1, hk.2]
  | parameter name => simp [ofId, NodeKey.id, hk.1, hk.2]
  | global name =>
    have hlocal : Token.isLocal name = false :=
      Bool.eq_false_iff.mpr fun hl => by simp [Token.isGlobal_of_isLocal hl, Spelled] at hk
    simp [ofId, NodeKey.id, hlocal, show Token.isGlobal name = true from hk]
  | instruction id =>
    obtain ⟨c, hhead, hdigit⟩ := exists_digit id
    have hlocal : Token.isLocal (toString id.toNat) = false := by
      refine Bool.eq_false_iff.mpr fun hl => ?_
      obtain rfl := Option.some.inj (hhead.symm.trans (Token.isLocal_iff.mp hl))
      exact absurd hdigit (by decide)
    have hglobal : Token.isGlobal (toString id.toNat) = false := by
      refine Bool.eq_false_iff.mpr fun hg => ?_
      obtain rfl := Option.some.inj (hhead.symm.trans (Token.isGlobal_iff.mp hg))
      exact absurd hdigit (by decide)
    have hword : toString id.toNat ≠ "function_start" := by
      intro heq
      rw [heq] at hhead
      obtain rfl : 'f' = c := Option.some.inj hhead
      exact absurd hdigit (by decide)
    have hnumber : Nat.ofDigitChars 10 (toString id.toNat).toList 0 = id.toNat := by
      rw [toList_toString, Nat.ofDigitChars_ten_toDigits]
    rw [NodeKey.id, ofId, hlocal, hglobal, if_neg Bool.false_ne_true, if_neg Bool.false_ne_true,
      if_neg hword, hnumber, UInt32.ofNat_toNat]

/-- A name belongs to one node only. -/
theorem eq_of_id_eq (hk : k.Spelled labels) (hk' : k'.Spelled labels) (h : k.id = k'.id) :
    k = k' := by rw [← ofId_id hk, h, ofId_id hk']

end NodeKey

/-! ### Graphs of functions -/

namespace Builder

variable {b : Builder} {g : Graph} {ds : List Diagnostic}

/-- The edges of a finished graph have their ends among its nodes. -/
theorem closed_of_build (h : b.build = .ok (g, ds)) : g.Closed := by
  obtain ⟨g₀, -, hadv⟩ := advances_of_build h
  refine fun e he => ⟨hadv.tracks.source_lt e he, ?_⟩
  have htarget : ∃ k, g.keys[e.target]? = some k := by
    rcases target_cases h he with ⟨-, label, hkey⟩ | ⟨id, hkey⟩
    · exact ⟨_, Graph.keyAt?_eq .. ▸ hkey⟩
    · exact ⟨_, Graph.keyAt?_eq .. ▸ hkey⟩
  obtain ⟨k, hk⟩ := htarget
  simpa using (List.getElem?_eq_some_iff.mp hk).1

/-- The labels, parameters and globals that a graph is built from are spelled in the usual way. -/
structure Spelled (b : Builder) : Prop where
  labels : ∀ label ∈ b.function.labels, Token.isLocal label = true
  params : ∀ name ∈ b.resolver.params, Token.isLocal name = true ∧ name ∉ b.function.labels
  globals : ∀ name ∈ b.resolver.globals, Token.isGlobal name = true
  usage : ∀ i ∈ b.function.instructions, ∀ name ∈ i.usage.globals,
    Token.isGlobal (b.symbols.canonicalGlobal name) = true

/-- The keys of a finished graph are spelled as the labels say. -/
theorem Spelled.keys (hs : b.Spelled) (h : b.build = .ok (g, ds)) {k : NodeKey} (hk : k ∈ g.keys) :
    k.Spelled b.function.labels := by
  cases k with
  | function => trivial
  | instruction id => trivial
  | block label =>
    obtain ⟨g₀, hready, hadv⟩ := advances_of_build h
    have hlabel : label ∈ b.function.labels :=
      mem_labelsOf_iff.mpr (List.mem_map.mpr ((hready.block_mem_iff hadv).mp hk))
    exact ⟨hs.labels label hlabel, hlabel⟩
  | parameter name =>
    obtain ⟨pre, block, i, post, -, x, hx, hxk⟩ := exists_takes_of_isOuter h hk rfl
    rcases taken_of_mem_takes hx with ⟨producer, htaken⟩ | ⟨name', rfl, hmem⟩ | ⟨name', rfl, -⟩
    · simp [htaken.key] at hxk
    · obtain rfl : name' = name := by simpa using hxk
      exact hs.params name' hmem
    · simp at hxk
  | global name =>
    obtain ⟨pre, block, i, post, hsched, x, hx, hxk⟩ := exists_takes_of_isOuter h hk rfl
    have hi : i ∈ b.function.instructions := by simp [instructions_of_split hsched]
    rcases taken_of_mem_takes hx with ⟨producer, htaken⟩ | ⟨name', rfl, -⟩ | ⟨name', rfl, -, hmem⟩
    · simp [htaken.key] at hxk
    · simp at hxk
    · obtain rfl : name' = name := by simpa using hxk
      rcases hmem with hmem | hmem
      · exact hs.globals name' hmem
      · obtain ⟨key, hkey, rfl⟩ := List.mem_map.mp hmem
        exact hs.usage i hi key hkey

/-- A graph with names that are spelled in the usual way has a document. -/
theorem Spelled.exists_ofGraph (hs : b.Spelled) (h : b.build = .ok (g, ds)) :
    ∃ d, Document.ofGraph g = .ok d := by
  refine Document.exists_ofGraph (closed_of_build h) ?_
  exact (nodup_of_build h).map_on fun k hk k' hk' heq =>
    NodeKey.eq_of_id_eq (hs.keys h hk) (hs.keys h hk') heq

end Builder

end InstrGraph
