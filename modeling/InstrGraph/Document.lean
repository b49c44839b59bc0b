import InstrGraph.Error
import InstrGraph.Graph.Arena

/-!
# Documents

A document is a graph as it is kept: the names of its nodes, its links by these names, and the
attributes of each node. Parallel edges of one kind become one link. Two nodes may not share a
name; `ofGraph` refuses such a graph, and `validate` checks a document that comes from elsewhere.
-/

namespace InstrGraph

/-- An edge by the names of its ends. -/
structure Link where
  source : String
  target : String
  kind : EdgeKind
  deriving DecidableEq, Repr

/-- A graph as it is kept. -/
structure Document where
  functionName : String
  nodes : List String
  links : List Link
  /-- The attributes of the nodes, in the order of the nodes. -/
  nodesInfo : List (String × NodeAttrs)
  deriving Repr

/-- The first item of a list that has occurred before. -/
def firstRepeated : List String → Option String
  | xs => go [] xs
where
  /-- The first item that is among the seen ones or has occurred before. -/
  go (seen : List String) : List String → Option String
    | [] => none
    | x :: rest => if seen.contains x then some x else go (x :: seen) rest

namespace Document

/-- The error of two nodes with one name. -/
def duplicateNode (functionName id : String) : Error :=
  .invariant functionName ("duplicate node id `" ++ id ++ "`")

/-- The error of a link with an end that is no node. -/
def missingEndpoint (functionName id : String) : Error :=
  .invariant functionName ("link endpoint `" ++ id ++ "` missing from nodes_info")

/-- The first end of the links that is not among the given names. -/
def danglingEnd? (ids : List String) (links : List Link) : Option String :=
  links.findSome? fun l =>
    if ids.contains l.source then (if ids.contains l.target then none else some l.target)
    else some l.source

/-- The document of a graph. -/
def ofGraph (g : Graph) : Except Error Document :=
  let ids := g.slots.map fun s => s.key.id
  match firstRepeated ids with
  | some id => .error (duplicateNode g.functionName id)
  | none =>
    let links := g.edges.map fun e => (⟨g.idAt e.source, g.idAt e.target, e.kind⟩ : Link)
    match danglingEnd? ids links with
    | some id => .error (missingEndpoint g.functionName id)
    | none =>
      .ok
        { functionName := g.functionName
          nodes := ids
          links := links.eraseDups
          nodesInfo := g.slots.map fun s => (s.key.id, s.attrs) }

/-- Check that no node is named twice and that both ends of every link are described. -/
def validate (d : Document) : Except Error Unit :=
  match firstRepeated d.nodes with
  | some id => .error (duplicateNode d.functionName id)
  | none =>
    match danglingEnd? (d.nodesInfo.map Prod.fst) d.links with
    | some id => .error (missingEndpoint d.functionName id)
    | none => .ok ()

/-- The attributes of a node, the first ones if it is described twice. -/
def attrs? (d : Document) (id : String) : Option NodeAttrs := d.nodesInfo.lookup id

/-- The links of a kind. -/
def linksOfKind (d : Document) (kind : EdgeKind) : List Link :=
  d.links.filter fun l => l.kind == kind

end Document

end InstrGraph
