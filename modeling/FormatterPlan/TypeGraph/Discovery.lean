import FormatterPlan.TypeGraph.Expansion

/-! Type graphs and their discovery.  From a root on, the types that a node refers to become nodes
in their turn, each name once, in the order of breadth-first search: the nodes found so far are also
the queue of those to look at.  Generic declarations may refer to ever larger types, so discovery
takes a bound on its steps and may come to no end within it. -/

namespace FormatterPlan

/-- The types reachable from the first of them, in the order of discovery. -/
structure TypeGraph where
  nodes : Array Node

namespace TypeGraph

def node? (graph : TypeGraph) (name : TypeName) : Option Node :=
  graph.nodes.find? (·.name == name)

/-- The position of a name among the nodes. -/
def idOf? (graph : TypeGraph) (name : TypeName) : Option Nat :=
  graph.nodes.findIdx? (·.name == name)

def names (graph : TypeGraph) : List TypeName := graph.nodes.toList.map Node.name

/-- Adds the node of a type, unless there is one of this name. -/
def add (s : Setting) (nodes : Array Node) (ref : NamedType) : Array Node :=
  if nodes.any (·.name == ref.name) then nodes else nodes.push (s.nodeOf ref.type)

/-- Looks at the nodes from position `next` on and adds what they refer to.  The result is `none` if
more than `steps` nodes would have to be looked at. -/
def explore (s : Setting) : (steps : Nat) → (next : Nat) → Array Node → Option TypeGraph
  | steps, next, nodes =>
    match nodes[next]? with
    | none => some ⟨nodes⟩
    | some node =>
      match steps with
      | 0 => none
      | steps + 1 => explore s steps (next + 1) (node.refs.foldl (add s) nodes)

/-- The type of a root declaration: itself, with its own parameters as arguments. -/
def rootType (asm : Assembly) (root : Symbol) : Ty := .definition root (asm.genericsOf root)

/-- The graph of a root declaration, if it has at most `steps` nodes. -/
def discover (s : Setting) (steps : Nat) (root : Symbol) : Option TypeGraph :=
  explore s steps 0 #[s.nodeOf (rootType s.assembly root)]

end TypeGraph

end FormatterPlan
