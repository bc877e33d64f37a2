import FormatterPlan.TypeGraph.Checks

/-! Which nodes of a graph are blocked.  A node with a finding of its own is blocked, and so is an
object that is written with a blocked type or derives from one.  The types that are sound are what
is left when nodes that depend on blocked ones are dropped, round after round, until none is. -/

namespace FormatterPlan

namespace TypeGraph

/-- The types that a node passes its value on to without a formatter of its own: the arguments of a
collection and the variants of a closed union. -/
def passedOn (node : Node) : List TypeName :=
  match node.kind with
  | .collection _ => node.elements.map (·.name)
  | .union false => node.variants.map (·.type.name)
  | _ => []

/-- The first blocked type on the way from the `pending` types through collections and unions, depth
first.  A node that names its formatter is not passed through, nor is one a second time; `unvisited`
are the names of the others. -/
def blockedTarget (graph : TypeGraph) (blocked : List TypeName) :
    (unvisited : List TypeName) → (pending : List TypeName) → Option TypeName
  | _, [] => none
  | unvisited, name :: pending =>
    if blocked.contains name then some name
    else if name ∈ unvisited then
      let next := match graph.node? name with
        | some node => if node.formatter.isSome then [] else passedOn node
        | none => []
      graph.blockedTarget blocked (unvisited.erase name) (next ++ pending)
    else graph.blockedTarget blocked unvisited pending
termination_by unvisited pending => (unvisited.length, pending.length)
decreasing_by
  · have shorter := List.length_erase_of_mem ‹name ∈ unvisited›
    have positive := List.length_pos_of_mem ‹name ∈ unvisited›
    exact .left _ _ (by omega)
  · exact .right _ (by simp)

/-- The blocked types that an object depends on: its bases, and what its members are written with if
they name no formatter. -/
def blockedReferences (graph : TypeGraph) (blocked : List TypeName) (node : Node) :
    List (Option String × TypeName) :=
  if !node.kind.isObject then []
  else
    let bases := (node.bases.map (·.name)).filter blocked.contains
    let members := node.members.filter fun m => m.formatter.isNone && m.declared.type.isClosed
    bases.map (none, ·) ++ members.filterMap fun m =>
      (graph.blockedTarget blocked graph.names [m.declared.name]).map (some m.name, ·)

def namesOutside (graph : TypeGraph) (names : List TypeName) : List TypeName :=
  graph.names.filter (!names.contains ·)

/-- Whether a node depends on no blocked type. -/
def isIndependent (graph : TypeGraph) (blocked : List TypeName) (name : TypeName) : Bool :=
  (graph.node? name).all fun node => (graph.blockedReferences blocked node).isEmpty

/-- Drops the types that depend on a type that is not sound, until none does. -/
def settle (graph : TypeGraph) (sound : List TypeName) : List TypeName :=
  let kept := sound.filter (graph.isIndependent (graph.namesOutside sound))
  if kept.length < sound.length then graph.settle kept else sound
termination_by sound.length
decreasing_by assumption

end TypeGraph

/-- What the checks of a graph come to: the different findings, in order, and the blocked types. -/
structure Verdict where
  findings : List Finding
  blocked : List TypeName

namespace Verdict

/-- Whether a type gets no formatter because of a finding. -/
def isBlocked (verdict : Verdict) (name : TypeName) : Bool := verdict.blocked.contains name

/-- The finding of an object that depends on a blocked type. -/
def dependenceFinding (node : Node) : Option String × TypeName → Finding
  | (some member, target) => (Flaw.blockedMember node.name member target).finding node.name member
  | (none, base) => (Flaw.blockedBase node.name base).finding node.name none

/-- Checks a graph.  The findings of nodes by themselves come first, then those of the objects that
depend on blocked types, both in the order of discovery. -/
def ofGraph (asm : Assembly) (mapMode : Bool) (graph : TypeGraph) : Verdict :=
  let nodes := graph.nodes.toList
  let own := nodes.map (graph.findingsOf asm mapMode)
  let faulty := ((nodes.zip own).filter (!·.2.isEmpty)).map (·.1.name)
  let blocked := graph.namesOutside (graph.settle (graph.namesOutside faulty))
  let dependent := nodes.filter fun n => blocked.contains n.name && !faulty.contains n.name
  let further := dependent.map fun n =>
    (graph.blockedReferences blocked n).map (dependenceFinding n)
  ⟨(own.flatten ++ further.flatten).eraseDups, blocked⟩

end Verdict

end FormatterPlan
