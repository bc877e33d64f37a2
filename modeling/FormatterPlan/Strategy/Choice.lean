import FormatterPlan.Strategy
import FormatterPlan.TypeGraph.Verdict

/-! The choice of strategies.  A collection needs formatters for its elements and a union for its
variants, so their strategies are chosen first; each is chosen once and kept.  A type whose strategy
is still being chosen further up counts as one that has a formatter. -/

namespace FormatterPlan

structure StrategySetting where
  graph : TypeGraph
  verdict : Verdict
  mapMode : Bool

/-- The strategies chosen so far, and the names of the types whose choice has begun. -/
structure StrategyState where
  begun : List TypeName
  chosen : List (TypeName × Strategy)

namespace StrategyState

def initial : StrategyState := ⟨[], []⟩

def find? (state : StrategyState) (name : TypeName) : Option Strategy := state.chosen.lookup name

end StrategyState

namespace StrategySetting

/-- A keyed member as it is written. -/
def plannedMember? (m : NodeMember) : Option PlannedMember :=
  let formatter := match m.formatter with
    | some custom => PlannedFormatter.custom custom.name
    | none => .ofType
  match m.key with
  | .int n => some ⟨m.name, .int n, m.declared.name, formatter⟩
  | .string s => some ⟨m.name, .string s, m.declared.name, formatter⟩
  | _ => none

/-- The place of a key among positions.  String keys come last. -/
def position : PlannedKey → Int
  | .int n => n
  | .string _ => Int.pow 2 63 - 1

/-- The number of positions up to the greatest key. -/
def positionCount (members : List PlannedMember) : Nat :=
  members.foldl (fun count m => match m.key with
    | .int n => max count (n + 1).toNat
    | .string _ => count) 0

/-- The strategy of an object: by key in order of declaration, or by position in order of keys. -/
def objectStrategy (mapMode : Bool) (node : Node) : Strategy :=
  let members := node.members.filterMap plannedMember?
  if node.isMapEncoded mapMode then .object .keys members
  else
    let ordered := members.mergeSort fun a b => position a.key ≤ position b.key
    .object (.positions (positionCount ordered)) ordered

/-- The strategy of a collection whose elements have formatters. -/
def collectionStrategy (graph : TypeGraph) (shape : CollectionShape) (elements : List TypeName) :
    Strategy :=
  let isByte (name : TypeName) : Bool := (graph.node? name).any fun n => match n.kind with
    | .builtin b => b.metadataName == Builtin.byteName
    | _ => false
  match shape.byteFormatter, elements with
  | some formatter, [only] =>
    if isByte only then .builtin formatter
    else .collection shape.adapter shape.backing elements
  | _, _ => .collection shape.adapter shape.backing elements

/-- The strategy of a union whose variants have formatters: arms in the order of their tags. -/
def unionStrategy (variants : List Variant) : Strategy :=
  .union ((variants.map fun v => ⟨v.tag, v.type.name⟩).mergeSort fun a b => a.tag ≤ b.tag)

/-- Goes through types until one is known to have no formatter; `choose` makes the choice for a
type. -/
def findUnresolved (choose : StrategyState → TypeName → StrategyState) :
    StrategyState → List TypeName → Bool × StrategyState
  | state, [] => (false, state)
  | state, name :: rest =>
    let state := choose state name
    if state.find? name = some .unresolved then (true, state)
    else findUnresolved choose state rest

/-- The strategy of a node, with the choices that it needs; `choose` makes the choice for a type. -/
def strategyOf (s : StrategySetting) (choose : StrategyState → TypeName → StrategyState)
    (state : StrategyState) (node : Node) : Strategy × StrategyState :=
  if s.verdict.isBlocked node.name then (.unresolved, state)
  else match node.formatter with
    | some custom => (.custom custom.name, state)
    | none =>
      match node.kind with
      | .builtin b => (.builtin b.formatter, state)
      | .assumed => (.assumed, state)
      | .enumeration =>
        match node.elements with
        | underlying :: _ => (.enumeration underlying.name, state)
        | [] => (.unresolved, state)
      | .collection shape =>
        let elements := node.elements.map (·.name)
        let (isUnresolved, state) := findUnresolved choose state elements
        (if isUnresolved then .unresolved else collectionStrategy s.graph shape elements, state)
      | .object _ false => (objectStrategy s.mapMode node, state)
      | .union false =>
        let (isUnresolved, state) :=
          findUnresolved choose state (node.variants.map (·.type.name))
        (if isUnresolved then .unresolved else unionStrategy node.variants, state)
      | .object _ true | .union true | .unresolved => (.unresolved, state)

/-- Chooses the strategy of a type, unless that has begun.  Choices inside each other are of
different types, so a `depth` above the number of nodes does not run out. -/
def choose (s : StrategySetting) : (depth : Nat) → StrategyState → TypeName → StrategyState
  | 0, state, _ => state
  | depth + 1, state, name =>
    if state.begun.contains name then state
    else match s.graph.node? name with
      | none => state
      | some node =>
        let (strategy, after) :=
          s.strategyOf (s.choose depth) { state with begun := name :: state.begun } node
        { after with chosen := (name, strategy) :: after.chosen }

/-- The strategy of a type, and the choices made so far. -/
def strategy (s : StrategySetting) (state : StrategyState) (name : TypeName) :
    Strategy × StrategyState :=
  let state := s.choose (s.graph.nodes.size + 1) state name
  ((state.find? name).getD .unresolved, state)

def strategies (s : StrategySetting) (state : StrategyState) : List Strategy :=
  let final := s.graph.names.foldl (fun state name => (s.strategy state name).2) state
  s.graph.names.map fun name => (final.find? name).getD .unresolved

end StrategySetting

end FormatterPlan
