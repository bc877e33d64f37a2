import FormatterPlan.FormatterTable
import FormatterPlan.Strategy.Choice

/-! Analyses and plans.  An analysis takes one root declaration through discovery, checks and the
choice of strategies.  A plan puts the analyses of several roots together, in the order of the
roots' names. -/

namespace FormatterPlan

/-- Why an analysis has no result: it was cancelled, or discovery came to no end within its
bound. -/
inductive Interruption where
  | cancelled
  | endless
deriving DecidableEq

def Interruption.message : Interruption → String
  | .cancelled => "analysis cancelled"
  | .endless => "type discovery has no end"

structure Analysis where
  root : TypeName
  graph : TypeGraph
  verdict : Verdict
  /-- The strategies of the nodes, in the order of discovery. -/
  strategies : List Strategy
  table : FormatterTable

structure Plan where
  findings : List Finding
  table : FormatterTable

def Plan.empty : Plan := ⟨[], .empty⟩

/-- How an analysis runs: whether it has been cancelled, and how many nodes a graph may have. -/
structure RunControl where
  cancelled : Bool := false
  steps : Nat := 1000000

namespace Setting

/-- The setting of an assembly some of whose metadata names are hidden; none without the attribute
that marks objects. -/
def of? (asm : Assembly) (hidden : List String) (options : Options) : Option Setting :=
  (Roles.ofAssembly? asm hidden).map fun roles => ⟨asm, roles, options⟩

/-- Whether a declaration carries the attribute that makes it a root: the object attribute on
classes and structures, the union attribute on interfaces, and either on abstract classes. -/
def isRootCandidate (s : Setting) (symbol : Symbol) : Bool :=
  match s.assembly.def? symbol with
  | none => false
  | some d =>
    let isObject := (s.roles.objectAttribute? d.attributes).isSome
    let isUnion := (Roles.find? s.roles.union d.attributes).isSome
    match d.kind with
    | .concreteClass | .struct => isObject
    | .abstractClass => isObject || isUnion
    | .interface => isUnion
    | .enumeration => false

/-- The user's declarations that may be roots, in the order of loading. -/
def rootCandidates (s : Setting) : List Symbol := s.assembly.userSymbols.filter s.isRootCandidate

/-- The graph of a root.  Each node that is looked at asks whether the run is cancelled. -/
def graphOf (s : Setting) (control : RunControl) (root : Symbol) : Except Interruption TypeGraph :=
  if control.cancelled then .error .cancelled
  else match TypeGraph.discover s control.steps root with
    | some graph => .ok graph
    | none => .error .endless

/-- The choice of strategies over a checked graph. -/
def strategySetting (s : Setting) (graph : TypeGraph) (verdict : Verdict) : StrategySetting :=
  ⟨graph, verdict, s.options.mapMode⟩

def verdictOn (s : Setting) (graph : TypeGraph) : Verdict :=
  .ofGraph s.assembly s.options.mapMode graph

def analyze (s : Setting) (control : RunControl) (root : Symbol) :
    Except Interruption Analysis := do
  let graph ← s.graphOf control root
  let verdict := s.verdictOn graph
  let strategies := (s.strategySetting graph verdict).strategies .initial
  .ok {
    root := s.assembly.typeName (TypeGraph.rootType s.assembly root)
    graph, verdict, strategies
    table := .ofGraph graph strategies }

/-- The order of roots: by full name, then by metadata name. -/
def rootLe (s : Setting) (a b : Symbol) : Bool :=
  let key (symbol : Symbol) : String × String :=
    (s.assembly.def? symbol).elim ("", "") fun d => (d.name, d.metadataName)
  (key a).1 < (key b).1 || ((key a).1 == (key b).1 && (key a).2 ≤ (key b).2)

/-- The roots in order.  A root that is listed again next to itself counts once. -/
def orderedRoots (s : Setting) (roots : List Symbol) : List Symbol :=
  (roots.mergeSort s.rootLe).eraseReps

/-- Analyses all roots and puts the results together: the different findings in order, and of
entries for one type the first. -/
def plan (s : Setting) (control : RunControl) (roots : List Symbol) : Except Interruption Plan := do
  let analyses ← (s.orderedRoots roots).mapM (s.analyze control)
  .ok ⟨(analyses.flatMap (·.verdict.findings)).eraseDups, .merge (analyses.map (·.table))⟩

end Setting

end FormatterPlan
