import FormatterPlan.Finding
import FormatterPlan.TypeGraph.Defect
import FormatterPlan.TypeGraph.Discovery
import FormatterPlan.TypeGraph.FormatterShape

/-! The rules that a node of a graph is checked against by itself. -/

namespace FormatterPlan

/-- What is wrong with the definition of an object or union. -/
inductive Flaw where
  | repeatedIntKey (owner : TypeName) (key : Int) (members : List String)
  | repeatedStringKey (owner : TypeName) (key : String) (members : List String)
  | negativeKey (owner : TypeName) (key : Int) (members : List String)
  | repeatedTag (owner : TypeName) (tag : Int) (variants : List TypeName)
  | defect (defect : Defect)
  | blockedMember (owner : TypeName) (member : String) (target : TypeName)
  | blockedBase (owner : TypeName) (base : TypeName)

def Flaw.message : Flaw → String
  | .repeatedIntKey owner key members =>
    owner.text ++ " has duplicate key " ++ toString key ++ " on members " ++
      ", ".intercalate members
  | .repeatedStringKey owner key members =>
    owner.text ++ " has duplicate key \"" ++ key ++ "\" on members " ++ ", ".intercalate members
  | .negativeKey owner key members =>
    owner.text ++ " has negative key " ++ toString key ++ " on members " ++
      ", ".intercalate members ++ ", which has no array position"
  | .repeatedTag owner tag variants =>
    owner.text ++ " has duplicate union key " ++ toString tag ++ " on " ++
      ", ".intercalate (variants.map TypeName.text)
  | .defect d => d.message
  | .blockedMember owner member target =>
    owner.text ++ "." ++ member ++ " is written with " ++ target.text ++ ", which has errors"
  | .blockedBase owner base =>
    owner.text ++ " derives from " ++ base.text ++ ", which has errors"

/-- The finding of a flaw. -/
def Flaw.finding (subject : TypeName) (member : Option String) (flaw : Flaw) : Finding :=
  ⟨.invalidObject, subject, member, [flaw.message]⟩

/-- The values under each key, keys in the order of their first use and values in their own
order. -/
def groupByKey {κ β : Type} [DecidableEq κ] (pairs : List (κ × β)) : List (κ × List β) :=
  (pairs.map (·.1)).eraseDups.map fun key => (key, (pairs.filter (·.1 = key)).map (·.2))

namespace TypeGraph

/-- Whether a type may be a variant of a union. -/
def isVariantType (node : Node) : Bool :=
  node.formatter.isSome || match node.kind with
    | .object _ false => true
    | .union false => true
    | .assumed => true
    | _ => false

/-- The leaves of a node: itself if it has no formatter, and those of its parts if it is a
collection. -/
def leavesAt (graph : TypeGraph) (name : TypeName) (parts : List TypeName) : List TypeName :=
  match graph.node? name with
  | none => []
  | some node =>
    if node.formatter.isSome then []
    else match node.kind with
      | .unresolved => [name]
      | .collection _ => parts
      | _ => []

mutual

/-- The types without any formatter that a type is made of through collections, repeated ones
included. The elements of a collection are the arguments of its name. -/
def bareLeaves (graph : TypeGraph) : TypeName → List TypeName
  | .named name args => graph.leavesAt (.named name args) (graph.bareLeavesOfAll args)
  | .array element rank => graph.leavesAt (.array element rank) (graph.bareLeaves element)
  | .param name => graph.leavesAt (.param name) []

/-- The types without any formatter that several types are made of. -/
def bareLeavesOfAll (graph : TypeGraph) : List TypeName → List TypeName
  | [] => []
  | name :: rest => graph.bareLeaves name ++ graph.bareLeavesOfAll rest

end

/-- The different types without any formatter that a type is made of through collections. -/
def unmarkedLeaves (graph : TypeGraph) (name : TypeName) : List TypeName :=
  (graph.bareLeaves name).eraseDups

/-- The members that are checked with their object.  Those of a base that is marked as an object
itself are checked with the base. -/
def checkedMembers (node : Node) : List NodeMember :=
  node.members.filter fun m => match m.origin with
    | .inherited _ true => false
    | _ => true

/-- The type that declares a member. -/
def declaringType (node : Node) (m : NodeMember) : TypeName :=
  match m.origin with
  | .own => node.name
  | .inherited base _ => base

/-- The types of members have to be marked, unless the member names its formatter. -/
def markingFindings (graph : TypeGraph) (node : Node) : List Finding :=
  (checkedMembers node).flatMap fun m =>
    if m.formatter.isSome || !m.declared.type.isClosed then []
    else (graph.unmarkedLeaves m.declared.name).map fun leaf =>
      ⟨.typeNotMarked, node.name, some m.name, [leaf.text]⟩

/-- Public members need a key. -/
def keyFindings (node : Node) : List Finding :=
  ((checkedMembers node).filter (·.key = .unattributed)).map fun m =>
    match m.origin with
    | .own => ⟨.memberNeedsKey, node.name, some m.name, [node.name.text, m.name]⟩
    | .inherited base _ => ⟨.baseMemberNeedsKey, base, some m.name, [base.text, m.name]⟩

/-- A key attribute needs a value. -/
def nullKeyFindings (node : Node) : List Finding :=
  ((checkedMembers node).filter (·.key = .null)).map fun m =>
    let declaring := declaringType node m
    ⟨.nullKey, declaring, some m.name, [declaring.text, m.name]⟩

/-- The members of a node under their integer keys. -/
def intKeys (node : Node) : List (Int × List String) :=
  groupByKey (node.members.filterMap fun m => match m.key with
    | .int n => some (n, m.name)
    | _ => none)

/-- The members of a node under their string keys. -/
def stringKeys (node : Node) : List (String × List String) :=
  groupByKey (node.members.filterMap fun m => match m.key with
    | .string s => some (s, m.name)
    | _ => none)

/-- All members of an object, inherited ones included, need different keys, and keys that are
positions may not be negative. -/
def uniquenessFindings (mapMode : Bool) (node : Node) : List Finding :=
  let owner := node.name
  let repeatedInts := (intKeys node).filter (1 < ·.2.length)
  let repeatedStrings := (stringKeys node).filter (1 < ·.2.length)
  let negative := if node.isMapEncoded mapMode then [] else (intKeys node).filter (·.1 < 0)
  (repeatedInts.map fun (key, members) => Flaw.repeatedIntKey owner key members) ++
      (repeatedStrings.map fun (key, members) => Flaw.repeatedStringKey owner key members) ++
      (negative.map fun (key, members) => Flaw.negativeKey owner key members)
    |>.map (Flaw.finding owner none)

/-- The formatter that a member names has to be one for the member's type and may not differ from
the one that the type itself names. -/
def memberFormatterFindings (asm : Assembly) (graph : TypeGraph) (node : Node) : List Finding :=
  (checkedMembers node).flatMap fun m =>
    match m.formatter with
    | none => []
    | some custom =>
      let shape :=
        if asm.isFormatterOf custom.type m.declared.type then []
        else [⟨.notAFormatter, node.name, some m.name, [custom.name.text]⟩]
      let declared := if m.declared.type.isClosed then
        (graph.node? m.declared.name).bind (·.formatter) else none
      let conflict := match declared with
        | none => []
        | some own =>
          if own.name = custom.name then []
          else [⟨.conflictingFormatter, node.name, some m.name,
            [node.name.text, m.name, custom.name.text, own.name.text]⟩]
      shape ++ conflict

/-- The variants of a union need different tags and have to be objects or unions. -/
def variantFindings (graph : TypeGraph) (node : Node) : List Finding :=
  let tags := groupByKey (node.variants.map fun v => (v.tag, v.type.name))
  let repeated := (tags.filter (1 < ·.2.length)).map fun (tag, variants) =>
    (Flaw.repeatedTag node.name tag variants).finding node.name none
  let unmarked := node.variants.filter fun v =>
    !(graph.node? v.type.name).any isVariantType
  repeated ++ unmarked.map fun v =>
    ⟨.typeNotMarked, v.type.name, none, [v.type.name.text]⟩

/-- The formatter that a declaration names has to be one for the type. -/
def formatterFindings (asm : Assembly) (node : Node) : List Finding :=
  match node.formatter with
  | none => []
  | some custom =>
    if asm.isFormatterOf custom.type node.self.type then []
    else [⟨.notAFormatter, node.name, none, [custom.name.text]⟩]

/-- All findings of a node by itself. -/
def findingsOf (asm : Assembly) (mapMode : Bool) (graph : TypeGraph) (node : Node) : List Finding :=
  (if node.kind.isObject then
    graph.markingFindings node ++ keyFindings node ++ nullKeyFindings node ++
      uniquenessFindings mapMode node ++ graph.memberFormatterFindings asm node
  else []) ++
  (if node.kind.isUnion then graph.variantFindings node else []) ++
  formatterFindings asm node ++
  node.defects.map fun d => (Flaw.defect d).finding node.name none

end TypeGraph

end FormatterPlan
