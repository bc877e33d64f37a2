import FormatterPlan.TypeGraph.Node
import FormatterPlan.Text.Quoted

/-! The wording of defects.  An argument that a key attribute does not take is shown with its
parts. -/

namespace FormatterPlan

mutual

def Ty.shown : Ty → String
  | .named symbol args =>
    "Named \x7b symbol: SymbolId(" ++ Nat.repr symbol.index ++ "), args: [" ++ Ty.shownAll args ++
      "] \x7d"
  | .array element rank =>
    "Array \x7b element: " ++ Ty.shown element ++ ", rank: " ++ Nat.repr rank ++ " \x7d"
  | .param index name =>
    "Param \x7b index: " ++ Nat.repr index ++ ", name: " ++ Text.quoted name ++ " \x7d"

def Ty.shownAll : List Ty → String
  | [] => ""
  | [t] => Ty.shown t
  | t :: u :: rest => Ty.shown t ++ ", " ++ Ty.shownAll (u :: rest)

end

def Argument.shown : Argument → String
  | .int value => "Int(" ++ toString value ++ ")"
  | .string value => "Str(" ++ Text.quoted value ++ ")"
  | .bool true => "Bool(true)"
  | .bool false => "Bool(false)"
  | .null => "Null"
  | .type t => "Type(" ++ t.shown ++ ")"

def Defect.message : Defect → String
  | .cyclicBases type => type.text ++ " has a cyclic base type chain"
  | .keyRange context key => context ++ ": key " ++ toString key ++ " does not fit in an int"
  | .keyArgument context argument =>
    context ++ ": KeyAttribute takes an int or a string, found " ++ argument.shown
  | .noFormatterType context =>
    context ++ ": MessagePackFormatterAttribute needs a formatter type"
  | .unionArguments type =>
    type.text ++ ": UnionAttribute takes (int key, Type subType)"

end FormatterPlan
