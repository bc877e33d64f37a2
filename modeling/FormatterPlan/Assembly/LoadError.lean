import FormatterPlan.Json.Decoding
import FormatterPlan.Json.Printer
import FormatterPlan.TypeExpr.Parser

/-! Why documents do not load.  Where an error has a context, it is the declaration or member that
holds the part at fault. -/

namespace FormatterPlan

/-- Why a plain value is no argument of an attribute. -/
inductive ArgumentFault where
  | notAnInteger (number : Json.Number)
  | unsupported (value : Json.Value)

def ArgumentFault.message : ArgumentFault → String
  | .notAnInteger number => number.text ++ " is not an integer"
  | .unsupported value => "unsupported argument " ++ value.compact

inductive LoadError where
  | decode (error : Json.DecodeError)
  | badType (text context : String) (fault : SyntaxFault)
  /-- A field or property has no type. -/
  | untypedMember (context : String)
  | unknownType (name context : String)
  | ambiguousType (name context : String) (candidates : List String)
  | repeatedType (metadataName : String)
  | badArgument (context : String) (fault : ArgumentFault)

namespace LoadError

/-- A name between grave accents. -/
def marked (name : String) : String := "\x60" ++ name ++ "\x60"

def message : LoadError → String
  | .decode error => error.message
  | .badType text context fault =>
    "invalid type reference " ++ marked text ++ " in " ++ context ++ ": " ++ fault.message
  | .untypedMember context =>
    "invalid type reference " ++ marked "" ++ " in " ++ context ++
      ": fields and properties need a " ++ marked "type"
  | .unknownType name context =>
    "unknown type " ++ marked name ++ " referenced from " ++ context
  | .ambiguousType name context candidates =>
    "ambiguous type " ++ marked name ++ " referenced from " ++ context ++
      ": candidates are " ++ ", ".intercalate candidates
  | .repeatedType metadataName =>
    "type " ++ marked metadataName ++ " is declared more than once"
  | .badArgument context fault =>
    "invalid attribute argument in " ++ context ++ ": " ++ fault.message

end LoadError

end FormatterPlan
