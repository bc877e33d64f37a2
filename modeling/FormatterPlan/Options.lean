import FormatterPlan.Json.Decoding
import FormatterPlan.Json.Reader

/-! Options of an analysis: whether every object is written as a map, and which types another
resolver formats. -/

namespace FormatterPlan

open Json

/-- The options of an analysis.  The assumed types are full names, with or without the arity
mark. -/
structure Options where
  mapMode : Bool := false
  assumed : List String := []

namespace Options

/-- Adds a name to names in ascending order, unless it is there. -/
def insertName (name : String) : List String → List String
  | [] => [name]
  | x :: rest =>
    if name = x then x :: rest
    else if name < x then name :: x :: rest
    else x :: insertName name rest

/-- The different names of a list, in ascending order. -/
def sortedNames (names : List String) : List String :=
  names.foldl (fun acc n => insertName n acc) []

def format : RecordFormat Options where
  title := "struct AnalyzerOptions"
  fields := ["uses_map_mode", "assumed_formattable_types"]
  required := []
  start := {}
  put field path source options :=
    match field with
    | "uses_map_mode" => do .ok { options with mapMode := ← source.asBool path }
    | "assumed_formattable_types" => do
      .ok { options with assumed := sortedNames (← source.asStrings path) }
    | _ => .ok options

/-- The options at the start of a text.  What follows them is not looked at. -/
def ofText (text : String) : Except DecodeError Options := format.decode [] (Source.read text).1

def ofValue (value : Value) : Except DecodeError Options :=
  format.decode [] (Source.ofValue value)

end Options

end FormatterPlan
