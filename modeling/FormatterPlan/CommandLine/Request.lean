import FormatterPlan.Options

/-! What the command line asks for.  The words after a command are options, each with the words that
are its values, and flags.  An option waits for its values until the next option or flag, or the
end. -/

namespace FormatterPlan

/-- What both commands take. -/
structure Inputs where
  query : Option String := none
  /-- Paths of files, and patterns of paths. -/
  paths : List String := []
  /-- The pattern of the names of roots. -/
  roots : Option String := none
  options : Options := {}

inductive Request where
  | check (inputs : Inputs)
  /-- The plan goes to a file, or to the output. -/
  | plan (inputs : Inputs) (target : Option String)

/-- Why words are no request. -/
inductive UsageError where
  | help
  | noCommand
  | unknownCommand
  | unknownArgument
  | noValue
  | strayValue
  | repeated
  | noInput
deriving DecidableEq

namespace Request

inductive Command where
  | check
  | plan
deriving DecidableEq

inductive OptionName where
  | query
  | input
  | roots
  | assumed
  | target
deriving DecidableEq

/-- A word after a command. -/
inductive Word where
  | option (name : OptionName) (value : Option String)
  | mapMode
  | help
  /-- A flag with a value in the same word. -/
  | flagWithValue
  /-- The word after which nothing is an option. -/
  | endOfOptions
  | plain (text : String)
  | unknown

namespace Word

def optionNamed? (command : Command) : (name : String) → Option OptionName
  | "jq-expr" => some .query
  | "input" => some .input
  | "roots" => some .roots
  | "assume-formattable" => some .assumed
  | "out" => if command = .plan then some .target else none
  | _ => none

def optionLettered? (command : Command) : (letter : Char) → Option OptionName
  | 'i' => some .input
  | 'o' => if command = .plan then some .target else none
  | _ => none

/-- The text before the first equals sign, and the text after it. -/
def splitValue : List Char → List Char × Option (List Char)
  | [] => ([], none)
  | c :: rest =>
    if c = '=' then ([], some rest) else (c :: (splitValue rest).1, (splitValue rest).2)

/-- The value that follows a letter in its word.  An equals sign may come first. -/
def afterLetter : List Char → Option String
  | [] => none
  | '=' :: rest => some (String.ofList rest)
  | rest => some (String.ofList rest)

def ofString (command : Command) (text : String) : Word :=
  match text.toList with
  | ['-', '-'] => .endOfOptions
  | '-' :: '-' :: rest =>
    let (name, value) := splitValue rest
    match optionNamed? command (String.ofList name), String.ofList name with
    | some known, _ => .option known (value.map String.ofList)
    | none, "map-mode" => if value.isSome then .flagWithValue else .mapMode
    | none, "help" => if value.isSome then .flagWithValue else .help
    | none, _ => .unknown
  | '-' :: letter :: rest =>
    match optionLettered? command letter with
    | some known => .option known (afterLetter rest)
    | none => if letter = 'h' then .help else .unknown
  | _ => .plain text

end Word

/-- What the words so far say, and the option that waits for values with the values it has. -/
structure Draft where
  inputs : Inputs := {}
  mapMode : Bool := false
  target : Option String := none
  waiting : Option (OptionName × List String) := none

namespace Draft

/-- Sets what may be set once. -/
def once (present : Option String) (value : String) : Except UsageError (Option String) :=
  if present.isSome then .error .repeated else .ok (some value)

/-- Gives an option its values.  Only inputs and assumed types may be given again, and a file needs
a name. -/
def give (draft : Draft) : OptionName → List String → Except UsageError Draft
  | _, [] => .error .noValue
  | .input, values =>
    .ok { draft with inputs := { draft.inputs with paths := draft.inputs.paths ++ values } }
  | .assumed, values =>
    let options := draft.inputs.options
    .ok { draft with inputs := { draft.inputs with
      options := { options with assumed := Options.sortedNames (options.assumed ++ values) } } }
  | .query, value :: _ => do
    .ok { draft with inputs := { draft.inputs with query := ← once draft.inputs.query value } }
  | .roots, value :: _ => do
    .ok { draft with inputs := { draft.inputs with roots := ← once draft.inputs.roots value } }
  | .target, value :: _ => do
    let target ← once draft.target value
    if value.isEmpty then .error .noValue else .ok { draft with target }

/-- Gives the waiting option its values. -/
def settle (draft : Draft) : Except UsageError Draft :=
  match draft.waiting with
  | some (option, values) => { draft with waiting := none }.give option values
  | none => .ok draft

def addValue (draft : Draft) (value : String) : Except UsageError Draft :=
  match draft.waiting with
  | some (option, values) =>
    if option = .input ∨ values = [] then
      .ok { draft with waiting := some (option, values ++ [value]) }
    else .error .unknownArgument
  | none => .error .unknownArgument

/-- Reads the words after a command.  A word that has no place is an error even if an option before
it lacks a value. -/
def read (command : Command) (draft : Draft) : List String → Except UsageError Draft
  | [] => draft.settle
  | word :: rest =>
    match Word.ofString command word with
    | .option name none => do
      read command { ← draft.settle with waiting := some (name, []) } rest
    | .option name (some value) => do
      read command (← (← draft.settle).give name [value]) rest
    | .mapMode => do
      let draft ← draft.settle
      if draft.mapMode then .error .repeated
      else read command { draft with mapMode := true } rest
    | .help => do
      let _ ← draft.settle
      .error .help
    | .flagWithValue => .error .strayValue
    | .endOfOptions => if rest.isEmpty then draft.settle else .error .unknownArgument
    | .plain value => do read command (← draft.addValue value) rest
    | .unknown => .error .unknownArgument

/-- The request of a command, if there is an input. -/
def request (draft : Draft) (command : Command) : Except UsageError Request :=
  if draft.inputs.paths.isEmpty then .error .noInput
  else
    let inputs :=
      { draft.inputs with options := { draft.inputs.options with mapMode := draft.mapMode } }
    match command with
    | .check => .ok (.check inputs)
    | .plan => .ok (.plan inputs draft.target)

end Draft

/-- Whether a word is a command, the one for help among them. -/
def isCommand (word : String) : Bool := word == "check" || word == "plan" || word == "help"

/-- The error of words that start with no command. -/
def errorWithoutCommand : List String → UsageError
  | [] => .noCommand
  | ["help"] => .help
  | ["help", word] => if isCommand word then .help else .unknownCommand
  | "help" :: _ => .unknownCommand
  | ["--"] => .noCommand
  | "--" :: word :: _ => if isCommand word then .unknownArgument else .unknownCommand
  | word :: _ =>
    match Word.ofString .check word with
    | .help => .help
    | .plain _ => .unknownCommand
    | _ => if word.startsWith "--help=" then .strayValue else .unknownArgument

def ofWords : List String → Except UsageError Request
  | "check" :: words => do (← Draft.read .check {} words).request .check
  | "plan" :: words => do (← Draft.read .plan {} words).request .plan
  | words => .error (errorWithoutCommand words)

end Request

end FormatterPlan
