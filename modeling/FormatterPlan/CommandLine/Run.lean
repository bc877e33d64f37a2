import FormatterPlan.Assembly.Load
import FormatterPlan.CommandLine.FileSystem
import FormatterPlan.CommandLine.Request
import FormatterPlan.Declaration.Decoding
import FormatterPlan.Json.Query
import FormatterPlan.NamePattern.Parser
import FormatterPlan.Report

/-! The commands: documents are read from files, checked and planned, findings are reported, and the
plan is written.  The first error ends a command. -/

namespace FormatterPlan

open Json (DecodeError FaultAt QueryFault Query Value)

/-- What ends a command before its result. -/
inductive CommandError where
  | badPaths (pattern : String) (fault : PathFaultAt)
  | noMatch (pattern : String)
  | unreadable (path : String) (error : FileError)
  | badText (path : String) (fault : FaultAt)
  | badQuery (path : String) (fault : QueryFault)
  | badDocument (path : String) (error : DecodeError)
  | badAssembly (error : LoadError)
  | badRoots (fault : NamePattern.FaultIn)
  | interrupted (cause : Interruption)
  | noDirectory (error : FileError)
  | unwritable (path : String) (error : FileError)

def CommandError.message : CommandError → String
  | .badPaths pattern fault => "bad glob pattern: " ++ pattern ++ ": " ++ fault.message
  | .noMatch pattern => "glob pattern matched no files: " ++ pattern
  | .unreadable path error => "failed to read source file " ++ path ++ ": " ++ error.message
  | .badText path fault => "failed to parse JSON source file " ++ path ++ ": " ++ fault.message
  | .badQuery path fault => "failed to apply jq expression to " ++ path ++ ": " ++ fault.message
  | .badDocument path error => "invalid universe document " ++ path ++ ": " ++ error.message
  | .badAssembly error => error.message
  | .badRoots fault => "invalid --roots regex: " ++ fault.message
  | .interrupted cause => cause.message
  | .noDirectory error => error.message
  | .unwritable path error => "failed to write " ++ path ++ ": " ++ error.message

/-- A result whose error ends the command. -/
def orEnd {m : Type → Type} [Monad m] {ε α : Type} (error : ε → CommandError)
    (result : Except ε α) : ExceptT CommandError m α :=
  ExceptT.mk (pure (result.mapError error))

/-- The result of a command: its exit code, and what it writes to the output and for errors. -/
structure Outcome where
  code : Nat
  output : String := ""
  errors : String := ""
deriving DecidableEq

namespace Finding

def lines (f : Finding) : String := f.text ++ "\n  --> " ++ f.location ++ "\n"

/-- Findings and their number. -/
def report (findings : List Finding) : String :=
  String.join (findings.map lines) ++
    if findings.isEmpty then "✅ no diagnostics\n"
    else "❌ " ++ Nat.repr findings.length ++ " diagnostic(s)\n"

end Finding

namespace Inputs

def isPattern (path : String) : Bool :=
  path.any fun c => c == '*' || c == '?' || c == '[' || c == '\x7b'

/-- The documents in a text from a file: the outputs of the query, if there is one. -/
def documentsIn (inputs : Inputs) (path text : String) : Except CommandError (List Document) := do
  let value ← (Value.parse text).mapError (.badText path)
  let values ← match inputs.query with
    | none => .ok [value]
    | some query => (Query.evaluate query value).mapError (.badQuery path)
  values.mapM fun value => (Document.ofValue value).mapError (.badDocument path)

/-- The plan for documents.  Only roots whose names match are in it. -/
def planOf (inputs : Inputs) (documents : List Document) : Except CommandError Plan := do
  let asm ← (Assembly.load documents).mapError .badAssembly
  let pattern ← match inputs.roots with
    | none => .ok NamePattern.nothing
    | some text => (NamePattern.parse text).mapError .badRoots
  match Setting.of? asm [] inputs.options with
  | none => .ok .empty
  | some setting =>
    let roots := setting.rootCandidates.filter fun symbol =>
      (asm.def? symbol).any fun d => pattern.matchesIn d.name
    (setting.plan {} roots).mapError .interrupted

variable {m : Type → Type} [Monad m]

/-- The files that a path or a pattern stands for. -/
def filesAt (fs : FileSystem m) (path : String) : ExceptT CommandError m (List String) := do
  if isPattern path then
    let pattern ← orEnd (.badPaths path) (PathPattern.parse path)
    match ← fs.search pattern with
    | [] => throw (.noMatch path)
    | files => return files
  else return [path]

def documentsAt (inputs : Inputs) (fs : FileSystem m) (path : String) :
    ExceptT CommandError m (List Document) := do
  let text ← orEnd (.unreadable path) (← fs.read path)
  orEnd id (inputs.documentsIn path text)

/-- The plan for the files of a request.  All files are found before the first one is read. -/
def plan (inputs : Inputs) (fs : FileSystem m) : ExceptT CommandError m Plan := do
  let files ← inputs.paths.mapM (filesAt fs)
  let documents ← files.flatten.mapM (inputs.documentsAt fs)
  orEnd id (inputs.planOf documents.flatten)

end Inputs

namespace Plan

def fileText (plan : Plan) : String := plan.toJson.indented 0

/-- The outcome of a plan that is written to the output, or not written. -/
def outcome (plan : Plan) (output : String) : Outcome where
  code := if plan.findings.isEmpty then 0 else 1
  output := output
  errors := Finding.report plan.findings

end Plan

/-- Puts the message of an error after what a command has reported. -/
def Outcome.ofError (reported : String) (error : CommandError) : Outcome where
  code := 2
  errors := reported ++ "error: " ++ error.message ++ "\n"

namespace Request

variable {m : Type → Type} [Monad m]

def inputs : Request → Inputs
  | .check inputs => inputs
  | .plan inputs _ => inputs

/-- Writes a plan to a file in a directory that may have to be created. -/
def writePlan (fs : FileSystem m) (plan : Plan) (path : String) : ExceptT CommandError m Unit := do
  orEnd .noDirectory (← fs.ensureAncestors path)
  orEnd (.unwritable path) (← fs.write path plan.fileText)

/-- Runs a request.  The exit code is 0 without findings and 1 with findings, and 2 after an
error. -/
def run (request : Request) (fs : FileSystem m) : m Outcome := do
  match ← (request.inputs.plan fs).run with
  | .error error => return .ofError "" error
  | .ok result =>
    match request with
    | .check _ => return result.outcome ""
    | .plan _ none => return result.outcome (result.fileText ++ "\n")
    | .plan _ (some path) =>
      match ← (writePlan fs result path).run with
      | .ok () => return result.outcome ""
      | .error error => return .ofError (Finding.report result.findings) error

end Request

end FormatterPlan
