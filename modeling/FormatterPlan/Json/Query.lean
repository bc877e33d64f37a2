import FormatterPlan.Json.Printer
import FormatterPlan.Json.Reader
import FormatterPlan.Text.Blank
import FormatterPlan.Text.Quoted

/-! Path queries over JSON values, and their grammar:

    query   ::= stage ('|' stage)*
    stage   ::= term (',' term)*
    term    ::= 'empty' | '.' | '.' bracket suffix* | '.' name suffix*
    suffix  ::= bracket | '.' name
    bracket ::= '[' ']' | '[' '-'? digits ']'

Each output of a stage goes through the stages after it before the next output is looked at. -/

namespace FormatterPlan.Json

/-- A step of a query into a value: to a member, to the item at a position, which counts from the
end if it is negative, or to every item or member. -/
inductive QueryStep where
  | key (name : String)
  | item (position : Int)
  | every

/-- What a term gives for a value: no output, or what its steps lead to. -/
inductive QueryTerm where
  | nothing
  | path (steps : List QueryStep)

/-- The terms of each stage. -/
abbrev Query := List (List QueryTerm)

inductive QueryFault where
  | unreadable (query : String)
  | noStep (value : Value) (step : QueryStep)
  | badOutput (fault : FaultAt)

namespace QueryStep

def text : QueryStep → String
  | .key name => Text.quoted name
  | .item position => toString position
  | .every => "every item"

/-- The position in a list of some length that a position from the start or the end means. -/
def place? (length : Nat) (position : Int) : Option Nat :=
  (if position < 0 then length + position else position).toNat?

/-- Whether a position is written with a number that 64 bits hold. -/
def isPosition (position : Int) : Bool := position.natAbs < Nat.pow 2 63

/-- What a step leads to.  Members and items that are not there are null; a value that cannot have
them is a fault, and so is a number that is no position. -/
def outputs (step : QueryStep) (value : Value) : List (Except QueryFault Value) :=
  match step, value with
  | .key name, .object _ => [.ok ((value.member? name).getD .null)]
  | .item position, .array items =>
    if isPosition position then
      [.ok (((place? items.length position).bind (items[·]?)).getD .null)]
    else [.error (.noStep value step)]
  | .every, .array items => items.map .ok
  | .every, .object members => members.map fun member => .ok member.2
  | _, _ => [.error (.noStep value step)]

end QueryStep

def QueryFault.message : QueryFault → String
  | .unreadable query => "not a path query: " ++ Text.quoted query
  | .noStep value step => "no step from " ++ value.compact ++ " to " ++ step.text
  | .badOutput fault => "no value in an output: " ++ fault.message

/-- The outputs of `next` for each output; a fault stays as it is. -/
def followed (next : Value → List (Except QueryFault Value)) :
    Except QueryFault Value → List (Except QueryFault Value)
  | .ok value => next value
  | .error fault => [.error fault]

namespace QueryTerm

def outputsOfSteps : List QueryStep → Value → List (Except QueryFault Value)
  | [], value => [.ok value]
  | step :: rest, value => (step.outputs value).flatMap (followed (outputsOfSteps rest))

def outputs : QueryTerm → Value → List (Except QueryFault Value)
  | .nothing, _ => []
  | .path steps, value => outputsOfSteps steps value

end QueryTerm

namespace Query

/-- The outputs of all stages, with faults where they are met. -/
def outputs : Query → Value → List (Except QueryFault Value)
  | [], value => [.ok value]
  | terms :: rest, value =>
    (terms.flatMap (·.outputs value)).flatMap (followed (outputs rest))

/-- An output as it reads from its text: a numeral is rounded once more. -/
def readBack (output : Value) : Except QueryFault Value :=
  (Value.parse output.compact).mapError .badOutput

/-- The outputs of a query as they read from their texts, or the first fault among them. -/
def run (query : Query) (value : Value) : Except QueryFault (List Value) :=
  (query.outputs value).mapM (·.bind readBack)

/-! Reading of queries. -/

/-- A token of a query.  A name right after a point belongs to the point. -/
inductive Token where
  | member (name : String)
  | word (name : String)
  | number (value : Nat)
  | mark (char : Char)
deriving DecidableEq

def isNameStart (c : Char) : Bool := c.isAlpha || c == '_'

def isNameRest (c : Char) : Bool := c.isAlphanum || c == '_'

/-- The value of decimal digits. -/
def decimal (digits : List Char) : Nat := Nat.ofDigitChars 10 digits 0

/-- The token at the start of a text that goes on with `c`, and the text after it. -/
def nextToken (c : Char) (rest : List Char) : Token × List Char :=
  if isNameStart c then
    (.word (String.ofList (c :: rest.takeWhile isNameRest)), rest.dropWhile isNameRest)
  else if c.isDigit then
    (.number (decimal (c :: rest.takeWhile Char.isDigit)), rest.dropWhile Char.isDigit)
  else
    let name := rest.takeWhile isNameRest
    if c = '.' ∧ name.head?.any isNameStart then
      (.member (String.ofList name), rest.dropWhile isNameRest)
    else (.mark c, rest)

theorem nextToken_length_le (c : Char) (rest : List Char) :
    (nextToken c rest).2.length ≤ rest.length := by
  have bound (p : Char → Bool) := (List.dropWhile_suffix (l := rest) p).length_le
  unfold nextToken
  split
  · exact bound _
  · split
    · exact bound _
    · simp only
      split
      · exact bound _
      · exact Nat.le_refl _

def scan : List Char → List Token
  | [] => []
  | c :: rest =>
    if Text.isBlank c then scan rest
    else (nextToken c rest).1 :: scan (nextToken c rest).2
termination_by cs => cs.length
decreasing_by
  · simp
  · have bound := nextToken_length_le c rest
    simp only [List.length_cons]
    omega

/-- The parts of a list between the elements equal to `sep`. -/
def splitAt (sep : Token) : List Token → List (List Token)
  | [] => [[]]
  | t :: ts =>
    if t = sep then [] :: splitAt sep ts
    else match splitAt sep ts with
      | part :: parts => (t :: part) :: parts
      | [] => [[t]]

/-- The steps that suffixes write. -/
def steps? : List Token → Option (List QueryStep)
  | [] => some []
  | .member name :: rest => (steps? rest).map (.key name :: ·)
  | .mark '[' :: .mark ']' :: rest => (steps? rest).map (.every :: ·)
  | .mark '[' :: .number n :: .mark ']' :: rest => (steps? rest).map (.item n :: ·)
  | .mark '[' :: .mark '-' :: .number n :: .mark ']' :: rest =>
    (steps? rest).map (.item (-n) :: ·)
  | _ => none

def term? : List Token → Option QueryTerm
  | [.word "empty"] => some .nothing
  | .mark '.' :: .member _ :: _ => none
  | .mark '.' :: rest => (steps? rest).map .path
  | .member name :: rest => (steps? (.member name :: rest)).map .path
  | _ => none

def parse? (text : String) : Option Query :=
  (splitAt (.mark '|') (scan text.toList)).mapM fun stage =>
    (splitAt (.mark ',') stage).mapM term?

def evaluate (text : String) (value : Value) : Except QueryFault (List Value) :=
  match parse? text with
  | some query => query.run value
  | none => .error (.unreadable text)

end Query

end FormatterPlan.Json
