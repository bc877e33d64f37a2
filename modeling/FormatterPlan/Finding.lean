import FormatterPlan.Text.Segment
import FormatterPlan.TypeName

/-! Findings: what is wrong with the declaration of a type.  Every finding is an error, and a type
with a finding gets no formatter. -/

namespace FormatterPlan

/-- The rules that a finding may report. -/
inductive Rule where
  | typeNotMarked
  | notAFormatter
  | memberNeedsKey
  | baseMemberNeedsKey
  | invalidObject
  | nullKey
  | conflictingFormatter
deriving DecidableEq

namespace Rule

def id : Rule → String
  | .typeNotMarked => "MsgPack003"
  | .memberNeedsKey => "MsgPack004"
  | .baseMemberNeedsKey => "MsgPack004"
  | .invalidObject => "MsgPack005"
  | .nullKey => "MsgPack005"
  | .notAFormatter => "MsgPack006"
  | .conflictingFormatter => "MsgPack006"

def name : Rule → String
  | .typeNotMarked => "TypeMustBeMessagePackObject"
  | .notAFormatter => "MessageFormatterMustBeMessagePackFormatter"
  | .memberNeedsKey => "PublicMemberNeedsKey"
  | .baseMemberNeedsKey => "BaseTypeContainsUnattributedPublicMembers"
  | .invalidObject => "InvalidMessagePackObject"
  | .nullKey => "BothStringAndIntKeyAreNull"
  | .conflictingFormatter => "ConflictingFormatterOverride"

def title : Rule → String
  | .typeNotMarked => "Use MessagePackObjectAttribute"
  | .memberNeedsKey => "Attribute public members of MessagePack objects"
  | .baseMemberNeedsKey => "Attribute public members of MessagePack objects"
  | .invalidObject => "MessagePackObject validation"
  | .nullKey => "Attribute public members of MessagePack objects"
  | .notAFormatter => "Must be IMessageFormatter"
  | .conflictingFormatter => "Conflicting formatter overrides"

/-- The wording of a rule, with numbered places for arguments. -/
def wording : Rule → String
  | .typeNotMarked => "Type must be marked with MessagePackObjectAttribute: \x7b0\x7d"
  | .memberNeedsKey =>
    "Public members of MessagePackObject-attributed types require either KeyAttribute or " ++
      "IgnoreMemberAttribute: \x7b0\x7d.\x7b1\x7d"
  | .baseMemberNeedsKey =>
    "Public members of base types of MessagePackObject-attributed types require either " ++
      "KeyAttribute or IgnoreMemberAttribute: \x7b0\x7d.\x7b1\x7d"
  | .invalidObject => "Invalid MessagePackObject definition: \x7b0\x7d"
  | .nullKey => "Both int and string keys are null: \x7b0\x7d.\x7b1\x7d"
  | .notAFormatter => "Type must be of IMessagePackFormatter: \x7b0\x7d"
  | .conflictingFormatter =>
    "Member formatter \x7b2\x7d conflicts with formatter \x7b3\x7d declared on its type: " ++
      "\x7b0\x7d.\x7b1\x7d"

end Rule

structure Finding where
  rule : Rule
  subject : TypeName
  member : Option String
  args : List String
deriving DecidableEq

namespace Finding

/-- Puts arguments in their places, one after the other from number `index` on.  The places of a
later argument are also looked for in the arguments before it. -/
def fill : (index : Nat) → (args : List String) → (text : String) → String
  | _, [], text => text
  | index, arg :: args, text =>
    fill (index + 1) args (Text.replaceAll text ("\x7b" ++ Nat.repr index ++ "\x7d") arg)

def message (f : Finding) : String := fill 0 f.args f.rule.wording

/-- The finding on one line. -/
def text (f : Finding) : String := "error[" ++ f.rule.id ++ "]: " ++ f.message

/-- The type or member that a finding is about. -/
def location (f : Finding) : String :=
  match f.member with
  | some member => f.subject.text ++ "." ++ member
  | none => f.subject.text

end Finding

end FormatterPlan
